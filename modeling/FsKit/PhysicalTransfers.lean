import Mathlib.Tactic
import FsKit.MakeAndMount

/-! Transfers between the device and a buffer (`read_phys_blocks` and `write_phys_blocks` in
`cache.c`), in pieces of 512 KB. A call of `read_pos` or `write_pos` moves all the bytes it is
asked for or none; which calls fail, and how, is any function of the calls made before. -/
namespace PhysicalTransfers

open MachineIntegers
open MakeAndMount (EBADF)

def CHUNK : ℕ := 512 * 1024

/-- What a call of `read_pos` or `write_pos` comes to: all bytes, -1 or `EINVAL`. -/
inductive Reply where
  | all
  | short
  | badSeek
  deriving DecidableEq, Repr

/-- Bytes moved between the device, from `pos`, and the buffer, from `data`. -/
structure Transfer where
  toDisk : Bool
  pos : ℤ
  data : ℕ
  nbytes : ℕ
  deriving DecidableEq, Repr

structure Host where
  calls : ℕ
  moved : List Transfer
  deriving DecidableEq, Repr

section Code
variable (replies : ℕ → Reply) (toDisk : Bool)

/-- `read_pos` and `write_pos`, with the value as a `size_t`. -/
def movePos (h : Host) (pos : ℤ) (data nbytes : ℕ) : ℕ × Host :=
  match replies h.calls with
  | .all => (nbytes, ⟨h.calls + 1, h.moved ++ [⟨toDisk, pos, data, nbytes⟩]⟩)
  | .short => (2 ^ 64 - 1, { h with calls := h.calls + 1 })
  | .badSeek => (22, { h with calls := h.calls + 1 })

/-- The loop over whole chunks. Returns `sum`, `data` and `ret`. -/
def chunkLoop (base : ℤ) (total : ℕ) : ℕ → ℕ → ℕ → ℕ → Host → ℕ × ℕ × ℕ × Host
  | 0, sum, data, ret, h => (sum, data, ret, h)
  | fuel + 1, sum, data, ret, h =>
    if sum + CHUNK ≤ total then
      let (ret, h) := movePos replies toDisk h (toInt64 (toInt64 base + sum)) data CHUNK
      if ret ≠ CHUNK then (sum, data, ret, h)
      else chunkLoop base total fuel (sum + CHUNK) (data + CHUNK) ret h
    else (sum, data, ret, h)

/-- What follows the loop: the rest that is no whole chunk, and the value kept in `ret`. -/
def lastPiece (base : ℤ) (total : ℕ) : ℕ × ℕ × ℕ × Host → ℕ × Host
  | (sum, data, ret, h) =>
    if ret = CHUNK ∧ 0 < total - sum then
      let (ret, h) := movePos replies toDisk h (toInt64 (toInt64 base + sum)) data (total - sum)
      (if ret = total - sum then total else ret, h)
    else if ret = CHUNK then (total, h)
    else (ret, h)

def physBlocks (bnum numBlocks bsize : ℕ) : ℤ × Host :=
  let base : ℤ := bnum * bsize
  let total := toUint32 (numBlocks * bsize)
  let (ret, h) :=
    if total < CHUNK then movePos replies toDisk ⟨0, []⟩ (toInt64 base) 0 total
    else
      lastPiece replies toDisk base total
        (chunkLoop replies toDisk base total (total / CHUNK + 1) 0 0 0 ⟨0, []⟩)
  (if ret = total then 0 else EBADF, h)

end Code

def readPhysBlocks (replies : ℕ → Reply) : ℕ → ℕ → ℕ → ℤ × Host := physBlocks replies false

def writePhysBlocks (replies : ℕ → Reply) : ℕ → ℕ → ℕ → ℤ × Host := physBlocks replies true

section Pieces
variable {toDisk : Bool}

/-- The transfers move `left` bytes from `pos` and `data` on, in order, without gap or
overlap. -/
def Covers (toDisk : Bool) : ℤ → ℕ → ℕ → List Transfer → Prop
  | _, _, left, [] => left = 0
  | pos, data, left, t :: ts => t.toDisk = toDisk ∧ t.pos = pos ∧ t.data = data ∧ t.nbytes ≤ left ∧
    Covers toDisk (pos + t.nbytes) (data + t.nbytes) (left - t.nbytes) ts

/-- The transfers of pieces of the given lengths, as the code computes their positions. -/
def cut (toDisk : Bool) (base : ℤ) : ℕ → List ℕ → List Transfer
  | _, [] => []
  | sum, n :: ns => ⟨toDisk, toInt64 (base + sum), sum, n⟩ :: cut toDisk base (sum + n) ns

theorem cut_append (base : ℤ) (sum : ℕ) (ms ns : List ℕ) :
    cut toDisk base sum (ms ++ ns) =
      cut toDisk base sum ms ++ cut toDisk base (sum + ms.sum) ns := by
  induction ms generalizing sum with
  | nil => simp [cut]
  | cons m ms ih => simp [cut, ih, add_assoc]

theorem cut_nbytes (base : ℤ) (sum : ℕ) (ns : List ℕ) :
    (cut toDisk base sum ns).map Transfer.nbytes = ns := by
  induction ns generalizing sum with
  | nil => rfl
  | cons n ns ih => rw [cut, List.map_cons, ih]

/-- Pieces cover a range when they add up to it and each one's position is representable. -/
theorem covers_cut_iff (toDisk : Bool) (base : ℤ) (sum left : ℕ) (ns : List ℕ) :
    Covers toDisk (base + sum) sum left (cut toDisk base sum ns) ↔
      ns.sum = left ∧ ∀ t ∈ cut toDisk base sum ns, t.pos = base + t.data := by
  induction ns generalizing sum left with
  | nil => simp [Covers, cut, eq_comm]
  | cons n ns ih =>
    have hrest := ih (sum + n) (left - n)
    rw [Nat.cast_add, ← add_assoc] at hrest
    simp only [cut, Covers, List.sum_cons, List.forall_mem_cons, hrest, true_and]
    constructor
    · rintro ⟨hpos, hle, hsum, hall⟩
      exact ⟨by omega, hpos, hall⟩
    · rintro ⟨hsum, hpos, hall⟩
      exact ⟨hpos, by omega, by omega, hall⟩

end Pieces

section Loops
variable {replies : ℕ → Reply} (toDisk : Bool) (base : ℤ) {total : ℕ}

/-- What `read_pos` returns when it fails. -/
def Failed (ret : ℕ) : Prop := ret = 2 ^ 64 - 1 ∨ ret = 22

theorem movePos_all {h : Host} (hr : replies h.calls = .all) (pos : ℤ) (data n : ℕ) :
    movePos replies toDisk h pos data n =
      (n, ⟨h.calls + 1, h.moved ++ [⟨toDisk, pos, data, n⟩]⟩) := by
  simp [movePos, hr]

theorem movePos_fails {h : Host} (hr : replies h.calls ≠ .all) (pos : ℤ) (data n : ℕ) :
    Failed (movePos replies toDisk h pos data n).1 ∧
    (movePos replies toDisk h pos data n).2 = { h with calls := h.calls + 1 } := by
  cases hreply : replies h.calls with
  | all => exact absurd hreply hr
  | short => simp [movePos, hreply, Failed]
  | badSeek => simp [movePos, hreply, Failed]

theorem chunkLoop_next {fuel sum : ℕ} (ret : ℕ) {h : Host} (hle : sum + CHUNK ≤ total)
    (hr : replies h.calls = .all) :
    chunkLoop replies toDisk base total (fuel + 1) sum sum ret h =
      chunkLoop replies toDisk base total fuel (sum + CHUNK) (sum + CHUNK) CHUNK
        ⟨h.calls + 1, h.moved ++ cut toDisk base sum [CHUNK]⟩ := by
  rw [chunkLoop, if_pos hle, movePos_all toDisk hr, toInt64_add]
  simp [cut]

theorem chunkLoop_fails {fuel sum : ℕ} (ret : ℕ) {h : Host} (hle : sum + CHUNK ≤ total)
    (hr : replies h.calls ≠ .all) :
    ∃ ret', Failed ret' ∧ chunkLoop replies toDisk base total (fuel + 1) sum sum ret h =
      (sum, sum, ret', { h with calls := h.calls + 1 }) := by
  obtain ⟨hret, hhost⟩ := movePos_fails toDisk hr (toInt64 (toInt64 base + sum)) sum CHUNK
  have hne : (movePos replies toDisk h (toInt64 (toInt64 base + sum)) sum CHUNK).1 ≠ CHUNK := by
    rcases hret with h | h <;> rw [h] <;> decide
  refine ⟨_, hret, ?_⟩
  rw [chunkLoop, if_pos hle]
  simp only [if_pos hne, hhost]

theorem replicate_next (q : ℕ) (sum : ℕ) :
    cut toDisk base sum (List.replicate (q + 1) CHUNK) =
      cut toDisk base sum [CHUNK] ++ cut toDisk base (sum + CHUNK) (List.replicate q CHUNK) := rfl

/-- The loop when no call fails. -/
theorem chunkLoop_all {fuel sum q : ℕ} (ret : ℕ) (h : Host)
    (hsum : sum + q * CHUNK + total % CHUNK = total) (hq : q < fuel)
    (hr : ∀ i < q, replies (h.calls + i) = .all) :
    chunkLoop replies toDisk base total fuel sum sum ret h =
      (sum + q * CHUNK, sum + q * CHUNK, if q = 0 then ret else CHUNK,
        ⟨h.calls + q, h.moved ++ cut toDisk base sum (List.replicate q CHUNK)⟩) := by
  induction q generalizing fuel sum ret h with
  | zero =>
    obtain ⟨fuel, rfl⟩ := Nat.exists_eq_add_one_of_ne_zero (Nat.ne_zero_of_lt hq)
    have hmod : total % CHUNK < CHUNK := Nat.mod_lt total (by decide)
    rw [chunkLoop, if_neg (by omega)]
    simp [cut]
  | succ q ih =>
    obtain ⟨fuel, rfl⟩ := Nat.exists_eq_add_one_of_ne_zero (Nat.ne_zero_of_lt hq)
    rw [Nat.succ_mul] at hsum
    have hrest : sum + CHUNK + q * CHUNK + total % CHUNK = total := by omega
    rw [chunkLoop_next toDisk base ret (by omega) (hr 0 (Nat.succ_pos q)),
      ih CHUNK _ hrest (Nat.lt_of_succ_lt_succ hq)]
    · rw [replicate_next, Nat.succ_mul, List.append_assoc, add_assoc h.calls, Nat.add_comm 1 q,
        add_assoc sum, Nat.add_comm CHUNK, if_neg (Nat.succ_ne_zero q), ite_self]
    · intro i hi
      rw [add_assoc, add_comm 1]
      exact hr (i + 1) (Nat.succ_lt_succ hi)

/-- The loop when a call fails: the pieces before it have been moved. -/
theorem chunkLoop_stops {fuel sum q : ℕ} (ret : ℕ) (h : Host)
    (hsum : sum + q * CHUNK + total % CHUNK = total) (hq : q < fuel)
    (hr : ∃ i < q, replies (h.calls + i) ≠ .all) :
    ∃ j < q, ∃ ret' sum' calls, Failed ret' ∧
      chunkLoop replies toDisk base total fuel sum sum ret h =
        (sum', sum', ret', ⟨calls, h.moved ++ cut toDisk base sum (List.replicate j CHUNK)⟩) := by
  induction q generalizing fuel sum ret h with
  | zero =>
    obtain ⟨i, hi, _⟩ := hr
    cases hi
  | succ q ih =>
    obtain ⟨fuel, rfl⟩ := Nat.exists_eq_add_one_of_ne_zero (Nat.ne_zero_of_lt hq)
    rw [Nat.succ_mul] at hsum
    by_cases hfirst : replies h.calls = .all
    · rw [chunkLoop_next toDisk base ret (by omega) hfirst]
      have hleft : sum + CHUNK + q * CHUNK + total % CHUNK = total := by omega
      have hrest : ∃ i < q, replies (h.calls + 1 + i) ≠ .all := by
        obtain ⟨i, hi, hfail⟩ := hr
        cases i with
        | zero => exact absurd hfirst hfail
        | succ i => exact ⟨i, Nat.lt_of_succ_lt_succ hi, by rwa [add_assoc, add_comm 1]⟩
      obtain ⟨j, hj, ret', sum', calls, hret, hloop⟩ := ih CHUNK
        ⟨h.calls + 1, h.moved ++ cut toDisk base sum [CHUNK]⟩ hleft
        (Nat.lt_of_succ_lt_succ hq) hrest
      refine ⟨j + 1, Nat.succ_lt_succ hj, ret', sum', calls, hret, ?_⟩
      rw [hloop, replicate_next, List.append_assoc]
    · have hle : sum + CHUNK ≤ total := by omega
      obtain ⟨ret', hret, hloop⟩ := chunkLoop_fails toDisk base ret hle hfirst
      refine ⟨0, Nat.succ_pos q, ret', sum, h.calls + 1, hret, ?_⟩
      rw [hloop]
      simp [cut]

end Loops

section Calls
variable {replies : ℕ → Reply} (toDisk : Bool) {bnum numBlocks bsize : ℕ}

/-- The lengths that are asked for, one after another, while no call fails. -/
def lens (total : ℕ) : List ℕ :=
  if total < CHUNK then [total]
  else List.replicate (total / CHUNK) CHUNK ++ if 0 < total % CHUNK then [total % CHUNK] else []

def pieces (total : ℕ) : ℕ := (lens total).length

theorem lens_sum (total : ℕ) : (lens total).sum = total := by
  unfold lens
  split
  · simp
  · have hdiv := Nat.div_add_mod' total CHUNK
    split
    · simpa using hdiv
    · simp only [List.append_nil, List.sum_replicate, smul_eq_mul]
      omega

/-- A failed call returns no number of bytes that are asked for. -/
theorem Failed.ne {ret x : ℕ} (h : Failed ret) (hx : x < 2 ^ 32) (hdvd : 512 ∣ x) : ret ≠ x := by
  rcases h with rfl | rfl
  · omega
  · omega

theorem dvd_toUint32 {x : ℕ} (h : 512 ∣ x) : 512 ∣ toUint32 x :=
  (Nat.dvd_mod_iff (by norm_num)).mpr h

/-- What is left after the chunks, if anything is. -/
def rest (total : ℕ) : List ℕ := if 0 < total % CHUNK then [total % CHUNK] else []

theorem lens_large {total : ℕ} (h : ¬total < CHUNK) :
    lens total = List.replicate (total / CHUNK) CHUNK ++ rest total := if_neg h

theorem lastPiece_all (base : ℤ) {total calls : ℕ} (moved : List Transfer)
    (hr : ∀ i < (rest total).length, replies (calls + i) = .all) :
    lastPiece replies toDisk base total
        (total / CHUNK * CHUNK, total / CHUNK * CHUNK, CHUNK, ⟨calls, moved⟩) =
      (total, ⟨calls + (rest total).length,
        moved ++ cut toDisk base (total / CHUNK * CHUNK) (rest total)⟩) := by
  have hleft : total - total / CHUNK * CHUNK = total % CHUNK := by
    have hdiv := Nat.div_add_mod' total CHUNK
    omega
  unfold rest at *
  generalize total / CHUNK * CHUNK = sum at hleft ⊢
  rw [lastPiece, hleft]
  by_cases hmod : 0 < total % CHUNK
  · rw [if_pos hmod] at hr ⊢
    have hlast : replies calls = .all := hr 0 Nat.one_pos
    simp [hmod, movePos_all toDisk (h := ⟨calls, moved⟩) hlast, cut, toInt64_add]
  · rw [if_neg hmod]
    simp [hmod, cut]

theorem lastPiece_fails (base : ℤ) {total calls : ℕ} (moved : List Transfer)
    (htotal : total < 2 ^ 32) (hdvd : 512 ∣ total) (hmod : 0 < total % CHUNK)
    (hr : replies calls ≠ .all) :
    ∃ ret, Failed ret ∧ lastPiece replies toDisk base total
        (total / CHUNK * CHUNK, total / CHUNK * CHUNK, CHUNK, ⟨calls, moved⟩) =
      (ret, ⟨calls + 1, moved⟩) := by
  have hleft : total - total / CHUNK * CHUNK = total % CHUNK := by
    have hdiv := Nat.div_add_mod' total CHUNK
    omega
  obtain ⟨hret, hhost⟩ := movePos_fails toDisk (h := ⟨calls, moved⟩) hr
    (toInt64 (toInt64 base + (total / CHUNK * CHUNK : ℕ))) (total / CHUNK * CHUNK) (total % CHUNK)
  have hne := hret.ne ((Nat.mod_le total CHUNK).trans_lt htotal)
    ((Nat.dvd_mod_iff (by decide)).mpr hdvd)
  refine ⟨_, hret, ?_⟩
  rw [lastPiece, hleft, if_pos ⟨rfl, hmod⟩]
  simp only [if_neg hne, hhost]

/-- When no call fails, all the pieces are moved and the value is 0. -/
theorem physBlocks_all
    (hr : ∀ i < pieces (toUint32 (numBlocks * bsize)), replies i = .all) :
    physBlocks replies toDisk bnum numBlocks bsize =
      (0, ⟨pieces (toUint32 (numBlocks * bsize)),
        cut toDisk (bnum * bsize) 0 (lens (toUint32 (numBlocks * bsize)))⟩) := by
  unfold physBlocks
  generalize toUint32 (numBlocks * bsize) = total at hr ⊢
  have hdiv := Nat.div_add_mod' total CHUNK
  by_cases hsmall : total < CHUNK
  · have hlens : lens total = [total] := if_pos hsmall
    have hfirst : replies 0 = .all := hr 0 (by rw [pieces, hlens]; exact Nat.one_pos)
    simp [hsmall, movePos_all toDisk (h := ⟨0, []⟩) hfirst, pieces, hlens, cut]
  · have hq : total / CHUNK ≠ 0 := (Nat.div_pos (not_lt.mp hsmall) (by decide)).ne'
    have hcount : pieces total = total / CHUNK + (rest total).length := by
      simp [pieces, lens_large hsmall]
    have hsum : 0 + total / CHUNK * CHUNK + total % CHUNK = total := by omega
    have hchunks : ∀ i < total / CHUNK, replies ((⟨0, []⟩ : Host).calls + i) = .all := by
      intro i hi
      exact hr _ (by dsimp only; omega)
    have hloop := chunkLoop_all toDisk (bnum * bsize) 0 ⟨0, []⟩ hsum
      (Nat.lt_succ_self (total / CHUNK)) hchunks
    simp only [if_neg hq, zero_add, List.nil_append] at hloop
    have hend : ∀ i < (rest total).length, replies (total / CHUNK + i) = .all :=
      fun i hi => hr _ (by omega)
    have hlast := lastPiece_all toDisk (bnum * bsize)
      (cut toDisk (bnum * bsize) 0 (List.replicate (total / CHUNK) CHUNK)) hend
    rw [lens_large hsmall, cut_append, hcount, List.sum_replicate]
    simp only [if_neg hsmall, Nat.succ_eq_add_one] at hloop ⊢
    rw [hloop, hlast]
    simp

/-- A failed loop leaves its value to the end. -/
theorem lastPiece_failed {base : ℤ} {total sum data ret : ℕ} {h : Host} (hret : Failed ret) :
    lastPiece replies toDisk base total (sum, data, ret, h) = (ret, h) := by
  have hne := hret.ne (show CHUNK < 2 ^ 32 by decide) (by decide)
  simp [lastPiece, hne]

/-- When a call fails, only pieces before the last one have been moved. -/
theorem physBlocks_stops (bnum : ℕ) (hdvd : 512 ∣ bsize)
    (hr : ∃ i < pieces (toUint32 (numBlocks * bsize)), replies i ≠ .all) :
    (physBlocks replies toDisk bnum numBlocks bsize).1 = EBADF ∧
    ∃ ms n ns, lens (toUint32 (numBlocks * bsize)) = ms ++ n :: ns ∧
      (physBlocks replies toDisk bnum numBlocks bsize).2.moved =
        cut toDisk (bnum * bsize) 0 ms := by
  have htotal := toUint32_lt (numBlocks * bsize)
  have hdvd := dvd_toUint32 (hdvd.mul_left numBlocks)
  unfold physBlocks
  generalize toUint32 (numBlocks * bsize) = total at hr htotal hdvd ⊢
  have hdiv := Nat.div_add_mod' total CHUNK
  by_cases hsmall : total < CHUNK
  · have hlens : lens total = [total] := if_pos hsmall
    have hfirst : replies 0 ≠ .all := by
      obtain ⟨i, hi, hfail⟩ := hr
      rw [pieces, hlens, List.length_singleton, Nat.lt_one_iff] at hi
      rwa [hi] at hfail
    obtain ⟨hret, hhost⟩ := movePos_fails toDisk (h := ⟨0, []⟩) hfirst
      (toInt64 (bnum * bsize)) 0 total
    refine ⟨?_, [], total, [], hlens, ?_⟩
    · simp [hsmall, hret.ne htotal hdvd]
    · simp [hsmall, hhost, cut]
  · have hsum : 0 + total / CHUNK * CHUNK + total % CHUNK = total := by omega
    by_cases hloop : ∃ i < total / CHUNK, replies ((⟨0, []⟩ : Host).calls + i) ≠ .all
    · obtain ⟨j, hj, ret, sum, calls, hret, heq⟩ := chunkLoop_stops toDisk (bnum * bsize) 0 ⟨0, []⟩
        hsum (Nat.lt_succ_self (total / CHUNK)) hloop
      simp only [if_neg hsmall, Nat.succ_eq_add_one, List.nil_append] at heq ⊢
      rw [heq, lastPiece_failed toDisk hret]
      refine ⟨if_neg (hret.ne htotal hdvd), List.replicate j CHUNK, CHUNK,
        List.replicate (total / CHUNK - j - 1) CHUNK ++ rest total, ?_, rfl⟩
      rw [lens_large hsmall, ← List.cons_append, ← List.replicate_succ, ← List.append_assoc,
        ← List.replicate_add]
      congr 2
      omega
    · -- the whole chunks were moved, so it is the rest that failed
      push Not at hloop
      have heq := chunkLoop_all toDisk (bnum * bsize) 0 ⟨0, []⟩ hsum
        (Nat.lt_succ_self (total / CHUNK)) hloop
      have hq : total / CHUNK ≠ 0 := (Nat.div_pos (not_lt.mp hsmall) (by decide)).ne'
      simp only [if_neg hq, zero_add, List.nil_append] at heq
      have hcount : pieces total = total / CHUNK + (rest total).length := by
        simp [pieces, lens_large hsmall]
      obtain ⟨i, hi, hfail⟩ := hr
      have hge : total / CHUNK ≤ i := by
        by_contra hlt
        have := hloop i (not_le.mp hlt)
        rw [Nat.zero_add] at this
        exact hfail this
      have hmod : 0 < total % CHUNK := by
        by_contra hzero
        rw [hcount, rest, if_neg hzero] at hi
        exact absurd hi (not_lt.mpr hge)
      have hrest : rest total = [total % CHUNK] := if_pos hmod
      rw [hcount, hrest, List.length_singleton] at hi
      obtain rfl : i = total / CHUNK := by omega
      obtain ⟨ret, hret, hlast⟩ := lastPiece_fails toDisk (bnum * bsize)
        (cut toDisk (bnum * bsize) 0 (List.replicate (total / CHUNK) CHUNK)) htotal hdvd hmod hfail
      simp only [if_neg hsmall, Nat.succ_eq_add_one] at heq ⊢
      rw [heq, hlast]
      refine ⟨if_neg (hret.ne htotal hdvd), List.replicate (total / CHUNK) CHUNK,
        total % CHUNK, [], ?_, rfl⟩
      rw [lens_large hsmall, hrest]

end Calls

section Exactness

theorem chunk_eq : CHUNK = 524288 := rfl

/-- All the pieces but the last one are whole chunks. -/
theorem lens_eq {total : ℕ} (h : 0 < total) :
    lens total = List.replicate ((total - 1) / CHUNK) CHUNK ++
      [total - (total - 1) / CHUNK * CHUNK] := by
  by_cases hsmall : total < CHUNK
  · have hzero : (total - 1) / CHUNK = 0 := Nat.div_eq_of_lt (by omega)
    rw [lens, if_pos hsmall, hzero]
    simp
  · rw [lens_large hsmall, rest]
    by_cases hmod : 0 < total % CHUNK
    · have hdiv : (total - 1) / CHUNK = total / CHUNK := by
        rw [chunk_eq] at hmod ⊢
        omega
      have hleft : total - total / CHUNK * CHUNK = total % CHUNK := by
        have hdiv := Nat.div_add_mod' total CHUNK
        omega
      rw [if_pos hmod, hdiv, hleft]
    · have hdiv : total / CHUNK = (total - 1) / CHUNK + 1 := by
        rw [chunk_eq] at hmod hsmall ⊢
        omega
      have hleft : total - (total - 1) / CHUNK * CHUNK = CHUNK := by
        rw [chunk_eq] at hmod hsmall ⊢
        omega
      rw [if_neg hmod, hdiv, hleft, List.append_nil, List.replicate_succ']

theorem mem_cut {toDisk : Bool} {base : ℤ} {sum : ℕ} {ns : List ℕ} {t : Transfer}
    (h : t ∈ cut toDisk base sum ns) :
    t.pos = toInt64 (base + t.data) ∧ t.data ≤ sum + ns.sum := by
  induction ns generalizing sum with
  | nil => cases h
  | cons n ns ih =>
    rcases List.mem_cons.mp h with rfl | hmem
    · exact ⟨rfl, Nat.le_add_right _ _⟩
    · obtain ⟨hpos, hdata⟩ := ih hmem
      refine ⟨hpos, ?_⟩
      rw [List.sum_cons]
      omega

/-- The positions of all the pieces are representable when the last one's is. -/
theorem positions_iff (toDisk : Bool) (base : ℕ) {total : ℕ} (h : 0 < total) :
    (∀ t ∈ cut toDisk base 0 (lens total), t.pos = base + t.data) ↔
      base + (total - 1) / CHUNK * CHUNK < 2 ^ 63 := by
  have hiff : ∀ n : ℕ, toInt64 (base + n) = base + n ↔ base + n < 2 ^ 63 := by
    intro n
    rw [toInt64_eq_self_iff (by positivity)]
    norm_cast
  rw [lens_eq h, cut_append]
  simp only [List.forall_mem_append, cut, List.forall_mem_singleton, List.sum_replicate,
    smul_eq_mul, zero_add]
  rw [hiff]
  refine ⟨And.right, fun hlast => ⟨fun t ht => ?_, hlast⟩⟩
  obtain ⟨hpos, hdata⟩ := mem_cut ht
  rw [List.sum_replicate, smul_eq_mul] at hdata
  rw [hpos, hiff]
  omega

theorem pos_of_mem_lens {total n : ℕ} (h : n ∈ lens total) : 0 < n ∨ total = 0 := by
  by_cases hzero : total = 0
  · exact Or.inr hzero
  · rw [lens_eq (Nat.pos_of_ne_zero hzero), List.mem_append, List.mem_singleton] at h
    left
    rcases h with hmem | rfl
    · rw [List.eq_of_mem_replicate hmem]
      decide
    · have hle := Nat.div_mul_le_self (total - 1) CHUNK
      omega

/-- The value is 0 if and only if the bytes asked for were moved. -/
def Honest (toDisk : Bool) (bnum numBlocks bsize : ℕ) (r : ℤ × Host) : Prop :=
  r.1 = 0 ↔ Covers toDisk (bnum * bsize : ℕ) 0 (numBlocks * bsize) r.2.moved

/-- The length fits an unsigned, and the position of the last piece an `fs_off_t`. -/
def Representable (bnum numBlocks bsize : ℕ) : Prop :=
  numBlocks * bsize < 2 ^ 32 ∧
  bnum * bsize + (numBlocks * bsize - 1) / CHUNK * CHUNK < 2 ^ 63

/-- One of the calls that are made as long as none fails does fail. -/
def SomeFails (replies : ℕ → Reply) (numBlocks bsize : ℕ) : Prop :=
  ∃ i < pieces (toUint32 (numBlocks * bsize)), replies i ≠ .all

/-- The bytes that are moved when no call fails. -/
theorem physBlocks_bytes (toDisk : Bool) {replies : ℕ → Reply} (bnum : ℕ) {numBlocks bsize : ℕ}
    (h : ¬SomeFails replies numBlocks bsize) :
    ((physBlocks replies toDisk bnum numBlocks bsize).2.moved.map Transfer.nbytes).sum =
      toUint32 (numBlocks * bsize) := by
  simp only [SomeFails, not_exists, not_and, not_not] at h
  rw [physBlocks_all toDisk h, cut_nbytes, lens_sum]

theorem physBlocks_honest_iff (toDisk : Bool) (replies : ℕ → Reply) (bnum : ℕ)
    {numBlocks bsize : ℕ} (hn : 1 ≤ numBlocks) (hb : 0 < bsize) (hdvd : 512 ∣ bsize) :
    Honest toDisk bnum numBlocks bsize (physBlocks replies toDisk bnum numBlocks bsize) ↔
      SomeFails replies numBlocks bsize ∨ Representable bnum numBlocks bsize := by
  have hproduct : 0 < numBlocks * bsize := Nat.mul_pos hn hb
  have hwrap : toUint32 (numBlocks * bsize) ≤ numBlocks * bsize := Nat.mod_le _ _
  have hcovers := covers_cut_iff toDisk (bnum * bsize : ℕ) 0 (numBlocks * bsize)
  rw [Nat.cast_zero, add_zero] at hcovers
  by_cases hr : SomeFails replies numBlocks bsize
  · simp only [hr, true_or, iff_true]
    obtain ⟨hret, ms, n, ns, hlens, hmoved⟩ := physBlocks_stops toDisk bnum hdvd hr
    rw [Honest, hret, hmoved, ← Nat.cast_mul, hcovers]
    have hsum := lens_sum (toUint32 (numBlocks * bsize))
    rw [hlens, List.sum_append, List.sum_cons] at hsum
    constructor
    · intro hzero
      exact absurd hzero (by decide)
    · rintro ⟨hms, _⟩
      have hlen : 0 < n ∨ toUint32 (numBlocks * bsize) = 0 := pos_of_mem_lens (by simp [hlens])
      omega
  · simp only [hr, false_or]
    simp only [SomeFails, not_exists, not_and, not_not] at hr
    rw [Honest, physBlocks_all toDisk hr, ← Nat.cast_mul, hcovers, lens_sum]
    simp only [true_iff]
    by_cases hfits : numBlocks * bsize < 2 ^ 32
    · have hsame : toUint32 (numBlocks * bsize) = numBlocks * bsize := Nat.mod_eq_of_lt hfits
      rw [hsame, positions_iff toDisk (bnum * bsize) hproduct]
      exact ⟨fun h => ⟨hfits, h.2⟩, fun h => ⟨rfl, h.2⟩⟩
    · have hless := toUint32_lt (numBlocks * bsize)
      simp only [Representable, hfits, false_and, iff_false, not_and]
      omega

/-- For both directions, and any block size that is a power of two from 512 on. -/
theorem phys_blocks_honest_iff (replies : ℕ → Reply) (bnum : ℕ) {numBlocks k : ℕ}
    (hn : 1 ≤ numBlocks) (hk : 9 ≤ k) :
    (Honest false bnum numBlocks (2 ^ k) (readPhysBlocks replies bnum numBlocks (2 ^ k)) ↔
      SomeFails replies numBlocks (2 ^ k) ∨ Representable bnum numBlocks (2 ^ k)) ∧
    (Honest true bnum numBlocks (2 ^ k) (writePhysBlocks replies bnum numBlocks (2 ^ k)) ↔
      SomeFails replies numBlocks (2 ^ k) ∨ Representable bnum numBlocks (2 ^ k)) := by
  have hb : 0 < 2 ^ k := Nat.two_pow_pos k
  have hdvd : 512 ∣ 2 ^ k := Nat.pow_dvd_pow 2 hk
  exact ⟨physBlocks_honest_iff false replies bnum hn hb hdvd,
    physBlocks_honest_iff true replies bnum hn hb hdvd⟩

/-- 1200 blocks of 1 KB: two whole chunks and a rest. -/
theorem phys_blocks_honest_1200 :
    Honest false 3 1200 (2 ^ 10) (readPhysBlocks (fun _ => .all) 3 1200 (2 ^ 10)) ∧
    Honest true 3 1200 (2 ^ 10) (writePhysBlocks (fun _ => .all) 3 1200 (2 ^ 10)) := by
  have hfits : Representable 3 1200 (2 ^ 10) := by
    constructor <;> decide
  have h := phys_blocks_honest_iff (fun _ => .all) 3 (by decide : 1 ≤ 1200) (by decide : 9 ≤ 10)
  exact ⟨h.1.mpr (Or.inr hfits), h.2.mpr (Or.inr hfits)⟩

/-- 2^22 blocks of 1 KB: the product is 0 as an unsigned, and nothing is moved. -/
theorem phys_blocks_4_gigabytes :
    ¬Honest false 0 (2 ^ 22) (2 ^ 10) (readPhysBlocks (fun _ => .all) 0 (2 ^ 22) (2 ^ 10)) := by
  have hread : readPhysBlocks (fun _ => .all) 0 (2 ^ 22) (2 ^ 10) =
      (0, ⟨1, [⟨false, 0, 0, 0⟩]⟩) := by decide
  rw [hread]
  simp [Honest, Covers]

end Exactness

end PhysicalTransfers
