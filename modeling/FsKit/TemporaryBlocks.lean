import Mathlib.Tactic
import FsKit.MachineIntegers
import FsKit.TransitionTrace

/-! The pool of temporary blocks (`util.c`): a list of chunks of 16 blocks each, from which
runs of adjacent blocks are handed out. An address is a number and null is none. Allocation
succeeds, at an address of its choice that keeps the new memory apart from the old. -/
namespace TemporaryBlocks

open MachineIntegers
open TransitionTrace

def NUM_TMP_BLOCKS : ℕ := 16

structure TmpBlocks where
  data : ℕ
  blockPtrs : ℕ → Option ℕ

/-- What ends the program: `myfs_die`, or an index outside `block_ptrs`. -/
inductive Stop where
  | die
  | outside
  deriving DecidableEq, Repr

section Code
variable (bsize : ℕ)

def chunkSize : ℕ := toUint32 (NUM_TMP_BLOCKS * bsize)

/-- `init_tmp_blocks`, the chunk's memory being at `data`. -/
def initTmpBlocks (data : ℕ) : List TmpBlocks :=
  [⟨data, fun i => some (data + toUint32 (i * bsize))⟩]

/-- The search for `nblocks` adjacent blocks in one chunk, from index `i` on. Returns `blocks`,
`start` and `i`. -/
def search (tmp : TmpBlocks) (nblocks : ℤ) : ℕ → ℕ → Option ℕ → ℤ → Option (Option ℕ × ℤ × ℕ)
  | 0, _, _, _ => none
  | todo + 1, i, blocks, start =>
    let fresh := blocks = none ∧ tmp.blockPtrs i ≠ none
    let start := if fresh then (i : ℤ) else start
    let blocks := if fresh then tmp.blockPtrs i else blocks
    if blocks ≠ none ∧ tmp.blockPtrs i ≠ none ∧ (i + 1 : ℤ) - start = nblocks then
      some (blocks, start, i)
    else if tmp.blockPtrs i = none then search tmp nblocks todo (i + 1) none (-9999999)
    else search tmp nblocks todo (i + 1) blocks start

def take : ℕ → ℕ → TmpBlocks → Except Stop TmpBlocks
  | 0, _, tmp => .ok tmp
  | todo + 1, j, tmp =>
    if tmp.blockPtrs j = none then .error .die
    else take todo (j + 1) { tmp with blockPtrs := Function.update tmp.blockPtrs j none }

/-- The loop over the chunks. None is where the code goes on to allocate one. -/
def getFrom (nblocks : ℤ) : List TmpBlocks → Except Stop (Option (Option ℕ × List TmpBlocks))
  | [] => .ok none
  | tmp :: rest =>
    match search tmp nblocks NUM_TMP_BLOCKS 0 none (-999999) with
    | some (blocks, start, i) =>
      (take (i + 1 - start).toNat start.toNat tmp).map fun tmp => some (blocks, tmp :: rest)
    | none => (getFrom nblocks rest).map (Option.map fun r => (r.1, tmp :: r.2))

def newChunk (nblocks : ℤ) (data : ℕ) : TmpBlocks :=
  ⟨data, fun i => if (i : ℤ) < nblocks then none else some (data + toUint32 (i * bsize))⟩

/-- `data` is where the memory of a new chunk would be. -/
def getTmpBlocks (pool : List TmpBlocks) (nblocks : ℤ) (data : ℕ) :
    Except Stop (Option ℕ × List TmpBlocks) :=
  if NUM_TMP_BLOCKS < nblocks then .ok (none, pool)
  else
    (getFrom nblocks pool).map fun r =>
      r.getD (some data, newChunk bsize nblocks data :: pool)

def putBack (i : ℕ) : ℕ → ℕ → ℕ → TmpBlocks → Except Stop TmpBlocks
  | 0, _, _, tmp => .ok tmp
  | todo + 1, j, blocks, tmp =>
    if NUM_TMP_BLOCKS ≤ i + j then .error .outside
    else if tmp.blockPtrs (i + j) ≠ none then .error .die
    else
      putBack i todo (j + 1) (blocks + bsize)
        { tmp with blockPtrs := Function.update tmp.blockPtrs (i + j) (some blocks) }

def freeFrom (blocks : ℕ) (nblocks : ℤ) : List TmpBlocks → Except Stop (List TmpBlocks)
  | [] => .error .die
  | tmp :: rest =>
    if tmp.data ≤ blocks ∧ blocks < tmp.data + chunkSize bsize then
      (putBack bsize ((blocks - tmp.data) / bsize) nblocks.toNat 0 blocks tmp).map (· :: rest)
    else (freeFrom blocks nblocks rest).map (tmp :: ·)

def freeTmpBlocks (pool : List TmpBlocks) (blocks : Option ℕ) (nblocks : ℤ) :
    Except Stop (List TmpBlocks) :=
  match blocks with
  | none => .error .die
  | some blocks =>
    if NUM_TMP_BLOCKS < nblocks then .error .die else freeFrom bsize blocks nblocks pool

end Code

section Runs

/-- The pool, the regions that were returned and not freed, and what ended the program. -/
structure State where
  pool : List TmpBlocks
  out : List (ℕ × ℕ)
  halted : Option Stop

inductive Event where
  | get (nblocks data : ℕ)
  | free (blocks nblocks : ℕ)
  deriving DecidableEq, Repr

variable (bsize : ℕ)

def initial (data : ℕ) : State := ⟨initTmpBlocks bsize data, [], none⟩

def next (s : State) : Event → State
  | .get n data =>
    match getTmpBlocks bsize s.pool n data with
    | .error e => { s with halted := some e }
    | .ok (none, pool) => { s with pool := pool }
    | .ok (some blocks, pool) => { s with pool := pool, out := (blocks, n) :: s.out }
  | .free blocks n =>
    match freeTmpBlocks bsize s.pool (some blocks) n with
    | .error e => { s with halted := some e }
    | .ok pool => { s with pool := pool, out := s.out.erase (blocks, n) }

/-- Memory of the given sizes at two addresses does not overlap. -/
def Apart (a n a' n' : ℕ) : Prop := a + n ≤ a' ∨ a' + n' ≤ a

/-- What the calls are made with. The memory of a new chunk is apart from that of the others. -/
def Enabled (s : State) : Event → Prop
  | .get n data => 1 ≤ n ∧ n ≤ NUM_TMP_BLOCKS ∧
    ∀ tmp ∈ s.pool, Apart data (chunkSize bsize) tmp.data (chunkSize bsize)
  | .free blocks n => (blocks, n) ∈ s.out

/-- All blocks from index `i` up to `j` are free. -/
def Free (tmp : TmpBlocks) (i j : ℕ) : Prop := ∀ k, i ≤ k → k < j → tmp.blockPtrs k ≠ none

def HasRoom (tmp : TmpBlocks) (n : ℕ) : Prop := ∃ i, i + n ≤ NUM_TMP_BLOCKS ∧ Free tmp i (i + n)

/-- A call does what it should: a region comes from one chunk, is apart from the outstanding
ones, and from a chunk there was if one had room. -/
def Served (s : State) : Event → Prop
  | .get n data => ∃ blocks pool, getTmpBlocks bsize s.pool n data = .ok (some blocks, pool) ∧
    (∃ tmp ∈ pool, tmp.data ≤ blocks ∧ blocks + n * bsize ≤ tmp.data + chunkSize bsize) ∧
    (∀ r ∈ s.out, Apart blocks (n * bsize) r.1 (r.2 * bsize)) ∧
    ((∃ tmp ∈ s.pool, HasRoom tmp n) → pool.map TmpBlocks.data = s.pool.map TmpBlocks.data)
  | .free blocks n => ∃ pool, freeTmpBlocks bsize s.pool (some blocks) n = .ok pool

end Runs

section Searches
variable {tmp : TmpBlocks} {n : ℕ}

theorem Free.mono {i j i' j' : ℕ} (h : Free tmp i j) (hi : i ≤ i') (hj : j' ≤ j) :
    Free tmp i' j' := fun k hk hk' => h k (hi.trans hk) (hk'.trans_le hj)

theorem free_empty (i : ℕ) : Free tmp i i := fun _ hk hk' => absurd hk (not_le.mpr hk')

theorem Free.succ {i j : ℕ} (h : Free tmp i j) (hj : tmp.blockPtrs j ≠ none) :
    Free tmp i (j + 1) := by
  intro k hk hk'
  rcases Nat.lt_succ_iff_lt_or_eq.mp hk' with hlt | rfl
  · exact h k hk hlt
  · exact hj

/-- The search before index `i`: the free blocks right before it start at `s`, and there are
fewer than `n` of them. -/
structure Searching (tmp : TmpBlocks) (n i s : ℕ) (blocks : Option ℕ) (start : ℤ) : Prop where
  le : s ≤ i
  free : Free tmp s i
  first : ∀ s' < s, ¬Free tmp s' i
  short : i < s + n
  idle : s = i → blocks = none
  busy : s < i → blocks = tmp.blockPtrs s ∧ start = s
  none_before : ∀ s', s' + n ≤ i → ¬Free tmp s' (s' + n)

/-- A used block ends the run of free ones. -/
theorem Searching.used {i s : ℕ} {blocks : Option ℕ} {start : ℤ} (hn : 1 ≤ n)
    (h : Searching tmp n i s blocks start) (hi : tmp.blockPtrs i = none) (x : ℤ) :
    Searching tmp n (i + 1) (i + 1) none x where
  le := le_rfl
  free := free_empty (i + 1)
  first s' hs' hfree := hfree i (Nat.le_of_lt_succ hs') (Nat.lt_succ_self i) hi
  short := by omega
  idle _ := rfl
  busy hlt := absurd hlt (lt_irrefl _)
  none_before s' hs' hfree := by
    by_cases hle : s' + n ≤ i
    · exact h.none_before s' hle hfree
    · exact hfree i (by omega) (by omega) hi

/-- A free block makes the run longer by one. -/
theorem Searching.longer {i s : ℕ} {blocks : Option ℕ} {start : ℤ}
    (h : Searching tmp n i s blocks start) (hi : tmp.blockPtrs i ≠ none) (hshort : i + 1 < s + n) :
    Searching tmp n (i + 1) s (tmp.blockPtrs s) s where
  le := h.le.trans (Nat.le_succ i)
  free := h.free.succ hi
  first s' hs' hfree := h.first s' hs' (hfree.mono le_rfl (Nat.le_succ i))
  short := hshort
  idle heq := by
    have := h.le
    omega
  busy _ := ⟨rfl, rfl⟩
  none_before s' hs' hfree := by
    by_cases hle : s' + n ≤ i
    · exact h.none_before s' hle hfree
    · have hlt : s' < s := by omega
      exact h.first s' hlt (hfree.mono le_rfl (by omega))

/-- At a free block the two variables name the start of the run, whether it is new or not. -/
theorem Searching.at_free {i s : ℕ} {blocks : Option ℕ} {start : ℤ}
    (h : Searching tmp n i s blocks start) (hi : tmp.blockPtrs i ≠ none) :
    (if blocks = none ∧ tmp.blockPtrs i ≠ none then (i : ℤ) else start) = s ∧
    (if blocks = none ∧ tmp.blockPtrs i ≠ none then tmp.blockPtrs i else blocks) =
      tmp.blockPtrs s ∧ tmp.blockPtrs s ≠ none := by
  rcases h.le.eq_or_lt with rfl | hlt
  · simp [h.idle rfl, hi]
  · obtain ⟨hblocks, hstart⟩ := h.busy hlt
    have hs := h.free s le_rfl hlt
    simp [hblocks, hstart, hs]

theorem search_spec (hn : 1 ≤ n) (todo : ℕ) {i s : ℕ} {blocks : Option ℕ} {start : ℤ}
    (h : Searching tmp n i s blocks start) :
    (∃ s', s' + n ≤ i + todo ∧ Free tmp s' (s' + n) ∧
      search tmp n todo i blocks start = some (tmp.blockPtrs s', (s' : ℤ), s' + n - 1)) ∨
    (search tmp n todo i blocks start = none ∧
      ∀ s', s' + n ≤ i + todo → ¬Free tmp s' (s' + n)) := by
  induction todo generalizing i s blocks start with
  | zero => exact Or.inr ⟨rfl, h.none_before⟩
  | succ todo ih =>
    rw [search]
    by_cases hi : tmp.blockPtrs i = none
    · have hnext := ih (h.used hn hi (-9999999))
      rw [add_assoc, add_comm 1] at hnext
      simpa [hi] using hnext
    · obtain ⟨hstart, hblocks, hs⟩ := h.at_free hi
      rw [hstart, hblocks]
      by_cases hfound : (i + 1 : ℤ) - s = n
      · left
        have hlen : s + n = i + 1 := by omega
        refine ⟨s, by omega, hlen ▸ h.free.succ hi, ?_⟩
        rw [if_pos ⟨hs, hi, hfound⟩, hlen, Nat.add_sub_cancel]
      · have hshort := h.short
        have hnext := ih (h.longer hi (by omega))
        rw [add_assoc, add_comm 1] at hnext
        rw [if_neg (fun hc => hfound hc.2.2), if_neg hi]
        exact hnext

/-- The whole search in a chunk. -/
theorem search_chunk (hn : 1 ≤ n) (tmp : TmpBlocks) :
    (∃ s, s + n ≤ NUM_TMP_BLOCKS ∧ Free tmp s (s + n) ∧
      search tmp n NUM_TMP_BLOCKS 0 none (-999999) =
        some (tmp.blockPtrs s, (s : ℤ), s + n - 1)) ∨
    (search tmp n NUM_TMP_BLOCKS 0 none (-999999) = none ∧ ¬HasRoom tmp n) := by
  have hstart : Searching tmp n 0 0 none (-999999) := by
    refine ⟨le_rfl, free_empty 0, fun s' hs' => absurd hs' (Nat.not_lt_zero s'), by omega,
      fun _ => rfl, fun hlt => absurd hlt (lt_irrefl 0), fun s' hs' => ?_⟩
    omega
  rcases search_spec hn NUM_TMP_BLOCKS hstart with ⟨s, hs, hfree, hsearch⟩ | ⟨hnone, hall⟩
  · exact Or.inl ⟨s, by omega, hfree, hsearch⟩
  · refine Or.inr ⟨hnone, ?_⟩
    rintro ⟨s, hs, hfree⟩
    exact hall s (by omega) hfree

/-- A chunk whose blocks from `s` on have been handed out. -/
def taken (s n : ℕ) (tmp : TmpBlocks) : TmpBlocks :=
  { tmp with blockPtrs := fun i => if s ≤ i ∧ i < s + n then none else tmp.blockPtrs i }

theorem take_spec {todo j : ℕ} (h : Free tmp j (j + todo)) :
    take todo j tmp = .ok (taken j todo tmp) := by
  unfold taken
  induction todo generalizing j tmp with
  | zero =>
    have hnone : ∀ i, ¬(j ≤ i ∧ i < j + 0) := fun i hi => by omega
    simp only [take, if_neg (hnone _)]
  | succ todo ih =>
    have hj : tmp.blockPtrs j ≠ none := h j le_rfl (by omega)
    rw [take, if_neg hj, ih]
    · congr 2
      funext i
      by_cases hi : i = j
      · subst hi
        simp
      · simp only [Function.update_of_ne hi]
        congr 1
        apply propext
        omega
    · intro k hk hk'
      have hne : k ≠ j := by omega
      simp only [Function.update_of_ne hne]
      exact h k (by omega) (by omega)

theorem getFrom_spec (hn : 1 ≤ n) (pool : List TmpBlocks) :
    (∃ pre tmp post s, pool = pre ++ tmp :: post ∧ s + n ≤ NUM_TMP_BLOCKS ∧
      Free tmp s (s + n) ∧
      getFrom n pool = .ok (some (tmp.blockPtrs s, pre ++ taken s n tmp :: post))) ∨
    (getFrom n pool = .ok none ∧ ∀ tmp ∈ pool, ¬HasRoom tmp n) := by
  induction pool with
  | nil => exact Or.inr ⟨rfl, by simp⟩
  | cons tmp rest ih =>
    rw [getFrom]
    rcases search_chunk hn tmp with ⟨s, hs, hfree, hsearch⟩ | ⟨hnone, hroom⟩
    · left
      refine ⟨[], tmp, rest, s, rfl, hs, hfree, ?_⟩
      have hcount : (((s + n - 1 : ℕ) : ℤ) + 1 - s).toNat = n := by omega
      rw [hsearch]
      simp only [hcount, Int.toNat_natCast, take_spec hfree]
      rfl
    · rw [hnone]
      rcases ih with ⟨pre, c, post, s, rfl, hs, hfree, hget⟩ | ⟨hget, hall⟩
      · left
        refine ⟨tmp :: pre, c, post, s, rfl, hs, hfree, ?_⟩
        simp only [hget]
        rfl
      · right
        simp only [hget]
        exact ⟨rfl, List.forall_mem_cons.mpr ⟨hroom, hall⟩⟩

end Searches

section Returns
variable {bsize : ℕ}

/-- A chunk whose blocks from index `i` on have been given back, the first one at `blocks`. -/
def returned (bsize i n blocks : ℕ) (tmp : TmpBlocks) : TmpBlocks :=
  { tmp with blockPtrs := fun k =>
      if i ≤ k ∧ k < i + n then some (blocks + (k - i) * bsize) else tmp.blockPtrs k }

theorem putBack_spec {i todo j blocks : ℕ} {tmp : TmpBlocks}
    (hle : i + j + todo ≤ NUM_TMP_BLOCKS)
    (h : ∀ k, i + j ≤ k → k < i + j + todo → tmp.blockPtrs k = none) :
    putBack bsize i todo j blocks tmp = .ok (returned bsize (i + j) todo blocks tmp) := by
  induction todo generalizing j blocks tmp with
  | zero =>
    have hnone : ∀ k, ¬(i + j ≤ k ∧ k < i + j + 0) := fun k hk => by omega
    simp only [putBack, returned, if_neg (hnone _)]
  | succ todo ih =>
    have hfirst : tmp.blockPtrs (i + j) = none := h _ le_rfl (by omega)
    rw [putBack, if_neg (by omega), if_neg (not_not.mpr hfirst), ih (by omega)]
    · congr 1
      simp only [returned, TmpBlocks.mk.injEq, true_and]
      funext k
      by_cases hk : k = i + j
      · subst hk
        simp
      · simp only [Function.update_of_ne hk]
        by_cases hin : i + j ≤ k ∧ k < i + j + (todo + 1)
        · have hsucc : k - (i + j) = k - (i + (j + 1)) + 1 := by omega
          rw [if_pos (by omega), if_pos hin, hsucc, add_mul]
          congr 1
          omega
        · rw [if_neg (by omega), if_neg hin]
    · intro k hk hk'
      have hne : k ≠ i + j := by omega
      simp only [Function.update_of_ne hne]
      exact h k (by omega) (by omega)

theorem freeFrom_spec {blocks n : ℕ} {pre post : List TmpBlocks} {tmp tmp' : TmpBlocks}
    (hpre : ∀ c ∈ pre, ¬(c.data ≤ blocks ∧ blocks < c.data + chunkSize bsize))
    (htmp : tmp.data ≤ blocks ∧ blocks < tmp.data + chunkSize bsize)
    (hput : putBack bsize ((blocks - tmp.data) / bsize) n 0 blocks tmp = .ok tmp') :
    freeFrom bsize blocks n (pre ++ tmp :: post) = .ok (pre ++ tmp' :: post) := by
  induction pre with
  | nil =>
    rw [List.nil_append, freeFrom, if_pos htmp, Int.toNat_natCast, hput]
    rfl
  | cons c pre ih =>
    rw [List.cons_append, freeFrom, if_neg (hpre c List.mem_cons_self),
      ih fun c' hc' => hpre c' (List.mem_cons_of_mem c hc')]
    rfl

end Returns

section Invariant
variable {bsize : ℕ}

/-- The address lies in a region that is outstanding. -/
def Covered (bsize : ℕ) (out : List (ℕ × ℕ)) (x : ℕ) : Prop :=
  ∃ r ∈ out, r.1 ≤ x ∧ x < r.1 + r.2 * bsize

/-- The blocks that are not free are those of the outstanding regions, which lie apart from
each other, each within a chunk. -/
structure Sound (bsize : ℕ) (s : State) : Prop where
  halted : s.halted = none
  used : ∀ tmp ∈ s.pool, ∀ i < NUM_TMP_BLOCKS, Covered bsize s.out (tmp.data + i * bsize) →
    tmp.blockPtrs i = none
  unused : ∀ tmp ∈ s.pool, ∀ i < NUM_TMP_BLOCKS, ¬Covered bsize s.out (tmp.data + i * bsize) →
    tmp.blockPtrs i = some (tmp.data + i * bsize)
  regions : ∀ r ∈ s.out, ∃ d ∈ s.pool.map TmpBlocks.data, ∃ i,
    r.1 = d + i * bsize ∧ i + r.2 ≤ NUM_TMP_BLOCKS ∧ 1 ≤ r.2
  apart : s.out.Pairwise fun r r' => Apart r.1 (r.2 * bsize) r'.1 (r'.2 * bsize)
  chunks : (s.pool.map TmpBlocks.data).Pairwise fun d d' =>
    Apart d (NUM_TMP_BLOCKS * bsize) d' (NUM_TMP_BLOCKS * bsize)

theorem Apart.symm {a n a' n' : ℕ} (h : Apart a n a' n') : Apart a' n' a n := Or.symm h

/-- A block of the chunk at `d` lies in a region of it if and only if the indices say so. -/
theorem inside_iff (hb : 0 < bsize) (d i s n : ℕ) :
    (d + s * bsize ≤ d + i * bsize ∧ d + i * bsize < d + s * bsize + n * bsize) ↔
      s ≤ i ∧ i < s + n := by
  rw [add_assoc, ← add_mul]
  simp only [add_le_add_iff_left, add_lt_add_iff_left, Nat.mul_le_mul_right_iff hb,
    Nat.mul_lt_mul_right hb]

/-- A region ends within its chunk. -/
theorem region_le (bsize : ℕ) {i n : ℕ} (h : i + n ≤ NUM_TMP_BLOCKS) :
    i * bsize + n * bsize ≤ NUM_TMP_BLOCKS * bsize := by
  rw [← add_mul]
  exact Nat.mul_le_mul_right bsize h

/-- Regions of chunks that are apart are apart. -/
theorem Apart.regions {d d' i n i' n' : ℕ}
    (h : Apart d (NUM_TMP_BLOCKS * bsize) d' (NUM_TMP_BLOCKS * bsize))
    (hi : i + n ≤ NUM_TMP_BLOCKS) (hi' : i' + n' ≤ NUM_TMP_BLOCKS) :
    Apart (d + i * bsize) (n * bsize) (d' + i' * bsize) (n' * bsize) := by
  have hle := region_le bsize hi
  have hle' := region_le bsize hi'
  rcases h with h | h
  · left
    omega
  · right
    omega

/-- Regions of one chunk are apart if they share no index. -/
theorem apart_of_indices (d : ℕ) {i n i' n' : ℕ}
    (h : i + n ≤ i' ∨ i' + n' ≤ i) :
    Apart (d + i * bsize) (n * bsize) (d + i' * bsize) (n' * bsize) := by
  rcases h with h | h
  · left
    have := Nat.mul_le_mul_right bsize h
    rw [add_mul] at this
    omega
  · right
    have := Nat.mul_le_mul_right bsize h
    rw [add_mul] at this
    omega

theorem Apart.not_inside {a n a' n' x : ℕ} (h : Apart a n a' n') (hx : a ≤ x ∧ x < a + n) :
    ¬(a' ≤ x ∧ x < a' + n') := by
  rintro ⟨hle, hlt⟩
  rcases h with h | h <;> omega

/-- The chunk around one place of the pool: every other one is apart from it. -/
theorem Sound.others {s : State} (h : Sound bsize s) {pre post : List TmpBlocks} {tmp c : TmpBlocks}
    (hpool : s.pool = pre ++ tmp :: post) (hc : c ∈ pre ∨ c ∈ post) :
    Apart c.data (NUM_TMP_BLOCKS * bsize) tmp.data (NUM_TMP_BLOCKS * bsize) := by
  have hchunks := h.chunks
  rw [hpool, List.map_append, List.map_cons, List.pairwise_append] at hchunks
  obtain ⟨_, hpost, hpre⟩ := hchunks
  rcases hc with hc | hc
  · exact hpre _ (List.mem_map_of_mem hc) _ List.mem_cons_self
  · exact ((List.pairwise_cons.mp hpost).1 _ (List.mem_map_of_mem hc)).symm

/-- A region of the pool lies in the chunk at `d`, or apart from it. -/
theorem Sound.region_cases {s : State} (h : Sound bsize s) {r : ℕ × ℕ} (hr : r ∈ s.out) {d : ℕ}
    (hd : d ∈ s.pool.map TmpBlocks.data) :
    (∃ i, r.1 = d + i * bsize ∧ i + r.2 ≤ NUM_TMP_BLOCKS) ∨
    ∃ d' i, r.1 = d' + i * bsize ∧ i + r.2 ≤ NUM_TMP_BLOCKS ∧
      Apart d (NUM_TMP_BLOCKS * bsize) d' (NUM_TMP_BLOCKS * bsize) := by
  obtain ⟨d', hd', i, hstart, hle, _⟩ := h.regions r hr
  by_cases heq : d' = d
  · subst heq
    exact Or.inl ⟨i, hstart, hle⟩
  · have hsymm : Std.Symm fun d d' : ℕ =>
        Apart d (NUM_TMP_BLOCKS * bsize) d' (NUM_TMP_BLOCKS * bsize) := ⟨fun _ _ => Apart.symm⟩
    exact Or.inr ⟨d', i, hstart, hle, h.chunks.forall hd hd' (Ne.symm heq)⟩

/-- A run of free blocks is apart from every outstanding region. -/
theorem Sound.free_apart {s : State} (h : Sound bsize s) (hb : 0 < bsize) {tmp : TmpBlocks}
    (htmp : tmp ∈ s.pool) {i n : ℕ} (hn : 1 ≤ n) (hi : i + n ≤ NUM_TMP_BLOCKS)
    (hfree : Free tmp i (i + n)) {r : ℕ × ℕ} (hr : r ∈ s.out) :
    Apart (tmp.data + i * bsize) (n * bsize) r.1 (r.2 * bsize) := by
  have hone := h.regions r hr
  rcases h.region_cases hr (List.mem_map_of_mem htmp) with ⟨j, hstart, hj⟩ | ⟨d, j, hstart, hj, hap⟩
  · rw [hstart]
    apply apart_of_indices
    by_contra hboth
    -- the later one of the two starts is an index both have
    have hlt : max i j < i + n ∧ max i j < j + r.2 := by
      obtain ⟨_, _, _, _, _, hone⟩ := hone
      omega
    refine hfree (max i j) (le_max_left i j) hlt.1 (h.used tmp htmp _ (by omega) ⟨r, hr, ?_⟩)
    rw [hstart]
    exact (inside_iff hb tmp.data (max i j) j r.2).mpr ⟨le_max_right i j, hlt.2⟩
  · rw [hstart]
    exact hap.regions hi hj

theorem covered_cons {out : List (ℕ × ℕ)} {r : ℕ × ℕ} {x : ℕ} :
    Covered bsize (r :: out) x ↔ (r.1 ≤ x ∧ x < r.1 + r.2 * bsize) ∨ Covered bsize out x := by
  simp [Covered]

/-- A block of a chunk that is apart lies outside a region. -/
theorem Apart.block_outside {d d' k i n : ℕ} (hb : 0 < bsize)
    (h : Apart d (NUM_TMP_BLOCKS * bsize) d' (NUM_TMP_BLOCKS * bsize)) (hk : k < NUM_TMP_BLOCKS)
    (hi : i + n ≤ NUM_TMP_BLOCKS) :
    ¬(d' + i * bsize ≤ d + k * bsize ∧ d + k * bsize < d' + i * bsize + n * bsize) := by
  have hblock : k + 1 ≤ NUM_TMP_BLOCKS := hk
  apply (h.regions hblock hi).not_inside
  omega

/-- One chunk's entries change, and the regions of no other chunk. -/
theorem Sound.replace {s : State} (h : Sound bsize s) {pre post : List TmpBlocks}
    {tmp tmp' : TmpBlocks} {out : List (ℕ × ℕ)} (hpool : s.pool = pre ++ tmp :: post)
    (hdata : tmp'.data = tmp.data)
    (hother : ∀ d, Apart d (NUM_TMP_BLOCKS * bsize) tmp.data (NUM_TMP_BLOCKS * bsize) →
      ∀ k < NUM_TMP_BLOCKS, (Covered bsize out (d + k * bsize) ↔
        Covered bsize s.out (d + k * bsize)))
    (hused : ∀ k < NUM_TMP_BLOCKS, Covered bsize out (tmp.data + k * bsize) →
      tmp'.blockPtrs k = none)
    (hunused : ∀ k < NUM_TMP_BLOCKS, ¬Covered bsize out (tmp.data + k * bsize) →
      tmp'.blockPtrs k = some (tmp.data + k * bsize))
    (hregions : ∀ r ∈ out, ∃ d ∈ s.pool.map TmpBlocks.data, ∃ i,
      r.1 = d + i * bsize ∧ i + r.2 ≤ NUM_TMP_BLOCKS ∧ 1 ≤ r.2)
    (hapart : out.Pairwise fun r r' => Apart r.1 (r.2 * bsize) r'.1 (r'.2 * bsize)) :
    Sound bsize { s with pool := pre ++ tmp' :: post, out := out } := by
  have hsame : (pre ++ tmp' :: post).map TmpBlocks.data = s.pool.map TmpBlocks.data := by
    simp [hpool, hdata]
  have hmem : ∀ c ∈ pre ++ tmp' :: post, c = tmp' ∨ (c ∈ pre ∨ c ∈ post) ∧ c ∈ s.pool := by
    intro c hc
    rw [hpool]
    simp only [List.mem_append, List.mem_cons] at hc ⊢
    tauto
  refine ⟨h.halted, ?_, ?_, by rwa [hsame], hapart, by rw [hsame]; exact h.chunks⟩
  · intro c hc k hk hcov
    rcases hmem c hc with rfl | ⟨hplace, hold⟩
    · rw [hdata] at hcov
      exact hused k hk hcov
    · exact h.used c hold k hk ((hother c.data (h.others hpool hplace) k hk).mp hcov)
  · intro c hc k hk hcov
    rcases hmem c hc with rfl | ⟨hplace, hold⟩
    · rw [hdata] at hcov ⊢
      exact hunused k hk hcov
    · rw [hother c.data (h.others hpool hplace) k hk] at hcov
      exact h.unused c hold k hk hcov

/-- The state after a region was handed out of the chunk `tmp`. -/
theorem Sound.hand_out {s : State} (h : Sound bsize s) (hb : 0 < bsize)
    {pre post : List TmpBlocks} {tmp : TmpBlocks} {i n : ℕ} (hpool : s.pool = pre ++ tmp :: post)
    (hn : 1 ≤ n) (hi : i + n ≤ NUM_TMP_BLOCKS) (hfree : Free tmp i (i + n)) :
    Sound bsize { s with
      pool := pre ++ taken i n tmp :: post
      out := (tmp.data + i * bsize, n) :: s.out } := by
  have hmem : tmp ∈ s.pool := by simp [hpool]
  have hdata : (taken i n tmp).data = tmp.data := rfl
  apply h.replace hpool hdata
  · intro d hd k hk
    rw [covered_cons]
    exact or_iff_right (hd.block_outside hb hk hi)
  · intro k hk hcov
    rw [covered_cons] at hcov
    by_cases hin : i ≤ k ∧ k < i + n
    · exact if_pos hin
    · have hcov' := hcov.resolve_left fun hc => hin ((inside_iff hb tmp.data k i n).mp hc)
      exact (if_neg hin).trans (h.used tmp hmem k hk hcov')
  · intro k hk hcov
    rw [covered_cons, not_or] at hcov
    have hout : ¬(i ≤ k ∧ k < i + n) := fun hin => hcov.1 ((inside_iff hb tmp.data k i n).mpr hin)
    exact (if_neg hout).trans (h.unused tmp hmem k hk hcov.2)
  · refine List.forall_mem_cons.mpr ⟨?_, h.regions⟩
    exact ⟨tmp.data, List.mem_map_of_mem hmem, i, rfl, hi, hn⟩
  · exact List.pairwise_cons.mpr ⟨fun r hr => h.free_apart hb hmem hn hi hfree hr, h.apart⟩

theorem toUint32_eq {i : ℕ} (hfit : NUM_TMP_BLOCKS * bsize < 2 ^ 32) (hi : i ≤ NUM_TMP_BLOCKS) :
    toUint32 (i * bsize) = i * bsize :=
  Nat.mod_eq_of_lt ((Nat.mul_le_mul_right bsize hi).trans_lt hfit)

theorem chunkSize_eq (hfit : NUM_TMP_BLOCKS * bsize < 2 ^ 32) :
    chunkSize bsize = NUM_TMP_BLOCKS * bsize := toUint32_eq hfit le_rfl

/-- A chunk with all its blocks free. -/
def freshChunk (bsize data : ℕ) : TmpBlocks := ⟨data, fun i => some (data + toUint32 (i * bsize))⟩

theorem newChunk_eq (n data : ℕ) : newChunk bsize n data = taken 0 n (freshChunk bsize data) := by
  simp [newChunk, taken, freshChunk]

theorem Sound.add_chunk {s : State} (h : Sound bsize s) (hb : 0 < bsize)
    (hfit : NUM_TMP_BLOCKS * bsize < 2 ^ 32) {data : ℕ}
    (hdata : ∀ d ∈ s.pool.map TmpBlocks.data,
      Apart data (NUM_TMP_BLOCKS * bsize) d (NUM_TMP_BLOCKS * bsize)) :
    Sound bsize { s with pool := freshChunk bsize data :: s.pool } := by
  refine ⟨h.halted, ?_, ?_, ?_, h.apart, ?_⟩
  · refine List.forall_mem_cons.mpr ⟨fun k hk hcov => ?_, h.used⟩
    obtain ⟨r, hr, hin⟩ := hcov
    obtain ⟨d, hd, i, hstart, hi, _⟩ := h.regions r hr
    rw [hstart] at hin
    exact absurd hin ((hdata d hd).block_outside hb hk hi)
  · refine List.forall_mem_cons.mpr ⟨fun k hk _ => ?_, h.unused⟩
    simp only [freshChunk, toUint32_eq hfit hk.le]
  · intro r hr
    obtain ⟨d, hd, i, hregion⟩ := h.regions r hr
    exact ⟨d, List.mem_cons_of_mem _ hd, i, hregion⟩
  · exact List.pairwise_cons.mpr ⟨hdata, h.chunks⟩

theorem sound_initial (hfit : NUM_TMP_BLOCKS * bsize < 2 ^ 32) (data : ℕ) :
    Sound bsize (initial bsize data) := by
  refine ⟨rfl, ?_, ?_, ?_, List.Pairwise.nil, List.pairwise_singleton _ _⟩
  · rintro tmp _ k _ ⟨r, hr, _⟩
    cases hr
  · rintro tmp htmp k hk _
    obtain rfl := List.mem_singleton.mp htmp
    simp only [toUint32_eq hfit hk.le]
  · intro r hr
    cases hr

/-- Without the region `r`, what it covered is not covered, and the rest is as before. -/
theorem Sound.covered_erase {s : State} (h : Sound bsize s) {r : ℕ × ℕ} (hr : r ∈ s.out) (x : ℕ) :
    Covered bsize (s.out.erase r) x ↔
      Covered bsize s.out x ∧ ¬(r.1 ≤ x ∧ x < r.1 + r.2 * bsize) := by
  obtain ⟨as, bs, _, hout, herase⟩ := List.exists_erase_eq hr
  have hapart := h.apart
  rw [hout, List.pairwise_append] at hapart
  obtain ⟨_, hafter, hbefore⟩ := hapart
  rw [herase, hout]
  constructor
  · rintro ⟨r', hr', hin⟩
    rcases List.mem_append.mp hr' with hmem | hmem
    · exact ⟨⟨r', List.mem_append_left _ hmem, hin⟩,
        (hbefore r' hmem r List.mem_cons_self).not_inside hin⟩
    · exact ⟨⟨r', List.mem_append_right _ (List.mem_cons_of_mem r hmem), hin⟩,
        ((List.pairwise_cons.mp hafter).1 r' hmem).symm.not_inside hin⟩
  · rintro ⟨⟨r', hr', hin⟩, hnot⟩
    simp only [List.mem_append, List.mem_cons] at hr'
    rcases hr' with hmem | rfl | hmem
    · exact ⟨r', List.mem_append_left _ hmem, hin⟩
    · exact absurd hin hnot
    · exact ⟨r', List.mem_append_right _ hmem, hin⟩

/-- The state after the region of `n` blocks from index `i` of `tmp` was given back. -/
theorem Sound.give_back {s : State} (h : Sound bsize s) (hb : 0 < bsize)
    {pre post : List TmpBlocks} {tmp : TmpBlocks} {i n : ℕ} (hpool : s.pool = pre ++ tmp :: post)
    (hi : i + n ≤ NUM_TMP_BLOCKS) (hr : (tmp.data + i * bsize, n) ∈ s.out) :
    Sound bsize { s with
      pool := pre ++ returned bsize i n (tmp.data + i * bsize) tmp :: post
      out := s.out.erase (tmp.data + i * bsize, n) } := by
  have hmem : tmp ∈ s.pool := by simp [hpool]
  have hdata : (returned bsize i n (tmp.data + i * bsize) tmp).data = tmp.data := rfl
  apply h.replace hpool hdata
  · intro d hd k hk
    rw [h.covered_erase hr]
    exact and_iff_left (hd.block_outside hb hk hi)
  · intro k hk hcov
    rw [h.covered_erase hr, inside_iff hb] at hcov
    exact (if_neg hcov.2).trans (h.used tmp hmem k hk hcov.1)
  · intro k hk hcov
    rw [h.covered_erase hr, inside_iff hb, not_and, not_not] at hcov
    by_cases hin : i ≤ k ∧ k < i + n
    · refine (if_pos hin).trans ?_
      rw [add_assoc, ← add_mul, Nat.add_sub_cancel' hin.1]
    · exact (if_neg hin).trans (h.unused tmp hmem k hk fun hc => hin (hcov hc))
  · exact fun r hr' => h.regions r (List.mem_of_mem_erase hr')
  · exact h.apart.sublist List.erase_sublist

end Invariant

section Steps
variable {bsize : ℕ}

/-- The first block of a free run is known by its address. -/
theorem Sound.free_ptr {s : State} (h : Sound bsize s) {tmp : TmpBlocks} (htmp : tmp ∈ s.pool)
    {i n : ℕ} (hn : 1 ≤ n) (hi : i + n ≤ NUM_TMP_BLOCKS) (hfree : Free tmp i (i + n)) :
    tmp.blockPtrs i = some (tmp.data + i * bsize) := by
  have hlt : i < NUM_TMP_BLOCKS := by omega
  apply h.unused tmp htmp i hlt
  intro hcov
  exact hfree i le_rfl (by omega) (h.used tmp htmp i hlt hcov)

theorem region_in_chunk (hfit : NUM_TMP_BLOCKS * bsize < 2 ^ 32) (d : ℕ) {i n : ℕ}
    (hi : i + n ≤ NUM_TMP_BLOCKS) :
    d ≤ d + i * bsize ∧ d + i * bsize + n * bsize ≤ d + chunkSize bsize := by
  have hle := region_le bsize hi
  rw [chunkSize_eq hfit]
  omega

theorem Sound.next_get {s : State} (h : Sound bsize s) (hb : 0 < bsize)
    (hfit : NUM_TMP_BLOCKS * bsize < 2 ^ 32) {n data : ℕ} (he : Enabled bsize s (.get n data)) :
    Served bsize s (.get n data) ∧ Sound bsize (next bsize s (.get n data)) := by
  obtain ⟨hn, hle, hdata⟩ := he
  rw [chunkSize_eq hfit] at hdata
  have hsmall : ¬((NUM_TMP_BLOCKS : ℕ) : ℤ) < n := by omega
  rcases getFrom_spec hn s.pool with ⟨pre, tmp, post, i, hpool, hi, hfree, hget⟩ | ⟨hget, hroom⟩
  · have hmem : tmp ∈ s.pool := by simp [hpool]
    have heq : getTmpBlocks bsize s.pool n data =
        .ok (some (tmp.data + i * bsize), pre ++ taken i n tmp :: post) := by
      rw [getTmpBlocks, if_neg hsmall, hget, h.free_ptr hmem hn hi hfree]
      rfl
    refine ⟨⟨_, _, heq, ⟨taken i n tmp, by simp, region_in_chunk hfit tmp.data hi⟩,
      fun r hr => h.free_apart hb hmem hn hi hfree hr, fun _ => by simp [hpool, taken]⟩, ?_⟩
    rw [next, heq]
    exact h.hand_out hb hpool hn hi hfree
  · have heq : getTmpBlocks bsize s.pool n data =
        .ok (some data, taken 0 n (freshChunk bsize data) :: s.pool) := by
      rw [getTmpBlocks, if_neg hsmall, hget, ← newChunk_eq]
      rfl
    have hapart : ∀ d ∈ s.pool.map TmpBlocks.data,
        Apart data (NUM_TMP_BLOCKS * bsize) d (NUM_TMP_BLOCKS * bsize) := by simpa using hdata
    have hadd := h.add_chunk hb hfit hapart
    have hpool : freshChunk bsize data :: s.pool = [] ++ freshChunk bsize data :: s.pool := rfl
    have hi : 0 + n ≤ NUM_TMP_BLOCKS := by omega
    have hfree : Free (freshChunk bsize data) 0 (0 + n) := fun k _ _ => by simp [freshChunk]
    have hrun := hadd.hand_out hb hpool hn hi hfree
    have hap := fun r hr => hadd.free_apart hb List.mem_cons_self hn hi hfree (r := r) hr
    simp only [freshChunk, zero_mul, add_zero] at hrun hap
    refine ⟨⟨_, _, heq, ⟨_, List.mem_cons_self, ?_⟩, hap, ?_⟩, ?_⟩
    · have hin := region_in_chunk hfit data hi
      simpa [taken, freshChunk] using hin
    · rintro ⟨tmp, htmp, hhas⟩
      exact absurd hhas (hroom tmp htmp)
    · rw [next, heq]
      exact hrun

theorem Sound.next_free {s : State} (h : Sound bsize s) (hb : 0 < bsize)
    (hfit : NUM_TMP_BLOCKS * bsize < 2 ^ 32) {blocks n : ℕ}
    (he : Enabled bsize s (.free blocks n)) :
    Served bsize s (.free blocks n) ∧ Sound bsize (next bsize s (.free blocks n)) := by
  obtain ⟨d, hd, i, hstart, hi, hone⟩ := h.regions _ he
  dsimp only at hstart hi hone
  obtain ⟨tmp, htmp, rfl⟩ := List.mem_map.mp hd
  obtain ⟨pre, post, hpool⟩ := List.append_of_mem htmp
  subst hstart
  have hfirst : i + 1 ≤ NUM_TMP_BLOCKS := by omega
  have hstartle := region_le bsize hfirst
  have hput : putBack bsize ((tmp.data + i * bsize - tmp.data) / bsize) n 0
      (tmp.data + i * bsize) tmp = .ok (returned bsize i n (tmp.data + i * bsize) tmp) := by
    rw [Nat.add_sub_cancel_left, Nat.mul_div_cancel i hb]
    apply putBack_spec (j := 0) hi
    intro k hk hk'
    have hlt : k < NUM_TMP_BLOCKS := by omega
    exact h.used tmp htmp k hlt ⟨_, he, (inside_iff hb tmp.data k i n).mpr ⟨hk, hk'⟩⟩
  have hmatch : tmp.data ≤ tmp.data + i * bsize ∧
      tmp.data + i * bsize < tmp.data + chunkSize bsize := by
    rw [chunkSize_eq hfit]
    omega
  have hpre : ∀ c ∈ pre, ¬(c.data ≤ tmp.data + i * bsize ∧
      tmp.data + i * bsize < c.data + chunkSize bsize) := by
    intro c hc
    rw [chunkSize_eq hfit]
    apply (h.others hpool (Or.inl hc)).symm.not_inside
    omega
  have hsmall : ¬((NUM_TMP_BLOCKS : ℕ) : ℤ) < n := by omega
  have heq : freeTmpBlocks bsize s.pool (some (tmp.data + i * bsize)) n =
      .ok (pre ++ returned bsize i n (tmp.data + i * bsize) tmp :: post) := by
    rw [freeTmpBlocks, hpool, if_neg hsmall, freeFrom_spec hpre hmatch hput]
  refine ⟨⟨_, heq⟩, ?_⟩
  rw [next, heq]
  exact h.give_back hb hpool hi he

theorem Sound.step {s : State} {e : Event} (h : Sound bsize s) (hb : 0 < bsize)
    (hfit : NUM_TMP_BLOCKS * bsize < 2 ^ 32) (he : Enabled bsize s e) :
    Served bsize s e ∧ Sound bsize (next bsize s e) := by
  cases e with
  | get n data => exact h.next_get hb hfit he
  | free blocks n => exact h.next_free hb hfit he

/-- What every state of a run must be like: the program goes on, the outstanding regions do not
overlap, and with none of them outstanding every block of every chunk is free. -/
structure InOrder (bsize : ℕ) (s : State) : Prop where
  halted : s.halted = none
  apart : s.out.Pairwise fun r r' => Apart r.1 (r.2 * bsize) r'.1 (r'.2 * bsize)
  free : s.out = [] → ∀ tmp ∈ s.pool, Free tmp 0 NUM_TMP_BLOCKS

theorem Sound.inOrder {s : State} (h : Sound bsize s) : InOrder bsize s where
  halted := h.halted
  apart := h.apart
  free hout tmp htmp k _ hk := by
    rw [h.unused tmp htmp k hk]
    · exact Option.some_ne_none _
    · rintro ⟨r, hr, _⟩
      rw [hout] at hr
      cases hr

/-- Every run on blocks of which sixteen fit 32 bits. -/
theorem tmp_blocks_served (hb : 0 < bsize) (hfit : NUM_TMP_BLOCKS * bsize < 2 ^ 32) (data : ℕ)
    (es : List Event) (h : EveryStep (next bsize) (Enabled bsize) (initial bsize data) es) :
    EveryStep (next bsize) (Served bsize) (initial bsize data) es ∧
    EveryState (next bsize) (InOrder bsize) (initial bsize data) es := by
  have hs := sound_initial hfit data
  constructor
  · apply everyStep_of_inv (fun s e (hs : Sound bsize s) he => (hs.step hb hfit he).2) _ hs h
    exact fun s e hs he => (hs.step hb hfit he).1
  · apply EveryState.mono fun s hs => Sound.inOrder hs
    apply everyState_of_step _ hs h
    exact fun s e hs he => (hs.step hb hfit he).2

/-- Sixteen blocks that do not fit 32 bits are handed out of a smaller chunk. -/
theorem not_served_of_wrap (hwrap : 2 ^ 32 ≤ NUM_TMP_BLOCKS * bsize) (data data' : ℕ) :
    ¬Served bsize (initial bsize data) (.get NUM_TMP_BLOCKS data') := by
  rintro ⟨blocks, pool, hget, ⟨tmp, htmp, hle, hin⟩, -⟩
  have hsize : chunkSize bsize < 2 ^ 32 := Nat.mod_lt _ (by norm_num)
  have hroom : HasRoom (freshChunk bsize data) NUM_TMP_BLOCKS :=
    ⟨0, le_rfl, fun k _ _ => by simp [freshChunk]⟩
  have hone : 1 ≤ NUM_TMP_BLOCKS := by decide
  rcases getFrom_spec hone [freshChunk bsize data] with
    ⟨pre, c, post, i, hpool, hi, -, hfrom⟩ | ⟨-, hnone⟩
  · obtain ⟨rfl, rfl, rfl⟩ : pre = [] ∧ c = freshChunk bsize data ∧ post = [] := by
      cases pre with
      | nil => simpa [eq_comm] using hpool
      | cons x pre => simp at hpool
    have heq : getTmpBlocks bsize (initial bsize data).pool NUM_TMP_BLOCKS data' =
        .ok ((freshChunk bsize data).blockPtrs i,
          [taken i NUM_TMP_BLOCKS (freshChunk bsize data)]) := by
      rw [getTmpBlocks, if_neg (lt_irrefl _)]
      exact congrArg (Except.map _) hfrom
    rw [heq] at hget
    obtain ⟨hblocks, rfl⟩ := Prod.mk.inj (Except.ok.inj hget)
    obtain rfl := List.mem_singleton.mp htmp
    simp only [taken, freshChunk] at hle hin
    omega
  · exact hnone _ List.mem_cons_self hroom

/-- Blocks of no size cannot be given back. -/
theorem not_served_of_zero : ¬EveryStep (next 0) (Served 0) (initial 0 4096)
    [.get 1 8192, .free 4096 1] := by
  rintro ⟨-, ⟨pool, hfree⟩, -⟩
  have hdie : freeTmpBlocks 0 (next 0 (initial 0 4096) (.get 1 8192)).pool (some 4096) (1 : ℕ) =
      .error .die := rfl
  rw [hdie] at hfree
  cases hfree

/-- Every run is in order if and only if the blocks have a size and sixteen of them fit 32
bits. -/
theorem tmp_blocks_in_order_iff (bsize : ℕ) :
    (∀ data es, EveryStep (next bsize) (Enabled bsize) (initial bsize data) es →
      EveryStep (next bsize) (Served bsize) (initial bsize data) es ∧
      EveryState (next bsize) (InOrder bsize) (initial bsize data) es) ↔
    0 < bsize ∧ NUM_TMP_BLOCKS * bsize < 2 ^ 32 := by
  constructor
  · intro hall
    constructor
    · by_contra hzero
      obtain rfl : bsize = 0 := by omega
      have henabled : EveryStep (next 0) (Enabled 0) (initial 0 4096)
          [.get 1 8192, .free 4096 1] :=
        ⟨⟨le_rfl, by decide, fun _ _ => le_total _ _⟩, List.mem_cons_self, trivial⟩
      exact not_served_of_zero (hall 4096 _ henabled).1
    · by_contra hwrap
      have hrun := (hall 0 [.get NUM_TMP_BLOCKS (chunkSize bsize)]
        ⟨⟨by decide, le_rfl, ?_⟩, trivial⟩).1
      · exact not_served_of_wrap (not_lt.mp hwrap) 0 _ hrun.1
      · intro tmp htmp
        obtain rfl := List.mem_singleton.mp htmp
        right
        simp
  · rintro ⟨hb, hfit⟩ data es h
    exact tmp_blocks_served hb hfit data es h

/-- With blocks of 2^28 bytes a chunk has none, and the first region to be freed is found in no
chunk. -/
theorem tmp_blocks_die :
    EveryStep (next (2 ^ 28)) (Enabled (2 ^ 28)) (initial (2 ^ 28) 4096)
      [.get 1 8192, .free 4096 1] ∧
    (runTrace (next (2 ^ 28)) (initial (2 ^ 28) 4096) [.get 1 8192, .free 4096 1]).halted =
      some .die := by
  refine ⟨⟨⟨le_rfl, by decide, ?_⟩, List.mem_cons_self, trivial⟩, rfl⟩
  intro tmp _
  exact le_total _ _

end Steps

end TemporaryBlocks
