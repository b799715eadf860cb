import Mathlib.Tactic
import Mathlib.Data.BitVec

/-! The bit vector behind the block bitmap and the inode map (`bitvector.c`).
Chunks are 32-bit words addressed by index; the buffer that holds them is total, so
its length is the business of the callers that allocate it. The search keeps the
source's three nested loops, its jumps of the outer index and its two hidden hints. -/
namespace BitVectorSearch

/-- `numbits` and `next_free` are C ints that the code keeps non-negative. -/
structure BitVector where
  numbits : ℕ
  nextFree : ℕ
  isFull : Bool
  bits : ℕ → BitVec 32

/-- Bit `j` of chunk `i`, as the tests `bits[i] & (1 << j)` read it. -/
def BitVector.test (bv : BitVector) (i j : ℕ) : Bool := (bv.bits i).getLsbD j

def BitVector.bit (bv : BitVector) (p : ℕ) : Bool := bv.test (p / 32) (p % 32)

def setChunkBit (bits : ℕ → BitVec 32) (i j : ℕ) : ℕ → BitVec 32 :=
  Function.update bits i (bits i ||| (1#32 <<< j))

def clearChunkBit (bits : ℕ → BitVec 32) (i j : ℕ) : ℕ → BitVec 32 :=
  Function.update bits i (bits i &&& ~~~(1#32 <<< j))

def setBV (bv : BitVector) (which : ℤ) : Bool × BitVector :=
  if (bv.numbits : ℤ) ≤ which ∨ which < 0 then (false, bv)
  else (true, { bv with bits := setChunkBit bv.bits (which.toNat / 32) (which.toNat % 32) })

def unSetBV (bv : BitVector) (which : ℤ) : Bool × BitVector :=
  if (bv.numbits : ℤ) ≤ which ∨ which < 0 then (false, bv)
  else (true, { bv with
    bits := clearChunkBit bv.bits (which.toNat / 32) (which.toNat % 32)
    nextFree := which.toNat })

/-- The loop of `UnSetRangeBV` over `len` bits from `k` on. -/
def clearRange (bits : ℕ → BitVec 32) (k : ℕ) : ℕ → ℕ → BitVec 32
  | 0 => bits
  | len + 1 => clearRange (clearChunkBit bits (k / 32) (k % 32)) (k + 1) len

def unSetRangeBV (bv : BitVector) (start len : ℤ) : Bool × BitVector :=
  if start < 0 ∨ len < 0 ∨ (bv.numbits : ℤ) < start + len then (false, bv)
  else (true, { bv with
    nextFree := start.toNat
    bits := clearRange bv.bits start.toNat len.toNat })

def isSetBV (bv : BitVector) (which : ℤ) : Bool :=
  if (bv.numbits : ℤ) ≤ which ∨ which < 0 then false
  else bv.test (which.toNat / 32) (which.toNat % 32)

/-- The inner loop that measures a free range from chunk `n`, bit `bit` on: it
returns `k` and the place where it stopped. The first argument is `len - k`. -/
def probe (bv : BitVector) : ℕ → ℕ → ℕ → ℕ → ℕ × ℕ × ℕ
  | 0, k, n, bit => (k, n, bit)
  | todo + 1, k, n, bit =>
    if n * 32 + bit < bv.numbits then
      if bv.test n bit then (k, n, bit)
      else if bit + 1 = 32 then probe bv todo (k + 1) (n + 1) 0
      else probe bv todo (k + 1) n (bit + 1)
    else (k, n, bit)

/-- The loop that goes back and sets the range; it also returns where it stopped. -/
def setRange (bits : ℕ → BitVec 32) : ℕ → ℕ → ℕ → (ℕ → BitVec 32) × ℕ × ℕ
  | 0, n, bit => (bits, n, bit)
  | len + 1, n, bit =>
    if bit + 1 = 32 then setRange (setChunkBit bits n bit) len (n + 1) 0
    else setRange (setChunkBit bits n bit) len n (bit + 1)

/-- How the loop over the bits of one chunk ends: a range is found, or the loop over
the chunks goes on with its index, the longest range so far and the set bits seen. -/
inductive Scan where
  | found (begin j : ℕ)
  | next (i : ℕ) (maxFree : ℤ) (nonZero : ℕ)
  deriving DecidableEq, Repr

/-- The loop over the bits `j` of chunk `begin`; after a range that is too short the
source moves `i`, `begin` and `j` behind it. Every round moves the position
`begin * 32 + j` up, which bounds the number of rounds. -/
def scanBits (bv : BitVector) (len : ℕ) : ℕ → ℕ → ℕ → ℕ → ℤ → ℕ → Scan
  | 0, i, _, _, maxFree, nonZero => .next i maxFree nonZero
  | fuel + 1, i, begin, j, maxFree, nonZero =>
    if 32 ≤ j then .next i maxFree nonZero
    else if bv.test begin j then scanBits bv len fuel i begin (j + 1) maxFree (nonZero + 1)
    else
      let (k, n, bit) := probe bv len 0 begin j
      let maxFree := if maxFree < k then (k : ℤ) else maxFree
      if bv.numbits ≤ n * 32 + bit ∧ k < len then
        .next (if begin < n then i + (n - begin) else i + 1) maxFree nonZero
      else if k < len then scanBits bv len fuel (i + (n - begin)) n (bit + 1) maxFree nonZero
      else if bv.numbits < begin * 32 + j + len then .next i maxFree nonZero
      else .found begin j

inductive Search where
  | found (begin j : ℕ)
  | missing (maxFree : ℤ) (nonZero : ℕ)
  deriving DecidableEq, Repr

/-- The loop over the chunks, which starts at `base` and wraps around. -/
def scanChunks (bv : BitVector) (len count base : ℕ) : ℕ → ℕ → ℤ → ℕ → Search
  | 0, _, maxFree, nonZero => .missing maxFree nonZero
  | fuel + 1, i, maxFree, nonZero =>
    if count ≤ i then .missing maxFree nonZero
    else
      let begin := (base + i) % count
      if bv.bits begin = BitVec.allOnes 32 then
        scanChunks bv len count base fuel (i + 1) maxFree (nonZero + 32)
      else
        match scanBits bv len (32 * count + 1) i begin 0 maxFree nonZero with
        | .found b j => .found b j
        | .next i' maxFree' nonZero' =>
          scanChunks bv len count base fuel (i' + 1) maxFree' nonZero'

def chunkCount (numbits : ℕ) : ℕ :=
  if numbits % 32 ≠ 0 then numbits / 32 + 1 else numbits / 32

/-- Returns the first bit of the range (or -1), `*biggest_free_chunk`, and the vector. -/
def getFreeRangeOfBits (bv : BitVector) (len : ℤ) : ℤ × ℤ × BitVector :=
  if len ≤ 0 ∨ (bv.numbits : ℤ) < len ∨ bv.isFull then (-1, -1, bv)
  else
    let count := chunkCount bv.numbits
    match scanChunks bv len.toNat count (bv.nextFree / 32) count 0 (-1) 0 with
    | .found begin j =>
      let start := begin * 32 + j
      let (bits, n, bit) := setRange bv.bits len.toNat begin j
      let bv' := { bv with bits := bits }
      let nextFree :=
        if n < count ∧ bv'.test n bit = false then start + len.toNat else bv.nextFree
      (start, -1, { bv' with nextFree := nextFree })
    | .missing maxFree nonZero =>
      (-1, maxFree, if bv.numbits ≤ nonZero then { bv with isFull := true } else bv)

theorem getLsbD_one_shift (j m : ℕ) (hj : j < 32) :
    (1#32 <<< j).getLsbD m = decide (m = j) := by
  by_cases hm : m < 32
  · have hb : m - j = 0 ↔ m ≤ j := by omega
    by_cases he : m = j
    · subst he; simp [hm]
    · have : m < j ∨ ¬ m - j = 0 := by omega
      simp only [BitVec.getLsbD_shiftLeft, hm, decide_true, Bool.true_and, BitVec.getLsbD_one,
        he, decide_false]
      rcases this with h | h <;> simp [h]
  · have he : m ≠ j := by omega
    simp [hm, he]

/-- Bit `p` of a chunk buffer. -/
def bitOf (bits : ℕ → BitVec 32) (p : ℕ) : Bool := (bits (p / 32)).getLsbD (p % 32)

theorem bit_eq_bitOf (bv : BitVector) (p : ℕ) : bv.bit p = bitOf bv.bits p := rfl

theorem test_eq_bit (bv : BitVector) {i j : ℕ} (hj : j < 32) :
    bv.test i j = bv.bit (i * 32 + j) := by
  have hd : (i * 32 + j) / 32 = i := by omega
  have hm : (i * 32 + j) % 32 = j := by omega
  simp only [BitVector.bit, hd, hm]

theorem bitOf_setChunkBit (bits : ℕ → BitVec 32) {i j : ℕ} (hj : j < 32) (p : ℕ) :
    bitOf (setChunkBit bits i j) p = (bitOf bits p || decide (p = i * 32 + j)) := by
  unfold bitOf setChunkBit
  by_cases hi : p / 32 = i
  · subst hi
    have he : p % 32 = j ↔ p = p / 32 * 32 + j := by omega
    simp [getLsbD_one_shift _ _ hj, he]
  · have hp : p ≠ i * 32 + j := by omega
    simp [Function.update_of_ne hi, hp]

theorem bitOf_clearChunkBit (bits : ℕ → BitVec 32) {i j : ℕ} (hj : j < 32) (p : ℕ) :
    bitOf (clearChunkBit bits i j) p = (bitOf bits p && !decide (p = i * 32 + j)) := by
  unfold bitOf clearChunkBit
  by_cases hi : p / 32 = i
  · subst hi
    have he : p % 32 = j ↔ p = p / 32 * 32 + j := by omega
    have hm : p % 32 < 32 := by omega
    rw [Function.update_self, BitVec.getLsbD_and, BitVec.getLsbD_not,
      getLsbD_one_shift _ _ hj]
    simp only [hm, he, decide_true, Bool.true_and]
  · have hp : p ≠ i * 32 + j := by omega
    simp [Function.update_of_ne hi, hp]

theorem bitOf_clearRange (bits : ℕ → BitVec 32) (k len p : ℕ) :
    bitOf (clearRange bits k len) p = (bitOf bits p && !decide (k ≤ p ∧ p < k + len)) := by
  induction len generalizing bits k with
  | zero => simp [clearRange]; omega
  | succ len ih =>
    rw [clearRange, ih, bitOf_clearChunkBit _ (by omega)]
    have hk : k / 32 * 32 + k % 32 = k := by omega
    rw [hk]
    by_cases hp : p = k
    · simp [hp]
    · have : (k + 1 ≤ p ∧ p < k + 1 + len) ↔ (k ≤ p ∧ p < k + (len + 1)) := by omega
      simp only [hp, this, decide_false, Bool.not_false, Bool.and_true]

theorem setRange_spec (bits : ℕ → BitVec 32) (len n bit : ℕ) (hb : bit < 32) :
    (∀ p, bitOf (setRange bits len n bit).1 p =
      (bitOf bits p || decide (n * 32 + bit ≤ p ∧ p < n * 32 + bit + len))) ∧
    (setRange bits len n bit).2.1 * 32 + (setRange bits len n bit).2.2 = n * 32 + bit + len ∧
    (setRange bits len n bit).2.2 < 32 := by
  induction len generalizing bits n bit with
  | zero => simp [setRange, hb]
  | succ len ih =>
    have key : ∀ p m, m = n * 32 + bit + 1 →
        ((bitOf bits p || decide (p = n * 32 + bit)) || decide (m ≤ p ∧ p < m + len)) =
        (bitOf bits p || decide (n * 32 + bit ≤ p ∧ p < n * 32 + bit + (len + 1))) := by
      intro p m hm
      have : (n * 32 + bit ≤ p ∧ p < n * 32 + bit + (len + 1)) ↔
          (p = n * 32 + bit ∨ (m ≤ p ∧ p < m + len)) := by omega
      simp [this, Bool.or_assoc]
    rw [setRange]
    split
    · obtain ⟨h₁, h₂, h₃⟩ := ih (setChunkBit bits n bit) (n + 1) 0 (by omega)
      refine ⟨fun p => ?_, by omega, h₃⟩
      rw [h₁, bitOf_setChunkBit _ hb]
      exact key p _ (by omega)
    · obtain ⟨h₁, h₂, h₃⟩ := ih (setChunkBit bits n bit) n (bit + 1) (by omega)
      refine ⟨fun p => ?_, by omega, h₃⟩
      rw [h₁, bitOf_setChunkBit _ hb]
      exact key p _ (by omega)

/-- The probe stops behind a run of clear bits below `numbits`; short of `len` bits it
stops at the end of the vector or at a set bit. -/
theorem probe_spec (bv : BitVector) (todo k n bit : ℕ) (hb : bit < 32) :
    ∃ m, (probe bv todo k n bit).1 = k + m ∧ m ≤ todo ∧
      (probe bv todo k n bit).2.1 * 32 + (probe bv todo k n bit).2.2 = n * 32 + bit + m ∧
      (probe bv todo k n bit).2.2 < 32 ∧ n ≤ (probe bv todo k n bit).2.1 ∧
      (∀ p, n * 32 + bit ≤ p → p < n * 32 + bit + m → bv.bit p = false ∧ p < bv.numbits) ∧
      (m < todo → bv.numbits ≤ n * 32 + bit + m ∨ bv.bit (n * 32 + bit + m) = true) := by
  induction todo generalizing k n bit with
  | zero => exact ⟨0, by simp [probe, hb]; omega⟩
  | succ todo ih =>
    rw [probe]
    split
    · rename_i hlt
      split
      · rename_i ht
        rw [test_eq_bit _ hb] at ht
        exact ⟨0, by simp [hb, ht]; omega⟩
      · rename_i ht
        rw [test_eq_bit _ hb, Bool.not_eq_true] at ht
        split
        · obtain ⟨m, h₁, h₂, h₃, h₄, h₅, h₆, h₇⟩ := ih (k + 1) (n + 1) 0 (by omega)
          have hn : (n + 1) * 32 + 0 = n * 32 + bit + 1 := by omega
          rw [hn] at h₃ h₆ h₇
          refine ⟨m + 1, by omega, by omega, by omega, h₄, by omega, fun p hp hq => ?_,
            fun h => ?_⟩
          · rcases Nat.eq_or_lt_of_le hp with he | he
            · subst he; exact ⟨ht, hlt⟩
            · exact h₆ p (by omega) (by omega)
          · have := h₇ (by omega)
            rwa [show n * 32 + bit + 1 + m = n * 32 + bit + (m + 1) by omega] at this
        · obtain ⟨m, h₁, h₂, h₃, h₄, h₅, h₆, h₇⟩ := ih (k + 1) n (bit + 1) (by omega)
          refine ⟨m + 1, by omega, by omega, by omega, h₄, h₅, fun p hp hq => ?_, fun h => ?_⟩
          · rcases Nat.eq_or_lt_of_le hp with he | he
            · subst he; exact ⟨ht, hlt⟩
            · exact h₆ p (by omega) (by omega)
          · have := h₇ (by omega)
            rwa [show n * 32 + (bit + 1) + m = n * 32 + bit + (m + 1) by omega] at this
    · rename_i hge
      refine ⟨0, rfl, by omega, rfl, hb, le_refl _, fun p _ _ => by omega, fun _ => Or.inl ?_⟩
      omega

/-- A found range is clear, has the wanted length and lies inside the vector. -/
theorem scanBits_found {bv : BitVector} {len fuel i begin j : ℕ} {m : ℤ} {z b c : ℕ}
    (h : scanBits bv len fuel i begin j m z = .found b c) :
    c < 32 ∧ b * 32 + c + len ≤ bv.numbits ∧
      ∀ p, b * 32 + c ≤ p → p < b * 32 + c + len → bv.bit p = false := by
  induction fuel generalizing i begin j m z with
  | zero => simp [scanBits] at h
  | succ fuel ih =>
    rw [scanBits] at h
    split at h
    · cases h
    · rename_i hj
      split at h
      · exact ih h
      · obtain ⟨d, hk, hd, hpos, _, _, hclear, _⟩ := probe_spec bv len 0 begin j (by omega)
        obtain ⟨k, n, bit⟩ := probe bv len 0 begin j
        simp only [Nat.zero_add] at hk hpos h
        split at h
        · cases h
        · split at h
          · exact ih h
          · rename_i hge
            split at h
            · cases h
            · cases h
              have hl : d = len := by omega
              subst hl
              exact ⟨by omega, by omega, fun p hp hq => (hclear p hp hq).1⟩

theorem scanChunks_found {bv : BitVector} {len count base fuel i : ℕ} {m : ℤ} {z b c : ℕ}
    (h : scanChunks bv len count base fuel i m z = .found b c) :
    c < 32 ∧ b * 32 + c + len ≤ bv.numbits ∧
      ∀ p, b * 32 + c ≤ p → p < b * 32 + c + len → bv.bit p = false := by
  induction fuel generalizing i m z with
  | zero => simp [scanChunks] at h
  | succ fuel ih =>
    rw [scanChunks] at h
    split at h
    · cases h
    · dsimp only at h
      split at h
      · exact ih h
      · split at h
        · rename_i hs
          cases h
          exact scanBits_found hs
        · exact ih h

/-- The vector after a search that returned `start`. -/
structure RangeTaken (bv bv' : BitVector) (start len : ℕ) : Prop where
  inside : start + len ≤ bv.numbits
  clear : ∀ p, start ≤ p → p < start + len → bv.bit p = false
  bits : ∀ p, bv'.bit p = (bv.bit p || decide (start ≤ p ∧ p < start + len))
  numbits : bv'.numbits = bv.numbits
  isFull : bv'.isFull = false
  nextFree : bv'.nextFree = bv.nextFree ∨ bv'.nextFree = start + len

/-- The two outcomes of the search, with everything it may change. -/
theorem getFreeRangeOfBits_cases (bv : BitVector) (len : ℤ) :
    (∃ start : ℕ, (getFreeRangeOfBits bv len).1 = start ∧ 0 < len ∧ bv.isFull = false ∧
      RangeTaken bv (getFreeRangeOfBits bv len).2.2 start len.toNat) ∨
    ((getFreeRangeOfBits bv len).1 = -1 ∧
      ∃ full, (getFreeRangeOfBits bv len).2.2 = { bv with isFull := full } ∧
        (bv.isFull = true → full = true)) := by
  unfold getFreeRangeOfBits
  split
  · exact Or.inr ⟨rfl, bv.isFull, rfl, id⟩
  · rename_i hguard
    simp only [not_or, not_le, not_lt, Bool.not_eq_true] at hguard
    obtain ⟨hpos, _, hnot⟩ := hguard
    dsimp only
    split
    · rename_i b c hs
      obtain ⟨hc, hin, hclear⟩ := scanChunks_found hs
      obtain ⟨hbits, _, _⟩ := setRange_spec bv.bits len.toNat b c hc
      refine Or.inl ⟨b * 32 + c, by push_cast; rfl, hpos, hnot, ⟨hin, hclear, hbits, rfl, hnot, ?_⟩⟩
      dsimp only
      split
      · exact Or.inr rfl
      · exact Or.inl rfl
    · refine Or.inr ⟨rfl, ?_⟩
      dsimp only
      split
      · exact ⟨true, rfl, fun _ => rfl⟩
      · exact ⟨bv.isFull, rfl, id⟩

/-- A one-bit search of a chunk: it takes the first clear bit below `numbits`; when it
meets a clear bit behind the end instead, it moves the chunk index by one too many. -/
theorem scanBits_one (bv : BitVector) (fuel i begin j : ℕ) (m : ℤ) (z : ℕ)
    (hf : 33 ≤ fuel + j) :
    (∃ c, scanBits bv 1 fuel i begin j m z = .found begin c) ∨
    (∃ i' m' z', scanBits bv 1 fuel i begin j m z = .next i' m' z' ∧
      (∀ c, j ≤ c → c < 32 → begin * 32 + c < bv.numbits → bv.test begin c = true) ∧
      (i' = i ∧ (∀ c, j ≤ c → c < 32 → bv.test begin c = true) ∨
        i' = i + 1 ∧ bv.numbits < begin * 32 + 32)) := by
  induction fuel generalizing j m z with
  | zero => exact Or.inr ⟨i, m, z, rfl, fun c _ _ _ => by omega,
      Or.inl ⟨rfl, fun c _ _ => by omega⟩⟩
  | succ fuel ih =>
    rw [scanBits]
    split
    · exact Or.inr ⟨i, m, z, rfl, fun c _ _ _ => by omega,
        Or.inl ⟨rfl, fun c _ _ => by omega⟩⟩
    · rename_i hj
      split
      · rename_i ht
        have here : ∀ c, j ≤ c → c ≠ j → j + 1 ≤ c := fun c _ _ => by omega
        rcases ih (j + 1) m (z + 1) (by omega) with ⟨c, hc⟩ | ⟨i', m', z', hs, hall, hend⟩
        · exact Or.inl ⟨c, hc⟩
        · refine Or.inr ⟨i', m', z', hs, fun c hc hc' hn => ?_, ?_⟩
          · by_cases he : c = j
            · rw [he]; exact ht
            · exact hall c (here c hc he) hc' hn
          · rcases hend with ⟨hi, ha⟩ | hend
            · refine Or.inl ⟨hi, fun c hc hc' => ?_⟩
              by_cases he : c = j
              · rw [he]; exact ht
              · exact ha c (here c hc he) hc'
            · exact Or.inr hend
      · rename_i ht
        obtain ⟨d, hk, hd, hpos, hbit, hle, hclear, hstop⟩ := probe_spec bv 1 0 begin j (by omega)
        generalize probe bv 1 0 begin j = r at hk hpos hbit hle ⊢
        obtain ⟨k, n, bit⟩ := r
        simp only [Nat.zero_add] at hk hpos hbit hle
        rw [Bool.not_eq_true, test_eq_bit _ (by omega)] at ht
        by_cases hn : begin * 32 + j < bv.numbits
        · refine Or.inl ⟨j, ?_⟩
          have hone : k = 1 := by
            rcases Nat.lt_or_ge d 1 with hlt | hge
            · have hz : d = 0 := by omega
              subst hz
              rcases hstop hlt with h | h
              · omega
              · rw [Nat.add_zero, ht] at h; cases h
            · omega
          have hfit : ¬ bv.numbits < begin * 32 + j + 1 := by omega
          simp [hone, hfit]
        · have hzero : k = 0 := by
            by_contra hne
            exact hn (hclear (begin * 32 + j) le_rfl (by omega)).2
          have hge : bv.numbits ≤ n * 32 + bit := by omega
          have hsame : ¬ begin < n := by omega
          simp only [hzero, hge, hsame, Nat.lt_one_iff, and_self, if_true, if_false]
          exact Or.inr ⟨i + 1, _, z, rfl, fun c _ _ _ => by omega, Or.inr ⟨rfl, by omega⟩⟩

theorem chunkCount_bounds (numbits : ℕ) :
    numbits ≤ 32 * chunkCount numbits ∧ 32 * chunkCount numbits < numbits + 32 ∧
      (numbits % 32 = 0 → 32 * chunkCount numbits = numbits) := by
  unfold chunkCount
  split <;> omega

theorem test_of_allOnes {bv : BitVector} {i c : ℕ} (h : bv.bits i = BitVec.allOnes 32)
    (hc : c < 32) : bv.test i c = true := by
  rw [BitVector.test, h, BitVec.getLsbD_allOnes, decide_eq_true hc]

theorem allOnes_of_test {bv : BitVector} {i : ℕ} (h : ∀ c < 32, bv.test i c = true) :
    bv.bits i = BitVec.allOnes 32 := by
  apply BitVec.eq_of_getLsbD_eq
  intro c hc
  rw [BitVec.getLsbD_allOnes, decide_eq_true hc]
  exact h c hc

/-- A failed one-bit search has seen every chunk on its way to be used up, but for
chunk 0 when the wrap-around jumps over it. -/
theorem scanChunks_one_missing {bv : BitVector} {base fuel i : ℕ} {m : ℤ} {z : ℕ}
    {m' : ℤ} {z' : ℕ} (hf : chunkCount bv.numbits ≤ fuel + i)
    (h : scanChunks bv 1 (chunkCount bv.numbits) base fuel i m z = .missing m' z') :
    ∀ i', i ≤ i' → i' < chunkCount bv.numbits → ∀ c < 32,
      (base + i') % chunkCount bv.numbits * 32 + c < bv.numbits →
      bv.test ((base + i') % chunkCount bv.numbits) c = true ∨
        (i' ≠ i ∧ (base + i') % chunkCount bv.numbits = 0 ∧ bv.numbits % 32 ≠ 0) := by
  obtain ⟨_, hup, hzero⟩ := chunkCount_bounds bv.numbits
  induction fuel generalizing i m z with
  | zero => intro i' _ _; omega
  | succ fuel ih =>
    rw [scanChunks] at h
    split at h
    · intro i' _ _; omega
    · rename_i hi
      have hpos : 0 < chunkCount bv.numbits := by omega
      dsimp only at h
      split at h
      · rename_i hones
        intro i' hle hlt c hc hn
        by_cases he : i' = i
        · subst he; exact Or.inl (test_of_allOnes hones hc)
        · rcases ih (by omega) h i' (by omega) hlt c hc hn with hb | ⟨_, hb⟩
          · exact Or.inl hb
          · exact Or.inr ⟨he, hb⟩
      · have hmod := Nat.mod_lt (base + i) hpos
        rcases scanBits_one bv (32 * chunkCount bv.numbits + 1) i
            ((base + i) % chunkCount bv.numbits) 0 m z (by omega) with
          ⟨c, hs⟩ | ⟨i₁, m₁, z₁, hs, hall, hend⟩
        · rw [hs] at h; cases h
        · rw [hs] at h
          dsimp only at h
          intro i' hle hlt c hc hn
          by_cases he : i' = i
          · subst he; exact Or.inl (hall c (by omega) hc hn)
          · rcases hend with ⟨rfl, _⟩ | ⟨rfl, hlast⟩
            · rcases ih (by omega) h i' (by omega) hlt c hc hn with hb | ⟨_, hb⟩
              · exact Or.inl hb
              · exact Or.inr ⟨he, hb⟩
            · by_cases hskip : i' = i + 1
              · -- the chunk behind the last one is chunk 0, and the jump leaves it out
                subst hskip
                have hl : (base + i) % chunkCount bv.numbits + 1 = chunkCount bv.numbits := by
                  omega
                have hw : (base + (i + 1)) % chunkCount bv.numbits = 0 := by
                  rw [← Nat.add_assoc, Nat.add_mod, ← Nat.add_mod, ← Nat.mod_add_mod, hl,
                    Nat.mod_self]
                exact Or.inr ⟨by omega, hw, by omega⟩
              · rcases ih (by omega) h i' (by omega) hlt c hc hn with hb | ⟨_, hb⟩
                · exact Or.inl hb
                · exact Or.inr ⟨he, hb⟩

/-- The vector is used up below `numbits`. -/
def AllSet (bv : BitVector) : Prop := ∀ p < bv.numbits, bv.bit p = true

def TailClear (bv : BitVector) : Prop :=
  ∀ p, bv.numbits ≤ p → p < 32 * chunkCount bv.numbits → bv.bit p = false

/-- The search starts behind chunk 0, finds nothing up to the end of a vector whose last
chunk is not filled, and then wraps around to chunk 1. -/
structure SkipsChunkZero (bv : BitVector) : Prop where
  ragged : bv.numbits % 32 ≠ 0
  hint : 32 ≤ bv.nextFree
  used : ∀ p, 32 ≤ p → p < bv.numbits → bv.bit p = true

theorem scanChunks_one_ones {bv : BitVector} {count base : ℕ} (fuel i : ℕ) (m : ℤ) (z : ℕ)
    (h : ∀ i', i ≤ i' → i' < count → bv.bits ((base + i') % count) = BitVec.allOnes 32) :
    ∃ m' z', scanChunks bv 1 count base fuel i m z = .missing m' z' := by
  induction fuel generalizing i m z with
  | zero => exact ⟨m, z, rfl⟩
  | succ fuel ih =>
    rw [scanChunks]
    split
    · exact ⟨m, z, rfl⟩
    · rename_i hi
      dsimp only
      rw [if_pos (h i le_rfl (by omega))]
      exact ih _ _ _ fun i' hle hlt => h i' (by omega) hlt

theorem SkipsChunkZero.allOnes {bv : BitVector} (h : SkipsChunkZero bv) {c : ℕ}
    (hc : 1 ≤ c) (hl : c + 1 < chunkCount bv.numbits) : bv.bits c = BitVec.allOnes 32 := by
  obtain ⟨_, hup, _⟩ := chunkCount_bounds bv.numbits
  refine allOnes_of_test fun d hd => ?_
  rw [test_eq_bit _ hd]
  exact h.used _ (by omega) (by omega)

theorem SkipsChunkZero.missing {bv : BitVector} (h : SkipsChunkZero bv) (ht : TailClear bv)
    (base fuel i : ℕ) (m : ℤ) (z : ℕ) (hb : 1 ≤ base)
    (hi : base + i < chunkCount bv.numbits) :
    ∃ m' z', scanChunks bv 1 (chunkCount bv.numbits) base fuel i m z = .missing m' z' := by
  obtain ⟨hlo, hup, _⟩ := chunkCount_bounds bv.numbits
  induction fuel generalizing i m z with
  | zero => exact ⟨m, z, rfl⟩
  | succ fuel ih =>
    rw [scanChunks, if_neg (by omega)]
    dsimp only
    rw [Nat.mod_eq_of_lt hi]
    by_cases hlast : base + i + 1 < chunkCount bv.numbits
    · rw [if_pos (h.allOnes (by omega) hlast)]
      exact ih _ _ _ (by omega)
    · -- the last chunk: bit `numbits` is clear, so the index moves on by two
      have hragged := h.ragged
      have hend : bv.test (base + i) (bv.numbits % 32) = false := by
        rw [test_eq_bit _ (by omega)]
        exact ht _ (by omega) (by omega)
      have hones : bv.bits (base + i) ≠ BitVec.allOnes 32 := by
        intro he
        rw [test_of_allOnes he (by omega)] at hend
        cases hend
      rw [if_neg hones]
      rcases scanBits_one bv (32 * chunkCount bv.numbits + 1) i (base + i) 0 m z (by omega) with
        ⟨c, hs⟩ | ⟨i₁, m₁, z₁, hs, _, ⟨_, hall⟩ | ⟨rfl, _⟩⟩
      · obtain ⟨hc, hin, hclear⟩ := scanBits_found hs
        have := h.used _ (show 32 ≤ (base + i) * 32 + c by omega) (by omega)
        rw [hclear _ le_rfl (by omega)] at this
        cases this
      · rw [hall _ (by omega) (by omega)] at hend
        cases hend
      · rw [hs]
        refine scanChunks_one_ones _ _ _ _ fun i' hle hlt => ?_
        have hw : (base + i') % chunkCount bv.numbits = base + i' - chunkCount bv.numbits := by
          rw [Nat.mod_eq_sub_mod (by omega), Nat.mod_eq_of_lt (by omega)]
        rw [hw]
        exact h.allOnes (by omega) (by omega)

/-- When a search for one bit fails: exactly on a vector marked full, on one that is used
up, and on one where the free bits are all in the chunk that the wrap-around skips. -/
theorem one_bit_fails_iff {bv : BitVector} (hn : 1 ≤ bv.numbits) (hnext : bv.nextFree ≤ bv.numbits)
    (ht : TailClear bv) :
    (getFreeRangeOfBits bv 1).1 = -1 ↔
      bv.isFull = true ∨ AllSet bv ∨ SkipsChunkZero bv := by
  obtain ⟨hlo, hup, hzero⟩ := chunkCount_bounds bv.numbits
  constructor
  · intro hfail
    unfold getFreeRangeOfBits at hfail
    split at hfail
    · rename_i hg
      rcases hg with h | h | h
      · omega
      · omega
      · exact Or.inl h
    · refine Or.inr ?_
      dsimp only at hfail
      split at hfail
      · dsimp only at hfail; omega
      · rename_i m z hs
        have hseen := scanChunks_one_missing (by simp) hs
        have hpos : 0 < chunkCount bv.numbits := by omega
        have used : ∀ p < bv.numbits, bv.bit p = false →
            p < 32 ∧ bv.numbits % 32 ≠ 0 ∧ 32 ≤ bv.nextFree := by
          intro p hp hclear
          obtain ⟨i, hi, hmod⟩ : ∃ i < chunkCount bv.numbits,
              (bv.nextFree / 32 + i) % chunkCount bv.numbits = p / 32 := by
            by_cases hge : bv.nextFree / 32 ≤ p / 32
            · exact ⟨p / 32 - bv.nextFree / 32, by omega, by
                rw [Nat.add_sub_cancel' hge, Nat.mod_eq_of_lt (by omega)]⟩
            · refine ⟨p / 32 + chunkCount bv.numbits - bv.nextFree / 32, by omega, ?_⟩
              rw [Nat.add_sub_cancel' (by omega), Nat.add_mod_right, Nat.mod_eq_of_lt (by omega)]
          have := hseen i (by omega) hi (p % 32) (by omega) (by rw [hmod]; omega)
          rw [hmod] at this
          rcases this with hset | ⟨hi0, hc0, hr⟩
          · rw [← BitVector.bit, hclear] at hset; cases hset
          · refine ⟨by omega, hr, ?_⟩
            by_contra hlt
            have hb : bv.nextFree / 32 = 0 := by omega
            rw [hb, Nat.zero_add, Nat.mod_eq_of_lt hi] at hmod
            omega
        by_cases hall : AllSet bv
        · exact Or.inl hall
        · simp only [AllSet, not_forall, Bool.not_eq_true] at hall
          obtain ⟨p, hp, hclear⟩ := hall
          refine Or.inr ⟨(used p hp hclear).2.1, (used p hp hclear).2.2, fun q hq hqn => ?_⟩
          by_contra hset
          have := (used q hqn (by simpa using hset)).1
          omega
  · rintro (hfull | hall | hskip)
    · simp [getFreeRangeOfBits, hfull]
    · rcases getFreeRangeOfBits_cases bv 1 with ⟨start, hs, _, _, htaken⟩ | ⟨hs, _⟩
      · have hin := htaken.inside
        simp only [Int.toNat_one] at hin htaken
        have := htaken.clear start le_rfl (by omega)
        rw [hall start (by omega)] at this
        cases this
      · exact hs
    · unfold getFreeRangeOfBits
      split
      · rfl
      · have hhint := hskip.hint
        have hr := hskip.ragged
        obtain ⟨m, z, hs⟩ := hskip.missing ht (bv.nextFree / 32)
          (chunkCount bv.numbits) 0 (-1) 0 (by omega) (by omega)
        simp only [Int.toNat_one, hs]

section Locality
variable {bv : BitVector} {g : ℕ → BitVec 32}

theorem chunk_lt_of_bit {n b : ℕ} (h : n * 32 + b < bv.numbits) :
    n < chunkCount bv.numbits := by
  have := (chunkCount_bounds bv.numbits).1
  omega

/-- Two buffers are the same below the chunks that the vector needs. -/
def SameChunks (bv : BitVector) (g : ℕ → BitVec 32) : Prop :=
  ∀ i < chunkCount bv.numbits, g i = bv.bits i

theorem SameChunks.test (h : SameChunks bv g) {i : ℕ} (hi : i < chunkCount bv.numbits) (j : ℕ) :
    ({ bv with bits := g } : BitVector).test i j = bv.test i j := by
  unfold BitVector.test
  dsimp only
  rw [h i hi]

theorem SameChunks.probe (h : SameChunks bv g) (todo k n bit : ℕ) :
    probe { bv with bits := g } todo k n bit = probe bv todo k n bit := by
  induction todo generalizing k n bit with
  | zero => rfl
  | succ todo ih =>
    rw [BitVectorSearch.probe, BitVectorSearch.probe]
    by_cases hin : n * 32 + bit < bv.numbits
    · rw [if_pos hin, if_pos hin, h.test (chunk_lt_of_bit hin), ih, ih]
    · rw [if_neg hin, if_neg hin]

theorem SameChunks.scanBits (h : SameChunks bv g) (len fuel i begin j : ℕ) (m : ℤ) (z : ℕ)
    (hbegin : begin < chunkCount bv.numbits) :
    scanBits { bv with bits := g } len fuel i begin j m z = scanBits bv len fuel i begin j m z := by
  induction fuel generalizing i begin j m z with
  | zero => rfl
  | succ fuel ih =>
    rw [BitVectorSearch.scanBits, BitVectorSearch.scanBits, h.test hbegin, h.probe]
    by_cases hj : 32 ≤ j
    · rw [if_pos hj, if_pos hj]
    rw [if_neg hj, if_neg hj]
    by_cases ht : bv.test begin j = true
    · rw [if_pos ht, if_pos ht, ih _ _ _ _ _ hbegin]
    rw [if_neg ht, if_neg ht]
    obtain ⟨k, n, bit⟩ := BitVectorSearch.probe bv len 0 begin j
    dsimp only
    by_cases hend : bv.numbits ≤ n * 32 + bit ∧ k < len
    · rw [if_pos hend, if_pos hend]
    rw [if_neg hend, if_neg hend]
    by_cases hk : k < len
    · rw [if_pos hk, if_pos hk]
      refine ih _ _ _ _ _ (chunk_lt_of_bit (b := bit) ?_)
      omega
    · rw [if_neg hk, if_neg hk]

theorem SameChunks.scanChunks (h : SameChunks bv g) (len base fuel i : ℕ) (m : ℤ) (z : ℕ) :
    scanChunks { bv with bits := g } len (chunkCount bv.numbits) base fuel i m z =
      scanChunks bv len (chunkCount bv.numbits) base fuel i m z := by
  induction fuel generalizing i m z with
  | zero => rfl
  | succ fuel ih =>
    rw [BitVectorSearch.scanChunks, BitVectorSearch.scanChunks]
    by_cases hi : chunkCount bv.numbits ≤ i
    · rw [if_pos hi, if_pos hi]
    rw [if_neg hi, if_neg hi]
    have hbegin : (base + i) % chunkCount bv.numbits < chunkCount bv.numbits :=
      Nat.mod_lt _ (by omega)
    have hg := h _ hbegin
    dsimp only
    by_cases hones : bv.bits ((base + i) % chunkCount bv.numbits) = BitVec.allOnes 32
    · rw [if_pos hones, if_pos (hg.trans hones), ih]
    rw [if_neg hones, if_neg fun hc => hones (hg.symm.trans hc), h.scanBits _ _ _ _ _ _ _ hbegin]
    split
    · rfl
    · exact ih _ _ _

theorem chunk_eq_of_bits {f f' : ℕ → BitVec 32} {i : ℕ}
    (h : ∀ p, p / 32 = i → bitOf f p = bitOf f' p) : f i = f' i := by
  refine BitVec.eq_of_getLsbD_eq fun c hc => ?_
  have := h (i * 32 + c) (by omega)
  unfold bitOf at this
  rwa [show (i * 32 + c) / 32 = i by omega, show (i * 32 + c) % 32 = c by omega] at this

/-- The search looks at and changes the chunks of the vector only: with another buffer behind
them it does the same, and it leaves what is behind them. -/
theorem getFreeRangeOfBits_local (h : SameChunks bv g) (len : ℤ) :
    (getFreeRangeOfBits { bv with bits := g } len).1 = (getFreeRangeOfBits bv len).1 ∧
    (getFreeRangeOfBits { bv with bits := g } len).2.1 = (getFreeRangeOfBits bv len).2.1 ∧
    ∃ g', (getFreeRangeOfBits { bv with bits := g } len).2.2 =
        { (getFreeRangeOfBits bv len).2.2 with bits := g' } ∧
      ∀ i, g' i = if i < chunkCount bv.numbits then (getFreeRangeOfBits bv len).2.2.bits i
        else g i := by
  unfold getFreeRangeOfBits
  dsimp only
  by_cases hguard : len ≤ 0 ∨ (bv.numbits : ℤ) < len ∨ bv.isFull = true
  · rw [if_pos hguard, if_pos hguard]
    refine ⟨rfl, rfl, g, rfl, fun i => ?_⟩
    split
    · rename_i hi
      exact h i hi
    · rfl
  rw [if_neg hguard, if_neg hguard, h.scanChunks]
  cases hscan : BitVectorSearch.scanChunks bv len.toNat (chunkCount bv.numbits)
    (bv.nextFree / 32) (chunkCount bv.numbits) 0 (-1) 0 with
  | missing maxFree nonZero =>
    dsimp only
    refine ⟨rfl, rfl, g, ?_, fun i => ?_⟩
    · split <;> rfl
    · have hbits : (if bv.numbits ≤ nonZero then { bv with isFull := true } else bv).bits =
          bv.bits := by split <;> rfl
      rw [hbits]
      split
      · rename_i hi
        exact h i hi
      · rfl
  | found b j =>
    obtain ⟨hj, hin, _⟩ := scanChunks_found hscan
    dsimp only
    obtain ⟨hspec, hend, hlt⟩ := setRange_spec bv.bits len.toNat b j hj
    obtain ⟨hspec', hend', hlt'⟩ := setRange_spec g len.toNat b j hj
    have hcap := (chunkCount_bounds bv.numbits).1
    have hstop : (setRange g len.toNat b j).2 = (setRange bv.bits len.toNat b j).2 := by
      refine Prod.ext ?_ ?_
      · omega
      · omega
    have hbits : ∀ i, (setRange g len.toNat b j).1 i =
        if i < chunkCount bv.numbits then (setRange bv.bits len.toNat b j).1 i else g i := by
      intro i
      split
      · rename_i hi
        refine chunk_eq_of_bits fun p hp => ?_
        rw [hspec, hspec']
        unfold bitOf
        rw [hp, h i hi]
      · rename_i hi
        refine chunk_eq_of_bits fun p hp => ?_
        rw [hspec', decide_eq_false (by omega), Bool.or_false]
    rcases hs : setRange bv.bits len.toNat b j with ⟨bits, n, bit⟩
    rcases hs' : setRange g len.toNat b j with ⟨bits', n', bit'⟩
    rw [hs, hs'] at hbits hstop
    simp only [Prod.mk.injEq] at hbits hstop
    obtain ⟨rfl, rfl⟩ := hstop
    refine ⟨rfl, rfl, bits', ?_, hbits⟩
    dsimp only
    congr 1
    by_cases hn : n' < chunkCount bv.numbits
    · have htest : ({ bv with bits := bits' } : BitVector).test n' bit' =
          ({ bv with bits := bits } : BitVector).test n' bit' := by
        unfold BitVector.test
        dsimp only
        rw [hbits n', if_pos hn]
      rw [htest]
    · rw [if_neg fun hc => hn hc.1, if_neg fun hc => hn hc.1]

theorem getFreeRangeOfBits_outside (bv : BitVector) (len : ℤ) {i : ℕ}
    (hi : ¬i < chunkCount bv.numbits) : (getFreeRangeOfBits bv len).2.2.bits i = bv.bits i := by
  have hsame : SameChunks bv bv.bits := fun _ _ => rfl
  obtain ⟨_, _, g', hbv, hg'⟩ := getFreeRangeOfBits_local hsame len
  have hbits : (getFreeRangeOfBits bv len).2.2.bits = g' := congrArg BitVector.bits hbv
  rw [hbits, hg', if_neg hi]

end Locality

end BitVectorSearch
