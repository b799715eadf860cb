import FsKit.BitVectorSearch

/-! `GetFreeRangeOfBits` with its hazards visible: every access to the chunk buffer is
checked against the chunks that `numbits` needs, the counter `real_count` and its panic are
there, and a loop that would not end is an error of its own. The plain model is what is left
when none of these occurs. -/
namespace CheckedSearch
open BitVectorSearch

inductive Fault where
  | chunkIndex (i : ℕ)
  | bitmapLoop
  | endless
  deriving DecidableEq, Repr

/-- `bits[i]` of a buffer with just enough chunks. -/
def chunkAt (bv : BitVector) (i : ℕ) : Except Fault (BitVec 32) :=
  if i < chunkCount bv.numbits then .ok (bv.bits i) else .error (.chunkIndex i)

def testAt (bv : BitVector) (i j : ℕ) : Except Fault Bool :=
  (chunkAt bv i).map fun c => c.getLsbD j

def probeAt (bv : BitVector) : ℕ → ℕ → ℕ → ℕ → Except Fault (ℕ × ℕ × ℕ)
  | 0, k, n, bit => .ok (k, n, bit)
  | todo + 1, k, n, bit =>
    if n * 32 + bit < bv.numbits then do
      if ← testAt bv n bit then .ok (k, n, bit)
      else if bit + 1 = 32 then probeAt bv todo (k + 1) (n + 1) 0
      else probeAt bv todo (k + 1) n (bit + 1)
    else .ok (k, n, bit)

def setRangeAt (count : ℕ) (bits : ℕ → BitVec 32) :
    ℕ → ℕ → ℕ → Except Fault ((ℕ → BitVec 32) × ℕ × ℕ)
  | 0, n, bit => .ok (bits, n, bit)
  | len + 1, n, bit =>
    if count ≤ n then .error (.chunkIndex n)
    else if bit + 1 = 32 then setRangeAt count (setChunkBit bits n bit) len (n + 1) 0
    else setRangeAt count (setChunkBit bits n bit) len n (bit + 1)

def scanBitsAt (bv : BitVector) (len : ℕ) : ℕ → ℕ → ℕ → ℕ → ℤ → ℕ → Except Fault Scan
  | 0, _, _, _, _, _ => .error .endless
  | fuel + 1, i, begin, j, maxFree, nonZero =>
    if 32 ≤ j then .ok (.next i maxFree nonZero)
    else do
      if ← testAt bv begin j then scanBitsAt bv len fuel i begin (j + 1) maxFree (nonZero + 1)
      else
        let (k, n, bit) ← probeAt bv len 0 begin j
        let maxFree := if maxFree < k then (k : ℤ) else maxFree
        if bv.numbits ≤ n * 32 + bit ∧ k < len then
          .ok (.next (if begin < n then i + (n - begin) else i + 1) maxFree nonZero)
        else if k < len then scanBitsAt bv len fuel (i + (n - begin)) n (bit + 1) maxFree nonZero
        else if bv.numbits < begin * 32 + j + len then .ok (.next i maxFree nonZero)
        else .ok (.found begin j)

/-- The loop over the chunks, with `real_count` beside `i`. -/
def scanChunksAt (bv : BitVector) (len count base : ℕ) :
    ℕ → ℕ → ℕ → ℤ → ℕ → Except Fault Search
  | 0, _, _, _, _ => .error .endless
  | fuel + 1, realCount, i, maxFree, nonZero =>
    if count ≤ i then .ok (.missing maxFree nonZero)
    else if count < realCount then .error .bitmapLoop
    else do
      let begin := (base + i) % count
      if (← chunkAt bv begin) = BitVec.allOnes 32 then
        scanChunksAt bv len count base fuel (realCount + 1) (i + 1) maxFree (nonZero + 32)
      else
        match ← scanBitsAt bv len (32 * count + 1) i begin 0 maxFree nonZero with
        | .found b j => .ok (.found b j)
        | .next i' maxFree' nonZero' =>
          scanChunksAt bv len count base fuel (realCount + 1) (i' + 1) maxFree' nonZero'

def getFreeRangeOfBitsAt (bv : BitVector) (len : ℤ) : Except Fault (ℤ × ℤ × BitVector) :=
  if len ≤ 0 ∨ (bv.numbits : ℤ) < len ∨ bv.isFull then .ok (-1, -1, bv)
  else do
    let count := chunkCount bv.numbits
    match ← scanChunksAt bv len.toNat count (bv.nextFree / 32) (count + 1) 0 0 (-1) 0 with
    | .found begin j =>
      let start := begin * 32 + j
      let (bits, n, bit) ← setRangeAt count bv.bits len.toNat begin j
      let bv' := { bv with bits := bits }
      let free ← if n < count then (testAt bv' n bit).map (! ·) else .ok false
      .ok (start, -1, { bv' with nextFree := if free then start + len.toNat else bv.nextFree })
    | .missing maxFree nonZero =>
      .ok (-1, maxFree, if bv.numbits ≤ nonZero then { bv with isFull := true } else bv)

section NoFault
variable {bv : BitVector}

theorem chunkAt_ok {i : ℕ} (h : i < chunkCount bv.numbits) : chunkAt bv i = .ok (bv.bits i) :=
  if_pos h

theorem testAt_ok {i : ℕ} (h : i < chunkCount bv.numbits) (j : ℕ) :
    testAt bv i j = .ok (bv.test i j) := by
  rw [testAt, chunkAt_ok h]
  rfl

theorem probeAt_ok (todo k n bit : ℕ) :
    probeAt bv todo k n bit = .ok (probe bv todo k n bit) := by
  induction todo generalizing k n bit with
  | zero => rfl
  | succ todo ih =>
    rw [probeAt, probe]
    split
    · rename_i hin
      simp only [testAt_ok (chunk_lt_of_bit hin), bind, Except.bind, ih]
      split
      · rfl
      · split <;> rfl
    · rfl

theorem setRangeAt_ok {count : ℕ} (bits : ℕ → BitVec 32) (len n bit : ℕ)
    (h : n * 32 + bit + len ≤ 32 * count) (hb : bit < 32) :
    setRangeAt count bits len n bit = .ok (setRange bits len n bit) := by
  induction len generalizing bits n bit with
  | zero => rfl
  | succ len ih =>
    rw [setRangeAt, setRange, if_neg (by omega)]
    split
    · exact ih _ _ _ (by omega) (by omega)
    · exact ih _ _ _ (by omega) (by omega)

/-- Every round of the loop over the bits moves the position up, and no round leaves the
chunks of the vector. -/
theorem scanBitsAt_ok {len : ℕ} (fuel i begin j : ℕ) (m : ℤ) (z : ℕ)
    (hbegin : begin < chunkCount bv.numbits) (hj : j ≤ 32)
    (hfuel : 32 * chunkCount bv.numbits < fuel + (begin * 32 + j)) :
    scanBitsAt bv len fuel i begin j m z = .ok (scanBits bv len fuel i begin j m z) := by
  induction fuel generalizing i begin j m z with
  | zero => omega
  | succ fuel ih =>
    rw [scanBitsAt, scanBits]
    by_cases hend : 32 ≤ j
    · rw [if_pos hend, if_pos hend]
    rw [if_neg hend, if_neg hend]
    simp only [testAt_ok hbegin, bind, Except.bind, probeAt_ok]
    by_cases hset : bv.test begin j = true
    · rw [if_pos hset, if_pos hset]
      exact ih _ _ _ _ _ hbegin (by omega) (by omega)
    rw [if_neg hset, if_neg hset]
    obtain ⟨d, hk, _, hpos, hbit, hle, _, _⟩ := probe_spec bv len 0 begin j (by omega)
    generalize probe bv len 0 begin j = r at hk hpos hbit hle ⊢
    obtain ⟨k, n, bit⟩ := r
    dsimp only at hk hpos hbit hle ⊢
    split
    · rfl
    · rename_i hinside
      split
      · rename_i hshort
        have hin : n * 32 + bit < bv.numbits := by omega
        exact ih _ _ _ _ _ (chunk_lt_of_bit hin) (by omega) (by omega)
      · split <;> rfl

theorem scanBits_next_le {len fuel i begin j : ℕ} {m : ℤ} {z i' : ℕ} {m' : ℤ} {z' : ℕ}
    (h : scanBits bv len fuel i begin j m z = .next i' m' z') : i ≤ i' := by
  induction fuel generalizing i begin j m z with
  | zero =>
    cases h
    exact le_rfl
  | succ fuel ih =>
    rw [scanBits] at h
    split at h
    · cases h
      exact le_rfl
    split at h
    · exact ih h
    obtain ⟨k, n, bit⟩ := probe bv len 0 begin j
    dsimp only at h
    split at h
    · cases h
      split <;> omega
    split at h
    · have := ih h
      omega
    split at h
    · cases h
      exact le_rfl
    · cases h

/-- The chunk index grows at least as fast as `real_count`, so the panic is out of reach. -/
theorem scanChunksAt_ok {len base : ℕ} (fuel realCount i : ℕ) (m : ℤ) (z : ℕ)
    (hreal : realCount ≤ i) (hfuel : chunkCount bv.numbits ≤ fuel + i) :
    scanChunksAt bv len (chunkCount bv.numbits) base (fuel + 1) realCount i m z =
      .ok (scanChunks bv len (chunkCount bv.numbits) base fuel i m z) := by
  induction fuel generalizing realCount i m z with
  | zero => rw [scanChunksAt, scanChunks, if_pos (by omega)]
  | succ fuel ih =>
    rw [scanChunksAt, scanChunks]
    by_cases hi : chunkCount bv.numbits ≤ i
    · rw [if_pos hi, if_pos hi]
    rw [if_neg hi, if_neg hi, if_neg (by omega)]
    have hbegin : (base + i) % chunkCount bv.numbits < chunkCount bv.numbits :=
      Nat.mod_lt _ (by omega)
    simp only [chunkAt_ok hbegin, bind, Except.bind]
    by_cases hones : bv.bits ((base + i) % chunkCount bv.numbits) = BitVec.allOnes 32
    · rw [if_pos hones, if_pos hones]
      exact ih _ _ _ _ (by omega) (by omega)
    rw [if_neg hones, if_neg hones, scanBitsAt_ok _ _ _ _ _ _ hbegin (by omega) (by omega)]
    cases hs : scanBits bv len (32 * chunkCount bv.numbits + 1) i
        ((base + i) % chunkCount bv.numbits) 0 m z with
    | found b j => rfl
    | next i' m' z' =>
      have hle := scanBits_next_le hs
      exact ih _ _ _ _ (by omega) (by omega)

/-- No input makes the search leave its buffer, panic or run on for ever. -/
theorem getFreeRangeOfBitsAt_ok (bv : BitVector) (len : ℤ) :
    getFreeRangeOfBitsAt bv len = .ok (getFreeRangeOfBits bv len) := by
  unfold getFreeRangeOfBitsAt getFreeRangeOfBits
  split
  · rfl
  dsimp only
  rw [scanChunksAt_ok _ _ _ _ _ le_rfl (by omega)]
  simp only [bind, Except.bind]
  cases hs : scanChunks bv len.toNat (chunkCount bv.numbits) (bv.nextFree / 32)
      (chunkCount bv.numbits) 0 (-1) 0 with
  | missing m z => rfl
  | found b j =>
    obtain ⟨hj, hin, _⟩ := scanChunks_found hs
    have hcap := (chunkCount_bounds bv.numbits).1
    dsimp only
    rw [setRangeAt_ok _ _ _ _ (by omega) hj]
    obtain ⟨bits, n, bit⟩ := setRange bv.bits len.toNat b j
    dsimp only
    by_cases hn : n < chunkCount bv.numbits
    · have htest : testAt { bv with bits := bits } n bit =
          .ok (({ bv with bits := bits } : BitVector).test n bit) := by
        refine testAt_ok ?_ bit
        exact hn
      rw [if_pos hn, htest]
      cases ({ bv with bits := bits } : BitVector).test n bit <;> simp [Except.map, hn]
    · simp [hn]

end NoFault

/-- What a call that did not fail leaves behind: the range was free, it is taken, and
nothing else has changed. -/
structure Granted (bv bv' : BitVector) (len start : ℤ) : Prop where
  positive : 1 ≤ len
  inside : start + len ≤ bv.numbits
  wasClear : ∀ p : ℕ, start ≤ p → p < start + len → bv.bit p = false
  isSet : ∀ p : ℕ, start ≤ p → p < start + len → bv'.bit p = true
  others : ∀ p : ℕ, ¬(start ≤ p ∧ p < start + len) → bv'.bit p = bv.bit p

/-- Every call comes back, without a fault, with a granted range or with all bits as they
were, and `next_free` stays inside the vector. -/
theorem range_search_sound (bv : BitVector) (len : ℤ) (hnext : bv.nextFree ≤ bv.numbits) :
    ∃ start biggest bv', getFreeRangeOfBitsAt bv len = .ok (start, biggest, bv') ∧
      (0 ≤ start ∨ start = -1) ∧
      (0 ≤ start → Granted bv bv' len start) ∧
      (start = -1 → ∀ p, bv'.bit p = bv.bit p) ∧
      bv'.numbits = bv.numbits ∧ bv'.nextFree ≤ bv'.numbits := by
  refine ⟨(getFreeRangeOfBits bv len).1, (getFreeRangeOfBits bv len).2.1,
    (getFreeRangeOfBits bv len).2.2, getFreeRangeOfBitsAt_ok bv len, ?_⟩
  rcases getFreeRangeOfBits_cases bv len with ⟨start, hs, hpos, _, ht⟩ | ⟨hs, full, hbv, _⟩
  · rw [hs]
    have hinside := ht.inside
    have hrange : ∀ p : ℕ, ((start : ℤ) ≤ p ∧ (p : ℤ) < start + len) ↔
        (start ≤ p ∧ p < start + len.toNat) := by
      intro p
      omega
    refine ⟨.inl (by omega), fun _ => ⟨by omega, by omega, fun p hp hq => ?_, fun p hp hq => ?_,
      fun p hp => ?_⟩, fun h => by omega, ht.numbits, ?_⟩
    · obtain ⟨hp', hq'⟩ := (hrange p).1 ⟨hp, hq⟩
      exact ht.clear p hp' hq'
    · rw [ht.bits p, decide_eq_true ((hrange p).1 ⟨hp, hq⟩), Bool.or_true]
    · rw [ht.bits p, decide_eq_false fun h => hp ((hrange p).2 h), Bool.or_false]
    · rw [ht.numbits]
      rcases ht.nextFree with h | h <;> omega
  · rw [hs, hbv]
    exact ⟨.inr rfl, fun h => by omega, fun _ p => rfl, rfl, hnext⟩

def threeOfForty : BitVector := ⟨40, 33, false, fun i => if i = 0 then 0xFFFFFFF0#32 else 1#32⟩

theorem range_search_sound_forty : threeOfForty.nextFree ≤ threeOfForty.numbits ∧
    ∃ start biggest bv', getFreeRangeOfBitsAt threeOfForty 3 = .ok (start, biggest, bv') ∧
      (0 ≤ start ∨ start = -1) ∧
      (0 ≤ start → Granted threeOfForty bv' 3 start) ∧
      (start = -1 → ∀ p, bv'.bit p = threeOfForty.bit p) ∧
      bv'.numbits = threeOfForty.numbits ∧ bv'.nextFree ≤ bv'.numbits :=
  ⟨by decide, range_search_sound threeOfForty 3 (by decide)⟩

end CheckedSearch
