import FsKit.BlockBitmap

/-! What `real_allocate_blocks` promises in each of its modes. Its search loop overwrites the
number of blocks between two searches; the number it reports at the end has to be that of the
search that took the blocks. -/
namespace AllocatorModes
open MachineIntegers
open BitVectorSearch BlockBitmap

section Biggest
variable {bv : BitVector} {len : ℕ} (hlen : 0 < len)
include hlen

theorem scanBits_next_lt {fuel i begin j : ℕ} {m : ℤ} {z i' : ℕ} {m' : ℤ} {z' : ℕ}
    (h : scanBits bv len fuel i begin j m z = .next i' m' z') (hm : m < len) : m' < len := by
  induction fuel generalizing i begin j m z with
  | zero =>
    cases h
    exact hm
  | succ fuel ih =>
    rw [scanBits] at h
    split at h
    · cases h
      exact hm
    rename_i hj
    split at h
    · exact ih h hm
    obtain ⟨d, hk, _, _, _, _, hclear, _⟩ := probe_spec bv len 0 begin j (by omega)
    generalize probe bv len 0 begin j = r at hk h
    obtain ⟨k, n, bit⟩ := r
    dsimp only at hk h
    split at h
    · cases h
      split <;> omega
    split at h
    · exact ih h (by split <;> omega)
    split at h
    · -- a range of full length never goes over the end
      rename_i hover
      cases h
      have hd : d = len := by omega
      have := (hclear (begin * 32 + j + d - 1) (by omega) (by omega)).2
      omega
    · cases h

theorem scanChunks_missing_lt {count base fuel i : ℕ} {m : ℤ} {z : ℕ} {m' : ℤ} {z' : ℕ}
    (h : scanChunks bv len count base fuel i m z = .missing m' z') (hm : m < len) : m' < len := by
  induction fuel generalizing i m z with
  | zero =>
    cases h
    exact hm
  | succ fuel ih =>
    rw [scanChunks] at h
    split at h
    · cases h
      exact hm
    dsimp only at h
    split at h
    · exact ih h hm
    split at h
    · cases h
    · rename_i hs
      exact ih h (scanBits_next_lt hlen hs hm)

omit hlen in
/-- A search that failed reports less than it was asked for. -/
theorem biggest_lt (bv : BitVector) {len : ℤ} (hlen : 1 ≤ len)
    (h : (getFreeRangeOfBits bv len).1 = -1) : (getFreeRangeOfBits bv len).2.1 < len := by
  rw [getFreeRangeOfBits] at h ⊢
  split
  · change (-1 : ℤ) < len
    omega
  rename_i hguard
  rw [if_neg hguard] at h
  dsimp only at h ⊢
  cases hs : scanChunks bv len.toNat (chunkCount bv.numbits) (bv.nextFree / 32)
      (chunkCount bv.numbits) 0 (-1) 0 with
  | found b j =>
    rw [hs] at h
    change ((b * 32 + j : ℕ) : ℤ) = -1 at h
    omega
  | missing m z =>
    have hlt := scanChunks_missing_lt (by omega) hs (by omega)
    change m < len
    omega

end Biggest

section SearchLoop

/-- The search loop with its rounds counted: `none` is a loop that has not ended yet. -/
def allocateRounds (mode : AllocMode) : ℕ → BitVector → ℤ → Option (ℤ × ℤ × BitVector)
  | 0, _, _ => none
  | rounds + 1, bv, nblocks =>
    if nblocks < 1 then some (-1, nblocks, bv)
    else
      let (start, biggest, bv) := getFreeRangeOfBits bv nblocks
      if start ≠ -1 then some (start, nblocks, bv)
      else
        let maxFree := if 1 < biggest then biggest else 1
        let (start, nblocks, bv) := looseRetry mode biggest bv nblocks
        if start ≠ -1 ∨ mode = .exactAllocation then some (start, nblocks, bv)
        else
          let (start, nblocks, bv) := tryHardRetry mode maxFree bv nblocks
          if start ≠ -1 then some (start, nblocks, bv)
          else
            let nblocks :=
              if mode = .looseAllocation ∧ maxFree * 2 < nblocks then maxFree * 2 else nblocks
            allocateRounds mode rounds bv (nblocks.tdiv 2)

theorem looseRetry_count (mode : AllocMode) {biggest nblocks : ℤ} (bv : BitVector)
    (hn : 1 ≤ nblocks)
    (hb : biggest < nblocks) :
    1 ≤ (looseRetry mode biggest bv nblocks).2.1 ∧
      (looseRetry mode biggest bv nblocks).2.1 ≤ nblocks := by
  unfold looseRetry
  split
  · dsimp only
    omega
  · exact ⟨hn, le_rfl⟩

theorem tryHardRetry_count (mode : AllocMode) (maxFree : ℤ) {nblocks : ℤ} (bv : BitVector)
    (hn : 1 ≤ nblocks) :
    1 ≤ (tryHardRetry mode maxFree bv nblocks).2.1 ∧
      (tryHardRetry mode maxFree bv nblocks).2.1 ≤ nblocks := by
  unfold tryHardRetry
  split
  · dsimp only
    split <;> omega
  · exact ⟨hn, le_rfl⟩

/-- One round of the loop: it ends with a count that is not larger, or it goes on with a
count that is smaller. -/
theorem allocateLoop_round (mode : AllocMode) (bv : BitVector) {nblocks : ℤ} (hn : 1 ≤ nblocks) :
    (∃ r : ℤ × ℤ × BitVector, r.2.1 ≤ nblocks ∧ ∀ fuel,
      allocateLoop mode (fuel + 1) bv nblocks = r ∧
        allocateRounds mode (fuel + 1) bv nblocks = some r) ∨
    ∃ bv' nblocks', 0 ≤ nblocks' ∧ nblocks' < nblocks ∧ ∀ fuel,
      allocateLoop mode (fuel + 1) bv nblocks = allocateLoop mode fuel bv' nblocks' ∧
        allocateRounds mode (fuel + 1) bv nblocks = allocateRounds mode fuel bv' nblocks' := by
  have hpos : ¬nblocks < 1 := by omega
  simp only [allocateLoop, allocateRounds, if_neg hpos]
  have hlt := biggest_lt bv hn
  generalize getFreeRangeOfBits bv nblocks = r at hlt ⊢
  obtain ⟨start₁, biggest, bv₁⟩ := r
  dsimp only at hlt ⊢
  by_cases hs₁ : start₁ ≠ -1
  · simp only [if_pos hs₁]
    exact .inl ⟨_, le_rfl, fun _ => ⟨rfl, rfl⟩⟩
  simp only [if_neg hs₁]
  obtain ⟨hlo₂, hhi₂⟩ := looseRetry_count mode bv₁ hn (hlt (not_not.1 hs₁))
  generalize looseRetry mode biggest bv₁ nblocks = r at hlo₂ hhi₂ ⊢
  obtain ⟨start₂, nblocks₂, bv₂⟩ := r
  dsimp only at hlo₂ hhi₂ ⊢
  by_cases hs₂ : start₂ ≠ -1 ∨ mode = .exactAllocation
  · simp only [if_pos hs₂]
    exact .inl ⟨_, hhi₂, fun _ => ⟨rfl, rfl⟩⟩
  simp only [if_neg hs₂]
  obtain ⟨hlo₃, hhi₃⟩ := tryHardRetry_count mode (if 1 < biggest then biggest else 1) bv₂ hlo₂
  generalize tryHardRetry mode (if 1 < biggest then biggest else 1) bv₂ nblocks₂ = r
    at hlo₃ hhi₃ ⊢
  obtain ⟨start₃, nblocks₃, bv₃⟩ := r
  dsimp only at hlo₃ hhi₃ ⊢
  by_cases hs₃ : start₃ ≠ -1
  · simp only [if_pos hs₃]
    exact .inl ⟨_, hhi₃.trans hhi₂, fun _ => ⟨rfl, rfl⟩⟩
  simp only [if_neg hs₃]
  have hmax : 1 ≤ (if 1 < biggest then biggest else 1) := by split <;> omega
  generalize (if 1 < biggest then biggest else 1) = maxFree at hmax ⊢
  have hhalf : ∀ v : ℤ, 1 ≤ v → v ≤ nblocks₃ → 0 ≤ v.tdiv 2 ∧ v.tdiv 2 < nblocks := by
    intro v hv hle
    rw [Int.tdiv_eq_ediv_of_nonneg (by omega)]
    omega
  obtain ⟨hge, hless⟩ := hhalf
    (if mode = .looseAllocation ∧ maxFree * 2 < nblocks₃ then maxFree * 2 else nblocks₃)
    (by split <;> omega) (by split <;> omega)
  exact .inr ⟨_, _, hge, hless, fun _ => ⟨rfl, rfl⟩⟩

/-- The loop ends within as many rounds as blocks were asked for, with no more blocks. -/
theorem allocateLoop_ends (mode : AllocMode) (fuel : ℕ) (bv : BitVector) (nblocks : ℤ)
    (hfuel : nblocks ≤ fuel) :
    (allocateLoop mode fuel bv nblocks).2.1 ≤ nblocks ∧
      allocateRounds mode (fuel + 1) bv nblocks = some (allocateLoop mode fuel bv nblocks) := by
  induction fuel generalizing bv nblocks with
  | zero =>
    refine ⟨le_rfl, ?_⟩
    rw [allocateRounds, if_pos (by omega)]
    rfl
  | succ fuel ih =>
    by_cases hn : 1 ≤ nblocks
    · rcases allocateLoop_round mode bv hn with ⟨r, hle, hr⟩ | ⟨bv', nblocks', hge, hlt, hr⟩
      · rw [(hr _).1, (hr _).2]
        exact ⟨hle, rfl⟩
      · rw [(hr _).1, (hr _).2]
        obtain ⟨hle, hsome⟩ := ih bv' nblocks' (by omega)
        exact ⟨by omega, hsome⟩
    · rw [allocateLoop, allocateRounds, if_pos (by omega), if_pos (by omega)]
      exact ⟨le_rfl, rfl⟩

/-- In the exact mode there is one search, for the number of blocks that was asked for. -/
theorem allocateLoop_exact (bv : BitVector) {nblocks : ℤ} (hn : 1 ≤ nblocks) :
    (allocateLoop .exactAllocation nblocks.toNat bv nblocks).1 = (getFreeRangeOfBits bv nblocks).1 ∧
    (allocateLoop .exactAllocation nblocks.toNat bv nblocks).2.1 = nblocks := by
  obtain ⟨fuel, hfuel⟩ : ∃ fuel, nblocks.toNat = fuel + 1 := ⟨nblocks.toNat - 1, by omega⟩
  rw [hfuel, allocateLoop, if_neg (by omega)]
  generalize getFreeRangeOfBits bv nblocks = r
  obtain ⟨start, biggest, bv'⟩ := r
  dsimp only
  by_cases hs : start ≠ -1
  · rw [if_pos hs]
    exact ⟨rfl, rfl⟩
  · have hloose : looseRetry .exactAllocation biggest bv' nblocks = (-1, nblocks, bv') :=
      if_neg fun h => by cases h.1
    rw [if_neg hs, hloose]
    dsimp only
    rw [if_pos (.inr rfl)]
    exact ⟨(not_not.1 hs).symm, rfl⟩

end SearchLoop

section Modes
variable {fs : Myfs} {c a : ℤ} {mode : AllocMode}

/-- What the caller of `real_allocate_blocks` may rely on. -/
structure Honours (fs : Myfs) (c a : ℤ) (mode : AllocMode) : Prop where
  granted : (realAllocateBlocks fs c a mode).1 = 0 → ∃ start n : ℕ,
    (realAllocateBlocks fs c a mode).2.2.1 = start ∧ (realAllocateBlocks fs c a mode).2.1 = n ∧
    1 ≤ n ∧ n ≤ c ∧ (mode = .exactAllocation → n = c) ∧ start + n ≤ fs.bv.numbits ∧
    (∀ p, start ≤ p → p < start + n → fs.bv.bit p = false) ∧
    (∀ p, (realAllocateBlocks fs c a mode).2.2.2.bv.bit p =
      (fs.bv.bit p || decide (start ≤ p ∧ p < start + n))) ∧
    (realAllocateBlocks fs c a mode).2.2.2.dsb.usedBlocks = fs.dsb.usedBlocks + n
  refused : (realAllocateBlocks fs c a mode).1 = ENOSPC ∨
    (realAllocateBlocks fs c a mode).1 = EINVAL →
    (∀ p, (realAllocateBlocks fs c a mode).2.2.2.bv.bit p = fs.bv.bit p) ∧
    (realAllocateBlocks fs c a mode).2.2.2.dsb.usedBlocks = fs.dsb.usedBlocks ∧
    (realAllocateBlocks fs c a mode).2.1 = c ∧ (realAllocateBlocks fs c a mode).2.2.1 = a
  ends : ∃ rounds r, allocateRounds mode rounds fs.bv (toInt32 c) = some r

/-- An exact request for more blocks than an `int` counts, on a disk that has as many, whose
low 32 bits are a number of blocks that the bit vector can give. -/
structure Truncated (fs : Myfs) (c : ℤ) (mode : AllocMode) : Prop where
  exact : mode = .exactAllocation
  large : 2 ^ 31 ≤ c
  room : c ≤ fs.dsb.numBlocks - fs.dsb.usedBlocks
  range : (getFreeRangeOfBits fs.bv (toInt32 c)).1 ≠ -1

/-- The call in terms of its search loop. -/
theorem realAllocateBlocks_search (a : ℤ) (mode : AllocMode) (hc : 0 < c)
    (hroom : c ≤ fs.dsb.numBlocks - fs.dsb.usedBlocks) :
    ((allocateLoop mode (toInt32 c).toNat fs.bv (toInt32 c)).1 = -1 ∧
      (realAllocateBlocks fs c a mode).1 = ENOSPC ∧ (realAllocateBlocks fs c a mode).2.1 = c ∧
      (realAllocateBlocks fs c a mode).2.2.1 = a) ∨
    ((allocateLoop mode (toInt32 c).toNat fs.bv (toInt32 c)).1 ≠ -1 ∧
      ((realAllocateBlocks fs c a mode).1 = EINVAL ∨ (realAllocateBlocks fs c a mode).1 = 0) ∧
      (realAllocateBlocks fs c a mode).2.1 =
        (allocateLoop mode (toInt32 c).toNat fs.bv (toInt32 c)).2.1) := by
  rw [realAllocateBlocks, if_neg (by omega), if_neg (by omega)]
  dsimp only
  generalize allocateLoop mode (toInt32 c).toNat fs.bv (toInt32 c) = r
  obtain ⟨start, n, bv⟩ := r
  dsimp only
  by_cases hs : start = -1
  · rw [if_pos hs]
    exact .inl ⟨hs, rfl, rfl, rfl⟩
  · rw [if_neg hs]
    generalize writeBlocks _ _ _ _ = w
    obtain ⟨amt, fs'⟩ := w
    dsimp only
    refine .inr ⟨hs, ?_⟩
    split
    · exact ⟨.inl rfl, rfl⟩
    · exact ⟨.inr rfl, rfl⟩

theorem realAllocateBlocks_unheard (a : ℤ) (mode : AllocMode)
    (h : c ≤ 0 ∨ fs.dsb.numBlocks - fs.dsb.usedBlocks < c) :
    ((realAllocateBlocks fs c a mode).1 = ENOSPC ∨ (realAllocateBlocks fs c a mode).1 = EINVAL) ∧
      (realAllocateBlocks fs c a mode).2 = (c, a, fs) := by
  rw [realAllocateBlocks]
  split
  · exact ⟨.inr rfl, rfl⟩
  · rw [if_pos (h.resolve_left ‹_›)]
    exact ⟨.inl rfl, rfl⟩

/-- The count of a granted request. -/
theorem granted_count (hc : 0 < c) (hroom : c ≤ fs.dsb.numBlocks - fs.dsb.usedBlocks)
    (h : (realAllocateBlocks fs c a mode).1 = 0) :
    (realAllocateBlocks fs c a mode).2.1 ≤ c ∧
      (mode = .exactAllocation → (realAllocateBlocks fs c a mode).2.1 = toInt32 c ∧
        (getFreeRangeOfBits fs.bv (toInt32 c)).1 ≠ -1) := by
  rcases realAllocateBlocks_search a mode hc hroom with ⟨_, hno, _⟩ | ⟨hs, _, hcount⟩
  · rw [hno] at h
    cases h
  rw [hcount]
  have hle := (allocateLoop_ends mode (toInt32 c).toNat fs.bv (toInt32 c) (by omega)).1
  refine ⟨hle.trans (toInt32_le hc.le).1, ?_⟩
  rintro rfl
  have hpos : 1 ≤ toInt32 c := by
    by_contra hneg
    rw [show (toInt32 c).toNat = 0 by omega] at hs
    exact hs rfl
  obtain ⟨hstart, hn⟩ := allocateLoop_exact fs.bv hpos
  exact ⟨hn, hstart ▸ hs⟩

/-- The modes are honoured but for exact requests that an `int` cuts down. Here the bitmap
writes succeed, so that `EINVAL` is only the answer to a request for no blocks. -/
theorem honours_iff (hw : 0 < c → (realAllocateBlocks fs c a mode).1 ≠ EINVAL) :
    Honours fs c a mode ↔ ¬Truncated fs c mode := by
  have hends : ∃ rounds r, allocateRounds mode rounds fs.bv (toInt32 c) = some r :=
    ⟨_, _, (allocateLoop_ends mode (toInt32 c).toNat fs.bv (toInt32 c) (by omega)).2⟩
  by_cases hheard : c ≤ 0 ∨ fs.dsb.numBlocks - fs.dsb.usedBlocks < c
  · obtain ⟨hret, hrest⟩ := realAllocateBlocks_unheard a mode hheard
    constructor
    · intro _ ht
      have hlarge := ht.large
      have hroom := ht.room
      omega
    · intro _
      refine ⟨fun h => ?_, fun _ => ?_, hends⟩
      · rw [h] at hret
        rcases hret with h | h <;> cases h
      · rw [hrest]
        exact ⟨fun _ => rfl, rfl, rfl, rfl⟩
  have hc : 0 < c := by omega
  have hroom : c ≤ fs.dsb.numBlocks - fs.dsb.usedBlocks := by omega
  constructor
  · intro h ht
    have hret : (realAllocateBlocks fs c a mode).1 = 0 := by
      rcases realAllocateBlocks_search a mode hc hroom with ⟨hs, _⟩ | ⟨_, hret, _⟩
      · obtain rfl := ht.exact
        have hpos : 1 ≤ toInt32 c := by
          by_contra hneg
          have hrange := ht.range
          rw [getFreeRangeOfBits, if_pos (by omega)] at hrange
          exact hrange rfl
        rw [(allocateLoop_exact fs.bv hpos).1] at hs
        exact absurd hs ht.range
      · exact hret.resolve_left (hw hc)
    obtain ⟨start, n, _, hn, _, _, hexact, _⟩ := h.granted hret
    have hsame := hexact ht.exact
    rw [((granted_count hc hroom hret).2 ht.exact).1] at hn
    have hlt := (toInt32_le hc.le).2
    have hlarge := ht.large
    omega
  · intro hno
    refine ⟨fun hret => ?_, fun hret => ?_, hends⟩
    · rcases realAllocateBlocks_cases fs c a mode with ⟨_, start, n, hpos, hn, hstart, halloc⟩ |
        ⟨h, _⟩ | ⟨h, _⟩
      · obtain ⟨hle, hexact⟩ := granted_count hc hroom hret
        obtain ⟨area, hframe⟩ := halloc.frame
        refine ⟨start, n, hstart, hn, hpos, by omega, fun hm => ?_, halloc.taken.inside,
          halloc.taken.clear, halloc.taken.bits, ?_⟩
        · obtain ⟨hcount, hrange⟩ := hexact hm
          have hsmall : c < 2 ^ 31 := by
            by_contra hlarge
            exact hno ⟨hm, by omega, hroom, hrange⟩
          rw [toInt32_of_lt hc.le hsmall] at hcount
          omega
        · rw [hframe]
      · rw [hret] at h
        rcases h with h | ⟨_, h⟩ <;> cases h
      · rw [hret] at h
        cases h
    · have hret : (realAllocateBlocks fs c a mode).1 = ENOSPC := hret.resolve_right (hw hc)
      rcases realAllocateBlocks_search a mode hc hroom with
        ⟨_, _, hcount, hstart⟩ | ⟨_, h | h, _⟩
      · rcases realAllocateBlocks_cases fs c a mode with ⟨h, _⟩ | ⟨_, hrefused⟩ | ⟨h, _⟩
        · rw [hret] at h
          cases h
        · obtain ⟨hdsb, _, hbits⟩ := refused_bits hrefused
          exact ⟨hbits, by rw [hdsb], hcount, hstart⟩
        · rw [hret] at h
          cases h
      · rw [hret] at h
        cases h
      · rw [hret] at h
        cases h

/-- A disk of 2^32 + 2^22 blocks, whose bit vector has the 2^22 bits that fit an `int`; the
first 640000 blocks are used. -/
def hugeDisk : Myfs where
  dsb := ⟨1024, 2 ^ 32 + 2 ^ 22, 640000, 0, 0, 0, 0, 0, .clean⟩
  bv := ⟨2 ^ 22, 640000, false, fun i => if i < 20000 then 0xFFFFFFFF#32 else 0#32⟩
  numBitmapBlocks := 524800
  inodeMap := ⟨0, 0, false, fun _ => 0#32⟩
  readOnly := false
  metaArea := fun _ _ => 0
  dataArea := fun _ _ => 0
  cacheFails := fun _ _ => false
  now := 0
  uid := 0
  gid := 0

theorem hugeDisk_one : (realAllocateBlocks hugeDisk (2 ^ 32 + 1) 0 .exactAllocation).1 = 0 ∧
    (realAllocateBlocks hugeDisk (2 ^ 32 + 1) 0 .exactAllocation).2.1 = 1 := by
  decide +kernel

theorem hugeDisk_short : ¬Honours hugeDisk (2 ^ 32 + 1) 0 .exactAllocation := by
  intro h
  obtain ⟨start, n, _, hn, _, _, hexact, _⟩ := h.granted hugeDisk_one.1
  rw [hugeDisk_one.2] at hn
  have hsame := hexact rfl
  omega

theorem honours_iff_hugeDisk : Honours hugeDisk 3 0 .looseAllocation ↔
    ¬Truncated hugeDisk 3 .looseAllocation :=
  honours_iff fun _ => by decide +kernel

end Modes

end AllocatorModes
