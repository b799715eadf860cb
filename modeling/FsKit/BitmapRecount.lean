import Mathlib.Tactic
import FsKit.VolumeGeometry

/-! The recount of the used blocks at mount time (`bitmap.c`). The bitmap that was read is
patched in bit 0 and then counted in whole chunks, so what is counted is compared with the
bits of the blocks of the disk. -/
namespace BitmapRecount

open BitVectorSearch BlockBitmap BitmapWriteBack VolumeGeometry

section Chunks
variable {fs : Myfs}

theorem shiftRight_bytes {b₀ b₁ b₂ b₃ : ℕ} (h₀ : b₀ < 256) (h₁ : b₁ < 256) (h₂ : b₂ < 256)
    (h₃ : b₃ < 256) :
    (b₀ + b₁ * 2 ^ 8 + b₂ * 2 ^ 16 + b₃ * 2 ^ 24) % 2 ^ 32 =
      b₀ + b₁ * 2 ^ 8 + b₂ * 2 ^ 16 + b₃ * 2 ^ 24 ∧
    (b₀ + b₁ * 2 ^ 8 + b₂ * 2 ^ 16 + b₃ * 2 ^ 24) / 2 ^ 8 % 256 = b₁ ∧
    (b₀ + b₁ * 2 ^ 8 + b₂ * 2 ^ 16 + b₃ * 2 ^ 24) / 2 ^ 16 % 256 = b₂ ∧
    (b₀ + b₁ * 2 ^ 8 + b₂ * 2 ^ 16 + b₃ * 2 ^ 24) / 2 ^ 24 % 256 = b₃ := by
  omega

/-- The buffer holds the bytes of the blocks it was read from. -/
theorem chunkByte_readChunk (fs : Myfs) (start : ℤ) (k : ℕ) :
    chunkByte (readChunk fs start) k =
      fs.metaArea (start + (k / fs.dsb.blockSize : ℕ)) (k % fs.dsb.blockSize) := by
  have hk : 4 * (k / 4) + k % 4 = k := Nat.div_add_mod k 4
  generalize hi : k / 4 = i at hk
  have hlt : ∀ r, (fs.metaArea (start + ((4 * i + r) / fs.dsb.blockSize : ℕ))
      ((4 * i + r) % fs.dsb.blockSize)).toNat < 256 := fun r => UInt8.toNat_lt _
  obtain ⟨hword, h₁, h₂, h₃⟩ := shiftRight_bytes (hlt 0) (hlt 1) (hlt 2) (hlt 3)
  apply UInt8.toNat_inj.mp
  rw [chunkByte, hi, readChunk, UInt8.toNat_ofNat', Nat.shiftRight_eq_div_pow]
  dsimp only
  rw [BitVec.toNat_ofNat, hword]
  obtain hr | hr | hr | hr : k % 4 = 0 ∨ k % 4 = 1 ∨ k % 4 = 2 ∨ k % 4 = 3 := by omega
  all_goals rw [hr] at hk ⊢
  · have := hlt 0
    rw [← hk]
    omega
  · rw [← hk]
    exact h₁
  · rw [← hk]
    exact h₂
  · rw [← hk]
    exact h₃

/-- A count that stops at `a` misses nothing below `n` if all bits in between are clear. -/
theorem filter_range_length_eq_iff (f : ℕ → Bool) {a n : ℕ} (h : a ≤ n) :
    ((List.range a).filter f).length = ((Finset.range n).filter fun p => f p = true).card ↔
      ∀ p, a ≤ p → p < n → f p = false := by
  have hsub : ((Finset.range a).filter fun p => f p = true) ⊆
      (Finset.range n).filter fun p => f p = true :=
    Finset.filter_subset_filter _ (Finset.range_subset_range.mpr h)
  have hlen : ((List.range a).filter f).length =
      ((Finset.range a).filter fun p => f p = true).card := by
    simp [Finset.card_def, Finset.filter, Finset.range, Multiset.range]
  rw [hlen]
  constructor
  · intro hcard p hap hpn
    have heq := Finset.eq_of_subset_of_card_le hsub hcard.ge
    by_contra hp
    have hmem : p ∈ (Finset.range a).filter fun p => f p = true := by
      rw [heq]
      simpa [hpn] using hp
    have := Finset.mem_range.mp (Finset.mem_filter.mp hmem).1
    omega
  · intro hclear
    congr 1
    apply Finset.Subset.antisymm hsub
    intro p hp
    obtain ⟨hpn, hset⟩ := Finset.mem_filter.mp hp
    refine Finset.mem_filter.mpr ⟨Finset.mem_range.mpr ?_, hset⟩
    by_contra hap
    rw [hclear p (by omega) (Finset.mem_range.mp hpn)] at hset
    cases hset

end Chunks

section Mount
variable {fs : Myfs} {readFails : Bool}

/-- The vector that is read from the disk. -/
def loaded (fs : Myfs) : BitVector := { newVector fs.dsb.numBlocks with bits := readChunk fs 1 }

/-- The vector after the patch of bit 0. -/
def patched (bv : BitVector) : BitVector := if isSetBV bv 0 = false then (setBV bv 0).2 else bv

theorem patched_numbits (bv : BitVector) : (patched bv).numbits = bv.numbits := by
  unfold patched setBV
  split
  · split <;> rfl
  · rfl

theorem patched_bit {bv : BitVector} (h : 0 < bv.numbits) (p : ℕ) :
    (patched bv).bit p = (bv.bit p || decide (p = 0)) := by
  have hin : ¬((bv.numbits : ℤ) ≤ 0 ∨ (0 : ℤ) < 0) := by omega
  simp only [patched, setBV, isSetBV, if_neg hin]
  split
  · exact bitOf_setChunkBit bv.bits (by decide) p
  · rename_i hset
    by_cases hp : p = 0
    · subst hp
      have h₀ : bv.bit 0 = true := by simpa [BitVector.bit] using hset
      simp [h₀]
    · simp [hp]

theorem isSetBV_zero {bv : BitVector} (h : 0 < bv.numbits) : isSetBV bv 0 = bv.bit 0 := by
  unfold isSetBV
  rw [if_neg (by omega)]
  rfl

/-- The state in which the patch is written. -/
def beforePatch (fs : Myfs) : Myfs :=
  { fs with
    numBitmapBlocks := bitmapBlocks fs.dsb.blockSize fs.dsb.numBlocks
    bv := patched (loaded fs) }

/-- The metadata area after the patch. -/
def patchedArea (fs : Myfs) : ℤ → Block :=
  if isSetBV (loaded fs) 0 = false then
    (writeBlocks (beforePatch fs) 1 (chunkByte (patched (loaded fs)).bits) 1).2.metaArea
  else fs.metaArea

/-- What a successful call leaves behind. -/
def mounted (fs : Myfs) : Myfs :=
  { beforePatch fs with
    metaArea := patchedArea fs
    dsb := { fs.dsb with usedBlocks :=
      ((List.range (32 * ((loaded fs).numbits / 32))).filter (patched (loaded fs)).bit).length } }

theorem initStorageMap_mounted (h : (myfsInitStorageMap fs readFails).1 = 0) :
    0 < bitmapBlocks fs.dsb.blockSize fs.dsb.numBlocks ∧ 1 < fs.dsb.numBlocks ∧
    (myfsInitStorageMap fs readFails).2 = mounted fs := by
  have hdef : myfsInitStorageMap fs readFails =
      if fs.dsb.numBlocks ≤ 1 ∨
        fs.dsb.numBlocks < 1 + bitmapBlocks fs.dsb.blockSize fs.dsb.numBlocks ∨
          bitmapBlocks fs.dsb.blockSize fs.dsb.numBlocks ≤ 0 ∨ readFails then
        (EINVAL, { fs with numBitmapBlocks := bitmapBlocks fs.dsb.blockSize fs.dsb.numBlocks })
      else (0, sanityCheckBitmap (if isSetBV (loaded fs) 0 = false then
          (writeBlocks { beforePatch fs with bv := (setBV (loaded fs) 0).2 } 1
            (chunkByte (setBV (loaded fs) 0).2.bits) 1).2
        else { beforePatch fs with bv := loaded fs })) := rfl
  rw [hdef] at h ⊢
  split at h
  · exact absurd h (show EINVAL ≠ 0 by decide)
  rename_i hgo
  rw [if_neg hgo]
  refine ⟨by omega, by omega, ?_⟩
  unfold mounted patchedArea
  split
  · rename_i hclear
    have hpatch : patched (loaded fs) = (setBV (loaded fs) 0).2 := if_pos hclear
    obtain ⟨area, hw⟩ :=
      writeBlocks_frame (beforePatch fs) 1 (chunkByte (patched (loaded fs)).bits) 1
    have hbefore : { beforePatch fs with bv := (setBV (loaded fs) 0).2 } = beforePatch fs := by
      rw [← hpatch]
      rfl
    rw [hbefore, ← hpatch, hw, sanityCheckBitmap]
    simp only [beforePatch, patched_numbits]
  · rename_i hset
    have hpatch : patched (loaded fs) = loaded fs := if_neg hset
    rw [sanityCheckBitmap, beforePatch, hpatch]

/-- The count is exact, the super block is marked as used, and the disk holds the bitmap. -/
structure Recounted (fs : Myfs) : Prop where
  exact : UsedExact fs
  superBlock : fs.bv.bit 0 = true
  onDisk : OnDisk fs

/-- There is a whole chunk, no bit of the disk's bitmap is set behind the last whole chunk, and
the patch of bit 0 is not needed or reaches the disk. -/
structure Recountable (fs : Myfs) : Prop where
  whole : 32 ≤ (loaded fs).numbits
  tail : ∀ p, 32 * ((loaded fs).numbits / 32) ≤ p → p < fs.dsb.numBlocks.toNat →
    (loaded fs).bit p = false
  patch : (loaded fs).bit 0 = true ∨ fs.readOnly = false ∧ fs.cacheFails 1 1 = false

theorem writeBlocks_one (fs : Myfs) (mem : ℕ → UInt8) (h : 1 < fs.dsb.numBlocks) :
    (writeBlocks fs 1 mem 1).2.metaArea =
      if fs.readOnly = false ∧ fs.cacheFails 1 1 = false then
        fun b => if b = 1 then mem else fs.metaArea b
      else fs.metaArea := by
  unfold writeBlocks
  cases hro : fs.readOnly with
  | true => simp
  | false =>
    rw [if_neg (by simp), if_neg (by omega), if_neg (by omega)]
    cases hf : fs.cacheFails 1 1 with
    | true => simp
    | false =>
      simp only [Bool.false_eq_true, or_false, and_self, if_true]
      rw [if_neg (by decide)]
      funext b
      by_cases hb : b = 1
      · subst hb
        simp
      · rw [if_neg hb]
        exact if_neg (by omega)

theorem patchedArea_eq (h₀ : 0 < (loaded fs).numbits) (h₁ : 1 < fs.dsb.numBlocks) :
    patchedArea fs =
      if (loaded fs).bit 0 = false ∧ fs.readOnly = false ∧ fs.cacheFails 1 1 = false then
        fun b => if b = 1 then chunkByte (patched (loaded fs)).bits else fs.metaArea b
      else fs.metaArea := by
  unfold patchedArea
  rw [isSetBV_zero h₀, writeBlocks_one (beforePatch fs) _ h₁]
  split
  · rename_i hclear
    simp only [hclear, true_and]
    rfl
  · rename_i hset
    rw [if_neg fun h => hset h.1]

theorem loaded_onDisk (fs : Myfs) (q i : ℕ) (hi : i < fs.dsb.blockSize) :
    fs.metaArea (q + 1) i = chunkByte (loaded fs).bits (q * fs.dsb.blockSize + i) := by
  have hb : 0 < fs.dsb.blockSize := by omega
  have hread := chunkByte_readChunk fs 1 (q * fs.dsb.blockSize + i)
  rw [Nat.mul_comm q, Nat.mul_add_div hb, Nat.div_eq_of_lt hi, Nat.mul_add_mod,
    Nat.mod_eq_of_lt hi, Nat.add_zero] at hread
  rw [Nat.mul_comm q, add_comm (q : ℤ)]
  exact hread.symm

/-- Only the first byte of the bitmap is touched by the patch. -/
theorem chunkByte_patched (h₀ : 0 < (loaded fs).numbits) {k : ℕ}
    (hk : (loaded fs).bit 0 = true ∨ 0 < k) :
    chunkByte (patched (loaded fs)).bits k = chunkByte (loaded fs).bits k := by
  apply chunkByte_congr
  intro j _
  rw [← bit_eq_bitOf, patched_bit h₀, ← bit_eq_bitOf]
  by_cases hp : 8 * k + j = 0
  · rcases hk with hset | hk
    · rw [hp, hset]
      rfl
    · omega
  · rw [decide_eq_false hp, Bool.or_false]

theorem chunkByte_patched_ne (h₀ : 0 < (loaded fs).numbits) (hclear : (loaded fs).bit 0 = false) :
    chunkByte (patched (loaded fs)).bits 0 ≠ chunkByte (loaded fs).bits 0 := by
  intro h
  have hbit := congrArg (fun b : UInt8 => b.toNat.testBit 0) h
  simp only [chunkByte_testBit _ _ (show 0 < 8 by decide), ← bit_eq_bitOf] at hbit
  rw [patched_bit h₀, hclear] at hbit
  cases hbit

theorem mounted_onDisk_iff (h₀ : 0 < (loaded fs).numbits) (h₁ : 1 < fs.dsb.numBlocks)
    (hpos : 0 < bitmapBlocks fs.dsb.blockSize fs.dsb.numBlocks) :
    OnDisk (mounted fs) ↔
      (loaded fs).bit 0 = true ∨ fs.readOnly = false ∧ fs.cacheFails 1 1 = false := by
  have hb : 0 < fs.dsb.blockSize := by
    by_contra hz
    rw [Nat.eq_zero_of_not_pos hz] at hpos
    simp [bitmapBlocks] at hpos
  have hdisk : OnDisk (mounted fs) ↔
      ∀ q : ℕ, (q : ℤ) < bitmapBlocks fs.dsb.blockSize fs.dsb.numBlocks → ∀ i < fs.dsb.blockSize,
        patchedArea fs (q + 1) i =
          chunkByte (patched (loaded fs)).bits (q * fs.dsb.blockSize + i) := Iff.rfl
  rw [hdisk, patchedArea_eq h₀ h₁]
  constructor
  · intro h
    by_contra hlost
    simp only [not_or, Bool.not_eq_true] at hlost
    have hbyte := h 0 hpos 0 hb
    rw [if_neg fun hw => hlost.2 hw.2, loaded_onDisk fs 0 0 hb] at hbyte
    simp only [Nat.zero_mul, Nat.add_zero] at hbyte
    exact chunkByte_patched_ne h₀ hlost.1 hbyte.symm
  · intro h q _ i hi
    by_cases hset : (loaded fs).bit 0 = true
    · have hno :
          ¬((loaded fs).bit 0 = false ∧ fs.readOnly = false ∧ fs.cacheFails 1 1 = false) := by
        simp [hset]
      rw [if_neg hno, chunkByte_patched h₀ (Or.inl hset)]
      exact loaded_onDisk fs q i hi
    · rw [if_pos ⟨Bool.eq_false_iff.mpr hset, h.resolve_left hset⟩]
      by_cases hq : q = 0
      · subst hq
        simp
      · rw [if_neg (by omega), loaded_onDisk fs q i hi, chunkByte_patched h₀]
        have := Nat.mul_pos (Nat.pos_of_ne_zero hq) hb
        exact Or.inr (by omega)

theorem mounted_exact_iff (h₁ : 1 < fs.dsb.numBlocks) : UsedExact (mounted fs) ↔
    ∀ p, 32 * ((loaded fs).numbits / 32) ≤ p → p < fs.dsb.numBlocks.toNat →
      (patched (loaded fs)).bit p = false := by
  have hle : (loaded fs).numbits ≤ fs.dsb.numBlocks.toNat := by
    have := newVector_numbits_le (show 0 ≤ fs.dsb.numBlocks by omega)
    have hnum : (loaded fs).numbits = (newVector fs.dsb.numBlocks).numbits := rfl
    omega
  rw [← filter_range_length_eq_iff _ (by omega)]
  exact Nat.cast_inj

/-- After a mount the count, the first bit and the bitmap on the disk are all right exactly when
the disk is recountable. -/
theorem initStorageMap_recounted_iff (fs : Myfs) (readFails : Bool)
    (h : (myfsInitStorageMap fs readFails).1 = 0) :
    Recounted (myfsInitStorageMap fs readFails).2 ↔ Recountable fs := by
  obtain ⟨hpos, hmany, hafter⟩ := initStorageMap_mounted h
  have hbit : (mounted fs).bv.bit 0 = (patched (loaded fs)).bit 0 := rfl
  rw [hafter]
  constructor
  · rintro ⟨hexact, hzero, hdisk⟩
    have hclear := (mounted_exact_iff hmany).mp hexact
    have hwhole : 32 ≤ (loaded fs).numbits := by
      by_contra hfew
      have := hclear 0 (by omega) (by omega)
      rw [← hbit, hzero] at this
      cases this
    have h₀ : 0 < (loaded fs).numbits := by omega
    refine ⟨hwhole, fun p hp hpn => ?_, (mounted_onDisk_iff h₀ hmany hpos).mp hdisk⟩
    have := hclear p hp hpn
    rw [patched_bit h₀, Bool.or_eq_false_iff] at this
    exact this.1
  · rintro ⟨hwhole, htail, hpatch⟩
    have h₀ : 0 < (loaded fs).numbits := by omega
    refine ⟨(mounted_exact_iff hmany).mpr fun p hp hpn => ?_, ?_,
      (mounted_onDisk_iff h₀ hmany hpos).mpr hpatch⟩
    · rw [patched_bit h₀, htail p hp hpn, decide_eq_false (by omega)]
      rfl
    · rw [hbit, patched_bit h₀]
      simp

/-- A disk of `n` blocks whose bitmap has the bits of its first five bytes as given. -/
def bitmapDisk (n : ℤ) (first fifth : UInt8) : Myfs :=
  { smallDisk with
    dsb := { smallDisk.dsb with numBlocks := n }
    metaArea := fun b i =>
      if b = 1 then if i = 0 then first else if i = 4 then fifth else 0 else 0 }

theorem recounted_64_blocks :
    Recounted (myfsInitStorageMap (bitmapDisk 64 0 8) false).2 := by
  refine (initStorageMap_recounted_iff (bitmapDisk 64 0 8) false (by decide +kernel)).mpr ?_
  have hnum : (loaded (bitmapDisk 64 0 8)).numbits = 64 := rfl
  refine ⟨by omega, fun p hp hpn => ?_, Or.inr ⟨rfl, rfl⟩⟩
  have hlen : (bitmapDisk 64 0 8).dsb.numBlocks.toNat = 64 := rfl
  omega

/-- Of 40 blocks the last eight are not counted. -/
theorem recount_of_40_blocks_misses_tail :
    (bitmapDisk 40 1 8).dsb.numBlocks ≤
      8 * ((myfsInitStorageMap (bitmapDisk 40 1 8) false).2.numBitmapBlocks * 512) ∧
    (myfsInitStorageMap (bitmapDisk 40 1 8) false).1 = 0 ∧
    ¬Recounted (myfsInitStorageMap (bitmapDisk 40 1 8) false).2 := by
  refine ⟨by decide +kernel, by decide +kernel, fun h => ?_⟩
  have hexact := h.exact
  revert hexact
  unfold UsedExact
  decide +kernel

end Mount

end BitmapRecount
