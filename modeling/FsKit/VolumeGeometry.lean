import Mathlib.Tactic
import FsKit.BitmapWriteBack
import FsKit.MakeAndMount

/-! The sizes that are computed from the number of blocks of a volume: the block bitmap
(`bitmap.c`), the inode map and the inode table (`inode.c`). Each of them is a chain of
truncating divisions, some of them in a C `int`, and is compared here with what it has to hold. -/
namespace VolumeGeometry

open MachineIntegers
open BitVectorSearch BlockRounding BlockBitmap InodeTable MakeAndMount

section Buffers

/-- A search reads and changes no chunk outside a buffer of `bytes` bytes, and returns no bit
outside it: what stands behind the buffer is left and makes no difference. -/
structure SearchInside (bv : BitVector) (bytes : ℤ) : Prop where
  chunks : ∀ g, (∀ i : ℕ, 4 * (i : ℤ) + 4 ≤ bytes → g i = bv.bits i) → ∀ len,
    (getFreeRangeOfBits { bv with bits := g } len).1 = (getFreeRangeOfBits bv len).1 ∧
    (getFreeRangeOfBits { bv with bits := g } len).2.1 = (getFreeRangeOfBits bv len).2.1 ∧
    ∃ g', (getFreeRangeOfBits { bv with bits := g } len).2.2 =
        { (getFreeRangeOfBits bv len).2.2 with bits := g' } ∧
      ∀ i : ℕ, g' i = if 4 * (i : ℤ) + 4 ≤ bytes then (getFreeRangeOfBits bv len).2.2.bits i
        else g i
  returned : ∀ len, (getFreeRangeOfBits bv len).1 ≠ -1 →
    0 ≤ (getFreeRangeOfBits bv len).1 ∧ (getFreeRangeOfBits bv len).1 + len ≤ 8 * bytes

theorem chunk_inside {numbits i : ℕ} {bytes : ℤ} (hroom : (numbits : ℤ) ≤ 8 * bytes)
    (h4 : 4 ∣ bytes) (hi : i < chunkCount numbits) : 4 * (i : ℤ) + 4 ≤ bytes := by
  obtain ⟨c, rfl⟩ := h4
  have := (chunkCount_bounds numbits).2.1
  omega

theorem searchInside_of_room {bv : BitVector} {bytes : ℤ} (hroom : (bv.numbits : ℤ) ≤ 8 * bytes)
    (h4 : 4 ∣ bytes) : SearchInside bv bytes := by
  constructor
  · intro g hg len
    have hsame : SameChunks bv g := fun i hi => hg i (chunk_inside hroom h4 hi)
    obtain ⟨hstart, hbig, g', hbv, hg'⟩ := getFreeRangeOfBits_local hsame len
    refine ⟨hstart, hbig, g', hbv, fun i => ?_⟩
    rw [hg']
    by_cases hi : i < chunkCount bv.numbits
    · rw [if_pos hi, if_pos (chunk_inside hroom h4 hi)]
    rw [if_neg hi]
    split
    · rename_i hin
      rw [hg i hin]
      exact (getFreeRangeOfBits_outside bv len hi).symm
    · rfl
  · intro len hne
    rcases getFreeRangeOfBits_cases bv len with ⟨start, hs, hlen, _, ht⟩ | ⟨hs, _⟩
    · rw [hs]
      have := ht.inside
      omega
    · exact absurd hs hne

end Buffers

section Grants
variable {bv : BitVector} {len : ℕ}

theorem scanBits_next_lt (hlen : 0 < len) {fuel i begin j : ℕ} {m : ℤ} {z i' : ℕ} {m' : ℤ} {z' : ℕ}
    (h : scanBits bv len fuel i begin j m z = .next i' m' z') (hm : m < len) : m' < len := by
  induction fuel generalizing i begin j m z with
  | zero =>
    cases h
    exact hm
  | succ fuel ih =>
    rw [scanBits] at h
    split at h
    · cases h
      exact hm
    rename_i hj
    split at h
    · exact ih h hm
    obtain ⟨d, hk, hd, hpos, _, _, hclear, _⟩ := probe_spec bv len 0 begin j (by omega)
    generalize probe bv len 0 begin j = r at hk hpos h
    obtain ⟨k, n, bit⟩ := r
    simp only [Nat.zero_add] at hk hpos h
    have hmax : k < len → (if m < k then (k : ℤ) else m) < len := by
      intro hlt
      split <;> omega
    split at h
    · rename_i hend
      cases h
      exact hmax hend.2
    split at h
    · rename_i hlt
      exact ih h (hmax hlt)
    split at h
    · -- A probe of the full length ends inside the vector.
      rename_i hge hout
      have hin := (hclear (begin * 32 + j + d - 1) (by omega) (by omega)).2
      omega
    · cases h

theorem scanChunks_missing_lt (hlen : 0 < len) {count base fuel i : ℕ} {m : ℤ} {z : ℕ} {m' : ℤ}
    {z' : ℕ}
    (h : scanChunks bv len count base fuel i m z = .missing m' z') (hm : m < len) : m' < len := by
  induction fuel generalizing i m z with
  | zero =>
    cases h
    exact hm
  | succ fuel ih =>
    rw [scanChunks] at h
    split at h
    · cases h
      exact hm
    dsimp only at h
    split at h
    · exact ih h hm
    split at h
    · cases h
    · rename_i hs
      exact ih h (scanBits_next_lt hlen hs hm)

/-- A search that fails reports a shorter range. -/
theorem biggest_lt (bv : BitVector) {nblocks : ℤ} (hpos : 0 < nblocks) :
    (getFreeRangeOfBits bv nblocks).2.1 < nblocks := by
  unfold getFreeRangeOfBits
  split
  · dsimp only
    omega
  dsimp only
  split
  · dsimp only
    omega
  · rename_i hs
    have := scanChunks_missing_lt (by omega) hs (by omega)
    dsimp only
    omega

theorem looseRetry_le (mode : AllocMode) {biggest nblocks : ℤ} (bv : BitVector)
    (h : biggest ≤ nblocks) : (looseRetry mode biggest bv nblocks).2.1 ≤ nblocks := by
  unfold looseRetry
  split
  · exact h
  · exact le_rfl

theorem tryHardRetry_le (mode : AllocMode) (maxFree nblocks : ℤ) (bv : BitVector) :
    (tryHardRetry mode maxFree bv nblocks).2.1 ≤ nblocks := by
  unfold tryHardRetry
  split
  · dsimp only
    split <;> omega
  · exact le_rfl

theorem allocateLoop_le (mode : AllocMode) (fuel : ℕ) (bv : BitVector) (nblocks : ℤ) :
    (allocateLoop mode fuel bv nblocks).2.1 ≤ nblocks := by
  induction fuel generalizing bv nblocks with
  | zero => exact le_rfl
  | succ fuel ih =>
    rw [allocateLoop]
    split
    · exact le_rfl
    rename_i hge
    have hbig := biggest_lt bv (show 0 < nblocks by omega)
    generalize getFreeRangeOfBits bv nblocks = r at hbig ⊢
    obtain ⟨start, biggest, bv₁⟩ := r
    dsimp only at hbig ⊢
    split
    · exact le_rfl
    have hloose := looseRetry_le mode bv₁ hbig.le
    generalize looseRetry mode biggest bv₁ nblocks = r at hloose ⊢
    obtain ⟨start₂, n₂, bv₂⟩ := r
    dsimp only at hloose ⊢
    split
    · exact hloose
    have htry := tryHardRetry_le mode (if 1 < biggest then biggest else 1) n₂ bv₂
    generalize tryHardRetry mode (if 1 < biggest then biggest else 1) bv₂ n₂ = r at htry ⊢
    obtain ⟨start₃, n₃, bv₃⟩ := r
    dsimp only at htry ⊢
    split
    · exact le_trans htry hloose
    refine le_trans (ih _ _) ?_
    have hhalf : ∀ x : ℤ, x ≤ nblocks → x.tdiv 2 ≤ nblocks := fun x hx =>
      le_trans (Int.tdiv_le_tdiv (by decide) hx) (Int.tdiv_le_self 2 (by omega))
    apply hhalf
    split <;> omega

/-- A successful request hands over what the search loop ended with. -/
theorem realAllocateBlocks_grant {fs : Myfs} {c a : ℤ} {mode : AllocMode}
    (h : (realAllocateBlocks fs c a mode).1 = 0) :
    0 < c ∧ c ≤ fs.dsb.numBlocks - fs.dsb.usedBlocks ∧
    (realAllocateBlocks fs c a mode).2.1 =
      (allocateLoop mode (toInt32 c).toNat fs.bv (toInt32 c)).2.1 ∧
    (realAllocateBlocks fs c a mode).2.2.1 =
      (allocateLoop mode (toInt32 c).toNat fs.bv (toInt32 c)).1 ∧
    (realAllocateBlocks fs c a mode).2.2.2.bv =
      (allocateLoop mode (toInt32 c).toNat fs.bv (toInt32 c)).2.2 := by
  unfold realAllocateBlocks at h ⊢
  split at h
  · exact absurd h (show EINVAL ≠ 0 by decide)
  rename_i hc
  rw [if_neg hc]
  split at h
  · exact absurd h (show ENOSPC ≠ 0 by decide)
  rename_i hroom
  rw [if_neg hroom]
  generalize allocateLoop mode (toInt32 c).toNat fs.bv (toInt32 c) = r at h ⊢
  obtain ⟨start, nblocks, bv⟩ := r
  dsimp only at h ⊢
  split at h
  · exact absurd h (show ENOSPC ≠ 0 by decide)
  rename_i hs
  rw [if_neg hs]
  obtain ⟨area, hw⟩ := writeBlocks_frame { fs with bv := bv }
    ((start.tdiv 8).tdiv fs.dsb.blockSize + 1)
    (fun k => chunkByte bv.bits (((start.tdiv 8).tdiv fs.dsb.blockSize *
      fs.dsb.blockSize).toNat + k)) ((nblocks.tdiv 8).tdiv fs.dsb.blockSize + 1)
  split at h
  · exact absurd h (show EINVAL ≠ 0 by decide)
  rename_i hamt
  rw [if_neg hamt, hw]
  exact ⟨by omega, by omega, rfl, rfl, rfl⟩

end Grants

section BlockBitmap
variable {k : ℕ} {numBlocks : ℤ}

/-- The number of bitmap blocks, in the `int` arithmetic of both its computations. -/
def bitmapBlocks (bsize : ℕ) (numBlocks : ℤ) : ℤ :=
  (toInt32 (maskDown (toInt32 (numBlocks.tdiv 8) + bsize - 1) bsize)).tdiv bsize

/-- The four bytes of chunk `i` in the blocks from `start` on. -/
def readChunk (fs : Myfs) (start : ℤ) (i : ℕ) : BitVec 32 :=
  let byte := fun k => (fs.metaArea (start + ((4 * i + k) / fs.dsb.blockSize : ℕ))
    ((4 * i + k) % fs.dsb.blockSize)).toNat
  BitVec.ofNat 32 (byte 0 + byte 1 * 2 ^ 8 + byte 2 * 2 ^ 16 + byte 3 * 2 ^ 24)

/-- `sanity_check_bitmap`: the set bits of the whole chunks become the used-block count. -/
def sanityCheckBitmap (fs : Myfs) : Myfs :=
  let used := ((List.range (32 * (fs.bv.numbits / 32))).filter fs.bv.bit).length
  { fs with dsb := { fs.dsb with usedBlocks := used } }

/-- `readFails` is the verdict of `cached_read`. -/
def myfsInitStorageMap (fs : Myfs) (readFails : Bool) : ℤ × Myfs :=
  let bsize : ℤ := fs.dsb.blockSize
  let n := toInt32 (fs.dsb.numBlocks.tdiv 8)
  let n := toInt32 (maskDown (n + bsize - 1) bsize)
  let n := n.tdiv bsize
  let fs := { fs with numBitmapBlocks := n }
  if fs.dsb.numBlocks ≤ 1 ∨ fs.dsb.numBlocks < 1 + n ∨ n ≤ 0 ∨ readFails then (EINVAL, fs)
  else
    let fs := { fs with bv := { newVector fs.dsb.numBlocks with bits := readChunk fs 1 } }
    let fs :=
      if isSetBV fs.bv 0 = false then
        let fs := { fs with bv := (setBV fs.bv 0).2 }
        (writeBlocks fs 1 (chunkByte fs.bv.bits) 1).2
      else fs
    (0, sanityCheckBitmap fs)

/-- The map that a successful call has made. -/
structure MapMade (fs fs' : Myfs) (n : ℤ) : Prop where
  numBitmapBlocks : fs'.numBitmapBlocks = n
  found : (getFreeRangeOfBits (newVector fs.dsb.numBlocks) (toInt32 (n + 1))).1 = 0
  bv : fs'.bv = (getFreeRangeOfBits (newVector fs.dsb.numBlocks) (toInt32 (n + 1))).2.2
  dsb : fs'.dsb = { fs.dsb with usedBlocks := fs.dsb.usedBlocks + (n + 1) }

theorem createStorageMap_made {fs : Myfs} (h : (myfsCreateStorageMap fs).1 = 0) :
    MapMade fs (myfsCreateStorageMap fs).2 (bitmapBlocks fs.dsb.blockSize fs.dsb.numBlocks) := by
  rw [show myfsCreateStorageMap fs =
      let n := bitmapBlocks fs.dsb.blockSize fs.dsb.numBlocks
      let r := getFreeRangeOfBits (newVector fs.dsb.numBlocks) (toInt32 (n + 1))
      if r.1 ≠ 0 then (ENOSPC, fs)
      else
        let w :=
          writeBlocks { fs with bv := r.2.2, numBitmapBlocks := n } 1 (chunkByte r.2.2.bits) n
        if w.1 ≠ n then (EINVAL, w.2)
        else (0, { w.2 with dsb := { w.2.dsb with usedBlocks := w.2.dsb.usedBlocks + (n + 1) } })
      from rfl] at h ⊢
  generalize bitmapBlocks fs.dsb.blockSize fs.dsb.numBlocks = n at h ⊢
  dsimp only at h ⊢
  by_cases hs : (getFreeRangeOfBits (newVector fs.dsb.numBlocks) (toInt32 (n + 1))).1 = 0
  · rw [if_neg (not_not_intro hs)] at h ⊢
    generalize hr : getFreeRangeOfBits (newVector fs.dsb.numBlocks) (toInt32 (n + 1)) = r at h ⊢
    obtain ⟨area, hw⟩ := writeBlocks_frame { fs with bv := r.2.2, numBitmapBlocks := n } 1
      (chunkByte r.2.2.bits) n
    split
    · rename_i hne
      rw [if_pos hne] at h
      exact absurd h (show EINVAL ≠ 0 by decide)
    · rw [hw]
      exact ⟨rfl, hs, by rw [hr], rfl⟩
  · rw [if_pos hs] at h
    exact absurd h (show ENOSPC ≠ 0 by decide)

theorem initStorageMap_blocks (fs : Myfs) (readFails : Bool) :
    (myfsInitStorageMap fs readFails).2.numBitmapBlocks =
      bitmapBlocks fs.dsb.blockSize fs.dsb.numBlocks := by
  unfold myfsInitStorageMap
  dsimp only
  split
  · rfl
  split
  · obtain ⟨area, hw⟩ := writeBlocks_frame _ _ _ _
    unfold sanityCheckBitmap
    dsimp only
    rw [hw]
    rfl
  · rfl

theorem blockSize_dvd (hk : k < 31) : (2 ^ k : ℤ) * 2 ^ (31 - k) = 2 ^ 31 := by
  rw [← pow_add, Nat.add_sub_cancel' hk.le]

/-- Short of an overflow the number of bitmap blocks is the quotient rounded up. -/
theorem bitmapBlocks_eq (hpos : 0 ≤ numBlocks) (hfit : numBlocks / 8 + 2 ^ k ≤ 2 ^ 31) :
    bitmapBlocks (2 ^ k) numBlocks = (numBlocks / 8 + 2 ^ k - 1) / 2 ^ k := by
  have hb : (0 : ℤ) < 2 ^ k := by positivity
  obtain ⟨q, hq⟩ : ∃ q : ℕ, numBlocks / 8 = q := Int.eq_ofNat_of_zero_le (by omega)
  obtain ⟨x, hx⟩ : ∃ x : ℕ, numBlocks / 8 + 2 ^ k - 1 = x := Int.eq_ofNat_of_zero_le (by omega)
  unfold bitmapBlocks
  push_cast
  rw [Int.tdiv_eq_ediv_of_nonneg hpos, toInt32_of_lt (x := numBlocks / 8) (by omega) (by omega), hx,
    maskDown_two_pow]
  have hle : x / 2 ^ k * 2 ^ k ≤ x := Nat.div_mul_le_self x _
  rw [toInt32_of_lt (by positivity) (by omega), Int.tdiv_eq_ediv_of_nonneg (by positivity)]
  push_cast
  exact Int.mul_ediv_cancel _ hb.ne'

theorem tdiv_mul_lt {x b : ℤ} (hb : 0 < b) (hx : x < 2 ^ 31) : x.tdiv b * b < 2 ^ 31 := by
  rcases le_or_gt 0 x with h | h
  · rw [Int.tdiv_eq_ediv_of_nonneg h]
    exact lt_of_le_of_lt (Int.ediv_mul_le x hb.ne') hx
  · have hneg : x.tdiv b ≤ 0 := by
      rw [← neg_neg x, Int.neg_tdiv]
      have := Int.tdiv_nonneg (a := -x) (by omega) hb.le
      omega
    have := mul_nonpos_of_nonpos_of_nonneg hneg hb.le
    omega

/-- The blocks of the bitmap together are always less than 2 GB, and the next power of two
cannot be reached with whole blocks. -/
theorem bitmapBlocks_lt (hk : k < 31) (numBlocks : ℤ) :
    bitmapBlocks (2 ^ k) numBlocks * 2 ^ k ≤ 2 ^ 31 - 2 ^ k := by
  have hb : (0 : ℤ) < 2 ^ k := by positivity
  have hlt : bitmapBlocks (2 ^ k) numBlocks * 2 ^ k < 2 ^ 31 := by
    unfold bitmapBlocks
    push_cast
    exact tdiv_mul_lt hb (Int.bmod_lt (by decide))
  rw [← blockSize_dvd hk] at hlt ⊢
  have hn : bitmapBlocks (2 ^ k) numBlocks < 2 ^ (31 - k) := by
    refine lt_of_mul_lt_mul_right ?_ hb.le
    rwa [mul_comm (2 ^ (31 - k))]
  have := mul_le_mul_of_nonneg_right (Int.add_one_le_iff.2 hn) hb.le
  linarith

/-- The volumes whose bitmap is rounded up the right way. -/
def BitmapFits (bsize : ℕ) (numBlocks : ℤ) : Prop :=
  numBlocks ≤ 2 ^ 34 - 8 * bsize ∧
    (numBlocks % (8 * bsize) = 0 ∨ 8 ≤ numBlocks % (8 * bsize))

theorem round_up_covers_iff {b n : ℤ} (hb : 0 < b) :
    n ≤ 8 * ((n / 8 + b - 1) / b * b) ↔ n % (8 * b) = 0 ∨ 8 ≤ n % (8 * b) := by
  have hq := Int.mul_ediv_add_emod n 8
  have hr := Int.emod_nonneg n (show (8 : ℤ) ≠ 0 by decide)
  have hr' := Int.emod_lt_of_pos n (show (0 : ℤ) < 8 by decide)
  have hst := Int.mul_ediv_add_emod (n / 8) b
  have ht := Int.emod_nonneg (n / 8) hb.ne'
  have ht' := Int.emod_lt_of_pos (n / 8) hb
  generalize n / 8 = q at *
  generalize n % 8 = r at *
  generalize q / b = s at *
  generalize q % b = t at *
  subst hst hq
  have hmod : (8 * (b * s + t) + r) % (8 * b) = 8 * t + r := by
    rw [show 8 * (b * s + t) + r = 8 * t + r + 8 * b * s by ring, Int.add_mul_emod_self_left]
    exact Int.emod_eq_of_lt (by omega) (by omega)
  rw [hmod]
  rcases eq_or_lt_of_le ht with h0 | h0
  · have hdiv : (b * s + t + b - 1) / b = s := by
      rw [← h0, show b * s + 0 + b - 1 = b - 1 + b * s by ring, Int.add_mul_ediv_left _ _ hb.ne',
        Int.ediv_eq_zero_of_lt (by omega) (by omega), zero_add]
    rw [hdiv, mul_comm s b]
    omega
  · have hdiv : (b * s + t + b - 1) / b = s + 1 := by
      rw [show b * s + t + b - 1 = t - 1 + b * (s + 1) by ring, Int.add_mul_ediv_left _ _ hb.ne',
        Int.ediv_eq_zero_of_lt (by omega) (by omega), zero_add]
    rw [hdiv, show (s + 1) * b = b * s + b by ring]
    omega

theorem bitmapBlocks_cover_iff (hk : k < 31) (hpos : 0 ≤ numBlocks) :
    numBlocks ≤ 8 * (bitmapBlocks (2 ^ k) numBlocks * 2 ^ k) ↔ BitmapFits (2 ^ k) numBlocks := by
  have hb : (0 : ℤ) < 2 ^ k := by positivity
  have hlt := bitmapBlocks_lt hk numBlocks
  unfold BitmapFits
  push_cast
  by_cases hfit : numBlocks / 8 + 2 ^ k ≤ 2 ^ 31
  · rw [bitmapBlocks_eq hpos hfit] at hlt ⊢
    rw [← round_up_covers_iff hb]
    omega
  · -- The addition of `bsize - 1` or the conversion before it overflows, and no number of
    -- blocks that an `int` of bytes can give is enough.
    omega

/-- `n` blocks hold a bit for every block of the volume, and neither the chunks of the bitmap
nor anything a search of it does or returns lies outside their bytes. -/
structure BitmapRoom (bsize : ℕ) (numBlocks n : ℤ) : Prop where
  bits : numBlocks ≤ 8 * (n * bsize)
  chunks : ∀ i : ℕ, 32 * (i : ℤ) < numBlocks → 4 * (i : ℤ) + 4 ≤ n * bsize
  search : ∀ bv : BitVector, bv.numbits = (newVector numBlocks).numbits →
    SearchInside bv (n * bsize)

theorem newVector_numbits_le (hpos : 0 ≤ numBlocks) :
    ((newVector numBlocks).numbits : ℤ) ≤ numBlocks := by
  have := (toInt32_le hpos).1
  unfold newVector
  dsimp only
  omega

theorem four_dvd_bytes (hk : 2 ≤ k) (n : ℤ) : (4 : ℤ) ∣ n * (2 ^ k : ℕ) := by
  refine Dvd.dvd.mul_left ?_ n
  push_cast
  exact pow_dvd_pow 2 hk

theorem bitmapRoom_of_bits (hk : 2 ≤ k) {n : ℤ} (hpos : 0 ≤ numBlocks)
    (h : numBlocks ≤ 8 * (n * (2 ^ k : ℕ))) : BitmapRoom (2 ^ k) numBlocks n := by
  have h4 := four_dvd_bytes hk n
  refine ⟨h, fun i hi => ?_, fun bv hbv => searchInside_of_room ?_ h4⟩
  · obtain ⟨c, hc⟩ := h4
    omega
  · rw [hbv]
    exact le_trans (newVector_numbits_le hpos) h

/-- Both ways to set the map up give it the same number of blocks, and these have room for the
volume exactly if no step of their computation overflows and the last, incomplete bitmap block
is either not needed or holds at least eight bits. -/
theorem bitmap_room_iff (fs : Myfs) (hk : 9 ≤ k) (hk' : k < 31) (hb : fs.dsb.blockSize = 2 ^ k)
    (hn : 1 ≤ fs.dsb.numBlocks) (readFails : Bool) :
    (((myfsCreateStorageMap fs).1 = 0 → (myfsCreateStorageMap fs).2.numBitmapBlocks =
        (myfsInitStorageMap fs readFails).2.numBitmapBlocks) ∧
      BitmapRoom fs.dsb.blockSize fs.dsb.numBlocks
        (myfsInitStorageMap fs readFails).2.numBitmapBlocks) ↔
    BitmapFits fs.dsb.blockSize fs.dsb.numBlocks := by
  have hcover := bitmapBlocks_cover_iff hk' (show 0 ≤ fs.dsb.numBlocks by omega)
  rw [initStorageMap_blocks, hb]
  constructor
  · rintro ⟨_, hroom⟩
    rw [← hcover]
    simpa using hroom.bits
  · intro hfits
    refine ⟨fun hc => ?_, bitmapRoom_of_bits (by omega) (by omega) ?_⟩
    · rw [(createStorageMap_made hc).numBitmapBlocks, hb]
    · simpa using hcover.2 hfits

theorem bitmap_room_16_blocks :
    BitmapRoom 512 16 (myfsInitStorageMap smallDisk false).2.numBitmapBlocks :=
  ((bitmap_room_iff (k := 9) smallDisk (by decide) (by decide) rfl (by decide) false).2
    ⟨by decide, by decide⟩).2

/-- One block more than a bitmap block has bits for: the bitmap stays at one block. -/
theorem bitmap_of_4097_blocks_short :
    (myfsCreateStorageMap (blankFs goodHost 512 4097)).1 = 0 ∧
    (myfsInitStorageMap (blankFs goodHost 512 4097) false).2.numBitmapBlocks = 1 ∧
    ¬BitmapRoom 512 4097
      (myfsInitStorageMap (blankFs goodHost 512 4097) false).2.numBitmapBlocks := by
  have hone : (myfsInitStorageMap (blankFs goodHost 512 4097) false).2.numBitmapBlocks = 1 := by
    rw [initStorageMap_blocks]
    decide +kernel
  refine ⟨by decide +kernel, hone, fun h => ?_⟩
  have := h.bits
  rw [hone] at this
  omega

end BlockBitmap

section FreeTail
variable {bv : BitVector} {a len : ℕ}

/-- The first `a` bits are set, the others are clear, and the hint is at the border. -/
structure FreeTail (bv : BitVector) (a : ℕ) : Prop where
  bits : ∀ p < 32 * chunkCount bv.numbits, bv.bit p = decide (p < a)
  hint : a < bv.numbits → bv.nextFree = a
  notFull : bv.isFull = false

theorem scanBits_skip {i begin j d fuel : ℕ} {m : ℤ} {z : ℕ} (hj : j + d ≤ 32)
    (h : ∀ c, j ≤ c → c < j + d → bv.test begin c = true) :
    scanBits bv len (fuel + d) i begin j m z = scanBits bv len fuel i begin (j + d) m (z + d) := by
  induction d generalizing j z with
  | zero => rfl
  | succ d ih =>
    rw [← Nat.add_assoc, scanBits, if_neg (by omega), if_pos (h j (by omega) (by omega)),
      ih (by omega) fun c hc hc' => h c (by omega) (by omega),
      show j + 1 + d = j + (d + 1) by omega, show z + 1 + d = z + (d + 1) by omega]

theorem scanChunks_ones {count base fuel i : ℕ} {m : ℤ} {z : ℕ} (hf : count ≤ fuel + i)
    (h : ∀ i', i ≤ i' → i' < count → bv.bits ((base + i') % count) = BitVec.allOnes 32) :
    scanChunks bv len count base fuel i m z = .missing m (z + 32 * (count - i)) := by
  induction fuel generalizing i z with
  | zero =>
    rw [scanChunks, show count - i = 0 by omega]
    rfl
  | succ fuel ih =>
    rw [scanChunks]
    split
    · rw [show count - i = 0 by omega]
      rfl
    · dsimp only
      rw [if_pos (h i le_rfl (by omega)), ih (by omega) fun i' hi hi' => h i' (by omega) hi']
      congr 1
      omega

/-- What the probe of the free tail measures. -/
theorem FreeTail.probe (h : FreeTail bv a) (ha : a < bv.numbits) (len : ℕ) :
    ∃ n b, probe bv len 0 (a / 32) (a % 32) = (min len (bv.numbits - a), n, b) ∧
      n * 32 + b = a + min len (bv.numbits - a) ∧ b < 32 := by
  obtain ⟨d, hk, hd, hpos, hbit, _, hclear, hstop⟩ :=
    probe_spec bv len 0 (a / 32) (a % 32) (Nat.mod_lt _ (by decide))
  have hcap := (chunkCount_bounds bv.numbits).1
  rw [Nat.div_add_mod' a 32] at *
  have hmin : d = min len (bv.numbits - a) := by
    have hle : d ≤ bv.numbits - a := by
      rcases Nat.eq_zero_or_pos d with h0 | h0
      · omega
      · have := (hclear (a + d - 1) (by omega) (by omega)).2
        omega
    rcases Nat.lt_or_ge d len with hlt | hge
    · rcases hstop hlt with hend | hset
      · omega
      · by_contra hne
        rw [h.bits _ (by omega), decide_eq_true_eq] at hset
        omega
    · omega
  refine ⟨_, _, ?_, by rw [hpos, hmin], hbit⟩
  rw [← hmin]
  refine Prod.ext ?_ rfl
  omega

theorem FreeTail.scan (h : FreeTail bv a) (ha : a < bv.numbits) (len : ℕ) :
    scanChunks bv len (chunkCount bv.numbits) (bv.nextFree / 32) (chunkCount bv.numbits) 0 (-1) 0 =
      if a + len ≤ bv.numbits then .found (a / 32) (a % 32)
      else .missing (bv.numbits - a : ℕ) (a % 32 + 32 *
        (chunkCount bv.numbits -
          (if a / 32 < bv.numbits / 32 then bv.numbits / 32 - a / 32 + 1 else 2))) := by
  obtain ⟨hcap, hcap', hcap''⟩ := chunkCount_bounds bv.numbits
  have hbase : a / 32 < chunkCount bv.numbits := by omega
  obtain ⟨c, hc⟩ : ∃ c, chunkCount bv.numbits = c + 1 := ⟨chunkCount bv.numbits - 1, by omega⟩
  rw [h.hint ha, hc, scanChunks, ← hc, if_neg (by omega), Nat.add_zero, Nat.mod_eq_of_lt hbase]
  dsimp only
  rw [if_neg]
  · rw [show 32 * chunkCount bv.numbits + 1 =
        32 * chunkCount bv.numbits - a % 32 + 1 + a % 32 by omega,
      scanBits_skip (by omega)]
    · rw [Nat.zero_add, scanBits, if_neg (by omega), if_neg]
      · obtain ⟨n, b, hprobe, hend, hb⟩ := h.probe ha len
        rw [hprobe]
        dsimp only
        by_cases hfit : a + len ≤ bv.numbits
        · rw [if_neg (by omega), if_neg (by omega), if_neg (by omega), if_pos hfit]
        · -- The tail is too short: the rest of the walk meets the full chunks before it.
          have hn : n = bv.numbits / 32 := by omega
          rw [if_pos (by omega), if_neg hfit]
          dsimp only
          rw [scanChunks_ones]
          · rw [hn]
            congr 1
            · split <;> omega
            · rw [Nat.zero_add]
              split <;> rfl
          · split <;> omega
          · intro i' hi hi'
            refine allOnes_of_test fun j hj => ?_
            have hwrap : chunkCount bv.numbits ≤ a / 32 + i' := by split at hi <;> omega
            have hmod : (a / 32 + i') % chunkCount bv.numbits =
                a / 32 + i' - chunkCount bv.numbits := by
              rw [Nat.mod_eq_sub_mod hwrap]
              exact Nat.mod_eq_of_lt (by omega)
            rw [test_eq_bit bv hj, hmod, h.bits _ (by omega), decide_eq_true_eq]
            omega
      · rw [test_eq_bit bv (by omega), h.bits _ (by omega)]
        simp only [decide_eq_true_eq]
        omega
    · intro j _ hj
      rw [test_eq_bit bv (by omega), h.bits _ (by omega), decide_eq_true_eq]
      omega
  · intro hones
    have hset := test_of_allOnes hones (Nat.mod_lt a (show 0 < 32 by decide))
    rw [test_eq_bit bv (by omega), h.bits _ (by omega), decide_eq_true_eq] at hset
    omega

/-- A request that fits gets the front of the tail. -/
theorem FreeTail.fits (h : FreeTail bv a) (len : ℕ) (hlen : 0 < len)
    (hfit : a + len ≤ bv.numbits) :
    (getFreeRangeOfBits bv len).1 = a ∧ FreeTail (getFreeRangeOfBits bv len).2.2 (a + len) := by
  have hscan := h.scan (by omega) len
  rw [if_pos hfit] at hscan
  obtain ⟨hbits, hend, hlt⟩ := setRange_spec bv.bits len (a / 32) (a % 32)
    (Nat.mod_lt _ (by decide))
  rw [Nat.div_add_mod' a 32] at hbits hend
  unfold getFreeRangeOfBits
  rw [if_neg (by rw [h.notFull]; simp; omega)]
  dsimp only
  rw [Int.toNat_natCast, hscan]
  dsimp only
  generalize setRange bv.bits len (a / 32) (a % 32) = r at hbits hend hlt ⊢
  obtain ⟨bits, n, b⟩ := r
  dsimp only at hbits hend hlt ⊢
  have hset : ∀ p < 32 * chunkCount bv.numbits, bitOf bits p = decide (p < a + len) := by
    intro p hp
    rw [hbits, ← bit_eq_bitOf, h.bits p hp]
    by_cases h₁ : p < a <;> by_cases h₂ : p < a + len <;> simp [h₁, h₂] <;> omega
  refine ⟨by omega, hset, fun hlt' => ?_, h.notFull⟩
  dsimp only at hlt' ⊢
  have hcap := (chunkCount_bounds bv.numbits).1
  rw [if_pos]
  · omega
  refine ⟨by omega, ?_⟩
  rw [test_eq_bit _ hlt, bit_eq_bitOf]
  dsimp only
  rw [hset _ (by omega), decide_eq_false (by omega)]

/-- A request that does not fit hears how long the tail is, and changes nothing. -/
theorem FreeTail.short (h : FreeTail bv a) (ha : a < bv.numbits) (hfit : bv.numbits < a + len)
    (hlen : len ≤ bv.numbits) :
    getFreeRangeOfBits bv len = (-1, ((bv.numbits - a : ℕ) : ℤ), bv) := by
  have hscan := h.scan ha len
  rw [if_neg (by omega)] at hscan
  obtain ⟨hcap, hcap', _⟩ := chunkCount_bounds bv.numbits
  unfold getFreeRangeOfBits
  rw [if_neg (by rw [h.notFull]; simp; omega)]
  dsimp only
  rw [Int.toNat_natCast, hscan]
  dsimp only
  rw [if_neg]
  split <;> omega

/-- The blocks that a loose request for `c` gets from `total` blocks with a tail of `tail`. -/
def looseGrant (total tail c : ℤ) : ℤ := if c ≤ tail then c else if c ≤ total then tail else 1

theorem allocateLoop_fits {fuel : ℕ} {c : ℤ} (h : FreeTail bv a) (hf : 0 < fuel) (hc : 1 ≤ c)
    (hfit : a + c ≤ bv.numbits) :
    (allocateLoop .looseAllocation fuel bv c).1 = a ∧
    (allocateLoop .looseAllocation fuel bv c).2.1 = c ∧
    FreeTail (allocateLoop .looseAllocation fuel bv c).2.2 (a + c.toNat) := by
  obtain ⟨fuel, rfl⟩ : ∃ f, fuel = f + 1 := ⟨fuel - 1, by omega⟩
  obtain ⟨len, rfl⟩ := Int.eq_ofNat_of_zero_le (show 0 ≤ c by omega)
  obtain ⟨hstart, htail⟩ := h.fits len (by omega) (by omega)
  rw [allocateLoop, if_neg (by omega)]
  generalize getFreeRangeOfBits bv len = r at hstart htail ⊢
  obtain ⟨start, biggest, bv'⟩ := r
  dsimp only at hstart htail ⊢
  rw [if_pos (by omega)]
  exact ⟨hstart, rfl, htail⟩

theorem allocateLoop_second_try {fuel : ℕ} {c biggest : ℤ} (hc : 1 ≤ c)
    (h : getFreeRangeOfBits bv c = (-1, biggest, bv)) (hbig : 0 < biggest)
    (hpart : c >>> 4 ≤ biggest) (hs : (getFreeRangeOfBits bv biggest).1 ≠ -1) :
    allocateLoop .looseAllocation (fuel + 1) bv c =
      ((getFreeRangeOfBits bv biggest).1, biggest, (getFreeRangeOfBits bv biggest).2.2) := by
  have hretry : looseRetry .looseAllocation biggest bv c =
      ((getFreeRangeOfBits bv biggest).1, biggest, (getFreeRangeOfBits bv biggest).2.2) := by
    rw [looseRetry, if_pos ⟨rfl, hbig, hpart⟩]
  rw [allocateLoop, if_neg (by omega), h]
  dsimp only
  rw [if_neg (by simp), hretry, if_pos (Or.inl hs)]

theorem allocateLoop_next_round {fuel : ℕ} {c biggest : ℤ} (hc : 1 ≤ c)
    (h : getFreeRangeOfBits bv c = (-1, biggest, bv)) (hpart : ¬(0 < biggest ∧ c >>> 4 ≤ biggest)) :
    allocateLoop .looseAllocation (fuel + 1) bv c =
      allocateLoop .looseAllocation fuel bv
        ((if max biggest 1 * 2 < c then max biggest 1 * 2 else c).tdiv 2) := by
  have hretry : looseRetry .looseAllocation biggest bv c = (-1, c, bv) := by
    rw [looseRetry, if_neg fun hp => hpart hp.2]
  have htry : tryHardRetry .looseAllocation (if 1 < biggest then biggest else 1) bv c =
      (-1, c, bv) := by
    rw [tryHardRetry, if_neg (by simp)]
  have hmax : (if 1 < biggest then biggest else 1) = max biggest 1 := by
    split <;> omega
  rw [allocateLoop, if_neg (by omega), h]
  dsimp only
  rw [if_neg (by simp), hretry]
  dsimp only
  rw [if_neg (by simp), htry]
  dsimp only
  rw [if_neg (by simp), hmax]
  simp only [true_and]

theorem sixteenth (c : ℤ) : c >>> 4 = c / 16 := by
  have h := Int.shiftRight_natCast_right c 4
  rw [Int.shiftRight_eq_div_pow] at h
  exact h

/-- The loose mode gives the whole request, else the whole tail, and one block to a request
that is longer than the vector. -/
theorem allocateLoop_loose {c : ℤ} (h : FreeTail bv a) (ha : a < bv.numbits) (hc : 1 ≤ c) :
    (allocateLoop .looseAllocation c.toNat bv c).1 = a ∧
    (allocateLoop .looseAllocation c.toNat bv c).2.1 =
      looseGrant bv.numbits (bv.numbits - a : ℕ) c ∧
    FreeTail (allocateLoop .looseAllocation c.toNat bv c).2.2
      (a + (looseGrant bv.numbits (bv.numbits - a : ℕ) c).toNat) := by
  unfold looseGrant
  by_cases hfit : c ≤ (bv.numbits - a : ℕ)
  · rw [if_pos hfit]
    exact allocateLoop_fits h (by omega) hc (by omega)
  rw [if_neg hfit]
  obtain ⟨fuel, hfuel⟩ : ∃ f, c.toNat = f + 1 := ⟨c.toNat - 1, by omega⟩
  rw [hfuel]
  by_cases hlong : c ≤ bv.numbits
  · rw [if_pos hlong]
    have hshort : getFreeRangeOfBits bv c = (-1, ((bv.numbits - a : ℕ) : ℤ), bv) := by
      obtain ⟨len, rfl⟩ := Int.eq_ofNat_of_zero_le (show 0 ≤ c by omega)
      exact h.short ha (by omega) (by omega)
    by_cases hpart : c >>> 4 ≤ (bv.numbits - a : ℕ)
    · obtain ⟨hstart, htail⟩ := h.fits (bv.numbits - a) (by omega) (by omega)
      rw [allocateLoop_second_try hc hshort (by omega) hpart (by omega)]
      exact ⟨hstart, rfl, htail⟩
    · -- The tail is less than a sixteenth of the request, which is cut to twice the tail.
      rw [allocateLoop_next_round hc hshort fun hp => hpart hp.2]
      rw [sixteenth] at hpart
      rw [max_eq_left (by omega), if_pos (by omega), Int.mul_tdiv_cancel _ (by decide)]
      exact allocateLoop_fits h (by omega) (by omega) (by omega)
  · rw [if_neg hlong]
    have hguard : getFreeRangeOfBits bv c = (-1, -1, bv) := by
      rw [getFreeRangeOfBits, if_pos (Or.inr (Or.inl (by omega)))]
    have hone : (if max (-1 : ℤ) 1 * 2 < c then max (-1 : ℤ) 1 * 2 else c).tdiv 2 = 1 := by
      split
      · decide
      · rw [show c = 2 by omega]
        decide
    rw [allocateLoop_next_round hc hguard (by omega), hone]
    exact allocateLoop_fits h (by omega) le_rfl (by omega)

end FreeTail

section Inodes
variable {k : ℕ} {fs : Myfs}

/-- The blocks that are asked for to hold the inodes, and those for their map. -/
def inodeBlocks (bsize : ℕ) (numBlocks : ℤ) : ℤ := (numBlocks >>> 2 * myfsInode).tdiv bsize

def inodeMapBlocks (bsize : ℕ) (numBlocks : ℤ) : ℤ :=
  ((inodeBlocks bsize numBlocks).tdiv 8).tdiv bsize + 1

def mapGrant (fs : Myfs) : ℤ × ℤ × ℤ × Myfs :=
  preAllocateBlocks fs (inodeMapBlocks fs.dsb.blockSize fs.dsb.numBlocks) 0

def tableGrant (fs : Myfs) : ℤ × ℤ × ℤ × Myfs :=
  preAllocateBlocks (mapGrant fs).2.2.2 (inodeBlocks fs.dsb.blockSize fs.dsb.numBlocks) 0

/-- The two reservations of a successful call, and the file system it leaves. -/
structure InodesMade (fs fs' : Myfs) : Prop where
  mapOk : (mapGrant fs).1 = 0
  tableOk : (tableGrant fs).1 = 0
  result : ∃ area, fs' = { (tableGrant fs).2.2.2 with
    metaArea := area
    dsb := { (tableGrant fs).2.2.2.dsb with
      numInodes := fs.dsb.numBlocks >>> 2
      inodesStart := (tableGrant fs).2.2.1
      numInodeBlocks := (tableGrant fs).2.1
      inodeMapStart := (mapGrant fs).2.2.1
      numInodeMapBlocks := (mapGrant fs).2.1 }
    inodeMap := (getFreeRangeOfBits (newVector (fs.dsb.numBlocks >>> 2)) 1).2.2 }

theorem zeroBlocks_frame (start : ℤ) (left : ℕ) (i : ℤ) (fs : Myfs) :
    ∃ area, zeroBlocks start left i fs = { fs with metaArea := area } := by
  induction left generalizing i fs with
  | zero => exact ⟨fs.metaArea, rfl⟩
  | succ left ih =>
    rw [zeroBlocks]
    obtain ⟨area, hw⟩ := writeBlocks_frame fs (start + i) (fun _ => 0) 1
    dsimp only
    rw [hw]
    split
    · exact ⟨area, rfl⟩
    · obtain ⟨area', h⟩ := ih (i + 1) { fs with metaArea := area }
      exact ⟨area', h⟩

theorem createInodes_made (h : (myfsCreateInodes fs).1 = 0) :
    InodesMade fs (myfsCreateInodes fs).2 := by
  unfold myfsCreateInodes at h ⊢
  dsimp only at h ⊢
  rcases hr₁ : mapGrant fs with ⟨err₁, numMapBlocks, mapStart, fs₁⟩
  rcases hr₂ : preAllocateBlocks fs₁ (inodeBlocks fs.dsb.blockSize fs.dsb.numBlocks) 0 with
    ⟨err₂, numInodeBlocks, inodesStart, fs₂⟩
  have htable : tableGrant fs = (err₂, numInodeBlocks, inodesStart, fs₂) := by
    rw [← hr₂, tableGrant, hr₁]
  have hmap := hr₁
  unfold mapGrant inodeMapBlocks inodeBlocks at hr₁
  unfold inodeBlocks at hr₂
  rw [hr₁] at h ⊢
  dsimp only at h ⊢
  split at h
  · exact absurd h (show ENOSPC ≠ 0 by decide)
  rename_i h₁
  rw [if_neg h₁, hr₂]
  rw [hr₂] at h
  dsimp only at h ⊢
  split at h
  · exact absurd h (show ENOSPC ≠ 0 by decide)
  rename_i h₂
  obtain ⟨area₁, hz₁⟩ := zeroBlocks_frame mapStart numMapBlocks.toNat 0 fs₂
  obtain ⟨area₂, hz₂⟩ := zeroBlocks_frame inodesStart numInodeBlocks.toNat 0
    { fs₂ with metaArea := area₁ }
  rw [if_neg h₂, hz₁, hz₂]
  obtain ⟨area, hw⟩ := writeBlocks_frame _ _ _ _
  refine ⟨by rw [hmap]; exact not_not.1 h₁, by rw [htable]; exact not_not.1 h₂, area, ?_⟩
  rw [hmap, htable]
  exact hw

/-- The fields of the super block that a reservation does not touch, and what it hands out. -/
structure Grant (fs : Myfs) (c : ℤ) (r : ℤ × ℤ × ℤ × Myfs) : Prop where
  pos : 0 < r.2.1
  le : r.2.1 ≤ c
  blockSize : r.2.2.2.dsb.blockSize = fs.dsb.blockSize
  numBlocks : r.2.2.2.dsb.numBlocks = fs.dsb.numBlocks
  usedBlocks : r.2.2.2.dsb.usedBlocks = fs.dsb.usedBlocks + r.2.1
  taken : RangeTaken fs.bv r.2.2.2.bv r.2.2.1.toNat r.2.1.toNat
  start : 0 ≤ r.2.2.1

theorem preAllocateBlocks_grant {c a : ℤ} (h : (preAllocateBlocks fs c a).1 = 0) :
    Grant fs c (preAllocateBlocks fs c a) := by
  unfold preAllocateBlocks at h ⊢
  obtain ⟨hc, _, hn, _, _⟩ := realAllocateBlocks_grant h
  have hle := allocateLoop_le .looseAllocation (toInt32 c).toNat fs.bv (toInt32 c)
  have hint := (toInt32_le hc.le).1
  rcases realAllocateBlocks_cases fs c a .looseAllocation with
    ⟨_, start, n, hpos, hn', hs', ha⟩ | ⟨hf | hf, _⟩ | ⟨hf, _⟩
  · obtain ⟨area, hframe⟩ := ha.frame
    have hused := congrArg (fun fs => fs.dsb.usedBlocks) hframe
    have hblocks := congrArg (fun fs => fs.dsb.numBlocks) hframe
    have htaken := ha.taken
    refine ⟨by omega, by omega, ha.blockSize, hblocks, ?_, ?_, by omega⟩
    · rw [hn']
      exact hused
    · rw [hn', hs']
      exact htaken
  · exact absurd (hf.symm.trans h) (by decide)
  · exact absurd (hf.2.symm.trans h) (by decide)
  · exact absurd (hf.symm.trans h) (by decide)

theorem inode_count (numBlocks : ℤ) : numBlocks >>> 2 = numBlocks / 4 := by
  have h := Int.shiftRight_natCast_right numBlocks 2
  rw [Int.shiftRight_eq_div_pow] at h
  exact h

theorem inodeBlocks_eq {bsize : ℕ} {numBlocks : ℤ} (hn : 0 ≤ numBlocks) :
    inodeBlocks bsize numBlocks = numBlocks / 4 * 128 / bsize := by
  unfold inodeBlocks
  rw [inode_count, Int.tdiv_eq_ediv_of_nonneg (by positivity)]
  rfl

theorem inodeMapBlocks_eq {bsize : ℕ} {numBlocks : ℤ} (hn : 0 ≤ numBlocks) :
    inodeMapBlocks bsize numBlocks = numBlocks / 4 * 128 / bsize / 8 / bsize + 1 := by
  have hc : 0 ≤ numBlocks / 4 * 128 / bsize := by positivity
  unfold inodeMapBlocks
  rw [inodeBlocks_eq hn, Int.tdiv_eq_ediv_of_nonneg hc, Int.tdiv_eq_ediv_of_nonneg (by positivity)]

theorem createInodes_numbits {fs' : Myfs} (h : InodesMade fs fs') :
    fs'.inodeMap.numbits = (newVector (fs.dsb.numBlocks >>> 2)).numbits := by
  obtain ⟨area, rfl⟩ := h.result
  dsimp only
  rcases getFreeRangeOfBits_cases (newVector (fs.dsb.numBlocks >>> 2)) 1 with
    ⟨_, _, _, _, ht⟩ | ⟨_, full, hv, _⟩
  · exact ht.numbits
  · rw [hv]

/-- The inode map has a bit for every inode, no chunk that is used lies outside its buffer, and
an allocation with this map comes back. -/
structure InodeMapRoom (fs : Myfs) : Prop where
  bits : fs.dsb.numInodes ≤ 8 * (fs.dsb.numInodeMapBlocks * fs.dsb.blockSize)
  search : ∀ bv : BitVector, bv.numbits = fs.inodeMap.numbits →
    SearchInside bv (fs.dsb.numInodeMapBlocks * fs.dsb.blockSize)
  single : ∀ which : ℤ, 0 ≤ which → which < fs.inodeMap.numbits →
    4 * (which / 32) + 4 ≤ fs.dsb.numInodeMapBlocks * fs.dsb.blockSize
  offset : ∀ fs' : Myfs, fs'.inodeMap.numbits = fs.inodeMap.numbits →
    fs'.dsb.blockSize = fs.dsb.blockSize → fs'.dsb.numInodeMapBlocks = fs.dsb.numInodeMapBlocks →
    ∀ mode, ∃ r, myfsAllocateInode fs' mode = .ok r

theorem allocateInode_returns (hb : 0 < fs.dsb.blockSize)
    (hroom : (fs.inodeMap.numbits : ℤ) ≤ 8 * (fs.dsb.numInodeMapBlocks * fs.dsb.blockSize))
    (mode : ℤ) : ∃ r, myfsAllocateInode fs mode = .ok r := by
  unfold myfsAllocateInode
  rcases getFreeRangeOfBits_cases fs.inodeMap 1 with ⟨start, hs, _, _, ht⟩ | ⟨hs, _⟩
  · have hin := ht.inside
    generalize getFreeRangeOfBits fs.inodeMap 1 = r at hs ht ⊢
    obtain ⟨ia, biggest, bv⟩ := r
    dsimp only at hs ⊢
    rw [if_neg (by omega), if_neg]
    · exact ⟨_, rfl⟩
    -- The offset is that of a bit inside the map.
    rw [hs, BitmapWriteBack.tdiv_tdiv_nat]
    have hle := (toInt32_le (x := ((start / (8 * fs.dsb.blockSize) : ℕ) : ℤ)) (by positivity)).1
    have hlt : ((start / (8 * fs.dsb.blockSize) : ℕ) : ℤ) < fs.dsb.numInodeMapBlocks := by
      rw [Int.natCast_div, Int.ediv_lt_iff_lt_mul (by positivity)]
      push_cast
      simp only [Int.toNat_one] at hin
      have hcomm : fs.dsb.numInodeMapBlocks * (8 * (fs.dsb.blockSize : ℤ)) =
        8 * (fs.dsb.numInodeMapBlocks * fs.dsb.blockSize) := by ring
      omega
    omega
  · generalize getFreeRangeOfBits fs.inodeMap 1 = r at hs ⊢
    obtain ⟨ia, biggest, bv⟩ := r
    dsimp only at hs ⊢
    rw [if_pos (by omega)]
    exact ⟨_, rfl⟩

theorem inodeMapRoom_of_bits {fs' : Myfs} (hb : fs'.dsb.blockSize = 2 ^ k) (hk : 2 ≤ k)
    (hle : (fs'.inodeMap.numbits : ℤ) ≤ fs'.dsb.numInodes)
    (hbits : fs'.dsb.numInodes ≤ 8 * (fs'.dsb.numInodeMapBlocks * fs'.dsb.blockSize)) :
    InodeMapRoom fs' := by
  have h4 := four_dvd_bytes hk fs'.dsb.numInodeMapBlocks
  rw [← hb] at h4
  have hroom := le_trans hle hbits
  refine ⟨hbits, fun bv hbv => searchInside_of_room (by rwa [hbv]) h4, fun which h₀ h₁ => ?_, ?_⟩
  · obtain ⟨c, hc⟩ := h4
    omega
  · intro fs'' hn hbs hm mode
    refine allocateInode_returns ?_ ?_ mode
    · rw [hbs, hb]
      positivity
    · rwa [hn, hbs, hm]

/-- The map is measured by the blocks of the inode table: past one block it is always short. -/
theorem inodeMapBlocks_short {b n : ℤ} (hb : 512 ≤ b) (hn : 8 * b < n) :
    8 * (((n * 128 / b) / 8 / b + 1) * b) < n := by
  have hpos : 0 < b := by omega
  have hc₀ : 0 ≤ n * 128 / b := Int.ediv_nonneg (by omega) hpos.le
  have hc : n * 128 / b * b ≤ n * 128 := Int.ediv_mul_le _ hpos.ne'
  generalize n * 128 / b = c at *
  have hq₀ : 0 ≤ c / 8 / b := Int.ediv_nonneg (by omega) hpos.le
  have hq : c / 8 / b * b ≤ c / 8 := Int.ediv_mul_le _ hpos.ne'
  generalize c / 8 / b = q at *
  have h4 : 4 * c ≤ n := by nlinarith
  rcases eq_or_lt_of_le hq₀ with h0 | h0
  · rw [← h0]
    omega
  · have : b ≤ q * b := by nlinarith
    rw [add_mul, one_mul]
    omega

/-- The inode map that is made has room for the inodes exactly if one block is enough for it. -/
theorem inode_map_room_iff (fs : Myfs) (hk : 9 ≤ k) (hb : fs.dsb.blockSize = 2 ^ k)
    (hn : 0 ≤ fs.dsb.numBlocks) (h : (myfsCreateInodes fs).1 = 0) :
    InodeMapRoom (myfsCreateInodes fs).2 ↔ fs.dsb.numBlocks >>> 2 ≤ 8 * (fs.dsb.blockSize : ℤ) := by
  have hmade := createInodes_made h
  have hbits := createInodes_numbits hmade
  have hgrant := (show Grant _ _ (mapGrant fs) from preAllocateBlocks_grant hmade.mapOk)
  have hgrant' := preAllocateBlocks_grant hmade.tableOk
  obtain ⟨area, hres⟩ := hmade.result
  generalize (myfsCreateInodes fs).2 = fs' at hbits hres ⊢
  have hsize : fs'.dsb.blockSize = fs.dsb.blockSize := by
    rw [hres]
    exact hgrant'.blockSize.trans hgrant.blockSize
  have hmap : fs'.dsb.numInodeMapBlocks = (mapGrant fs).2.1 := by rw [hres]
  have hinodes : fs'.dsb.numInodes = fs.dsb.numBlocks >>> 2 := by rw [hres]
  have h512 : (512 : ℤ) ≤ fs.dsb.blockSize := by
    rw [hb]
    exact_mod_cast Nat.pow_le_pow_right two_pos hk
  rw [inode_count] at hinodes hbits ⊢
  constructor
  · intro hroom
    by_contra hlt
    have hshort := inodeMapBlocks_short h512 (not_le.1 hlt)
    rw [← inodeMapBlocks_eq hn] at hshort
    have hle := mul_le_mul_of_nonneg_right hgrant.le (show (0 : ℤ) ≤ fs.dsb.blockSize by omega)
    have hroom := hroom.bits
    rw [hsize, hmap, hinodes] at hroom
    exact absurd (le_trans hroom (by linarith)) (not_le.2 hshort)
  · intro hone
    refine inodeMapRoom_of_bits (hsize.trans hb) (by omega) ?_ ?_
    · rw [hbits, hinodes]
      exact newVector_numbits_le (by omega)
    · rw [hsize, hmap, hinodes]
      have hpos := hgrant.pos
      have := le_mul_of_one_le_left (show (0 : ℤ) ≤ fs.dsb.blockSize by omega)
        (show 1 ≤ (mapGrant fs).2.1 from hpos)
      omega

theorem inode_map_room_16_blocks :
    InodeMapRoom (myfsCreateInodes (myfsCreateStorageMap smallDisk).2).2 :=
  (inode_map_room_iff (k := 9) (myfsCreateStorageMap smallDisk).2 (by decide) (by decide +kernel)
    (by decide +kernel) (by decide +kernel)).2 (by decide +kernel)

/-- With 4097 inodes one block of 512 bytes is no longer enough, and one block is what they get. -/
theorem inode_map_of_4097_inodes_short :
    (myfsCreateInodes (myfsCreateStorageMap (blankFs goodHost 512 16388)).2).1 = 0 ∧
    ¬InodeMapRoom (myfsCreateInodes (myfsCreateStorageMap (blankFs goodHost 512 16388)).2).2 := by
  refine ⟨by decide +kernel, fun h => absurd h.bits ?_⟩
  decide +kernel

end Inodes

section InodeTable
variable {k : ℕ} {fs : Myfs}

theorem freeTail_newVector (n : ℤ) : FreeTail (newVector n) 0 :=
  ⟨fun p _ => by rw [newVector_bit]; rfl, fun _ => rfl, rfl⟩

theorem bitmapBlocks_int32 (hk : 9 ≤ k) (hk' : k < 31) (numBlocks : ℤ) :
    toInt32 (bitmapBlocks (2 ^ k) numBlocks + 1) = bitmapBlocks (2 ^ k) numBlocks + 1 := by
  have hb : (2 : ℤ) ^ 9 ≤ 2 ^ k := pow_le_pow_right₀ (by decide) hk
  have hup := bitmapBlocks_lt hk' numBlocks
  have hlow : -2 ^ 31 ≤ bitmapBlocks (2 ^ k) numBlocks := by
    have hmin : -2 ^ 31 ≤ toInt32 (maskDown (toInt32 (numBlocks.tdiv 8) + (2 ^ k : ℕ) - 1)
        (2 ^ k : ℕ)) := Int.le_bmod (by decide)
    refine le_trans ?_ (Int.tdiv_le_tdiv (by positivity) hmin)
    rw [Int.neg_tdiv]
    exact neg_le_neg (Int.tdiv_le_self _ (by decide))
  refine Int.bmod_eq_of_le (by omega) ?_
  by_contra hge
  have : 2 ^ 9 * 2 ^ 31 ≤ (2 : ℤ) ^ k * (bitmapBlocks (2 ^ k) numBlocks + 1) :=
    mul_le_mul hb (by omega) (by decide) (by positivity)
  have hring : (2 : ℤ) ^ k * (bitmapBlocks (2 ^ k) numBlocks + 1) =
    bitmapBlocks (2 ^ k) numBlocks * 2 ^ k + 2 ^ k := by ring
  omega

/-- The blocks in front of the free ones once the storage map is made. -/
def reserved (bsize : ℕ) (numBlocks : ℤ) : ℤ := bitmapBlocks bsize numBlocks + 1

theorem MapMade.freeTail {fs' : Myfs} (hk : 9 ≤ k) (hk' : k < 31) (hb : fs.dsb.blockSize = 2 ^ k)
    (h : MapMade fs fs' (bitmapBlocks fs.dsb.blockSize fs.dsb.numBlocks)) :
    0 ≤ reserved fs.dsb.blockSize fs.dsb.numBlocks ∧
    fs'.bv.numbits = (newVector fs.dsb.numBlocks).numbits ∧
    FreeTail fs'.bv (reserved fs.dsb.blockSize fs.dsb.numBlocks).toNat := by
  have hfound := h.found
  have hbv := h.bv
  have hint := bitmapBlocks_int32 hk hk' fs.dsb.numBlocks
  rw [← hb] at hint
  rw [hint] at hfound hbv
  unfold reserved
  generalize bitmapBlocks fs.dsb.blockSize fs.dsb.numBlocks + 1 = c at hfound hbv ⊢
  rcases getFreeRangeOfBits_cases (newVector fs.dsb.numBlocks) c with
    ⟨start, hs, hc, _, ht⟩ | ⟨hs, _⟩
  · obtain ⟨len, rfl⟩ := Int.eq_ofNat_of_zero_le hc.le
    obtain ⟨_, htail⟩ := (freeTail_newVector fs.dsb.numBlocks).fits len (by omega) (by
      have := ht.inside
      rw [Int.toNat_natCast] at this
      omega)
    rw [hbv]
    rw [Nat.zero_add] at htail
    exact ⟨hc.le, ht.numbits, htail⟩
  · rw [hs] at hfound
    exact absurd hfound (by decide)

/-- What a loose request gets while the free blocks are the last ones. -/
theorem grant_of_freeTail {c s : ℤ} {a : ℕ} (h : FreeTail fs.bv a)
    (hok : (preAllocateBlocks fs c s).1 = 0) :
    (preAllocateBlocks fs c s).2.1 =
      looseGrant fs.bv.numbits (fs.bv.numbits - a) (toInt32 c) ∧
    FreeTail (preAllocateBlocks fs c s).2.2.2.bv (a + (preAllocateBlocks fs c s).2.1.toNat) := by
  obtain ⟨hpos, _, _, _, _, htaken, hstart⟩ := preAllocateBlocks_grant hok
  obtain ⟨_, _, hn, hs, hbv⟩ :=
    realAllocateBlocks_grant (show (realAllocateBlocks fs c s _).1 = 0 from hok)
  have hcap := (chunkCount_bounds fs.bv.numbits).1
  have ha : a < fs.bv.numbits := by
    -- The first bit of the range is clear, so it is behind the set ones.
    have hin := htaken.inside
    have hclear := htaken.clear _ le_rfl (by omega)
    rw [h.bits _ (by omega), decide_eq_false_iff_not] at hclear
    omega
  have hc : 1 ≤ toInt32 c := by
    by_contra hlt
    rw [show (toInt32 c).toNat = 0 by omega] at hs
    unfold preAllocateBlocks at hstart
    rw [hs, allocateLoop] at hstart
    exact absurd hstart (show ¬(0 : ℤ) ≤ -1 by decide)
  obtain ⟨_, hgrant, htail⟩ := allocateLoop_loose h ha hc
  rw [Nat.cast_sub ha.le] at hgrant htail
  unfold preAllocateBlocks
  rw [hn, hbv, hgrant]
  exact ⟨rfl, htail⟩

/-- The block of the record of inode `ia`, as `update_inode` and `myfs_read_vnode` compute it. -/
def recordBlock (fs : Myfs) (ia : ℤ) : ℤ :=
  fs.dsb.inodesStart + (ia * myfsInode).tdiv fs.dsb.blockSize

/-- A map of `numbits` inodes can hand out inode `ia`. -/
def HandsOut (numbits : ℕ) (ia : ℤ) : Prop :=
  0 ≤ ia ∧ ∃ bv : BitVector, bv.numbits = numbits ∧ (getFreeRangeOfBits bv 1).1 = ia

theorem handsOut_iff (numbits : ℕ) (ia : ℤ) : HandsOut numbits ia ↔ 0 ≤ ia ∧ ia < numbits := by
  constructor
  · rintro ⟨hpos, bv, rfl, rfl⟩
    rcases getFreeRangeOfBits_cases bv 1 with ⟨start, hs, _, _, ht⟩ | ⟨hs, _⟩
    · have := ht.inside
      simp only [Int.toNat_one] at this
      omega
    · omega
  · rintro ⟨hpos, hlt⟩
    obtain ⟨a, rfl⟩ := Int.eq_ofNat_of_zero_le hpos
    -- Hand out the inodes before it first.
    have hfresh : FreeTail { newVector 0 with numbits := numbits } 0 :=
      ⟨fun p _ => newVector_bit 0 p, fun _ => rfl, rfl⟩
    obtain ⟨bv, hn, htail⟩ : ∃ bv, bv.numbits = numbits ∧ FreeTail bv a := by
      rcases Nat.eq_zero_or_pos a with rfl | ha
      · exact ⟨_, rfl, hfresh⟩
      · obtain ⟨hs, htail⟩ := hfresh.fits a ha (by dsimp only; omega)
        rw [Nat.zero_add] at htail
        rcases getFreeRangeOfBits_cases { newVector 0 with numbits := numbits } a with
          ⟨_, _, _, _, ht⟩ | ⟨hs', _⟩
        · exact ⟨_, ht.numbits, htail⟩
        · omega
    exact ⟨hpos, bv, hn, (htail.fits 1 one_pos (by omega)).1⟩

/-- Every inode that can be handed out has its record in the table, and the table is in use. -/
structure InodeTableRoom (fs : Myfs) : Prop where
  records : ∀ ia, ia < fs.dsb.numInodes → HandsOut fs.inodeMap.numbits ia →
    fs.dsb.inodesStart ≤ recordBlock fs ia ∧
      recordBlock fs ia < fs.dsb.inodesStart + fs.dsb.numInodeBlocks
  used : ∀ b, fs.dsb.inodesStart ≤ b → b < fs.dsb.inodesStart + fs.dsb.numInodeBlocks →
    isSetBV fs.bv b = true

/-- What the two reservations for the inodes get on a volume whose map has just been made. -/
def mapGranted (bsize : ℕ) (numBlocks : ℤ) : ℤ :=
  let total : ℤ := (newVector numBlocks).numbits
  looseGrant total (total - reserved bsize numBlocks) (toInt32 (inodeMapBlocks bsize numBlocks))

def tableGranted (bsize : ℕ) (numBlocks : ℤ) : ℤ :=
  let total : ℤ := (newVector numBlocks).numbits
  looseGrant total (total - (reserved bsize numBlocks + mapGranted bsize numBlocks))
    (toInt32 (inodeBlocks bsize numBlocks))

/-- The records of all inodes, the count of which is kept in an `int`, fit in the granted table. -/
def TableFits (bsize : ℕ) (numBlocks : ℤ) : Prop :=
  ((newVector (numBlocks >>> 2)).numbits : ℤ) * myfsInode ≤ tableGranted bsize numBlocks * bsize

theorem records_inside_iff {numbits : ℕ} {granted c : ℤ} (hg : 0 ≤ granted) (hc : 0 < c) :
    (∀ ia : ℤ, 0 ≤ ia → ia < numbits → ia * 128 / (128 * c) < granted) ↔
      (numbits : ℤ) * 128 ≤ granted * (128 * c) := by
  have hdiv : ∀ ia : ℤ, ia * 128 / (128 * c) < granted ↔ ia < granted * c := by
    intro ia
    rw [mul_comm ia, Int.mul_ediv_mul_of_pos _ _ (by decide), Int.ediv_lt_iff_lt_mul hc]
  simp only [hdiv]
  constructor
  · intro h
    have hle : (numbits : ℤ) ≤ granted * c := by
      rcases Nat.eq_zero_or_pos numbits with h0 | h0
      · rw [h0]
        positivity
      · have := h (numbits - 1) (by omega) (by omega)
        omega
    linarith
  · intro h ia h₀ h₁
    linarith

/-- While the block numbers are `int`s, the table is short unless its records fill whole blocks. -/
theorem tableFits_iff_dvd {bsize : ℕ} {numBlocks : ℤ} (hb : 512 ≤ bsize) (hn : 0 ≤ numBlocks)
    (hint : numBlocks < 2 ^ 31) (hgrant : reserved bsize numBlocks + mapGranted bsize numBlocks +
      inodeBlocks bsize numBlocks ≤ numBlocks) :
    TableFits bsize numBlocks ↔ (bsize : ℤ) ∣ numBlocks / 4 * 128 := by
  have hb' : (0 : ℤ) < bsize := by omega
  have hnum : ((newVector numBlocks).numbits : ℤ) = numBlocks := by
    unfold newVector
    rw [toInt32_of_lt hn hint]
    exact Int.toNat_of_nonneg hn
  have hcount : ((newVector (numBlocks >>> 2)).numbits : ℤ) = numBlocks / 4 := by
    unfold newVector
    rw [inode_count, toInt32_of_lt (by omega) (by omega)]
    exact Int.toNat_of_nonneg (by omega)
  have hsmall : inodeBlocks bsize numBlocks ≤ numBlocks / 4 := by
    rw [inodeBlocks_eq hn]
    exact Int.ediv_le_of_le_mul hb' (by nlinarith)
  have hpos : 0 ≤ inodeBlocks bsize numBlocks := by
    rw [inodeBlocks_eq hn]
    positivity
  have htable : tableGranted bsize numBlocks = inodeBlocks bsize numBlocks := by
    unfold tableGranted looseGrant
    dsimp only
    rw [toInt32_of_lt hpos (by omega), if_pos (by omega)]
  unfold TableFits
  rw [hcount, htable, inodeBlocks_eq hn]
  have hle := Int.ediv_mul_le (numBlocks / 4 * 128) hb'.ne'
  constructor
  · intro h
    refine ⟨numBlocks / 4 * 128 / bsize, ?_⟩
    rw [mul_comm (bsize : ℤ)]
    exact le_antisymm h hle
  · intro h
    exact (Int.ediv_mul_cancel h).ge

/-- The numbers behind the table of a volume that has just been made. -/
structure TableMade (fs₀ fs : Myfs) : Prop where
  blockSize : fs.dsb.blockSize = fs₀.dsb.blockSize
  numInodes : fs.dsb.numInodes = fs₀.dsb.numBlocks >>> 2
  numbits : fs.inodeMap.numbits = (newVector (fs₀.dsb.numBlocks >>> 2)).numbits
  numInodeBlocks : fs.dsb.numInodeBlocks = tableGranted fs₀.dsb.blockSize fs₀.dsb.numBlocks
  pos : 0 < fs.dsb.numInodeBlocks
  requested : fs₀.dsb.usedBlocks + (reserved fs₀.dsb.blockSize fs₀.dsb.numBlocks +
    mapGranted fs₀.dsb.blockSize fs₀.dsb.numBlocks +
    inodeBlocks fs₀.dsb.blockSize fs₀.dsb.numBlocks) ≤ fs₀.dsb.numBlocks
  used : ∀ b, fs.dsb.inodesStart ≤ b → b < fs.dsb.inodesStart + fs.dsb.numInodeBlocks →
    isSetBV fs.bv b = true

theorem isSetBV_of_taken {bv bv' : BitVector} {start n b : ℤ} (h₀ : 0 ≤ start)
    (h : RangeTaken bv bv' start.toNat n.toNat) (h₁ : start ≤ b) (h₂ : b < start + n) :
    isSetBV bv' b = true := by
  have hin := h.inside
  have hset := h.bits b.toNat
  rw [decide_eq_true (by omega), Bool.or_true] at hset
  unfold isSetBV
  rw [if_neg (by rw [h.numbits]; omega)]
  exact hset

theorem tableMade (fs₀ : Myfs) (hk : 9 ≤ k) (hk' : k < 31) (hb : fs₀.dsb.blockSize = 2 ^ k)
    (hmap : (myfsCreateStorageMap fs₀).1 = 0)
    (h : (myfsCreateInodes (myfsCreateStorageMap fs₀).2).1 = 0) :
    TableMade fs₀ (myfsCreateInodes (myfsCreateStorageMap fs₀).2).2 := by
  have hstore := createStorageMap_made hmap
  obtain ⟨hres₀, hbits, htail⟩ := hstore.freeTail hk hk' hb
  have hdsb := hstore.dsb
  generalize (myfsCreateStorageMap fs₀).2 = fs at hbits htail hdsb h ⊢
  have hsize : fs.dsb.blockSize = fs₀.dsb.blockSize := by rw [hdsb]
  have hnum : fs.dsb.numBlocks = fs₀.dsb.numBlocks := by rw [hdsb]
  have hmade := createInodes_made h
  have hnumbits := createInodes_numbits hmade
  have hgrant := (show Grant _ _ (mapGrant fs) from preAllocateBlocks_grant hmade.mapOk)
  have hgrant' := (show Grant _ _ (tableGrant fs) from preAllocateBlocks_grant hmade.tableOk)
  obtain ⟨hn₁, htail₁⟩ : (mapGrant fs).2.1 = _ ∧ FreeTail (mapGrant fs).2.2.2.bv _ :=
    grant_of_freeTail htail hmade.mapOk
  obtain ⟨hn₂, _⟩ : (tableGrant fs).2.1 = _ ∧ FreeTail (tableGrant fs).2.2.2.bv _ :=
    grant_of_freeTail htail₁ hmade.tableOk
  have hmapGranted : (mapGrant fs).2.1 = mapGranted fs₀.dsb.blockSize fs₀.dsb.numBlocks := by
    rw [hn₁, hbits, Int.toNat_of_nonneg hres₀, hsize, hnum]
    rfl
  have htable : (tableGrant fs).2.1 = tableGranted fs₀.dsb.blockSize fs₀.dsb.numBlocks := by
    have hpos := hgrant.pos
    rw [hn₂, hgrant.taken.numbits, hbits, Nat.cast_add, Int.toNat_of_nonneg hres₀,
      Int.toNat_of_nonneg (show 0 ≤ (preAllocateBlocks fs _ 0).2.1 from hpos.le),
      show (preAllocateBlocks fs _ 0).2.1 = _ from hmapGranted, hsize, hnum]
    rfl
  obtain ⟨area, hres⟩ := hmade.result
  generalize (myfsCreateInodes fs).2 = fs' at hnumbits hres ⊢
  refine ⟨?_, ?_, ?_, ?_, ?_, ?_, ?_⟩
  · rw [hres]
    exact (hgrant'.blockSize.trans hgrant.blockSize).trans hsize
  · rw [hres, ← hnum]
  · rw [hnumbits, hnum]
  · rw [hres]
    exact htable
  · rw [hres]
    exact hgrant'.pos
  · have hroom : inodeBlocks fs.dsb.blockSize fs.dsb.numBlocks ≤
        (mapGrant fs).2.2.2.dsb.numBlocks - (mapGrant fs).2.2.2.dsb.usedBlocks :=
      (realAllocateBlocks_grant hmade.tableOk).2.1
    rw [hgrant.numBlocks, hgrant.usedBlocks, hmapGranted, hsize, hnum, hdsb] at hroom
    unfold reserved
    dsimp only at hroom
    omega
  · rw [hres]
    exact fun b h₁ h₂ => isSetBV_of_taken hgrant'.start hgrant'.taken h₁ h₂

theorem TableMade.room_iff {fs₀ : Myfs} (hmade : TableMade fs₀ fs) (hk : 9 ≤ k)
    (hb : fs₀.dsb.blockSize = 2 ^ k) (hn : 0 ≤ fs₀.dsb.numBlocks) :
    InodeTableRoom fs ↔ TableFits fs₀.dsb.blockSize fs₀.dsb.numBlocks := by
  obtain ⟨c, hc, hb'⟩ : ∃ c : ℤ, 0 < c ∧ (fs.dsb.blockSize : ℤ) = 128 * c := by
    refine ⟨2 ^ (k - 7), by positivity, ?_⟩
    rw [hmade.blockSize, hb, show (128 : ℤ) = 2 ^ 7 by decide, ← pow_add]
    push_cast
    congr 1
    omega
  have hnumbits : (fs.inodeMap.numbits : ℤ) ≤ fs.dsb.numInodes := by
    rw [hmade.numbits, hmade.numInodes, inode_count]
    exact newVector_numbits_le (by omega)
  have hrecord : ∀ ia, 0 ≤ ia → recordBlock fs ia = fs.dsb.inodesStart + ia * 128 / (128 * c) := by
    intro ia h₀
    unfold recordBlock myfsInode
    rw [Int.tdiv_eq_ediv_of_nonneg (by positivity), hb']
    rfl
  have hfits : TableFits fs₀.dsb.blockSize fs₀.dsb.numBlocks ↔
      (fs.inodeMap.numbits : ℤ) * 128 ≤ fs.dsb.numInodeBlocks * (128 * c) := by
    unfold TableFits myfsInode
    rw [hmade.numbits, hmade.numInodeBlocks, ← hb', hmade.blockSize]
    rfl
  rw [hfits, ← records_inside_iff hmade.pos.le hc]
  constructor
  · intro hroom ia h₀ h₁
    have := (hroom.records ia (by omega) ((handsOut_iff _ _).2 ⟨h₀, h₁⟩)).2
    rw [hrecord ia h₀] at this
    omega
  · intro hall
    refine ⟨fun ia _ hout => ?_, hmade.used⟩
    obtain ⟨h₀, h₁⟩ := (handsOut_iff _ _).1 hout
    have := hall ia h₀ h₁
    have hpos : 0 ≤ ia * 128 / (128 * c) := by positivity
    rw [hrecord ia h₀]
    omega

/-- The inode table of a new volume holds the record of every inode exactly if the blocks
granted for it are enough for all of them; while block numbers are `int`s, that is when the
records fill whole blocks, since the size of the table is rounded down. -/
theorem inode_table_room_iff (fs₀ : Myfs) (hk : 9 ≤ k) (hk' : k < 31)
    (hb : fs₀.dsb.blockSize = 2 ^ k) (hn : 0 ≤ fs₀.dsb.numBlocks)
    (hmap : (myfsCreateStorageMap fs₀).1 = 0)
    (h : (myfsCreateInodes (myfsCreateStorageMap fs₀).2).1 = 0) :
    (InodeTableRoom (myfsCreateInodes (myfsCreateStorageMap fs₀).2).2 ↔
      TableFits fs₀.dsb.blockSize fs₀.dsb.numBlocks) ∧
    (fs₀.dsb.usedBlocks = 0 → fs₀.dsb.numBlocks < 2 ^ 31 →
      (TableFits fs₀.dsb.blockSize fs₀.dsb.numBlocks ↔
        (fs₀.dsb.blockSize : ℤ) ∣ fs₀.dsb.numBlocks / 4 * 128)) := by
  have hmade := tableMade fs₀ hk hk' hb hmap h
  generalize (myfsCreateInodes (myfsCreateStorageMap fs₀).2).2 = fs at hmade ⊢
  refine ⟨?_, fun h₀ hint => tableFits_iff_dvd ?_ hn hint ?_⟩
  · exact hmade.room_iff hk hb hn
  · rw [hb]
    exact Nat.pow_le_pow_right two_pos hk
  · have := hmade.requested
    omega

/-- Sixteen blocks: four inodes, whose records fill one block. -/
theorem inode_table_room_16_blocks :
    InodeTableRoom (myfsCreateInodes (myfsCreateStorageMap smallDisk).2).2 :=
  (inode_table_room_iff (k := 9) smallDisk (by decide) (by decide) rfl (by decide)
    (by decide +kernel) (by decide +kernel)).1.2 (by unfold TableFits; decide +kernel)

/-- Twenty blocks: the record of the fifth inode is behind the one block of the table. -/
theorem inode_table_of_20_blocks_short :
    (myfsCreateStorageMap (blankFs goodHost 512 20)).1 = 0 ∧
    (myfsCreateInodes (myfsCreateStorageMap (blankFs goodHost 512 20)).2).1 = 0 ∧
    ¬InodeTableRoom (myfsCreateInodes (myfsCreateStorageMap (blankFs goodHost 512 20)).2).2 := by
  refine ⟨by decide +kernel, by decide +kernel, fun h => ?_⟩
  have hout : HandsOut (myfsCreateInodes (myfsCreateStorageMap
      (blankFs goodHost 512 20)).2).2.inodeMap.numbits 4 := by
    rw [handsOut_iff]
    decide +kernel
  exact absurd (h.records 4 (by decide +kernel) hout).2 (by decide +kernel)

end InodeTable

end VolumeGeometry
