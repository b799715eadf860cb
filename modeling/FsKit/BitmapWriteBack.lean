import Mathlib.Tactic
import FsKit.BlockBitmap

/-! The bitmap on the disk (`bitmap.c`). Every call that changes the bit vector writes some
of its blocks back; which ones it picks is compared with where the bits changed. -/
namespace BitmapWriteBack

open MachineIntegers
open BitVectorSearch BlockBitmap

section Bytes

theorem chunkByte_testBit (bits : ℕ → BitVec 32) (k : ℕ) {j : ℕ} (hj : j < 8) :
    (chunkByte bits k).toNat.testBit j = bitOf bits (8 * k + j) := by
  have hdiv : (8 * k + j) / 32 = k / 4 := by omega
  have hmod : (8 * k + j) % 32 = 8 * (k % 4) + j := by omega
  rw [chunkByte, bitOf, hdiv, hmod, UInt8.toNat_ofNat', Nat.testBit_mod_two_pow,
    Nat.testBit_shiftRight, BitVec.getLsbD]
  simp [hj]

theorem chunkByte_congr {bits bits' : ℕ → BitVec 32} {k : ℕ}
    (h : ∀ j < 8, bitOf bits' (8 * k + j) = bitOf bits (8 * k + j)) :
    chunkByte bits' k = chunkByte bits k := by
  rw [← UInt8.toNat_inj]
  refine Nat.eq_of_testBit_eq fun j => ?_
  by_cases hj : j < 8
  · rw [chunkByte_testBit bits' k hj, chunkByte_testBit bits k hj, h j hj]
  · have hlt : ∀ b : UInt8, b.toNat.testBit j = false := by
      intro b
      refine Nat.testBit_lt_two_pow (b.toNat_lt.trans_le ?_)
      exact Nat.pow_le_pow_right (by decide) (by omega)
    rw [hlt, hlt]

end Bytes

/-- The blocks of the on-disk bitmap hold the bit vector. -/
def OnDisk (fs : Myfs) : Prop :=
  ∀ q : ℕ, (q : ℤ) < fs.numBitmapBlocks → ∀ i < fs.dsb.blockSize,
    fs.metaArea (q + 1) i = chunkByte fs.bv.bits (q * fs.dsb.blockSize + i)

/-- Whatever the blocks outside the bitmap hold, the call leaves them as they are. -/
def KeepsOutside (fs : Myfs) (call : Myfs → Myfs) : Prop :=
  ∀ area b, ¬(1 ≤ b ∧ b ≤ fs.numBitmapBlocks) →
    (call { fs with metaArea := area }).metaArea b = area b

/-- The bitmap is on the disk again and nothing beside it was written. -/
def FollowedBy (fs : Myfs) (call : Myfs → Myfs) : Prop := OnDisk (call fs) ∧ KeepsOutside fs call

section Areas
variable {fs fs' : Myfs} {start n : ℕ}

/-- The metadata area after bitmap blocks `first` to `last` were written from the vector. -/
def written (area : ℤ → Block) (bsize : ℕ) (bits : ℕ → BitVec 32) (first last : ℕ) : ℤ → Block :=
  fun b =>
    if (first : ℤ) + 1 ≤ b ∧ b ≤ last + 1 then fun i => chunkByte bits ((b - 1).toNat * bsize + i)
    else area b

theorem written_at (area : ℤ → Block) (bsize : ℕ) (bits : ℕ → BitVec 32) (first last q : ℕ) :
    written area bsize bits first last (q + 1) =
      if first ≤ q ∧ q ≤ last then fun i => chunkByte bits (q * bsize + i) else area (q + 1) := by
  have hq : ((q : ℤ) + 1 - 1).toNat = q := by omega
  simp only [written, hq]
  congr 1
  exact propext (by omega)

/-- The first and the last bitmap block that a call writes for a range. -/
def firstBlock (fs : Myfs) (start : ℕ) : ℕ := start / (8 * fs.dsb.blockSize)

def lastBlock (fs : Myfs) (start n : ℕ) : ℕ :=
  start / (8 * fs.dsb.blockSize) + n / (8 * fs.dsb.blockSize)

/-- The bitmap blocks that a change of `n` bits from `start` on has written lie in the bitmap,
and they reach its end or the last bit of the range. -/
def Covered (fs : Myfs) (start n : ℕ) : Prop :=
  (lastBlock fs start n : ℤ) < fs.numBitmapBlocks ∧
  ((lastBlock fs start n : ℤ) + 1 = fs.numBitmapBlocks ∨
    (start + n - 1) / (8 * fs.dsb.blockSize) ≤ lastBlock fs start n)

/-- The calls this is about: the range changes in the vector, bit by bit, and the blocks
of the range are written back. -/
structure Changes (fs fs' : Myfs) (start n : ℕ) : Prop where
  pos : 0 < n
  flipped : ∀ p, start ≤ p → p < start + n → fs'.bv.bit p ≠ fs.bv.bit p
  kept : ∀ p, ¬(start ≤ p ∧ p < start + n) → fs'.bv.bit p = fs.bv.bit p
  blockSize : fs'.dsb.blockSize = fs.dsb.blockSize
  numBitmapBlocks : fs'.numBitmapBlocks = fs.numBitmapBlocks
  area : fs'.metaArea =
    written fs.metaArea fs.dsb.blockSize fs'.bv.bits (firstBlock fs start) (lastBlock fs start n)

theorem bits_of_byte {q i b j : ℕ} (hb : 0 < b) (hi : i < b) (hj : j < 8) :
    (8 * (q * b + i) + j) / (8 * b) = q := by
  have hlt : 8 * i + j < 8 * b := by omega
  have hsum : 8 * (q * b + i) + j = 8 * i + j + q * (8 * b) := by ring
  rw [hsum, Nat.add_mul_div_right _ _ (by omega), Nat.div_eq_of_lt hlt, Nat.zero_add]

theorem Changes.onDisk_of_covered (h : Changes fs fs' start n) (hb : 0 < fs.dsb.blockSize)
    (hd : OnDisk fs) (hc : Covered fs start n) : OnDisk fs' := by
  obtain ⟨_, hreach⟩ := hc
  intro q hq i hi
  rw [h.numBitmapBlocks] at hq
  rw [h.blockSize] at hi ⊢
  rw [h.area, written_at]
  split
  · rfl
  · rename_i hout
    rw [hd q hq i hi]
    refine (chunkByte_congr fun j hj => ?_).symm
    have hblock := bits_of_byte (q := q) hb hi hj
    refine h.kept _ ?_
    rintro ⟨hge, hlt⟩
    -- the block of a changed bit is among those written
    have hlow := Nat.div_le_div_right (c := 8 * fs.dsb.blockSize) hge
    have hhigh := Nat.div_le_div_right (c := 8 * fs.dsb.blockSize)
      (show 8 * (q * fs.dsb.blockSize + i) + j ≤ start + n - 1 by omega)
    rw [hblock] at hlow hhigh
    refine hout ⟨hlow, ?_⟩
    rcases hreach with hreach | hreach <;> omega

theorem Changes.covered_of_onDisk (h : Changes fs fs' start n) (hb : 0 < fs.dsb.blockSize)
    (hd : OnDisk fs) (hd' : OnDisk fs') (hin : (lastBlock fs start n : ℤ) < fs.numBitmapBlocks) :
    Covered fs start n := by
  refine ⟨hin, ?_⟩
  by_contra hnot
  obtain ⟨hend, hlast⟩ := not_or.mp hnot
  obtain ⟨q, hq⟩ : ∃ q, q = lastBlock fs start n + 1 := ⟨_, rfl⟩
  have hqn : (q : ℤ) < fs.numBitmapBlocks := by omega
  have hBpos : 0 < 8 * fs.dsb.blockSize := by omega
  -- the first bit of the first block left out has changed
  have hge : start ≤ q * (8 * fs.dsb.blockSize) := by
    have hlt := Nat.lt_div_mul_add hBpos (a := start)
    have hmul : (firstBlock fs start + 1) * (8 * fs.dsb.blockSize) ≤
        q * (8 * fs.dsb.blockSize) := by
      refine Nat.mul_le_mul_right _ ?_
      rw [hq]
      exact Nat.add_le_add_right (Nat.le_add_right _ _) 1
    rw [Nat.add_mul, Nat.one_mul] at hmul
    exact hlt.le.trans hmul
  have hlt : q * (8 * fs.dsb.blockSize) < start + n := by
    have hle : q ≤ (start + n - 1) / (8 * fs.dsb.blockSize) := by omega
    have := (Nat.le_div_iff_mul_le hBpos).mp hle
    have := h.pos
    omega
  have hne := h.flipped _ hge hlt
  have hold := hd q hqn 0 hb
  have hnew := hd' q (by rw [h.numBitmapBlocks]; exact hqn) 0 (by rw [h.blockSize]; exact hb)
  rw [h.area, written_at, if_neg (by omega), h.blockSize, hold] at hnew
  have hbit : ∀ bits : ℕ → BitVec 32,
      (chunkByte bits (q * fs.dsb.blockSize + 0)).toNat.testBit 0 =
        bitOf bits (q * (8 * fs.dsb.blockSize)) := by
    intro bits
    rw [chunkByte_testBit bits _ (by decide)]
    congr 1
    ring
  refine hne ?_
  rw [bit_eq_bitOf, bit_eq_bitOf, ← hbit, ← hbit, hnew]

theorem add_one_ne_self (b : UInt8) : b ≠ b + 1 := by
  intro h
  have hn : b.toNat = (b + 1).toNat := congrArg UInt8.toNat h
  have hlt := b.toNat_lt
  rw [UInt8.toNat_add, UInt8.toNat_one] at hn
  omega

/-- What a call keeps outside the bitmap when it writes a row of its blocks. -/
theorem keepsOutside_iff {call : Myfs → Myfs} {bits : ℕ → BitVec 32} {first last : ℕ}
    (hle : first ≤ last) (h : ∀ area, (call { fs with metaArea := area }).metaArea =
      written area fs.dsb.blockSize bits first last) :
    KeepsOutside fs call ↔ (last : ℤ) < fs.numBitmapBlocks := by
  constructor
  · intro hk
    by_contra hnot
    -- the last block written lies behind the bitmap
    have hchanged := hk (fun _ i => chunkByte bits (last * fs.dsb.blockSize + i) + 1) (last + 1)
      (by omega)
    rw [h, written_at, if_pos ⟨hle, le_rfl⟩] at hchanged
    exact add_one_ne_self _ (congrFun hchanged 0)
  · intro hin area b hb
    rw [h, written, if_neg]
    omega

end Areas

section Calls
variable {fs : Myfs}

/-- The range that the search takes from the vector, for a request that gets one. -/
def found (fs : Myfs) (c : ℤ) (mode : AllocMode) : ℕ × ℕ :=
  let r := allocateLoop mode (toInt32 c).toNat fs.bv (toInt32 c)
  (r.1.toNat, r.2.1.toNat)

theorem writeBlocks_area {n k : ℤ} {mem : ℕ → UInt8} (hk : 0 < k)
    (h : (writeBlocks fs n mem k).1 = k) (area : ℤ → Block) :
    writeBlocks { fs with metaArea := area } n mem k = (k, { fs with
      metaArea := fun b =>
        if n ≤ b ∧ b < n + k then fun i => mem ((b - n).toNat * fs.dsb.blockSize + i)
        else area b }) := by
  unfold writeBlocks at h ⊢
  split_ifs at h ⊢ <;> first | rfl | (dsimp only at h; omega)

/-- The write of `len + 1` bitmap blocks from number `first` on goes through. -/
structure Storable (fs : Myfs) (first len : ℕ) : Prop where
  writable : fs.readOnly = false
  inside : (first : ℤ) + 1 + len < fs.dsb.numBlocks
  works : fs.cacheFails (first + 1) (len + 1) = false

theorem writeBlocks_eq_iff (fs : Myfs) (first len : ℕ) (mem : ℕ → UInt8) :
    (writeBlocks fs (first + 1) mem (len + 1)).1 = len + 1 ↔ Storable fs first len := by
  unfold writeBlocks
  constructor
  · intro h
    split_ifs at h with h₁ h₂ h₃ h₄
    any_goals (dsimp only at h; omega)
    rw [not_or] at h₄
    exact ⟨by simpa using h₁, by omega, by simpa using h₄.2⟩
  · rintro ⟨hwritable, hin, hworks⟩
    rw [if_neg (by simp [hwritable]), if_neg (by omega), if_neg (by omega),
      if_neg (by rw [hworks]; simp only [Bool.false_eq_true, or_false]; omega)]

theorem tdiv_tdiv_nat (a b : ℕ) : ((a : ℤ).tdiv 8).tdiv b = (a / (8 * b) : ℕ) := by
  have h₁ : (a : ℤ).tdiv 8 = (a / 8 : ℕ) := by
    rw [Int.tdiv_eq_ediv_of_nonneg (by omega)]
    rfl
  rw [h₁, Int.tdiv_eq_ediv_of_nonneg (by omega), ← Nat.div_div_eq_div_mul]
  rfl

/-- The bytes that are written, seen from the start of the bitmap. -/
theorem area_eq_written (area : ℤ → Block) (bits : ℕ → BitVec 32) (bsize first len : ℕ) :
    (fun b : ℤ => if (first : ℤ) + 1 ≤ b ∧ b < (first : ℤ) + 1 + ((len : ℤ) + 1) then
      fun i => chunkByte bits (first * bsize + ((b - ((first : ℤ) + 1)).toNat * bsize + i))
      else area b) = written area bsize bits first (first + len) := by
  funext b
  simp only [written]
  have hiff : ((first : ℤ) + 1 ≤ b ∧ b < (first : ℤ) + 1 + ((len : ℤ) + 1)) ↔
      ((first : ℤ) + 1 ≤ b ∧ b ≤ ((first + len : ℕ) : ℤ) + 1) := by push_cast; omega
  by_cases hb : (first : ℤ) + 1 ≤ b ∧ b ≤ ((first + len : ℕ) : ℤ) + 1
  · rw [if_pos (hiff.mpr hb), if_pos hb]
    funext i
    congr 1
    have : (b - 1).toNat = first + (b - ((first : ℤ) + 1)).toNat := by omega
    rw [this]
    ring
  · rw [if_neg fun h => hb (hiff.mp h), if_neg hb]

/-- The state after a call that has put a vector in place and written a row of its blocks. -/
structure WrittenBack (fs : Myfs) (area : ℤ → Block) (bv : BitVector) (first last : ℕ)
    (fs' : Myfs) : Prop where
  bv_eq : fs'.bv = bv
  blockSize : fs'.dsb.blockSize = fs.dsb.blockSize
  numBitmapBlocks : fs'.numBitmapBlocks = fs.numBitmapBlocks
  area : fs'.metaArea = written area fs.dsb.blockSize bv.bits first last

/-- An allocation that succeeds takes the range found and writes its blocks. -/
theorem allocate_ok {c a : ℤ} {mode : AllocMode} (h : (realAllocateBlocks fs c a mode).1 = 0) :
    ∃ bv, 0 < (found fs c mode).2 ∧
      RangeTaken fs.bv bv (found fs c mode).1 (found fs c mode).2 ∧
      Storable fs (firstBlock fs (found fs c mode).1)
        ((found fs c mode).2 / (8 * fs.dsb.blockSize)) ∧
      ∀ area, WrittenBack fs area bv (firstBlock fs (found fs c mode).1)
        (lastBlock fs (found fs c mode).1 (found fs c mode).2)
        (realAllocateBlocks { fs with metaArea := area } c a mode).2.2.2 := by
  have hout := allocateLoop_outcome mode (toInt32 c).toNat fs.bv (toInt32 c)
  unfold realAllocateBlocks at h
  split_ifs at h with hc hroom
  · cases h
  · cases h
  obtain ⟨⟨start, nblocks, bv⟩, hr⟩ :
      ∃ r, allocateLoop mode (toInt32 c).toNat fs.bv (toInt32 c) = r := ⟨_, rfl⟩
  have hf : found fs c mode = (start.toNat, nblocks.toNat) := by rw [found, hr]
  rw [hr] at hout h
  dsimp only at hout h
  rcases hout with ⟨s, hs, hpos, htaken⟩ | ⟨hs, _⟩
  swap
  · dsimp only at hs
    subst hs
    simp [ENOSPC] at h
  dsimp only at hs hpos htaken
  subst hs
  obtain ⟨n, rfl⟩ := Int.eq_ofNat_of_zero_le hpos.le
  have hne : ¬((s : ℤ) = -1) := by omega
  simp only [Int.toNat_natCast] at htaken hf
  rw [hf]
  rw [if_neg hne, tdiv_tdiv_nat, tdiv_tdiv_nat] at h
  split at h
  · simp [EINVAL] at h
  rename_i hamt
  rw [not_not] at hamt
  have hstored := (writeBlocks_eq_iff _ _ _ _).mp hamt
  refine ⟨bv, by dsimp only; omega, htaken, ⟨hstored.1, hstored.2, hstored.3⟩, fun area => ?_⟩
  unfold realAllocateBlocks firstBlock lastBlock
  rw [if_neg hc, if_neg hroom]
  dsimp only
  rw [hr]
  dsimp only
  rw [if_neg hne, tdiv_tdiv_nat, tdiv_tdiv_nat]
  clear h hstored
  generalize s / (8 * fs.dsb.blockSize) = first at hamt ⊢
  generalize n / (8 * fs.dsb.blockSize) = len at hamt ⊢
  have hoff : ((first : ℤ) * fs.dsb.blockSize).toNat = first * fs.dsb.blockSize := by
    rw [← Nat.cast_mul, Int.toNat_natCast]
  rw [hoff] at hamt ⊢
  have harea := writeBlocks_area (by positivity) hamt area
  dsimp only at harea
  rw [area_eq_written] at harea
  rw [harea]
  simp only [ne_eq, not_true_eq_false, if_false]
  exact ⟨rfl, rfl, rfl, rfl⟩

theorem allocate_changes {c a : ℤ} {mode : AllocMode} (h : (realAllocateBlocks fs c a mode).1 = 0) :
    Changes fs (realAllocateBlocks fs c a mode).2.2.2 (found fs c mode).1 (found fs c mode).2 ∧
    ∃ bits, ∀ area, (realAllocateBlocks { fs with metaArea := area } c a mode).2.2.2.metaArea =
      written area fs.dsb.blockSize bits (firstBlock fs (found fs c mode).1)
        (lastBlock fs (found fs c mode).1 (found fs c mode).2) := by
  obtain ⟨bv, hpos, htaken, _, hrun⟩ := allocate_ok h
  constructor
  · obtain ⟨hbv, hbs, hnum, harea⟩ := hrun fs.metaArea
    rw [← hbv] at htaken harea
    refine ⟨hpos, ?_, ?_, hbs, hnum, harea⟩
    · intro p h₁ h₂ heq
      have hset := htaken.bits p
      rw [heq, htaken.clear p h₁ h₂, decide_eq_true ⟨h₁, h₂⟩] at hset
      cases hset
    · intro p hp
      rw [htaken.bits, decide_eq_false hp, Bool.or_false]
  · exact ⟨bv.bits, fun area => (hrun area).area⟩

theorem freeWriteBack_area (bits : ℕ → BitVec 32) (len q : ℕ) (fs : Myfs) (bsize : ℕ)
    (hb : fs.dsb.blockSize = bsize)
    (h : (freeWriteBack bits (q * bsize) (len + 1) (q + 1) fs).1 = true) (area : ℤ → Block) :
    freeWriteBack bits (q * bsize) (len + 1) (q + 1) { fs with metaArea := area } =
      (true, { fs with metaArea := written area bsize bits q (q + len) }) := by
  have hone : ∀ (q : ℕ) (fs : Myfs), fs.dsb.blockSize = bsize →
      (writeBlocks fs (q + 1) (fun k => chunkByte bits (q * bsize + k)) 1).1 = 1 → ∀ area,
      writeBlocks { fs with metaArea := area } (q + 1) (fun k => chunkByte bits (q * bsize + k)) 1 =
        (1, { fs with metaArea := written area bsize bits q q }) := by
    intro q fs hb hw area
    rw [writeBlocks_area (by decide) hw area, hb]
    have := area_eq_written area bits bsize q 0
    simp only [Nat.cast_zero, zero_add, Nat.add_zero] at this
    rw [this]
  have hfirst : ∀ {len : ℕ} {q : ℕ} {fs : Myfs},
      (freeWriteBack bits (q * bsize) (len + 1) (q + 1) fs).1 = true →
      (writeBlocks fs (q + 1) (fun k => chunkByte bits (q * bsize + k)) 1).1 = 1 := by
    intro len q fs h
    rw [freeWriteBack] at h
    by_contra hne
    generalize writeBlocks fs (q + 1) (fun k => chunkByte bits (q * bsize + k)) 1 = w at h hne
    obtain ⟨amt, fs'⟩ := w
    simp only [ne_eq, hne, not_false_eq_true, if_true] at h
    cases h
  induction len generalizing q area fs with
  | zero =>
    rw [freeWriteBack, hone q fs hb (hfirst h) area]
    rfl
  | succ len ih =>
    have hstep := hone q fs hb (hfirst h)
    have hself := hstep fs.metaArea
    change writeBlocks fs _ _ _ = _ at hself
    rw [freeWriteBack, hself] at h
    rw [freeWriteBack, hstep area]
    simp only [ne_eq, not_true_eq_false, if_false, hb] at h ⊢
    have hnext : q * bsize + bsize = (q + 1) * bsize := by ring
    have hcast : (q : ℤ) + 1 + 1 = ((q + 1 : ℕ) : ℤ) + 1 := by push_cast; ring
    rw [hnext, hcast] at h ⊢
    have hrest := ih (q + 1) { fs with metaArea := written fs.metaArea bsize bits q q } hb h
      (written area bsize bits q q)
    dsimp only at hrest
    rw [hrest]
    congr 2
    funext b
    simp only [written]
    by_cases hq : b = (q : ℤ) + 1
    · rw [if_neg (by push_cast; omega), if_pos (by omega), if_pos (by push_cast; omega)]
    · by_cases hin : ((q + 1 : ℕ) : ℤ) + 1 ≤ b ∧ b ≤ ((q + 1 + len : ℕ) : ℤ) + 1
      · rw [if_pos hin, if_pos (by push_cast at hin ⊢; omega)]
      · rw [if_neg hin, if_neg (by omega), if_neg (by push_cast at hin ⊢; omega)]

/-- The range is allocated as a whole. -/
structure IsAllocated (fs : Myfs) (start n : ℕ) : Prop where
  pos : 0 < n
  inside : start + n ≤ fs.bv.numbits
  int32 : fs.bv.numbits < 2 ^ 31
  set : ∀ p, start ≤ p → p < start + n → fs.bv.bit p = true

/-- The end of `myfs_free_blocks`, after its write-back loop. -/
def settleFree (len : ℕ) (r : Bool × Myfs) : ℤ × Myfs :=
  if r.1 then
    (0, { r.2 with dsb := { r.2.dsb with
      usedBlocks := r.2.dsb.usedBlocks - (len + 1), flags := .dirty } })
  else (EINVAL, r.2)

theorem myfsFreeBlocks_eq (fs : Myfs) (start n : ℕ) : myfsFreeBlocks fs start n =
    settleFree (n / (8 * fs.dsb.blockSize))
      (freeWriteBack (clearedVector fs.bv start n).bits
        (start / (8 * fs.dsb.blockSize) * fs.dsb.blockSize) (n / (8 * fs.dsb.blockSize) + 1)
        ((start / (8 * fs.dsb.blockSize) : ℕ) + 1)
        { fs with bv := clearedVector fs.bv start n }) := by
  have hoff : ∀ a b : ℕ, ((a : ℤ) * b).toNat = a * b := fun a b => by
    rw [← Nat.cast_mul, Int.toNat_natCast]
  have hlen : ∀ a : ℕ, ((a : ℤ) + 1).toNat = a + 1 := fun a => by omega
  unfold myfsFreeBlocks settleFree
  simp only [tdiv_tdiv_nat, hoff, hlen]

theorem settleFree_writtenBack {bv : BitVector} {first len : ℕ}
    (h : (settleFree len (freeWriteBack bv.bits (first * fs.dsb.blockSize) (len + 1) (first + 1)
      { fs with bv := bv })).1 = 0) (area : ℤ → Block) :
    WrittenBack fs area bv first (first + len)
      (settleFree len (freeWriteBack bv.bits (first * fs.dsb.blockSize) (len + 1) (first + 1)
        { fs with bv := bv, metaArea := area })).2 := by
  have hok : (freeWriteBack bv.bits (first * fs.dsb.blockSize) (len + 1) (first + 1)
      { fs with bv := bv }).1 = true := by
    by_contra hne
    rw [settleFree, if_neg hne] at h
    cases h
  rw [freeWriteBack_area bv.bits len first { fs with bv := bv } fs.dsb.blockSize rfl hok area,
    settleFree, if_pos rfl]
  exact ⟨rfl, rfl, rfl, rfl⟩

theorem free_ok {start n : ℕ} (h : (myfsFreeBlocks fs start n).1 = 0) (area : ℤ → Block) :
    WrittenBack fs area (clearedVector fs.bv start n) (firstBlock fs start) (lastBlock fs start n)
      (myfsFreeBlocks { fs with metaArea := area } start n).2 := by
  rw [myfsFreeBlocks_eq] at h ⊢
  exact settleFree_writtenBack h area

theorem free_changes {start n : ℕ} (ha : IsAllocated fs start n)
    (h : (myfsFreeBlocks fs start n).1 = 0) :
    Changes fs (myfsFreeBlocks fs start n).2 start n ∧
    ∃ bits, ∀ area, (myfsFreeBlocks { fs with metaArea := area } start n).2.metaArea =
      written area fs.dsb.blockSize bits (firstBlock fs start) (lastBlock fs start n) := by
  obtain ⟨hpos, hin, hint, hset⟩ := ha
  obtain ⟨_, hbits⟩ := clearedVector_spec fs.bv start n
  have hs : toInt32 start = start := toInt32_of_lt (by omega) (by omega)
  have hn : toInt32 n = n := toInt32_of_lt (by omega) (by omega)
  rw [hs, hn] at hbits
  constructor
  · obtain ⟨hbv, hbs, hnum, harea⟩ := free_ok h fs.metaArea
    rw [← hbv] at hbits harea
    refine ⟨hpos, ?_, ?_, hbs, hnum, harea⟩
    · intro p h₁ h₂ heq
      have hclear := hbits p
      rw [hset p h₁ h₂, decide_eq_true (by simp only [Int.toNat_natCast]; omega)] at hclear
      exact Bool.false_ne_true (hclear.symm.trans (heq.trans (hset p h₁ h₂)))
    · intro p hp
      have hkeep := hbits p
      rw [decide_eq_false (by simp only [Int.toNat_natCast]; omega)] at hkeep
      exact hkeep.trans (Bool.and_true _)
  · exact ⟨(clearedVector fs.bv start n).bits, fun area => (free_ok h area).area⟩

end Calls

theorem Changes.followed_iff {fs : Myfs} {call : Myfs → Myfs} {start n : ℕ}
    {bits : ℕ → BitVec 32} (h : Changes fs (call fs) start n) (hb : 0 < fs.dsb.blockSize)
    (hd : OnDisk fs) (harea : ∀ area, (call { fs with metaArea := area }).metaArea =
      written area fs.dsb.blockSize bits (firstBlock fs start) (lastBlock fs start n)) :
    FollowedBy fs call ↔ Covered fs start n := by
  have hkeeps := keepsOutside_iff (Nat.le_add_right _ _) harea
  constructor
  · rintro ⟨hd', hk⟩
    exact h.covered_of_onDisk hb hd hd' (hkeeps.mp hk)
  · intro hc
    exact ⟨h.onDisk_of_covered hb hd hc, hkeeps.mpr hc.1⟩

/-- A successful call leaves the bitmap on the disk, and nothing else written, exactly when
the blocks it writes cover the range it has changed and stay inside the bitmap. -/
theorem bitmap_follows_iff (fs : Myfs) (hb : 0 < fs.dsb.blockSize) (hd : OnDisk fs) :
    (∀ c a mode, (realAllocateBlocks fs c a mode).1 = 0 →
      (FollowedBy fs (fun fs => (realAllocateBlocks fs c a mode).2.2.2) ↔
        Covered fs (found fs c mode).1 (found fs c mode).2)) ∧
    (∀ start n : ℕ, IsAllocated fs start n → (myfsFreeBlocks fs start n).1 = 0 →
      (FollowedBy fs (fun fs => (myfsFreeBlocks fs start n).2) ↔ Covered fs start n)) := by
  constructor
  · intro c a mode h
    obtain ⟨hchanges, bits, harea⟩ := allocate_changes h
    exact hchanges.followed_iff hb hd harea
  · intro start n ha h
    obtain ⟨hchanges, bits, harea⟩ := free_changes ha h
    exact hchanges.followed_iff hb hd harea

/-- A disk of two bitmap blocks on which every block is taken. -/
def fullDisk : Myfs :=
  { smallDisk with
    dsb := { smallDisk.dsb with blockSize := 512, numBlocks := 8192, usedBlocks := 8192 }
    bv := { newVector 8192 with bits := fun _ => 0xffffffff }
    numBitmapBlocks := 2
    metaArea := fun _ _ => 255 }

theorem fullDisk_onDisk : OnDisk fullDisk := by
  intro q _ i _
  have hbyte : ∀ r < 4, chunkByte fullDisk.bv.bits r = 255 := by decide +kernel
  change 255 = chunkByte fullDisk.bv.bits (q * 512 + i)
  rw [← hbyte ((q * 512 + i) % 4) (Nat.mod_lt _ (by decide))]
  simp only [chunkByte, fullDisk, Nat.mod_mod]

theorem fullDisk_isAllocated {start n : ℕ} (hn : 0 < n) (h : start + n ≤ 8192) :
    IsAllocated fullDisk start n := by
  refine ⟨hn, h, by decide, fun p _ hp => ?_⟩
  have hbit : ∀ r < 32, (0xffffffff : BitVec 32).getLsbD r = true := by decide
  rw [bit_eq_bitOf]
  exact hbit _ (Nat.mod_lt _ (by decide))

theorem bitmap_follows_fullDisk :
    (myfsFreeBlocks fullDisk 4000 90).1 = 0 ∧
    FollowedBy fullDisk (fun fs => (myfsFreeBlocks fs 4000 90).2) := by
  refine ⟨by decide +kernel, ?_⟩
  refine ((bitmap_follows_iff fullDisk (by decide) fullDisk_onDisk).2 4000 90
    (fullDisk_isAllocated (by decide) (by decide)) (by decide +kernel)).mpr ?_
  exact ⟨by decide +kernel, .inr (by decide +kernel)⟩

/-- The two blocks freed have their bits in different bitmap blocks; one of them is written. -/
theorem free_across_bitmap_blocks_stale :
    OnDisk fullDisk ∧ IsAllocated fullDisk 4095 2 ∧ (myfsFreeBlocks fullDisk 4095 2).1 = 0 ∧
    ¬ OnDisk (myfsFreeBlocks fullDisk 4095 2).2 := by
  refine ⟨fullDisk_onDisk, fullDisk_isAllocated (by decide) (by decide), by decide +kernel, ?_⟩
  intro h
  have hbyte := h 1 (by decide +kernel) 0 (by decide +kernel)
  revert hbyte
  decide +kernel

end BitmapWriteBack
