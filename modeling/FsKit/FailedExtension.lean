import Mathlib.Tactic
import FsKit.FileSizeAgreement
import FsKit.MakeAndMount
import FsKit.StreamWriting

/-! Extensions that fail (`myfs_set_file_size` and `myfs_write_data_stream` of `dstream.c`).
`grow_dstream` rounds the size up and takes block after block before it finds out that a block is
missing or that the range of the double indirect block is not there, and it gives nothing back.
Whether a failed call leaves the file as it was is decided by the first request for a block. -/
namespace FailedExtension

open MachineIntegers
open BlockBitmap BlockRounding InodeTable DataStreamBlocks DataStreamGrowth DataStreamShape
open FileBlockOwnership BlockSupply
open FileSizeAgreement (Call requestedSize Stream)

section Books
variable {fs : Myfs}

theorem realAllocateBlocks_used {c a : ℤ} {mode : AllocMode}
    (h : (realAllocateBlocks fs c a mode).1 ≠ 0) :
    (realAllocateBlocks fs c a mode).2.2.2.dsb.usedBlocks = fs.dsb.usedBlocks := by
  unfold realAllocateBlocks at h ⊢
  split at h
  · rename_i hc
    rw [if_pos hc]
  rename_i hc
  rw [if_neg hc]
  split at h
  · rename_i hroom
    rw [if_pos hroom]
  rename_i hroom
  rw [if_neg hroom]
  generalize allocateLoop mode (toInt32 c).toNat fs.bv (toInt32 c) = r at h ⊢
  obtain ⟨start, nblocks, bv⟩ := r
  dsimp only at h ⊢
  split at h
  · rename_i hstart
    rw [if_pos hstart]
  rename_i hstart
  rw [if_neg hstart]
  obtain ⟨area, harea⟩ := writeBlocks_frame { fs with bv := bv }
    ((start.tdiv 8).tdiv fs.dsb.blockSize + 1)
    (fun k => chunkByte bv.bits
      (((start.tdiv 8).tdiv fs.dsb.blockSize * fs.dsb.blockSize).toNat + k))
    ((nblocks.tdiv 8).tdiv fs.dsb.blockSize + 1)
  generalize writeBlocks { fs with bv := bv } _ _ _ = r at h harea ⊢
  obtain ⟨amt, fs'⟩ := r
  dsimp only at h harea ⊢
  split at h
  · rename_i hamt
    rw [if_pos hamt, harea]
  · exact absurd rfl h

/-- A request that is refused leaves the count of used blocks. -/
theorem growBlock_refused (h : (growBlock fs).1 ≠ 0) :
    (growBlock fs).2.2.dsb.usedBlocks = fs.dsb.usedBlocks := by
  rcases growBlock_cases fs with ⟨_, h₀, _⟩ | ⟨_, full, hfs⟩ | hinval
  · exact absurd h₀ h
  · rw [hfs]
  · have hused := @realAllocateBlocks_used fs 1 0 .exactAllocation
    unfold growBlock myfsAllocateBlocks at hinval ⊢
    generalize realAllocateBlocks fs 1 0 .exactAllocation = r at hused hinval ⊢
    obtain ⟨err, n, addr, fs'⟩ := r
    dsimp only at hused hinval ⊢
    by_cases herr : err = 0
    · rw [if_neg (not_not_intro herr)] at hinval
      split at hinval <;> cases hinval
    · rw [if_pos herr]
      exact hused herr

theorem growBlock_granted (h : (growBlock fs).1 = 0) :
    (growBlock fs).2.2.dsb.usedBlocks = fs.dsb.usedBlocks + 1 ∧
      (growBlock fs).2.2.dsb.blockSize = fs.dsb.blockSize := by
  obtain ⟨start, _, halloc⟩ := growBlock_ok h
  refine ⟨?_, halloc.blockSize⟩
  obtain ⟨area, hfs⟩ := halloc.frame
  rw [hfs]
  rfl

theorem growBlock_mono (fs : Myfs) : fs.dsb.usedBlocks ≤ (growBlock fs).2.2.dsb.usedBlocks := by
  by_cases h : (growBlock fs).1 = 0
  · rw [(growBlock_granted h).1]
    omega
  · rw [growBlock_refused h]

theorem growDirect_mono (needed : ℤ) (left : ℕ) (fs : Myfs) (mi : Inode) (i : ℤ) :
    fs.dsb.usedBlocks ≤ (growDirect needed left fs mi i).2.2.2.dsb.usedBlocks := by
  induction left generalizing fs mi i with
  | zero => exact le_rfl
  | succ left ih =>
    rw [growDirect]
    split
    · exact le_rfl
    have hmono := growBlock_mono fs
    generalize growBlock fs = r at hmono ⊢
    obtain ⟨err, addr, fs₁⟩ := r
    dsimp only at hmono ⊢
    split
    · exact hmono
    · exact hmono.trans (ih fs₁ _ (i + 1))

theorem growIndirect_mono (needed : ℤ) (left : ℕ) (fs : Myfs) (mi : Inode) (i : ℤ) :
    fs.dsb.usedBlocks ≤ (growIndirect needed left fs mi i).2.2.dsb.usedBlocks := by
  induction left generalizing fs mi i with
  | zero => exact le_rfl
  | succ left ih =>
    rw [growIndirect]
    split
    · exact le_rfl
    have hmono := growBlock_mono fs
    generalize growBlock fs = r at hmono ⊢
    obtain ⟨err, addr, fs₁⟩ := r
    dsimp only at hmono ⊢
    split
    · exact hmono
    · exact hmono.trans (ih (storeBlock fs₁ _ _) _ (i + 1))

theorem openIndirect_mono (fs : Myfs) (mi : Inode) :
    fs.dsb.usedBlocks ≤ (openIndirect fs mi).2.2.dsb.usedBlocks := by
  unfold openIndirect
  split
  · have hmono := growBlock_mono fs
    generalize growBlock fs = r at hmono ⊢
    obtain ⟨err, addr, fs₁⟩ := r
    dsimp only at hmono ⊢
    split <;> exact hmono
  · exact le_rfl

theorem growEnd_used (fs : Myfs) (mi : Inode) :
    (growEnd fs mi).2.2 = fs := by
  unfold growEnd
  split <;> rfl

theorem growIndirectRange_mono (fs : Myfs) (mi : Inode) (newSize needed i : ℤ) :
    fs.dsb.usedBlocks ≤ (growIndirectRange fs mi newSize needed i).2.2.dsb.usedBlocks := by
  unfold growIndirectRange
  dsimp only
  split
  swap
  · rw [growEnd_used]
  have hopen := openIndirect_mono fs mi
  generalize openIndirect fs mi = r at hopen ⊢
  obtain ⟨err, mi₁, fs₁⟩ := r
  dsimp only at hopen ⊢
  split
  · exact hopen
  refine hopen.trans ?_
  have hloop := growIndirect_mono needed (maxIndex fs₁ -
    ((mi₁.data.size - directSize fs.dsb.blockSize) / fs.dsb.blockSize).toNat) fs₁ mi₁ i
  generalize growIndirect needed _ fs₁ mi₁ i = r at hloop ⊢
  obtain ⟨err, mi₂, fs₂⟩ := r
  dsimp only at hloop ⊢
  split
  · exact hloop
  split
  · exact hloop
  · rw [growEnd_used]
    exact hloop

end Books

section FirstRequest
variable {fs : Myfs} {mi : Inode}

theorem growDirect_refused (h : (growBlock fs).1 ≠ 0) {needed i : ℤ} (hi : i < needed) (left : ℕ) :
    growDirect needed (left + 1) fs mi i = ((growBlock fs).1, i, mi, (growBlock fs).2.2) := by
  rw [growDirect, if_neg (not_le.mpr hi)]
  exact if_pos h

theorem growDirect_granted (h : (growBlock fs).1 = 0) {needed i : ℤ} (hi : i < needed) (left : ℕ)
    (mi : Inode) :
    fs.dsb.usedBlocks < (growDirect needed (left + 1) fs mi i).2.2.2.dsb.usedBlocks := by
  have hused := (growBlock_granted h).1
  rw [growDirect, if_neg (not_le.mpr hi)]
  generalize growBlock fs = r at h hused ⊢
  obtain ⟨err, addr, fs₁⟩ := r
  dsimp only at h hused ⊢
  rw [if_neg (not_not_intro h)]
  refine lt_of_lt_of_le ?_ (growDirect_mono needed left fs₁ _ (i + 1))
  omega

theorem growIndirect_refused (h : (growBlock fs).1 ≠ 0) {needed i : ℤ} (hi : i < needed)
    (left : ℕ) :
    growIndirect needed (left + 1) fs mi i = ((growBlock fs).1, mi, (growBlock fs).2.2) := by
  rw [growIndirect, if_neg (not_le.mpr hi)]
  exact if_pos h

theorem growIndirect_granted (h : (growBlock fs).1 = 0) {needed i : ℤ} (hi : i < needed)
    (left : ℕ) :
    fs.dsb.usedBlocks < (growIndirect needed (left + 1) fs mi i).2.2.dsb.usedBlocks := by
  have hused := (growBlock_granted h).1
  rw [growIndirect, if_neg (not_le.mpr hi)]
  generalize growBlock fs = r at h hused ⊢
  obtain ⟨err, addr, fs₁⟩ := r
  dsimp only at h hused ⊢
  rw [if_neg (not_not_intro h)]
  refine lt_of_lt_of_le ?_ (growIndirect_mono needed left (storeBlock fs₁ _ _) _ (i + 1))
  rw [storeBlock_dsb]
  omega

/-- The size is in the range of the indirect block and there is an entry left. -/
structure EntryLeft (fs : Myfs) (mi : Inode) : Prop where
  behind : directSize fs.dsb.blockSize ≤ mi.data.size
  below : mi.data.size < maxIndirectRange fs.dsb.blockSize
  blockSize : 0 < fs.dsb.blockSize

theorem EntryLeft.index (h : EntryLeft fs mi) : ∃ left, maxIndex fs -
    ((mi.data.size - directSize fs.dsb.blockSize) / fs.dsb.blockSize).toNat = left + 1 := by
  have hbz : (0 : ℤ) < fs.dsb.blockSize := by exact_mod_cast h.blockSize
  have hlt : (mi.data.size - directSize fs.dsb.blockSize) / fs.dsb.blockSize < maxIndex fs := by
    refine Int.ediv_lt_of_lt_mul hbz ?_
    have hbelow := h.below
    rw [maxIndirectRange_eq] at hbelow
    push_cast at hbelow
    unfold directSize
    linarith
  have hnonneg : 0 ≤ (mi.data.size - directSize fs.dsb.blockSize) / fs.dsb.blockSize :=
    Int.ediv_nonneg (by have := h.behind; omega) hbz.le
  exact Nat.exists_eq_add_one.mpr (by omega)

theorem growIndirectRange_refused (h : EntryLeft fs mi) (hrefused : (growBlock fs).1 ≠ 0)
    {needed i : ℤ} (hi : i < needed) (newSize : ℤ) :
    growIndirectRange fs mi newSize needed i = ((growBlock fs).1, mi, (growBlock fs).2.2) := by
  obtain ⟨left, hleft⟩ := h.index
  unfold growIndirectRange openIndirect
  dsimp only
  rw [if_pos ⟨h.behind, h.below⟩]
  by_cases hnone : mi.data.indirect = 0
  · rw [if_pos hnone]
    generalize growBlock fs = r at hrefused ⊢
    obtain ⟨err, addr, fs₁⟩ := r
    dsimp only at hrefused ⊢
    rw [if_pos hrefused]
    exact if_pos hrefused
  · rw [if_neg hnone]
    dsimp only
    rw [if_neg (by decide), hleft, growIndirect_refused hrefused hi]
    exact if_pos hrefused

theorem growIndirectRange_granted (h : EntryLeft fs mi) (hgranted : (growBlock fs).1 = 0)
    {needed i : ℤ} (hi : i < needed) (newSize : ℤ) :
    fs.dsb.usedBlocks < (growIndirectRange fs mi newSize needed i).2.2.dsb.usedBlocks := by
  obtain ⟨left, hleft⟩ := h.index
  obtain ⟨hused, hbs⟩ := growBlock_granted hgranted
  unfold growIndirectRange openIndirect
  dsimp only
  rw [if_pos ⟨h.behind, h.below⟩]
  -- the loop behind the first request only takes more blocks
  have hloop : ∀ fs₁ mi₁ left, fs.dsb.usedBlocks <
      (growIndirect needed left fs₁ mi₁ i).2.2.dsb.usedBlocks →
      fs.dsb.usedBlocks < (if (growIndirect needed left fs₁ mi₁ i).1 ≠ 0 then
        growIndirect needed left fs₁ mi₁ i
      else if newSize ≤ (growIndirect needed left fs₁ mi₁ i).2.1.data.size then
        (0, setSize (growIndirect needed left fs₁ mi₁ i).2.1 newSize,
          (growIndirect needed left fs₁ mi₁ i).2.2)
      else growEnd (growIndirect needed left fs₁ mi₁ i).2.2
        (growIndirect needed left fs₁ mi₁ i).2.1).2.2.dsb.usedBlocks := by
    intro fs₁ mi₁ left hlt
    split
    · exact hlt
    split
    · exact hlt
    · rw [growEnd_used]
      exact hlt
  by_cases hnone : mi.data.indirect = 0
  · rw [if_pos hnone]
    generalize growBlock fs = r at hgranted hused hbs ⊢
    obtain ⟨err, addr, fs₁⟩ := r
    dsimp only at hgranted hused hbs ⊢
    rw [if_neg (not_not_intro hgranted)]
    refine hloop _ _ _ (lt_of_lt_of_le ?_ (growIndirect_mono needed _ (storeBlock fs₁ addr _) _ i))
    rw [storeBlock_dsb]
    omega
  · rw [if_neg hnone]
    dsimp only
    rw [if_neg (by decide), hleft]
    exact hloop _ _ _ (growIndirect_granted hgranted hi left)

end FirstRequest

section Growth
variable {fs : Myfs} {mi : Inode} {newSize : ℤ}

/-- What the failed calls are compared by: the size, the block pointers of the inode and the count
of used blocks. -/
structure Untouched (fs : Myfs) (mi : Inode) (fs' : Myfs) (mi' : Inode) : Prop where
  size : mi'.data.size = mi.data.size
  direct : mi'.data.direct = mi.data.direct
  indirect : mi'.data.indirect = mi.data.indirect
  usedBlocks : fs'.dsb.usedBlocks = fs.dsb.usedBlocks

theorem Untouched.refl (fs : Myfs) (mi : Inode) : Untouched fs mi fs mi := ⟨rfl, rfl, rfl, rfl⟩

/-- No block is taken on the way to the failure: the size ends with a block, and the stream is at
the end of the indirect range or does not even get its first block. -/
def NothingTaken (fs : Myfs) (mi : Inode) : Prop :=
  (fs.dsb.blockSize : ℤ) ∣ mi.data.size ∧
    (mi.data.size = maxIndirectRange fs.dsb.blockSize ∨ (growBlock fs).1 ≠ 0)

/-- The outcome of a growth from the rounded size `cur` on is decided by the first request. -/
def FirstDecides (fs : Myfs) (mi : Inode) (cur : ℤ) (r : ℤ × Inode × Myfs) : Prop :=
  ((growBlock fs).1 ≠ 0 → r = ((growBlock fs).1, setSize mi cur, (growBlock fs).2.2)) ∧
  ((growBlock fs).1 = 0 → fs.dsb.usedBlocks < r.2.2.dsb.usedBlocks)

theorem FirstDecides.untouched_iff {cur : ℤ} {r : ℤ × Inode × Myfs} (h : FirstDecides fs mi cur r) :
    Untouched fs mi r.2.2 r.2.1 ↔ cur = mi.data.size ∧ (growBlock fs).1 ≠ 0 := by
  constructor
  · intro hsame
    have hrefused : (growBlock fs).1 ≠ 0 := fun hgranted => by
      have := h.2 hgranted
      have := hsame.usedBlocks
      omega
    have hsize := hsame.size
    rw [h.1 hrefused] at hsize
    exact ⟨hsize, hrefused⟩
  · rintro ⟨hcur, hrefused⟩
    rw [h.1 hrefused]
    exact ⟨hcur, rfl, rfl, growBlock_refused hrefused⟩

/-- The first half of the growth, from a slot of the inode on. -/
theorem firstDecides_direct {needed cur : ℤ} (hneed : 0 < needed) {left : ℕ} (hleft : 0 < left) :
    ∃ r, (let (err, i, mi, fs) := growDirect needed left fs (setSize mi cur) 0
      if err ≠ 0 then .ok (err, mi, fs)
      else if newSize ≤ mi.data.size then .ok (0, setSize mi newSize, fs)
      else .ok (growIndirectRange fs mi newSize needed i) :
        Except Halt (ℤ × Inode × Myfs)) = .ok r ∧
      FirstDecides fs mi cur r := by
  obtain ⟨left, rfl⟩ := Nat.exists_eq_add_one.mpr hleft
  by_cases hgranted : (growBlock fs).1 = 0
  · have hlt := growDirect_granted hgranted hneed left (setSize mi cur)
    generalize growDirect needed (left + 1) fs (setSize mi cur) 0 = r at hlt ⊢
    obtain ⟨err, i, mi₁, fs₁⟩ := r
    dsimp only at hlt ⊢
    split
    · exact ⟨_, rfl, fun h => absurd hgranted h, fun _ => hlt⟩
    split
    · exact ⟨_, rfl, fun h => absurd hgranted h, fun _ => hlt⟩
    · exact ⟨_, rfl, fun h => absurd hgranted h, fun _ =>
        hlt.trans_le (growIndirectRange_mono fs₁ mi₁ newSize needed i)⟩
  · rw [growDirect_refused hgranted hneed]
    exact ⟨_, if_pos hgranted, fun _ => rfl, fun h => absurd h hgranted⟩

/-- The rounded size of a stream is inside the indirect range as well. -/
theorem rounded_le (hd : DiskSound fs) (hs : StreamShape fs mi) :
    (blockCount fs.dsb.blockSize mi.data.size * fs.dsb.blockSize : ℤ) ≤
      maxIndirectRange fs.dsb.blockSize := by
  obtain ⟨k, hb⟩ := hd.pow
  have hbz : (0 : ℤ) < fs.dsb.blockSize := by exact_mod_cast hd.blockSize_pos
  obtain ⟨_, _, hlt⟩ := blockCount_spec hb hs.nonneg
  have hbound := hs.bounded
  rw [maxIndirectRange_eq] at hbound ⊢
  have : (blockCount fs.dsb.blockSize mi.data.size * fs.dsb.blockSize : ℤ) <
      ((numDirectBlocks + maxIndex fs : ℕ) + 1 : ℤ) * fs.dsb.blockSize := by linarith
  have := lt_of_mul_lt_mul_right this hbz.le
  gcongr
  omega

/-- A growth by at least one block, up to the range the code rejects at once. -/
theorem growDstream_first (hd : DiskSound fs) (hs : StreamShape fs mi)
    (hlt : mi.data.size < newSize) (hmax : newSize ≤ maxDoubleIndirectRange fs.dsb.blockSize)
    (hblock : blockCount fs.dsb.blockSize mi.data.size ≠ blockCount fs.dsb.blockSize newSize) :
    ∃ r, growDstream fs mi newSize = .ok r ∧
      (r.1 ≠ 0 → (Untouched fs mi r.2.2 r.2.1 ↔ NothingTaken fs mi)) := by
  obtain ⟨k, hb⟩ := hd.pow
  have hbs := hd.blockSize_pos
  have hbz : (0 : ℤ) < fs.dsb.blockSize := by exact_mod_cast hbs
  obtain ⟨hm, hm₁, hm₂⟩ := blockCount_spec hb hs.nonneg
  obtain ⟨hn, hn₁, hn₂⟩ := blockCount_spec hb (show 0 ≤ newSize by have := hs.nonneg; omega)
  have hcur := rounded_le hd hs
  generalize blockCount fs.dsb.blockSize mi.data.size = m at hm hm₁ hm₂ hcur hblock
  generalize blockCount fs.dsb.blockSize newSize = n at hn hn₁ hn₂ hblock
  have hmn : m < n := by
    have : (m * fs.dsb.blockSize : ℤ) < (n + 1) * fs.dsb.blockSize := by linarith
    have := lt_of_mul_lt_mul_right this hbz.le
    omega
  have hdiv : ((m * fs.dsb.blockSize : ℤ) / fs.dsb.blockSize).toNat = m := by
    rw [Int.mul_ediv_cancel _ hbz.ne', Int.toNat_natCast]
  have hneed : ((n * fs.dsb.blockSize : ℤ) - m * fs.dsb.blockSize) / fs.dsb.blockSize = n - m := by
    rw [← sub_mul, Int.mul_ediv_cancel _ hbz.ne']
  have hne : (m * fs.dsb.blockSize : ℤ) ≠ n * fs.dsb.blockSize := fun h =>
    hblock (by exact_mod_cast mul_right_cancel₀ hbz.ne' h)
  have haligned : (fs.dsb.blockSize : ℤ) ∣ mi.data.size ↔
      (m * fs.dsb.blockSize : ℤ) = mi.data.size := by
    constructor
    · rintro ⟨c, hc⟩
      rw [hc, mul_comm _ c] at hm₁ hm₂ ⊢
      have h₁ := le_of_mul_le_mul_right hm₁ hbz
      have h₂ : (m * fs.dsb.blockSize : ℤ) < (c + 1) * fs.dsb.blockSize := by linarith
      have := lt_of_mul_lt_mul_right h₂ hbz.le
      rw [show (m : ℤ) = c by omega]
    · intro h
      rw [← h]
      exact dvd_mul_left _ _
  have hneeded : (0 : ℤ) < n - m := by omega
  unfold growDstream
  dsimp only
  rw [if_neg (by have := hs.nonneg; omega), hm, hn, if_neg hne, hdiv, hneed]
  unfold NothingTaken
  rw [haligned]
  rcases hcur.lt_or_eq with hbelow | hfull
  · have hnot : (m * fs.dsb.blockSize : ℤ) = mi.data.size →
        mi.data.size ≠ maxIndirectRange fs.dsb.blockSize := by
      rintro h₁ h₂
      omega
    have hiff : ∀ r, FirstDecides fs mi (m * fs.dsb.blockSize) r → (Untouched fs mi r.2.2 r.2.1 ↔
        (m * fs.dsb.blockSize : ℤ) = mi.data.size ∧
          (mi.data.size = maxIndirectRange fs.dsb.blockSize ∨ (growBlock fs).1 ≠ 0)) := by
      intro r hfirst
      refine hfirst.untouched_iff.trans ?_
      constructor
      · rintro ⟨h₁, h₂⟩
        exact ⟨h₁, .inr h₂⟩
      · rintro ⟨h₁, h₂⟩
        exact ⟨h₁, h₂.resolve_left (hnot h₁)⟩
    by_cases hdir : (m * fs.dsb.blockSize : ℤ) < directSize fs.dsb.blockSize
    · have hm6 : m < numDirectBlocks := by
        rw [directSize] at hdir
        exact_mod_cast lt_of_mul_lt_mul_right hdir hbz.le
      have hslot : mi.data.direct m = 0 := by
        by_contra hslot
        exact absurd ((hs.direct m hm6).1 hslot) (not_lt.2 hm₁)
      rw [if_pos hdir, setSize_direct, if_neg (not_not_intro hslot)]
      obtain ⟨r, hr, hfirst⟩ := firstDecides_direct hneeded (show 0 < numDirectBlocks - m by omega)
      exact ⟨r, hr, fun _ => hiff r hfirst⟩
    · rw [if_neg hdir]
      have hleft : EntryLeft fs (setSize mi (m * fs.dsb.blockSize)) := ⟨not_lt.1 hdir, hbelow, hbs⟩
      refine ⟨_, rfl, fun _ => hiff _ ⟨fun hrefused => ?_, fun hgranted => ?_⟩⟩
      · exact growIndirectRange_refused hleft hrefused hneeded newSize
      · exact growIndirectRange_granted hleft hgranted hneeded newSize
  · -- the stream is full, and the growth ends before it asks for a block
    have hdir : ¬(m * fs.dsb.blockSize : ℤ) < directSize fs.dsb.blockSize := by
      have : (0 : ℤ) ≤ indirectSize fs.dsb.blockSize := by
        unfold indirectSize
        positivity
      rw [hfull, maxIndirectRange]
      omega
    rw [if_neg hdir]
    unfold growIndirectRange growEnd
    dsimp only
    rw [setSize_size, if_neg (by omega), if_pos hfull.ge]
    refine ⟨_, rfl, fun _ => ⟨fun h => ⟨h.size, .inl ?_⟩, fun h => ⟨h.1, rfl, rfl, rfl⟩⟩⟩
    rw [← h.size]
    exact hfull

end Growth

section Calls
variable {ι : Type} [DecidableEq ι] {w : FileTable ι} {f : ι}

/-- A growth to `n` bytes works, or it fails before anything changed. -/
def Harmless (fs : Myfs) (mi : Inode) (n : ℤ) : Prop :=
  maxDoubleIndirectRange fs.dsb.blockSize < n ∨
    (n ≤ maxIndirectRange fs.dsb.blockSize ∧ Supplies (blocksNeeded fs mi n) fs) ∨
    NothingTaken fs mi

theorem growDstream_harmless_iff {fs : Myfs} {mi : Inode} {n : ℤ} (hd : DiskSound fs)
    (hs : StreamShape fs mi) (hlt : mi.data.size < n) :
    ∃ r, growDstream fs mi n = .ok r ∧
      ((r.1 ≠ 0 → Untouched fs mi r.2.2 r.2.1) ↔ Harmless fs mi n) := by
  obtain ⟨k, hb⟩ := hd.pow
  have hnonneg := hs.nonneg
  have hslot : ∀ i < numDirectBlocks, mi.data.size ≤ i * fs.dsb.blockSize →
      mi.data.direct i = 0 := by
    intro i hi hle
    by_contra hne
    exact absurd ((hs.direct i hi).1 hne) (not_lt.2 hle)
  rcases lt_or_ge (maxDoubleIndirectRange fs.dsb.blockSize) n with hbig | hmax
  · refine ⟨(E2BIG, mi, fs), if_pos (.inr hbig), fun _ => .inl hbig, fun _ _ => .refl fs mi⟩
  rcases le_or_gt n (maxIndirectRange fs.dsb.blockSize) with hin | hout
  · obtain ⟨r, hr, hsup⟩ := growDstream_supply hb hnonneg hlt hin hslot
    refine ⟨r, hr, ?_⟩
    by_cases herr : r.1 = 0
    · exact iff_of_true (fun h => absurd herr h) (.inr (.inl ⟨hin, hsup.1 herr⟩))
    have hblock : blockCount fs.dsb.blockSize mi.data.size ≠ blockCount fs.dsb.blockSize n := by
      intro heq
      refine herr (hsup.2 ?_)
      unfold blocksNeeded
      dsimp only
      rw [heq, Nat.sub_self, if_neg (by omega)]
      exact trivial
    obtain ⟨r', hr', hiff⟩ := growDstream_first hd hs hlt hmax hblock
    obtain rfl : r = r' := Except.ok.inj (hr.symm.trans hr')
    unfold Harmless
    rw [← hiff herr]
    constructor
    · exact fun h => .inr (.inr (h herr))
    · rintro (h | ⟨_, h⟩ | h) _
      · omega
      · exact absurd (hsup.2 h) herr
      · exact h
  · have hblock : blockCount fs.dsb.blockSize mi.data.size ≠ blockCount fs.dsb.blockSize n := by
      intro heq
      have hcur := rounded_le hd hs
      obtain ⟨_, hle, _⟩ := blockCount_spec hb (show 0 ≤ n by omega)
      rw [← heq] at hle
      omega
    obtain ⟨r, hr, hiff⟩ := growDstream_first hd hs hlt hmax hblock
    refine ⟨r, hr, ?_⟩
    have herr : r.1 ≠ 0 := by
      intro herr
      obtain ⟨err, mi', fs'⟩ := r
      obtain rfl : err = 0 := herr
      obtain ⟨_, hshape, hsize, _, hbs⟩ := growDstream_keeps (Q := fun _ _ => True)
        (fun _ _ _ _ h => h) (fun _ _ _ _ _ h => h) hd hs trivial hlt hr
      have hbound := hshape.bounded
      rw [hbs] at hbound
      omega
    unfold Harmless
    rw [← hiff herr]
    constructor
    · exact fun h => .inr (.inr (h herr))
    · rintro (h | ⟨h, _⟩ | h) _
      · omega
      · omega
      · exact h

def extend (s : Stream) : Call → Except Halt (ℤ × Inode × Myfs)
  | .setFileSize n => myfsSetFileSize s.fs s.mi n
  | .write pos buf len =>
    (myfsWriteDataStream s.fs s.mi pos buf len).map fun (err, _, mi, fs) => (err, mi, fs)

/-- If the call returns an error, the file is as it was. -/
def FailsUntouched (s : Stream) (e : Call) : Prop :=
  ∀ err mi' fs', extend s e = .ok (err, mi', fs') → err ≠ 0 → Untouched s.fs s.mi fs' mi'

theorem growForWrite_fails {fs fs' : Myfs} {mi mi' : Inode} {n err : ℤ}
    (h : growForWrite fs mi n = .ok (err, mi', fs')) (herr : err ≠ 0) :
    mi.data.size < n ∧ growDstream fs mi n = .ok (err, mi', fs') := by
  unfold growForWrite at h
  split at h
  · rename_i hlt
    refine ⟨hlt, ?_⟩
    cases hg : growDstream fs mi n with
    | error e =>
      rw [hg] at h
      cases h
    | ok r =>
      obtain ⟨err₁, mi₁, fs₁⟩ := r
      rw [hg] at h
      dsimp only [Except.bind] at h
      split at h
      · exact h
      · cases hu : updateInode fs₁ { mi₁ with lastModifiedTime := fs₁.now } with
        | error e =>
          rw [hu] at h
          cases h
        | ok fs₂ =>
          rw [hu] at h
          cases h
          exact absurd rfl herr
  · cases h
    exact absurd rfl herr

/-- The files behind a growth that worked. -/
theorem growForWrite_sound {mi₁ : Inode} {fs₁ : Myfs} {n : ℤ} (h : Sound w)
    (ha : HeldOnce w.fs w.files) (hg : growForWrite w.fs (w.files f) n = .ok (0, mi₁, fs₁)) :
    Sound (w.store f mi₁ fs₁) ∧ HeldOnce fs₁ (w.store f mi₁ fs₁).files ∧ n ≤ mi₁.data.size ∧
      fs₁.bv.numbits = w.fs.bv.numbits := by
  rcases growForWrite_ok hg with ⟨hle, rfl, rfl⟩ | ⟨hlt, mi₂, fs₂, hgrow, hmi, hsame⟩
  · rw [store_self]
    exact ⟨h, ha, hle, rfl⟩
  · obtain ⟨hsound, hheld, hsize⟩ := grow_sound h ha hlt hgrow hsame hmi
    obtain ⟨_, hhost, _⟩ := StreamWriting.grown h hlt hgrow
    refine ⟨hsound, hheld, hsize.ge, ?_⟩
    rw [hsame.bv]
    exact hhost.numbits

/-- A write that fails failed while the stream was growing. -/
theorem write_fails_in_growth (h : Sound w) (ha : HeldOnce w.fs w.files)
    (hcover : (w.fs.bv.numbits : ℤ) ≤ w.fs.dsb.numBlocks) {pos : ℤ} {buf : ℕ → UInt8}
    {len count : ℕ} {err : ℤ} {mi' : Inode} {fs' : Myfs}
    (hcall : myfsWriteDataStream w.fs (w.files f) pos buf len = .ok (err, count, mi', fs'))
    (herr : err ≠ 0) :
    (w.files f).data.size < startPos pos + len ∧
      growDstream w.fs (w.files f) (startPos pos + len) = .ok (err, mi', fs') := by
  have hstart : 0 ≤ startPos pos := by
    unfold startPos
    split <;> omega
  unfold myfsWriteDataStream at hcall
  split at hcall
  · cases hcall
    exact absurd rfl herr
  rename_i hlen
  dsimp only at hcall
  rw [← startPos] at hcall
  have hgeom := MakeAndMount.growForWrite_keeps w.fs (w.files f) (startPos pos + len)
  cases hg : growForWrite w.fs (w.files f) (startPos pos + len) with
  | error e =>
    rw [hg] at hcall
    cases hcall
  | ok r =>
    obtain ⟨err₁, mi₁, fs₁⟩ := r
    have hgeom := hgeom _ hg
    rw [hg] at hcall
    dsimp only [Except.bind] at hcall
    split at hcall
    · rename_i herr₁
      cases hcall
      exact growForWrite_fails hg herr₁
    rename_i herr₁
    obtain rfl : err₁ = 0 := not_not.mp herr₁
    -- the stream is long enough now, so that every byte finds its block
    exfalso
    obtain ⟨hsound, hheld, hsize, hnum⟩ := growForWrite_sound h ha hg
    have hfile : (w.store f mi₁ fs₁).files f = mi₁ := by rw [StreamWriting.store_files, if_pos rfl]
    have hcover₁ : (fs₁.bv.numbits : ℤ) ≤ fs₁.dsb.numBlocks := by
      have hblocks : fs₁.dsb.numBlocks = w.fs.dsb.numBlocks := congrArg Prod.snd hgeom
      rw [hnum, hblocks]
      exact hcover
    obtain ⟨q, hq⟩ := Int.eq_ofNat_of_zero_le hstart
    obtain ⟨fs₂, hbytes, _⟩ := StreamWriting.overwrite (f := f) (q := q) hsound hheld hcover₁ buf
      (Nat.pos_of_ne_zero hlen) (by rw [hfile]; omega)
    rw [hfile] at hbytes
    change writeBytes fs₁ mi₁ q buf len = _ at hbytes
    rw [hq, hbytes] at hcall
    dsimp only at hcall
    rw [if_neg (by decide)] at hcall
    cases hu : updateInode fs₂ { mi₁ with lastModifiedTime := fs₂.now } with
    | error e =>
      rw [hu] at hcall
      cases hcall
    | ok fs₃ =>
      rw [hu] at hcall
      cases hcall
      exact herr rfl

/-- The other direction: a growth that fails ends the write. -/
theorem write_of_failed_growth {fs fs' : Myfs} {mi mi' : Inode} {pos err : ℤ} {len : ℕ}
    (buf : ℕ → UInt8) (hlen : len ≠ 0) (hlt : mi.data.size < startPos pos + len)
    (hgrow : growDstream fs mi (startPos pos + len) = .ok (err, mi', fs')) (herr : err ≠ 0) :
    myfsWriteDataStream fs mi pos buf len = .ok (err, len, mi', fs') := by
  unfold myfsWriteDataStream growForWrite
  rw [if_neg hlen]
  dsimp only
  rw [← startPos, if_pos hlt, hgrow]
  dsimp only [Except.bind]
  rw [if_pos herr]
  exact if_pos herr

theorem setFileSize_of_failed_growth {fs fs' : Myfs} {mi mi' : Inode} {n err : ℤ}
    (hlt : mi.data.size < n) (hgrow : growDstream fs mi n = .ok (err, mi', fs')) (herr : err ≠ 0) :
    myfsSetFileSize fs mi n = .ok (err, mi', fs') := by
  unfold myfsSetFileSize
  rw [if_neg (by omega), if_neg (by omega), hgrow]
  exact if_pos herr

/-- `myfs_set_file_size` hands on the error of the growth or the shrink below it. -/
theorem setFileSize_fails {fs fs' : Myfs} {mi mi' : Inode} {n err : ℤ}
    (h : myfsSetFileSize fs mi n = .ok (err, mi', fs')) (herr : err ≠ 0) :
    (n < mi.data.size ∧ shrinkDstream fs mi n = (err, mi', fs')) ∨
    (mi.data.size < n ∧ growDstream fs mi n = .ok (err, mi', fs')) := by
  have finish : ∀ r : ℤ × Inode × Myfs, (if r.1 ≠ 0 then .ok (r.1, r.2.1, r.2.2)
      else (updateInode r.2.2 { r.2.1 with lastModifiedTime := r.2.2.now }).map
        fun fs => (0, { r.2.1 with lastModifiedTime := r.2.2.now }, writeSuperBlock fs)) =
        (.ok (err, mi', fs') : Except Halt _) → r = (err, mi', fs') := by
    intro r hr
    split at hr
    · cases hr
      rfl
    · generalize updateInode r.2.2 _ = u at hr
      cases u with
      | error e => cases hr
      | ok fs₂ =>
        cases hr
        exact absurd rfl herr
  unfold myfsSetFileSize at h
  split at h
  · cases h
    exact absurd rfl herr
  split at h
  · rename_i hlt
    exact .inl ⟨hlt, finish _ h⟩
  · cases hg : growDstream fs mi n with
    | error e =>
      rw [hg] at h
      cases h
    | ok r =>
      rw [hg] at h
      exact .inr ⟨by omega, congrArg Except.ok (finish r h)⟩

/-- A shrink fails at once or not at all. -/
theorem shrinkDstream_fails {fs fs' : Myfs} {mi mi' : Inode} {n err : ℤ}
    (h : shrinkDstream fs mi n = (err, mi', fs')) (herr : err ≠ 0) : mi' = mi ∧ fs' = fs := by
  unfold shrinkDstream at h
  dsimp only at h
  split at h
  · cases h
    exact ⟨rfl, rfl⟩
  · split at h
    · cases h
      exact absurd rfl herr
    · cases h
      exact absurd rfl herr

/-- A call that fails leaves the file as it was, exactly if it asks for no growth, for a size out of
all ranges, for a growth that works, or for one that fails before it took its first block. -/
theorem failed_extension_untouched_iff (w : FileTable ι) (f : ι) (h : Sound w) (ha : NoSharing w)
    (hcover : (w.fs.bv.numbits : ℤ) ≤ w.fs.dsb.numBlocks) (e : Call) :
    FailsUntouched ⟨w.fs, w.files f⟩ e ↔
      requestedSize ⟨w.fs, w.files f⟩ e ≤ (w.files f).data.size ∨
        Harmless w.fs (w.files f) (requestedSize ⟨w.fs, w.files f⟩ e) := by
  have hheld := h.noSharing_iff.mp ha
  -- a growth, by a call that fails exactly as `grow_dstream` does
  have hgrows : ∀ n, (w.files f).data.size < n →
      (∀ err mi' fs', err ≠ 0 → (extend ⟨w.fs, w.files f⟩ e = .ok (err, mi', fs') ↔
        growDstream w.fs (w.files f) n = .ok (err, mi', fs'))) →
      (FailsUntouched ⟨w.fs, w.files f⟩ e ↔ Harmless w.fs (w.files f) n) := by
    intro n hlt hfails
    obtain ⟨⟨err, mi', fs'⟩, hgrow, hiff⟩ := growDstream_harmless_iff h.disk (h.shape f) hlt
    rw [← hiff]
    constructor
    · exact fun hall herr => hall err mi' fs' ((hfails _ _ _ herr).2 hgrow) herr
    · intro hone err₁ mi₁ fs₁ hcall herr
      have := (hfails _ _ _ herr).1 hcall
      rw [hgrow] at this
      cases this
      exact hone herr
  cases e with
  | setFileSize n =>
    dsimp only [requestedSize]
    rcases le_or_gt n (w.files f).data.size with hle | hlt
    · refine iff_of_true (fun err mi' fs' hcall herr => ?_) (.inl hle)
      rcases setFileSize_fails hcall herr with ⟨_, hshrink⟩ | ⟨hgt, _⟩
      · obtain ⟨rfl, rfl⟩ := shrinkDstream_fails hshrink herr
        exact .refl _ _
      · exact absurd hgt (not_lt.2 hle)
    · rw [hgrows n hlt, or_iff_right (not_le.2 hlt)]
      intro err mi' fs' herr
      constructor
      · intro hcall
        rcases setFileSize_fails hcall herr with ⟨hgt, _⟩ | ⟨_, hgrow⟩
        · exact absurd hlt (not_lt.2 hgt.le)
        · exact hgrow
      · exact fun hgrow => setFileSize_of_failed_growth hlt hgrow herr
  | write pos buf len =>
    have hfails : ∀ err mi' fs', err ≠ 0 →
        extend ⟨w.fs, w.files f⟩ (.write pos buf len) = .ok (err, mi', fs') →
        (w.files f).data.size < startPos pos + len ∧
          growDstream w.fs (w.files f) (startPos pos + len) = .ok (err, mi', fs') := by
      intro err mi' fs' herr hcall
      unfold extend at hcall
      cases hw : myfsWriteDataStream w.fs (w.files f) pos buf len with
      | error e =>
        dsimp only at hcall
        rw [hw] at hcall
        cases hcall
      | ok r =>
        dsimp only at hcall
        rw [hw] at hcall
        cases hcall
        exact write_fails_in_growth h hheld hcover hw herr
    dsimp only [requestedSize]
    by_cases hlen : len = 0
    · subst hlen
      refine iff_of_true (fun err mi' fs' hcall herr => ?_) (.inl (by rw [if_pos rfl]))
      cases hcall
      exact absurd rfl herr
    rw [if_neg hlen]
    rcases le_or_gt (startPos pos + len) (w.files f).data.size with hle | hlt
    · rw [max_eq_left hle]
      refine iff_of_true (fun err mi' fs' hcall herr => ?_) (.inl le_rfl)
      exact absurd (hfails err mi' fs' herr hcall).1 (not_lt.2 hle)
    · rw [max_eq_right hlt.le, hgrows _ hlt, or_iff_right (not_le.2 hlt)]
      intro err mi' fs' herr
      constructor
      · exact fun hcall => (hfails err mi' fs' herr hcall).2
      · intro hgrow
        unfold extend
        dsimp only
        rw [write_of_failed_growth buf hlen hlt hgrow herr]
        rfl

end Calls

/-- On the disk of two empty files one of them grows to eight blocks. -/
theorem failed_extension_untouched_twoFiles :
    FailsUntouched ⟨twoFiles.fs, twoFiles.files 0⟩ (.setFileSize 4096) :=
  (failed_extension_untouched_iff twoFiles 0 twoFiles_fresh.sound.1 twoFiles_fresh.sound.2
    (by decide +kernel) (.setFileSize 4096)).2 (.inr (.inr (.inl (by decide +kernel))))

/-- Seventy blocks are not there: the call returns `ENOSPC` and keeps the ones it got. -/
theorem failed_extension_keeps_blocks :
    ¬FailsUntouched ⟨twoFiles.fs, twoFiles.files 0⟩ (.setFileSize 35840) := by
  intro h
  have hresult : (extend ⟨twoFiles.fs, twoFiles.files 0⟩ (.setFileSize 35840)).toOption.map
      (fun r => (r.1, r.2.1.data.size)) = some (ENOSPC, 5632) := by decide +kernel
  cases hcall : extend ⟨twoFiles.fs, twoFiles.files 0⟩ (.setFileSize 35840) with
  | error e =>
    rw [hcall] at hresult
    cases hresult
  | ok r =>
    obtain ⟨err, mi', fs'⟩ := r
    rw [hcall] at hresult
    obtain ⟨herr, hsize⟩ := Prod.mk.inj (Option.some.inj hresult)
    obtain rfl : err = ENOSPC := herr
    have hsame := (h _ mi' fs' hcall (by decide)).size
    dsimp only at hsize
    rw [hsize] at hsame
    exact absurd hsame (by decide +kernel)

end FailedExtension
