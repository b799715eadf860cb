import Mathlib.Tactic
import FsKit.CurrentInodes
import FsKit.FailedExtension

/-! What `myfs_wstat` leaves when it fails (`file.c`, with the resize of `dstream.c`). The owner
and the mode are set before the resize, the time is set whether or not it worked, and a growth
that runs out of blocks keeps what it has taken. -/
namespace WstatAtomicity

open MachineIntegers
open BlockBitmap hiding next
open InodeTable hiding Event next
open BitVectorSearch BlockRounding LittleEndian DataStreamBlocks DataStreamGrowth DataStreamShape
  BlockSupply
open FileHooks MetadataFrames CurrentInodes
open FailedExtension (NothingTaken Untouched)
open InodeRecords (Addressable recordAddr recordOffset recordByte records_disjoint)

section Parts
variable {fs fs' : Myfs} {mi mi' : Inode} {ia : ℤ}

theorem writeBlocks_failed (fs : Myfs) (n : ℤ) (mem : ℕ → UInt8) (k : ℤ)
    (h : (writeBlocks fs n mem k).1 ≠ k) :
    (writeBlocks fs n mem k).2 = fs := by
  unfold writeBlocks at h ⊢
  split_ifs at h ⊢ <;> first | rfl | exact absurd rfl h

/-- The bit vector has lost no set bit. -/
def MoreBits (bv bv' : BitVector) : Prop :=
  bv'.numbits = bv.numbits ∧ ∀ p, bv.bit p = true → bv'.bit p = true

/-- An allocation that is refused writes nothing. -/
theorem realAllocateBlocks_refused (fs : Myfs) (c a : ℤ) (mode : AllocMode)
    (h : (realAllocateBlocks fs c a mode).1 ≠ 0) :
    ∃ bv, (realAllocateBlocks fs c a mode).2.2.2 = { fs with bv := bv } ∧ MoreBits fs.bv bv := by
  rcases realAllocateBlocks_cases fs c a mode with ⟨hok, -⟩ | ⟨-, full, hfull⟩ | ⟨hinval, hc⟩
  · exact absurd hok h
  · exact ⟨_, hfull, rfl, fun _ hp => hp⟩
  -- the write of the bitmap has failed
  unfold realAllocateBlocks at hinval ⊢
  rw [if_neg (by omega)] at hinval ⊢
  by_cases hroom : fs.dsb.numBlocks - fs.dsb.usedBlocks < c
  · rw [if_pos hroom] at hinval
    exact absurd hinval (show ENOSPC ≠ EINVAL by decide)
  rw [if_neg hroom] at hinval ⊢
  have hout := allocateLoop_outcome mode (toInt32 c).toNat fs.bv (toInt32 c)
  generalize allocateLoop mode (toInt32 c).toNat fs.bv (toInt32 c) = r at hinval hout ⊢
  obtain ⟨start, nblocks, bv⟩ := r
  dsimp only at hinval ⊢
  by_cases hstart : start = -1
  · rw [if_pos hstart] at hinval
    exact absurd hinval (show ENOSPC ≠ EINVAL by decide)
  rw [if_neg hstart] at hinval ⊢
  obtain ⟨s, -, -, htaken⟩ | ⟨hs, -⟩ := hout
  swap
  · exact absurd hs hstart
  have hfailed := writeBlocks_failed { fs with bv := bv }
    ((start.tdiv 8).tdiv fs.dsb.blockSize + 1)
    (fun k => chunkByte bv.bits
      (((start.tdiv 8).tdiv fs.dsb.blockSize * fs.dsb.blockSize).toNat + k))
    ((nblocks.tdiv 8).tdiv fs.dsb.blockSize + 1)
  generalize writeBlocks _ _ _ _ = w at hinval hfailed ⊢
  obtain ⟨amt, fs₁⟩ := w
  dsimp only at hinval hfailed ⊢
  by_cases hamt : amt ≠ (nblocks.tdiv 8).tdiv fs.dsb.blockSize + 1
  · obtain rfl := hfailed hamt
    rw [if_pos hamt]
    refine ⟨bv, rfl, htaken.numbits, fun p hp => ?_⟩
    rw [htaken.bits, hp]
    rfl
  · rw [if_neg hamt] at hinval
    exact absurd hinval (show (0 : ℤ) ≠ EINVAL by decide)

theorem growBlock_refused (h : (growBlock fs).1 ≠ 0) :
    ∃ bv, (growBlock fs).2.2 = { fs with bv := bv } ∧ MoreBits fs.bv bv := by
  have hcases := realAllocateBlocks_cases fs 1 0 .exactAllocation
  have hrefused := realAllocateBlocks_refused fs 1 0 .exactAllocation
  unfold growBlock myfsAllocateBlocks at h ⊢
  generalize realAllocateBlocks fs 1 0 .exactAllocation = r at h hcases hrefused ⊢
  obtain ⟨err, n, addr, fs₁⟩ := r
  dsimp only at h hcases hrefused ⊢
  by_cases herr : err ≠ 0
  · rw [if_pos herr]
    exact hrefused herr
  · obtain ⟨-, start, -, -, -, rfl, -⟩ := hcases.resolve_right fun hor => by
      rcases hor with ⟨rfl | ⟨-, rfl⟩, -⟩ | ⟨rfl, -⟩ <;> exact herr (by decide)
    rw [if_neg herr, if_neg (by omega)] at h
    exact absurd rfl h

/-- Whatever comes of a request, it is written to the bitmap only. -/
theorem growBlock_any (ia : ℤ) (hl : Layout fs) : RecordFrame ia fs (growBlock fs).2.2 := by
  by_cases h : (growBlock fs).1 = 0
  · exact (growBlock_frame ia hl h).1
  · obtain ⟨bv, hbv, hnum, -⟩ := growBlock_refused h
    rw [hbv]
    refine ⟨?_, rfl, fun _ _ _ _ => rfl⟩
    simp only [fixed, hnum]

theorem growBlock_zero (h : fs.bv.bit 0 = true) : (growBlock fs).2.2.bv.bit 0 = true := by
  by_cases hok : (growBlock fs).1 = 0
  · obtain ⟨start, -, halloc⟩ := growBlock_ok hok
    rw [halloc.taken.bits, h]
    rfl
  · obtain ⟨bv, hbv, -, hbits⟩ := growBlock_refused hok
    rw [hbv]
    exact hbits 0 h

/-- A part of a growth, whether it ends well or not: it is written to the bitmap only, leaves the
inode but for its stream, and a block that was taken shows in the size or the indirect block. -/
structure Part (ia : ℤ) (s t : Myfs × Inode) : Prop where
  frame : RecordFrame ia s.1 t.1
  zero : s.1.bv.bit 0 = true → t.1.bv.bit 0 = true
  only : t.2 = { s.2 with data := t.2.data }
  doubleIndirect : t.2.data.doubleIndirect = s.2.data.doubleIndirect
  size : s.2.data.size ≤ t.2.data.size
  keeps : s.2.data.indirect ≠ 0 → t.2.data.indirect = s.2.data.indirect
  shows : t.1.dsb.usedBlocks = s.1.dsb.usedBlocks ∨ s.2.data.size < t.2.data.size ∨
    s.2.data.indirect = 0 ∧ t.2.data.indirect ≠ 0

theorem Part.refl (ia : ℤ) (s : Myfs × Inode) : Part ia s s :=
  ⟨.refl ia s.1, id, rfl, rfl, le_rfl, fun _ => rfl, .inl rfl⟩

theorem Part.trans {s t u : Myfs × Inode} (h : Part ia s t) (k : Part ia t u) : Part ia s u where
  frame := h.frame.trans k.frame
  zero hs := k.zero (h.zero hs)
  only := by
    rw [k.only, h.only]
  doubleIndirect := k.doubleIndirect.trans h.doubleIndirect
  size := h.size.trans k.size
  keeps hs := by
    have ht := h.keeps hs
    rw [← ht] at hs ⊢
    exact k.keeps hs
  shows := by
    have hsize := h.size
    have hsize' := k.size
    rcases h.shows with h₁ | h₁ | ⟨h₁, h₂⟩
    · rcases k.shows with k₁ | k₁ | ⟨k₁, k₂⟩
      · exact .inl (k₁.trans h₁)
      · exact .inr (.inl (by omega))
      · refine .inr (.inr ⟨?_, k₂⟩)
        by_contra hs
        exact hs ((h.keeps hs).symm.trans k₁)
    · exact .inr (.inl (by omega))
    · refine .inr (.inr ⟨h₁, ?_⟩)
      rw [k.keeps h₂]
      exact h₂

/-- A request that is refused ends a growth. -/
theorem Part.refused (ia : ℤ) (hl : Layout fs) (mi : Inode) (h : (growBlock fs).1 ≠ 0) :
    Part ia (fs, mi) ((growBlock fs).2.2, mi) where
  frame := growBlock_any ia hl
  zero := growBlock_zero
  only := rfl
  doubleIndirect := rfl
  size := le_rfl
  keeps _ := rfl
  shows := .inl (FailedExtension.growBlock_refused h)

/-- A block that is entered into the stream makes it larger. -/
theorem Part.larger {t : Myfs × Inode} (hframe : RecordFrame ia fs t.1)
    (hzero : fs.bv.bit 0 = true → t.1.bv.bit 0 = true) (honly : t.2 = { mi with data := t.2.data })
    (hdouble : t.2.data.doubleIndirect = mi.data.doubleIndirect)
    (hindirect : t.2.data.indirect = mi.data.indirect) (hsize : mi.data.size < t.2.data.size) :
    Part ia (fs, mi) t :=
  ⟨hframe, hzero, honly, hdouble, hsize.le, fun _ => hindirect, .inr (.inl hsize)⟩

theorem growDirect_part (ia needed : ℤ) (left : ℕ) (fs : Myfs) (mi : Inode) (i : ℤ)
    (hl : Layout fs) : Part ia (fs, mi) ((growDirect needed left fs mi i).2.2.2,
      (growDirect needed left fs mi i).2.2.1) := by
  induction left generalizing fs mi i with
  | zero => exact .refl ia _
  | succ left ih =>
    rw [growDirect]
    split
    · exact .refl ia _
    dsimp only
    by_cases herr : (growBlock fs).1 = 0
    · rw [if_neg (not_not_intro herr)]
      have hframe := growBlock_any ia hl
      have hpos := (hframe.layout hl).pos
      have hone : Part ia (fs, mi) ((growBlock fs).2.2,
          setSize (setDirect mi (numDirectBlocks - (left + 1)) (growBlock fs).2.1)
            (mi.data.size + (growBlock fs).2.2.dsb.blockSize)) :=
        .larger hframe growBlock_zero rfl rfl rfl (by rw [setSize_size]; omega)
      exact hone.trans (ih _ _ _ (hframe.layout hl))
    · rw [if_pos herr]
      exact .refused ia hl mi herr

theorem growIndirect_part (ia needed : ℤ) (left : ℕ) (fs : Myfs) (mi : Inode) (i : ℤ)
    (hl : Layout fs) : Part ia (fs, mi) ((growIndirect needed left fs mi i).2.2,
      (growIndirect needed left fs mi i).2.1) := by
  induction left generalizing fs mi i with
  | zero => exact .refl ia _
  | succ left ih =>
    rw [growIndirect]
    split
    · exact .refl ia _
    dsimp only
    by_cases herr : (growBlock fs).1 = 0
    · rw [if_neg (not_not_intro herr)]
      have hgrown := growBlock_any ia hl
      have hpos := (hgrown.layout hl).pos
      have hframe := hgrown.trans (.store ia _ mi.data.indirect
        (putWord64 ((growBlock fs).2.2.dataArea mi.data.indirect)
          (8 * (maxIndex (growBlock fs).2.2 - (left + 1))) (growBlock fs).2.1))
      have hone : Part ia (fs, mi) (storeBlock (growBlock fs).2.2 mi.data.indirect
          (putWord64 ((growBlock fs).2.2.dataArea mi.data.indirect)
            (8 * (maxIndex (growBlock fs).2.2 - (left + 1))) (growBlock fs).2.1),
          setSize mi (mi.data.size + (growBlock fs).2.2.dsb.blockSize)) :=
        .larger hframe growBlock_zero rfl rfl rfl (by rw [setSize_size]; omega)
      exact hone.trans (ih _ _ _ (hframe.layout hl))
    · rw [if_pos herr]
      exact .refused ia hl mi herr

theorem openIndirect_part (ia : ℤ) (fs : Myfs) (mi : Inode) (hl : Layout fs)
    (hzero : fs.bv.bit 0 = true) :
    Part ia (fs, mi) ((openIndirect fs mi).2.2, (openIndirect fs mi).2.1) := by
  unfold openIndirect
  split
  swap
  · exact .refl ia _
  rename_i hnone
  dsimp only
  by_cases herr : (growBlock fs).1 = 0
  · rw [if_neg (not_not_intro herr)]
    obtain ⟨start, hstart, halloc⟩ := growBlock_ok herr
    -- block 0 is taken, so the new indirect block has another address
    have haddr : (growBlock fs).2.1 ≠ 0 := by
      rw [hstart]
      intro h
      obtain rfl : start = 0 := by exact_mod_cast h
      have hclear := halloc.taken.clear 0 le_rfl (by omega)
      rw [hzero] at hclear
      cases hclear
    exact ⟨(growBlock_any ia hl).trans (.store ia _ _ _), growBlock_zero, rfl, rfl, le_rfl,
      fun hsome => absurd hnone hsome, .inr (.inr ⟨hnone, haddr⟩)⟩
  · rw [if_pos herr]
    exact .refused ia hl mi herr

theorem growEnd_part (ia : ℤ) (fs : Myfs) (mi : Inode) :
    Part ia (fs, mi) ((growEnd fs mi).2.2, (growEnd fs mi).2.1) := by
  unfold growEnd
  split <;> exact .refl ia _

/-- The second half of a growth that fails. -/
theorem growIndirectRange_part (mi : Inode) (ia newSize needed i : ℤ) (hl : Layout fs)
    (hzero : fs.bv.bit 0 = true) (h : (growIndirectRange fs mi newSize needed i).1 ≠ 0) :
    Part ia (fs, mi) ((growIndirectRange fs mi newSize needed i).2.2,
      (growIndirectRange fs mi newSize needed i).2.1) := by
  unfold growIndirectRange at h ⊢
  dsimp only at h ⊢
  by_cases hin : directSize fs.dsb.blockSize ≤ mi.data.size ∧
      mi.data.size < maxIndirectRange fs.dsb.blockSize
  swap
  · rw [if_neg hin]
    exact growEnd_part ia fs mi
  rw [if_pos hin] at h ⊢
  have hopen := openIndirect_part ia fs mi hl hzero
  generalize openIndirect fs mi = r at h hopen ⊢
  obtain ⟨err, mi₁, fs₁⟩ := r
  dsimp only at h hopen ⊢
  by_cases herr : err ≠ 0
  · rw [if_pos herr]
    exact hopen
  rw [if_neg herr] at h ⊢
  have hloop := growIndirect_part ia needed (maxIndex fs₁ -
    ((mi₁.data.size - directSize fs.dsb.blockSize) / fs.dsb.blockSize).toNat) fs₁ mi₁ i
    (hopen.frame.layout hl)
  generalize growIndirect needed _ fs₁ mi₁ i = r at h hloop ⊢
  obtain ⟨err', mi₂, fs₂⟩ := r
  dsimp only at h hloop ⊢
  by_cases herr' : err' ≠ 0
  · rw [if_pos herr']
    exact hopen.trans hloop
  rw [if_neg herr'] at h ⊢
  by_cases hdone : newSize ≤ mi₂.data.size
  · rw [if_pos hdone] at h
    exact absurd rfl h
  · rw [if_neg hdone]
    exact (hopen.trans hloop).trans (growEnd_part ia fs₂ mi₂)

/-- A growth that fails: at once, or from the rounded size on. -/
theorem growDstream_part (ia : ℤ) {newSize err : ℤ} (hl : Layout fs) (hzero : fs.bv.bit 0 = true)
    (h : growDstream fs mi newSize = .ok (err, mi', fs')) (herr : err ≠ 0) :
    Part ia (fs, mi) (fs', mi') ∨
      Part ia (fs, setSize mi (roundUp mi.data.size fs.dsb.blockSize)) (fs', mi') := by
  unfold growDstream at h
  dsimp only at h
  split at h
  · cases h
    exact .inl (.refl ia _)
  split at h
  · cases h
    exact absurd rfl herr
  right
  split at h
  · split at h
    · cases h
    have hdirect := growDirect_part ia
      ((roundUp newSize fs.dsb.blockSize - roundUp mi.data.size fs.dsb.blockSize) /
        fs.dsb.blockSize)
      (numDirectBlocks - (roundUp mi.data.size fs.dsb.blockSize / fs.dsb.blockSize).toNat) fs
      (setSize mi (roundUp mi.data.size fs.dsb.blockSize)) 0 hl
    generalize growDirect _ _ fs (setSize mi (roundUp mi.data.size fs.dsb.blockSize)) 0 = r
      at h hdirect
    obtain ⟨err₁, i, mi₁, fs₁⟩ := r
    dsimp only at h hdirect
    split at h
    · cases h
      exact hdirect
    split at h
    · cases h
      exact absurd rfl herr
    · have heq := Except.ok.inj h
      have hrange := growIndirectRange_part mi₁ ia newSize
        ((roundUp newSize fs.dsb.blockSize - roundUp mi.data.size fs.dsb.blockSize) /
          fs.dsb.blockSize) i (hdirect.frame.layout hl) (hdirect.zero hzero)
          (by rw [heq]; exact herr)
      rw [heq] at hrange
      exact hdirect.trans hrange
  · have heq := Except.ok.inj h
    have hrange := growIndirectRange_part
      (setSize mi (roundUp mi.data.size fs.dsb.blockSize)) ia newSize
      ((roundUp newSize fs.dsb.blockSize - roundUp mi.data.size fs.dsb.blockSize) /
        fs.dsb.blockSize) 0 hl hzero (by rw [heq]; exact herr)
    rw [heq] at hrange
    exact hrange

end Parts

section Resize
variable {fs fs' : Myfs} {mi mi' : Inode} {n err : ℤ}

/-- An inode of a mounted volume. -/
structure Fit (fs : Myfs) (mi : Inode) : Prop where
  layout : Layout fs
  disk : DiskSound fs
  numbered : Numbered fs mi.inodeNum
  good : Good fs mi
  shape : StreamShape fs mi
  maps : MapsData fs mi

/-- The resize works: the file gets no larger, or the disk grants every block that is needed. -/
def Resizes (fs : Myfs) (mi : Inode) (n : ℤ) : Prop :=
  0 ≤ n ∧ n ≤ mi.data.size ∨
    mi.data.size < n ∧ n ≤ maxIndirectRange fs.dsb.blockSize ∧ Supplies (blocksNeeded fs mi n) fs

/-- The resize fails before it has touched the stream. -/
def FailsAtOnce (fs : Myfs) (mi : Inode) (n : ℤ) : Prop :=
  n < 0 ∨ maxDoubleIndirectRange fs.dsb.blockSize < n ∨ NothingTaken fs mi

/-- Two inodes cannot both have a record at one place, so what is framed for all of them is
written to the bitmap only. -/
theorem bitmap_only (hl : Layout fs) (h : ∀ ia, RecordFrame ia fs fs') {b : ℤ} {i : ℕ}
    (hb : ¬InBitmap fs b) : fs'.metaArea b i = fs.metaArea b i := by
  by_cases hrec : InRecord fs 0 b i
  · refine (h 1).outside b i hb fun hrec' => ?_
    obtain ⟨haddr, hlow, hhigh⟩ := hrec
    obtain ⟨haddr', hlow', hhigh'⟩ := hrec'
    have h₀ : Addressable 0 := ⟨by decide, by decide⟩
    have h₁ : Addressable 1 := ⟨by decide, by decide⟩
    rcases records_disjoint hl.wholeRecords h₀ h₁ (by decide) with hne | hle | hle
    · exact hne (haddr.symm.trans haddr')
    · omega
    · omega
  · exact (h 0).outside b i hb hrec

theorem record_kept (hl : Layout fs) (h : ∀ ia, RecordFrame ia fs fs') {ia : ℤ}
    (hn : Numbered fs ia) (k : ℕ) : recordByte fs' ia k = recordByte fs ia k := by
  obtain ⟨-, -, -, haddr, hoff⟩ := areas_fixed (h 0).fixed
  unfold InodeRecords.recordByte
  rw [haddr, hoff]
  exact bitmap_only hl h fun hb => hl.bitmapTable _ hb (hl.record_inTable hn)

theorem roundUp_le (mi : Inode) (hd : DiskSound fs) (h₀ : 0 ≤ mi.data.size) :
    mi.data.size ≤ roundUp mi.data.size fs.dsb.blockSize := by
  obtain ⟨k, hk⟩ := hd.pow
  obtain ⟨heq, hle, -⟩ := blockCount_spec hk h₀
  rw [heq]
  exact hle

theorem same_data {d d' : DataStream} (h₁ : d'.direct = d.direct) (h₂ : d'.indirect = d.indirect)
    (h₃ : d'.doubleIndirect = d.doubleIndirect) (h₄ : d'.size = d.size) : d' = d := by
  cases d
  cases d'
  cases h₁
  cases h₂
  cases h₃
  cases h₄
  rfl

/-- A growth that fails keeps the stream exactly if it has taken nothing. -/
theorem growDstream_failed (h : Fit fs mi) (hlt : mi.data.size < n)
    (hgrow : growDstream fs mi n = .ok (err, mi', fs')) (herr : err ≠ 0) :
    (∀ ia, RecordFrame ia fs fs') ∧ mi' = { mi with data := mi'.data } ∧
      (mi'.data = mi.data ↔ FailsAtOnce fs mi n) := by
  have hnonneg := h.shape.nonneg
  have hround := roundUp_le mi h.disk hnonneg
  have hpart := fun ia => growDstream_part ia h.layout h.disk.zero hgrow herr
  have hframe : ∀ ia, RecordFrame ia fs fs' := fun ia =>
    (hpart ia).elim (fun hp => hp.frame) fun hp => hp.frame
  have honly : mi' = { mi with data := mi'.data } := (hpart 0).elim (fun hp => hp.only)
    fun hp => hp.only
  have hdouble : mi'.data.doubleIndirect = mi.data.doubleIndirect :=
    (hpart 0).elim (fun hp => hp.doubleIndirect) fun hp => hp.doubleIndirect
  -- an unchanged stream has taken no block
  have hused : mi'.data = mi.data → fs'.dsb.usedBlocks = fs.dsb.usedBlocks := by
    intro hdata
    rcases hpart 0 with hp | hp
    · rcases hp.shows with h₁ | h₁ | ⟨h₁, h₂⟩
      · exact h₁
      · rw [hdata] at h₁
        exact absurd h₁ (lt_irrefl _)
      · rw [hdata] at h₂
        exact absurd h₁ h₂
    · have hsize := hp.size
      rcases hp.shows with h₁ | h₁ | ⟨h₁, h₂⟩
      · exact h₁
      · rw [hdata] at h₁
        rw [setSize_size] at h₁
        omega
      · rw [hdata] at h₂
        exact absurd h₁ h₂
  have huntouched : mi'.data = mi.data ↔ Untouched fs mi fs' mi' := by
    constructor
    · intro hdata
      exact ⟨by rw [hdata], by rw [hdata], by rw [hdata], hused hdata⟩
    · intro hu
      exact same_data hu.direct hu.indirect hdouble hu.size
  refine ⟨hframe, honly, huntouched.trans ?_⟩
  obtain ⟨r, hr, hiff⟩ := FailedExtension.growDstream_harmless_iff h.disk h.shape hlt
  obtain rfl : (err, mi', fs') = r := Except.ok.inj (hgrow.symm.trans hr)
  have hcases : Untouched fs mi fs' mi' ↔ FailedExtension.Harmless fs mi n :=
    ⟨fun hu => hiff.mp fun _ => hu, fun hh => hiff.mpr hh herr⟩
  refine hcases.trans ⟨?_, ?_⟩
  · rintro (hbig | ⟨hin, hsup⟩ | hnone)
    · exact .inr (.inl hbig)
    · obtain ⟨r, hr', hok⟩ := growDstream_supply h.disk.pow.choose_spec hnonneg hlt hin
        (fun i hi hle => by
          by_contra hne
          exact absurd ((h.shape.direct i hi).1 hne) (not_lt.2 hle))
      obtain rfl : (err, mi', fs') = r := Except.ok.inj (hgrow.symm.trans hr')
      exact absurd (hok.mpr hsup) herr
    · exact .inr (.inr hnone)
  · rintro (hneg | hbig | hnone)
    · omega
    · exact .inl hbig
    · exact .inr (.inr hnone)

theorem shrinkDstream_ok (hn : shrinkDstream fs mi n = (0, mi', fs')) :
    mi'.data.size = n := by
  unfold shrinkDstream at hn
  dsimp only at hn
  split at hn
  · cases hn
  split at hn
  · cases hn
    rfl
  · cases hn
    rfl

/-- What a resize that works leaves of the inode. -/
theorem setFileSize_ok (h : Fit fs mi) (hcall : myfsSetFileSize fs mi n = .ok (0, mi', fs')) :
    mi' = { mi with data := mi'.data, lastModifiedTime := mi'.lastModifiedTime } ∧
      mi'.data.size = n := by
  unfold myfsSetFileSize at hcall
  split at hcall
  · rename_i heq
    cases hcall
    exact ⟨rfl, heq.symm⟩
  rename_i hne
  obtain ⟨⟨err, mi₁, fs₁⟩, hstream, hrest⟩ := bind_ok hcall
  dsimp only at hrest
  split at hrest
  · cases hrest
    rename_i herr
    exact absurd rfl herr
  rename_i herr
  obtain rfl := not_not.mp herr
  obtain ⟨fs₂, -, heq⟩ := map_ok hrest
  cases heq
  split at hstream
  · rename_i hlt
    have hshrink := Except.ok.inj hstream
    obtain ⟨-, -, honly⟩ := shrinkDstream_good mi.inodeNum h.layout h.good h.maps hlt.le hshrink
    have hsize : mi₁.data.size = n := shrinkDstream_ok hshrink
    refine ⟨?_, hsize⟩
    rw [honly]
  · have hlt : mi.data.size < n := by omega
    obtain ⟨-, -, honly⟩ := growDstream_good mi.inodeNum h.layout h.good hlt hstream
    obtain ⟨-, -, hsize, -⟩ := growDstream_keeps (Q := fun _ _ => True) (fun _ _ _ _ h => h)
      (fun _ _ _ _ _ h => h) h.disk h.shape trivial hlt hstream
    refine ⟨?_, hsize⟩
    rw [honly]

theorem setFileSize_works (h : Fit fs mi) (hres : Resizes fs mi n)
    (hcall : myfsSetFileSize fs mi n = .ok (err, mi', fs')) : err = 0 := by
  rcases hres with ⟨h₀, hle⟩ | ⟨hlt, hin, hsup⟩
  · exact setFileSize_shorter h.good h₀ hle hcall
  · by_contra herr
    rcases FailedExtension.setFileSize_fails hcall herr with ⟨hlt', -⟩ | ⟨-, hgrow⟩
    · omega
    · obtain ⟨r, hr, hok⟩ := growDstream_supply h.disk.pow.choose_spec h.shape.nonneg hlt hin
        (fun i hi hle => by
          by_contra hne
          exact absurd ((h.shape.direct i hi).1 hne) (not_lt.2 hle))
      obtain rfl : (err, mi', fs') = r := Except.ok.inj (hgrow.symm.trans hr)
      exact herr (hok.mpr hsup)

/-- Otherwise the resize fails, and what it leaves depends on how far it got. -/
theorem setFileSize_failed (h : Fit fs mi) (hres : ¬Resizes fs mi n) :
    ∃ err mi' fs', myfsSetFileSize fs mi n = .ok (err, mi', fs') ∧ err ≠ 0 ∧
      (∀ ia, RecordFrame ia fs fs') ∧ mi' = { mi with data := mi'.data } ∧
      (mi'.data = mi.data ↔ FailsAtOnce fs mi n) := by
  obtain ⟨hshort, hlong⟩ := not_or.mp hres
  have hnonneg := h.shape.nonneg
  rcases lt_trichotomy n mi.data.size with hlt | heq | hlt
  · have hneg : n < 0 := by omega
    have hshrink : shrinkDstream fs mi n = (E2BIG, mi, fs) := if_pos (.inl hneg)
    refine ⟨E2BIG, mi, fs, ?_, by decide, fun ia => .refl ia fs, rfl,
      iff_of_true rfl (.inl hneg)⟩
    unfold myfsSetFileSize
    rw [if_neg hlt.ne, if_pos hlt, hshrink]
    rfl
  · omega
  · obtain ⟨⟨err, mi', fs'⟩, hgrow, -⟩ :=
      FailedExtension.growDstream_harmless_iff h.disk h.shape hlt
    have herr : err ≠ 0 := by
      rintro rfl
      obtain ⟨-, hshape, hsize, -, hbs⟩ := growDstream_keeps (Q := fun _ _ => True)
        (fun _ _ _ _ h => h) (fun _ _ _ _ _ h => h) h.disk h.shape trivial hlt hgrow
      have hin : n ≤ maxIndirectRange fs.dsb.blockSize := by
        rw [← hsize, ← hbs]
        exact hshape.bounded
      obtain ⟨r, hr, hok⟩ := growDstream_supply h.disk.pow.choose_spec hnonneg hlt hin
        (fun i hi hle => by
          by_contra hne
          exact absurd ((h.shape.direct i hi).1 hne) (not_lt.2 hle))
      obtain rfl : ((0 : ℤ), mi', fs') = r := Except.ok.inj (hgrow.symm.trans hr)
      exact hlong ⟨hlt, hin, hok.mp rfl⟩
    obtain ⟨hframe, honly, hdata⟩ := growDstream_failed h hlt hgrow herr
    exact ⟨err, mi', fs', FailedExtension.setFileSize_of_failed_growth hlt hgrow herr, herr, hframe,
      honly, hdata⟩

end Resize

section Calls
variable {fs fs' : Myfs} {mi mi' : Inode} {st : MyStat} {mask : BitVec 64} {err : ℤ}

/-- The fields of the inode and its record are what they were. -/
structure Kept (fs fs' : Myfs) (mi mi' : Inode) : Prop where
  mode : mi'.mode = mi.mode
  uid : mi'.uid = mi.uid
  gid : mi'.gid = mi.gid
  createTime : mi'.createTime = mi.createTime
  lastModifiedTime : mi'.lastModifiedTime = mi.lastModifiedTime
  data : mi'.data = mi.data
  record : ∀ k < myfsInode, recordByte fs' mi.inodeNum k = recordByte fs mi.inodeNum k

/-- The fields that the mask selects are those of the request, the others are what they were, and
the record holds them. -/
structure Applied (fs' : Myfs) (mi mi' : Inode) (st : MyStat) (mask : BitVec 64) : Prop where
  mode : mi'.mode = if mask &&& WSTAT_MODE = 0 then mi.mode
    else Int.lor (Int.land mi.mode mySIfmt) (Int.land st.mode mySIumsk)
  type : Int.land mi'.mode mySIfmt = Int.land mi.mode mySIfmt
  uid : mi'.uid = if mask &&& WSTAT_UID = 0 then mi.uid else st.uid
  gid : mi'.gid = if mask &&& WSTAT_GID = 0 then mi.gid else st.gid
  createTime : mi'.createTime = if mask &&& WSTAT_CRTIME = 0 then mi.createTime else st.crtime
  modified : mask &&& WSTAT_MTIME ≠ 0 → mi'.lastModifiedTime = st.mtime
  unmodified : mask &&& WSTAT_MTIME = 0 → mask &&& WSTAT_SIZE = 0 →
    mi'.lastModifiedTime = mi.lastModifiedTime
  size : mask &&& WSTAT_SIZE ≠ 0 → mi'.data.size = st.size
  data : mask &&& WSTAT_SIZE = 0 → mi'.data = mi.data
  inodeNum : mi'.inodeNum = mi.inodeNum
  flags : mi'.flags = mi.flags
  recorded : Recorded fs' mi'

/-- A failed call changes nothing, and one that works does what it was asked for and saves it. -/
def Atomic (fs : Myfs) (mi : Inode) (st : MyStat) (mask : BitVec 64) : Prop :=
  ∀ err mi' fs', myfsWstat fs mi st mask = .ok (err, mi', fs') →
    (err ≠ 0 → Kept fs fs' mi mi') ∧ (err = 0 → Applied fs' mi mi' st mask)

/-- The owner and the mode of the request are those of the inode already, as far as they are
selected. -/
def OwnerKept (mi : Inode) (st : MyStat) (mask : BitVec 64) : Prop :=
  (wstatOwner mi st mask).mode = mi.mode ∧ (wstatOwner mi st mask).uid = mi.uid ∧
    (wstatOwner mi st mask).gid = mi.gid

/-- No size is selected; or the inode is a directory and nothing was set before that was found
out; or the resize works; or it fails at once, nothing was set before, and the time that is set
is the old one. -/
def Clear (fs : Myfs) (mi : Inode) (st : MyStat) (mask : BitVec 64) : Prop :=
  mask &&& WSTAT_SIZE = 0 ∨ if mySIsdir mi.mode then OwnerKept mi st mask
    else Resizes fs mi st.size ∨
      OwnerKept mi st mask ∧ fs.now = mi.lastModifiedTime ∧ FailsAtOnce fs mi st.size

theorem land_testBit (x : ℤ) (f : ℕ) : ∃ a : ℕ, Int.land x f = a ∧
    ∀ k, a.testBit k = (x.testBit k && f.testBit k) := by
  rcases x with m | m
  · exact ⟨m &&& f, rfl, fun k => Nat.testBit_and m f k⟩
  · refine ⟨Nat.ldiff f m, rfl, fun k => ?_⟩
    rw [Nat.testBit_ldiff]
    exact Bool.and_comm _ _

/-- The mode bits of the request are outside the type. -/
theorem type_kept (x y : ℤ) : Int.land (Int.lor (Int.land x mySIfmt) (Int.land y mySIumsk))
    mySIfmt = Int.land x mySIfmt := by
  obtain ⟨a, ha, hbits⟩ := land_testBit x 0o170000
  obtain ⟨b, hb, hbits'⟩ := land_testBit y 0o7777
  have hapart : ∀ k, (Nat.testBit 0o7777 k && Nat.testBit 0o170000 k) = false := by
    intro k
    rw [← Nat.testBit_and, show (0o7777 &&& 0o170000 : ℕ) = 0 by decide, Nat.zero_testBit]
  have hnat : (a ||| b) &&& 0o170000 = a := by
    refine Nat.eq_of_testBit_eq fun k => ?_
    rw [Nat.testBit_and, Nat.testBit_or, hbits, hbits']
    have hk := hapart k
    generalize Nat.testBit 0o7777 k = u at hk ⊢
    generalize Nat.testBit 0o170000 k = v at hk ⊢
    revert hk
    cases x.testBit k <;> cases y.testBit k <;> cases u <;> cases v <;> decide
  change Int.land x mySIfmt = a at ha
  change Int.land y mySIumsk = b at hb
  rw [ha, hb]
  exact congrArg Int.ofNat hnat

theorem wstatOwner_type (mi : Inode) (st : MyStat) (mask : BitVec 64) :
    Int.land (wstatOwner mi st mask).mode mySIfmt = Int.land mi.mode mySIfmt := by
  unfold wstatOwner
  dsimp only
  split
  · rfl
  · exact type_kept mi.mode st.mode

theorem wstatOwner_dir (mi : Inode) (st : MyStat) (mask : BitVec 64) :
    mySIsdir (wstatOwner mi st mask).mode ↔ mySIsdir mi.mode := by
  unfold mySIsdir
  rw [wstatOwner_type]

theorem Fit.owner (h : Fit fs mi) (hst : CStat st) (mask : BitVec 64) :
    Fit fs (wstatOwner mi st mask) where
  layout := h.layout
  disk := h.disk
  numbered := h.numbered
  good := wstatOwner_good h.good hst mask
  shape := h.shape.same ⟨rfl, rfl, rfl⟩ rfl
  maps := ⟨h.maps.blocks, h.maps.indirect⟩

theorem checkInode_ok (h : Fit fs mi) : checkInode mi = .ok () :=
  if_neg (not_lt.mpr h.shape.nonneg)

theorem wstat_zero (h : Fit fs mi) : myfsWstat fs mi st 0 = .ok (0, mi, fs) := by
  unfold myfsWstat
  rw [checkInode_ok h, Except.bind, if_pos rfl]

/-- The call after its first check. -/
theorem wstat_eq (h : Fit fs mi) (hmask : mask ≠ 0) : myfsWstat fs mi st mask =
    (wstatSize fs (wstatOwner mi st mask) st mask).bind fun (err, mi, fs) =>
      if err ≠ 0 then .ok (err, mi, fs)
      else (updateInode fs (wstatTimes mi st mask)).map fun fs =>
        (0, wstatTimes mi st mask, fs) := by
  unfold myfsWstat
  rw [checkInode_ok h]
  exact if_neg hmask

/-- What the size part leaves when it works. -/
structure Sized (fs : Myfs) (mi mi' : Inode) (st : MyStat) (mask : BitVec 64) : Prop where
  only : mi' = { mi with data := mi'.data, lastModifiedTime := mi'.lastModifiedTime }
  size : mask &&& WSTAT_SIZE ≠ 0 → mi'.data.size = st.size
  same : mask &&& WSTAT_SIZE = 0 → mi' = mi

theorem wstatSize_sized (h : Fit fs mi) (hcall : wstatSize fs mi st mask = .ok (0, mi', fs')) :
    Sized fs mi mi' st mask := by
  unfold wstatSize at hcall
  split at hcall
  · rename_i hnone
    cases hcall
    exact ⟨rfl, fun hsome => absurd hnone hsome, fun _ => rfl⟩
  rename_i hsome
  split at hcall
  · cases hcall
  obtain ⟨⟨err, mi₁, fs₁⟩, hset, heq⟩ := map_ok hcall
  cases heq
  obtain ⟨honly, hsize⟩ := setFileSize_ok h hset
  refine ⟨?_, fun _ => hsize, fun hnone => absurd hnone hsome⟩
  rw [honly]

theorem wstat_applied (h : Fit fs mi) (hr : Recorded fs mi) (hst : CStat st)
    (hcall : myfsWstat fs mi st mask = .ok (0, mi', fs')) : Applied fs' mi mi' st mask := by
  have hsaved := (wstat_saves hst h.layout h.numbered h.good h.maps hcall).recorded hr
  by_cases hmask : mask = 0
  · subst hmask
    rw [wstat_zero h] at hcall
    cases hcall
    refine ⟨?_, rfl, ?_, ?_, ?_, fun hne => ?_, fun _ _ => rfl, fun hne => ?_,
      fun _ => rfl, rfl, rfl, hr⟩ <;> simp at *
  rw [wstat_eq h hmask] at hcall
  obtain ⟨⟨err, mi₁, fs₁⟩, hsize, hrest⟩ := bind_ok hcall
  dsimp only at hrest
  split at hrest
  · rename_i herr
    cases hrest
    exact absurd rfl herr
  rename_i herr
  obtain rfl := not_not.mp herr
  obtain ⟨fs₂, -, heq⟩ := map_ok hrest
  cases heq
  obtain ⟨honly, hsz, hsame⟩ := wstatSize_sized (h.owner hst mask) hsize
  have howner : ∀ {α : Type} (g : Inode → α), (∀ m d t,
      g { m with data := d, lastModifiedTime := t } = g m) → g mi₁ = g (wstatOwner mi st mask) := by
    intro α g hg
    rw [honly, hg]
  have hmode := howner Inode.mode fun _ _ _ => rfl
  refine ⟨hmode, ?_, howner Inode.uid fun _ _ _ => rfl, howner Inode.gid fun _ _ _ => rfl, ?_, ?_,
    ?_, hsz, ?_, howner Inode.inodeNum fun _ _ _ => rfl,
    howner Inode.flags fun _ _ _ => rfl, hsaved⟩
  · exact (congrArg (Int.land · mySIfmt) hmode).trans (wstatOwner_type mi st mask)
  · have hcreate := howner Inode.createTime fun _ _ _ => rfl
    unfold wstatTimes
    dsimp only
    rw [hcreate]
    rfl
  · intro hset
    exact if_neg hset
  · intro hnot hnone
    unfold wstatTimes
    dsimp only
    rw [if_pos hnot, hsame hnone]
    rfl
  · intro hnone
    change mi₁.data = mi.data
    rw [hsame hnone]
    rfl

/-- How a call that fails has come to its end. -/
inductive Failure (fs fs' : Myfs) (mi mi' : Inode) (st : MyStat) (mask : BitVec 64) (err : ℤ) : Prop
  | directory (dir : mySIsdir mi.mode) (inode : mi' = wstatOwner mi st mask) (same : fs' = fs)
  | resize (file : ¬mySIsdir mi.mode) (mi₁ : Inode)
      (call : myfsSetFileSize fs (wstatOwner mi st mask) st.size = .ok (err, mi₁, fs'))
      (inode : mi' = { mi₁ with lastModifiedTime := fs'.now })

theorem wstat_failure (h : Fit fs mi) (hcall : myfsWstat fs mi st mask = .ok (err, mi', fs'))
    (herr : err ≠ 0) : mask &&& WSTAT_SIZE ≠ 0 ∧ Failure fs fs' mi mi' st mask err := by
  by_cases hmask : mask = 0
  · subst hmask
    rw [wstat_zero h] at hcall
    cases hcall
    exact absurd rfl herr
  rw [wstat_eq h hmask] at hcall
  obtain ⟨⟨err', mi₁, fs₁⟩, hsize, hrest⟩ := bind_ok hcall
  dsimp only at hrest
  split at hrest
  swap
  · obtain ⟨fs₂, -, heq⟩ := map_ok hrest
    cases heq
    exact absurd rfl herr
  cases hrest
  unfold wstatSize at hsize
  split at hsize
  · cases hsize
    exact absurd rfl herr
  rename_i hsome
  refine ⟨hsome, ?_⟩
  split at hsize
  · rename_i hdir
    cases hsize
    exact .directory ((wstatOwner_dir mi st mask).mp hdir) rfl rfl
  · rename_i hfile
    obtain ⟨⟨err₂, mi₂, fs₂⟩, hset, heq⟩ := map_ok hsize
    cases heq
    exact .resize (fun hdir => hfile ((wstatOwner_dir mi st mask).mpr hdir)) mi₂ hset rfl

/-- The other direction. -/
theorem wstat_of_directory (st : MyStat) (h : Fit fs mi) (hsome : mask &&& WSTAT_SIZE ≠ 0)
    (hdir : mySIsdir mi.mode) :
    myfsWstat fs mi st mask = .ok (EISDIR, wstatOwner mi st mask, fs) := by
  have hmask : mask ≠ 0 := fun hz => hsome (by rw [hz]; simp)
  rw [wstat_eq h hmask]
  unfold wstatSize
  rw [if_neg hsome, if_pos ((wstatOwner_dir mi st mask).mpr hdir)]
  rfl

theorem wstat_of_failed_resize (h : Fit fs mi) (hsome : mask &&& WSTAT_SIZE ≠ 0)
    (hfile : ¬mySIsdir mi.mode) (herr : err ≠ 0)
    (hset : myfsSetFileSize fs (wstatOwner mi st mask) st.size = .ok (err, mi', fs')) :
    myfsWstat fs mi st mask = .ok (err, { mi' with lastModifiedTime := fs'.now }, fs') := by
  have hmask : mask ≠ 0 := fun hz => hsome (by rw [hz]; simp)
  rw [wstat_eq h hmask]
  unfold wstatSize
  rw [if_neg hsome, if_neg fun hdir => hfile ((wstatOwner_dir mi st mask).mp hdir), hset]
  exact if_pos herr

theorem owner_resizes (mi : Inode) (st : MyStat) (mask : BitVec 64) (n : ℤ) :
    Resizes fs (wstatOwner mi st mask) n ↔ Resizes fs mi n := Iff.rfl

theorem owner_failsAtOnce (mi : Inode) (st : MyStat) (mask : BitVec 64) (n : ℤ) :
    FailsAtOnce fs (wstatOwner mi st mask) n ↔ FailsAtOnce fs mi n := Iff.rfl

/-- What a failed resize has left to `myfs_wstat`. -/
theorem kept_iff (mask : BitVec 64) (h : Fit fs mi) (hst : CStat st)
    (hres : ¬Resizes fs mi st.size) :
    ∃ err mi₁ fs', myfsSetFileSize fs (wstatOwner mi st mask) st.size = .ok (err, mi₁, fs') ∧
      err ≠ 0 ∧ (Kept fs fs' mi { mi₁ with lastModifiedTime := fs'.now } ↔
        OwnerKept mi st mask ∧ fs.now = mi.lastModifiedTime ∧ FailsAtOnce fs mi st.size) := by
  have hres' : ¬Resizes fs (wstatOwner mi st mask) st.size :=
    fun hr => hres ((owner_resizes mi st mask st.size).mp hr)
  obtain ⟨err, mi₁, fs', hset, herr, hframe, honly, hdata⟩ :=
    setFileSize_failed (h.owner hst mask) hres'
  have hnow := now_fixed (hframe 0).fixed
  have hdata' := hdata.trans (owner_failsAtOnce mi st mask st.size)
  refine ⟨err, mi₁, fs', hset, herr, ?_⟩
  have hmode : mi₁.mode = (wstatOwner mi st mask).mode := by rw [honly]
  have huid : mi₁.uid = (wstatOwner mi st mask).uid := by rw [honly]
  have hgid : mi₁.gid = (wstatOwner mi st mask).gid := by rw [honly]
  have hcreate : mi₁.createTime = mi.createTime := by rw [honly]; rfl
  constructor
  · intro hk
    exact ⟨⟨hmode.symm.trans hk.mode, huid.symm.trans hk.uid, hgid.symm.trans hk.gid⟩,
      hnow.symm.trans hk.lastModifiedTime, hdata'.mp hk.data⟩
  · rintro ⟨⟨h₁, h₂, h₃⟩, htime, honce⟩
    exact ⟨hmode.trans h₁, huid.trans h₂, hgid.trans h₃, hcreate, hnow.trans htime,
      hdata'.mpr honce, fun k _ => record_kept h.layout hframe h.numbered k⟩

/-- A failed `myfs_wstat` changes nothing, and one that returns 0 applies and saves what was
asked for, exactly in these cases. -/
theorem wstat_atomic_iff (h : Fit fs mi) (hr : Recorded fs mi) (hst : CStat st) :
    Atomic fs mi st mask ↔ Clear fs mi st mask := by
  by_cases hsome : mask &&& WSTAT_SIZE = 0
  · refine iff_of_true (fun err mi' fs' hcall => ⟨fun herr => ?_, ?_⟩) (.inl hsome)
    · exact absurd hsome (wstat_failure h hcall herr).1
    · rintro rfl
      exact wstat_applied h hr hst hcall
  by_cases hdir : mySIsdir mi.mode
  · have hclear : Clear fs mi st mask ↔ OwnerKept mi st mask := by
      unfold Clear
      rw [if_pos hdir, or_iff_right hsome]
    have hcall := wstat_of_directory st h hsome hdir
    rw [hclear]
    constructor
    · intro hatomic
      have hkept := (hatomic _ _ _ hcall).1 (by decide)
      exact ⟨hkept.mode, hkept.uid, hkept.gid⟩
    · rintro ⟨h₁, h₂, h₃⟩ err mi' fs' hcall'
      obtain ⟨rfl, rfl, rfl⟩ : EISDIR = err ∧ wstatOwner mi st mask = mi' ∧ fs = fs' := by
        simpa using hcall.symm.trans hcall'
      exact ⟨fun _ => ⟨h₁, h₂, h₃, rfl, rfl, rfl, fun _ _ => rfl⟩, fun h => absurd h (by decide)⟩
  have hclear : Clear fs mi st mask ↔ Resizes fs mi st.size ∨
      OwnerKept mi st mask ∧ fs.now = mi.lastModifiedTime ∧ FailsAtOnce fs mi st.size := by
    unfold Clear
    rw [if_neg hdir, or_iff_right hsome]
  rw [hclear]
  by_cases hres : Resizes fs mi st.size
  · refine iff_of_true (fun err mi' fs' hcall => ⟨fun herr => ?_, ?_⟩) (.inl hres)
    · rcases (wstat_failure h hcall herr).2 with ⟨hdir', -, -⟩ | ⟨-, mi₁, hset, -⟩
      · exact absurd hdir' hdir
      · exact absurd (setFileSize_works (h.owner hst mask) hres hset) herr
    · rintro rfl
      exact wstat_applied h hr hst hcall
  · rw [or_iff_right hres]
    obtain ⟨err, mi₁, fs₁, hset, herr, hiff⟩ := kept_iff mask h hst hres
    have hcall := wstat_of_failed_resize h hsome hdir herr hset
    rw [← hiff]
    constructor
    · intro hatomic
      exact (hatomic _ _ _ hcall).1 herr
    · intro hkept err' mi' fs' hcall'
      obtain ⟨rfl, rfl, rfl⟩ : err = err' ∧ { mi₁ with lastModifiedTime := fs₁.now } = mi' ∧
          fs₁ = fs' := by
        simpa using hcall.symm.trans hcall'
      exact ⟨fun _ => hkept, fun h => absurd h herr⟩

end Calls

section Root

theorem rootInode_fit : Fit newDisk rootInode := by
  have hmaps : MapsData newDisk rootInode := by
    apply DirectOnly.mapsData
    decide
  have hagrees := rootInode_agrees
  refine ⟨newDisk_layout, ⟨rfl, by decide, 9, rfl⟩, hagrees.taken.numbered, hagrees.good,
    ⟨⟨by decide,
    by decide, by decide, by decide, fun h => absurd h (by decide), by decide, fun j _ h => ?_,
    fun h => absurd rfl h, rfl⟩, fun h => absurd rfl h⟩, hmaps⟩
  have hsize : rootInode.data.size = 32 := rfl
  have hblock : newDisk.dsb.blockSize = 512 := rfl
  rw [hsize, hblock] at h
  unfold numDirectBlocks at h
  push_cast at h
  omega

/-- A request for mode 0o700, owner 5 and an empty file. -/
def someStat : MyStat := ⟨0o700, 5, 0, 0, 0, 0⟩

theorem someStat_cstat : CStat someStat := by decide

theorem wstat_atomic_root : Atomic newDisk rootInode someStat (WSTAT_MODE ||| WSTAT_UID) :=
  (wstat_atomic_iff rootInode_fit rootInode_agrees.recorded someStat_cstat).mpr (.inl (by decide))

/-- The root directory gets another mode from a call that is refused for its size. -/
theorem refused_wstat_sets_mode : Fit newDisk rootInode ∧ Recorded newDisk rootInode ∧
    CStat someStat ∧ ¬Atomic newDisk rootInode someStat (WSTAT_MODE ||| WSTAT_SIZE) := by
  refine ⟨rootInode_fit, rootInode_agrees.recorded, someStat_cstat, fun h => ?_⟩
  have hsome : (WSTAT_MODE ||| WSTAT_SIZE) &&& WSTAT_SIZE ≠ 0 := by decide
  have hcall := wstat_of_directory someStat rootInode_fit hsome (by decide)
  exact absurd ((h _ _ _ hcall).1 (by decide)).mode (by decide)

end Root

end WstatAtomicity
