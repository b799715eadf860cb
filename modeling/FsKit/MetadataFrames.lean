import Mathlib.Tactic
import FsKit.BitmapWriteBack
import FsKit.BlockSupply
import FsKit.InodeRecords

/-! Where the calls on a data stream write metadata: into the blocks of the bitmap and into the
record of the one inode they were made for. The areas of a mounted volume do not overlap, so the
inode map and every other record stay as they are. -/
namespace MetadataFrames

open MachineIntegers
open BitVectorSearch BlockBitmap BlockRounding InodeTable DataStreamBlocks DataStreamGrowth
open DataStreamShape BlockSupply
open InodeRecords (Int32 Int64 recordAddr recordOffset recordByte WholeRecords Addressable
  records_disjoint updateInode_eq)

section Areas
variable {fs fs' fs₁ fs₂ : Myfs} {ia : ℤ}

def InBitmap (fs : Myfs) (b : ℤ) : Prop := 1 ≤ b ∧ b ≤ fs.numBitmapBlocks

def InInodeMap (fs : Myfs) (b : ℤ) : Prop :=
  fs.dsb.inodeMapStart ≤ b ∧ b < fs.dsb.inodeMapStart + fs.dsb.numInodeMapBlocks

def InInodeTable (fs : Myfs) (b : ℤ) : Prop :=
  fs.dsb.inodesStart ≤ b ∧ b < fs.dsb.inodesStart + fs.dsb.numInodeBlocks

/-- Byte `i` of block `b` belongs to the record of inode `ia`. -/
def InRecord (fs : Myfs) (ia b : ℤ) (i : ℕ) : Prop :=
  b = recordAddr fs ia ∧ recordOffset fs ia ≤ i ∧ i < recordOffset fs ia + myfsInode

/-- A mounted volume: the bitmap has a bit for every block, the inode table has a record for
every inode, the areas lie apart on the disk, and the device takes every write. -/
structure Layout (fs : Myfs) : Prop where
  blockSize : ∃ k, fs.dsb.blockSize = 2 ^ k ∧ 9 ≤ k ∧ k < 31
  blocks : fs.dsb.numBlocks = fs.bv.numbits
  int32 : fs.bv.numbits < 2 ^ 31
  inodes : fs.inodeMap.numbits < 2 ^ 31
  bitmapRoom : (fs.bv.numbits : ℤ) ≤ 8 * (fs.dsb.blockSize * fs.numBitmapBlocks)
  tableRoom : ∀ ia : ℕ, ia < fs.inodeMap.numbits →
    ((ia * myfsInode / fs.dsb.blockSize : ℕ) : ℤ) < fs.dsb.numInodeBlocks
  mapStart : 0 ≤ fs.dsb.inodeMapStart
  mapEnd : fs.dsb.inodeMapStart + fs.dsb.numInodeMapBlocks ≤ fs.dsb.numBlocks
  tableStart : 0 ≤ fs.dsb.inodesStart
  tableSize : 0 ≤ fs.dsb.numInodeBlocks
  tableEnd : fs.dsb.inodesStart + fs.dsb.numInodeBlocks ≤ fs.dsb.numBlocks
  bitmapMap : ∀ b, InBitmap fs b → ¬InInodeMap fs b
  bitmapTable : ∀ b, InBitmap fs b → ¬InInodeTable fs b
  mapTable : ∀ b, InInodeMap fs b → ¬InInodeTable fs b
  writable : fs.readOnly = false
  answers : ∀ b n, fs.cacheFails b n = false
  uid : Int32 fs.uid
  gid : Int32 fs.gid
  now : Int64 fs.now

/-- The part of a file system that no call on a mounted volume changes. -/
def fixed (fs : Myfs) : Myfs :=
  { fs with
    dsb := { fs.dsb with usedBlocks := 0, flags := .clean }
    bv := { fs.bv with nextFree := 0, isFull := false, bits := fun _ => 0 }
    inodeMap := { fs.inodeMap with nextFree := 0, isFull := false, bits := fun _ => 0 }
    metaArea := fun _ _ => 0
    dataArea := fun _ _ => 0 }

theorem layout_fixed (fs : Myfs) : Layout (fixed fs) ↔ Layout fs :=
  ⟨fun ⟨h₁, h₂, h₃, h₄, h₅, h₆, h₇, h₈, h₉, h₁₀, h₁₁, h₁₂, h₁₃, h₁₄, h₁₅, h₁₆, h₁₇, h₁₈, h₁₉⟩ =>
      ⟨h₁, h₂, h₃, h₄, h₅, h₆, h₇, h₈, h₉, h₁₀, h₁₁, h₁₂, h₁₃, h₁₄, h₁₅, h₁₆, h₁₇, h₁₈, h₁₉⟩,
    fun ⟨h₁, h₂, h₃, h₄, h₅, h₆, h₇, h₈, h₉, h₁₀, h₁₁, h₁₂, h₁₃, h₁₄, h₁₅, h₁₆, h₁₇, h₁₈, h₁₉⟩ =>
      ⟨h₁, h₂, h₃, h₄, h₅, h₆, h₇, h₈, h₉, h₁₀, h₁₁, h₁₂, h₁₃, h₁₄, h₁₅, h₁₆, h₁₇, h₁₈, h₁₉⟩⟩

theorem Layout.of_fixed (hl : Layout fs) (h : fixed fs' = fixed fs) : Layout fs' := by
  rw [← layout_fixed, h, layout_fixed]
  exact hl

theorem Layout.pos (hl : Layout fs) : 0 < fs.dsb.blockSize := by
  obtain ⟨k, hk, _⟩ := hl.blockSize
  rw [hk]
  positivity

theorem Layout.wholeRecords (hl : Layout fs) : WholeRecords fs := by
  obtain ⟨k, hk, h9, h31⟩ := hl.blockSize
  refine ⟨hl.pos, ?_, ?_⟩
  · rw [hk, myfsInode, show 128 = 2 ^ 7 from rfl]
    exact Nat.pow_dvd_pow 2 (by omega)
  · rw [hk]
    exact Nat.pow_lt_pow_right (by decide) h31

/-- What a call made for inode `ia` may change: books, data, the bitmap and the record. -/
structure RecordFrame (ia : ℤ) (fs fs' : Myfs) : Prop where
  fixed : fixed fs' = fixed fs
  inodeMap : fs'.inodeMap = fs.inodeMap
  outside : ∀ b i, ¬InBitmap fs b → ¬InRecord fs ia b i → fs'.metaArea b i = fs.metaArea b i

theorem RecordFrame.refl (ia : ℤ) (fs : Myfs) : RecordFrame ia fs fs :=
  ⟨rfl, rfl, fun _ _ _ _ => rfl⟩

/-- The areas are where they were. -/
theorem areas_fixed (h : MetadataFrames.fixed fs' = MetadataFrames.fixed fs) :
    InBitmap fs' = InBitmap fs ∧ InInodeMap fs' = InInodeMap fs ∧
    InInodeTable fs' = InInodeTable fs ∧ recordAddr fs' = recordAddr fs ∧
    recordOffset fs' = recordOffset fs := by
  have hbitmap := congrArg InBitmap h
  have hmap := congrArg InInodeMap h
  have htable := congrArg InInodeTable h
  have haddr := congrArg recordAddr h
  have hoff := congrArg recordOffset h
  exact ⟨hbitmap, hmap, htable, haddr, hoff⟩

theorem RecordFrame.trans (h : RecordFrame ia fs fs₁) (k : RecordFrame ia fs₁ fs₂) :
    RecordFrame ia fs fs₂ := by
  obtain ⟨hbitmap, _, _, haddr, hoff⟩ := areas_fixed h.fixed
  refine ⟨k.fixed.trans h.fixed, k.inodeMap.trans h.inodeMap, fun b i hb hi => ?_⟩
  rw [k.outside b i (by rw [hbitmap]; exact hb) (by unfold InRecord; rw [haddr, hoff]; exact hi)]
  exact h.outside b i hb hi

theorem RecordFrame.layout (h : RecordFrame ia fs fs') (hl : Layout fs) : Layout fs' :=
  hl.of_fixed h.fixed

/-- Data blocks and counts are no metadata. -/
theorem RecordFrame.store (ia : ℤ) (fs : Myfs) (a : ℤ) (block : Block) :
    RecordFrame ia fs (storeBlock fs a block) := ⟨rfl, rfl, fun _ _ _ _ => rfl⟩

theorem RecordFrame.superBlock (ia : ℤ) (fs : Myfs) : RecordFrame ia fs (writeSuperBlock fs) :=
  ⟨rfl, rfl, fun _ _ _ _ => rfl⟩

theorem RecordFrame.data (ia : ℤ) {fs fs' : Myfs} {area : ℤ → Block}
    (h : fs' = { fs with dataArea := area }) : RecordFrame ia fs fs' := by
  rw [h]
  exact ⟨rfl, rfl, fun _ _ _ _ => rfl⟩

end Areas

section Books
variable {fs fs' : Myfs} {ia : ℤ}

/-- A block write leaves what is outside its range, whether it succeeds or not. -/
theorem writeBlocks_outside (fs : Myfs) (n : ℤ) (mem : ℕ → UInt8) (k : ℤ) {b : ℤ}
    (hb : ¬(n ≤ b ∧ b < n + k)) : (writeBlocks fs n mem k).2.metaArea b = fs.metaArea b := by
  unfold writeBlocks
  split
  · rfl
  split
  · rfl
  split
  · rfl
  split
  · rfl
  · exact if_neg hb

/-- The bitmap block of block `p` is in the bitmap. -/
theorem Layout.bitmapBlock (hl : Layout fs) {p : ℕ} (hp : p < fs.bv.numbits) :
    ((p / (8 * fs.dsb.blockSize) : ℕ) : ℤ) < fs.numBitmapBlocks := by
  have hroom := hl.bitmapRoom
  have hpos := hl.pos
  have hlt : (p : ℤ) < (8 * fs.dsb.blockSize : ℕ) * fs.numBitmapBlocks := by
    push_cast
    rw [mul_assoc]
    omega
  rw [Int.natCast_ediv]
  exact Int.ediv_lt_of_lt_mul (by positivity) (by rw [mul_comm]; exact hlt)

/-- A block that is granted to a stream is marked in its bitmap block only. -/
theorem growBlock_frame (ia : ℤ) (hl : Layout fs) (h : (growBlock fs).1 = 0) :
    RecordFrame ia fs (growBlock fs).2.2 ∧ Int64 (growBlock fs).2.1 := by
  obtain ⟨start, hstart, halloc⟩ := growBlock_ok h
  have hpos := hl.pos
  have hint := hl.int32
  have hreal : (realAllocateBlocks fs 1 0 .exactAllocation).1 = 0 ∧
      (growBlock fs).2.2 = (realAllocateBlocks fs 1 0 .exactAllocation).2.2.2 := by
    unfold growBlock myfsAllocateBlocks at h ⊢
    generalize realAllocateBlocks fs 1 0 .exactAllocation = r at h ⊢
    obtain ⟨err, n, addr, fs'⟩ := r
    dsimp only at h ⊢
    by_cases herr : err = 0
    · refine ⟨herr, ?_⟩
      rw [if_neg (not_not_intro herr)]
      split <;> rfl
    · rw [if_pos herr] at h
      exact absurd h herr
  obtain ⟨bv, _, htaken, _, hback⟩ := BitmapWriteBack.allocate_ok hreal.1
  have hone : (BitmapWriteBack.found fs 1 .exactAllocation).2 = 1 := by
    unfold BitmapWriteBack.found
    rw [show toInt32 1 = 1 from rfl, show (1 : ℤ).toNat = 1 from rfl, allocateLoop_exact_one]
    rfl
  generalize BitmapWriteBack.found fs 1 .exactAllocation = r at hone htaken hback
  obtain ⟨first, n⟩ := r
  obtain rfl : n = 1 := hone
  have harea := (hback fs.metaArea).area
  have hin := htaken.inside
  have hin' := halloc.taken.inside
  dsimp only at harea hin
  refine ⟨⟨?_, ?_, fun b i hb _ => ?_⟩, ?_⟩
  · obtain ⟨area, hframe⟩ := halloc.frame
    have hnum := halloc.taken.numbits
    rw [hframe]
    simp only [fixed, hnum]
  · obtain ⟨area, hframe⟩ := halloc.frame
    rw [hframe]
  · have hblock := hl.bitmapBlock (show first < fs.bv.numbits by omega)
    rw [hreal.2, show (realAllocateBlocks fs 1 0 .exactAllocation).2.2.2.metaArea = _ from harea]
    unfold BitmapWriteBack.written BitmapWriteBack.firstBlock BitmapWriteBack.lastBlock
    rw [Nat.div_eq_of_lt (show 1 < 8 * fs.dsb.blockSize by omega), Nat.add_zero]
    generalize first / (8 * fs.dsb.blockSize) = q at hblock
    exact congrFun (if_neg fun hw => hb ⟨by omega, by omega⟩) i
  · rw [hstart]
    exact ⟨by omega, by omega⟩

theorem freeWriteBack_outside (bits : ℕ → BitVec 32) (off : ℕ) (n : ℤ) (fs : Myfs) {b : ℤ}
    (hb : b ≠ n) : (freeWriteBack bits off 1 n fs).2.metaArea b = fs.metaArea b := by
  have hwrite := writeBlocks_outside (b := b) fs n (fun k => chunkByte bits (off + k)) 1
    (fun hw => hb (by omega))
  rw [freeWriteBack]
  dsimp only
  split <;> exact hwrite

/-- So is a block that is given back. -/
theorem freeBlock_frame (ia : ℤ) (hl : Layout fs) {p : ℕ} (hp : p < fs.bv.numbits) :
    RecordFrame ia fs (myfsFreeBlocks fs p 1).2 := by
  have hpos := hl.pos
  have hblock := hl.bitmapBlock hp
  have hnum := (clearedVector_spec fs.bv p 1).1
  have heq := BitmapWriteBack.myfsFreeBlocks_eq fs p 1
  rw [Nat.div_eq_of_lt (show 1 < 8 * fs.dsb.blockSize by omega), Nat.cast_one, Nat.zero_add] at heq
  rw [heq]
  generalize clearedVector fs.bv p 1 = bv at hnum ⊢
  generalize p / (8 * fs.dsb.blockSize) = q at hblock ⊢
  obtain ⟨area, harea⟩ := freeWriteBack_frame bv.bits (q * fs.dsb.blockSize) 1 (q + 1)
    { fs with bv := bv }
  have hout : ∀ b, ¬InBitmap fs b → area b = fs.metaArea b := by
    intro b hb
    have hkept := freeWriteBack_outside (b := b) bv.bits (q * fs.dsb.blockSize) (q + 1)
      { fs with bv := bv } (fun hw => hb ⟨by omega, by omega⟩)
    rw [harea] at hkept
    exact hkept
  generalize freeWriteBack bv.bits (q * fs.dsb.blockSize) 1 (q + 1) { fs with bv := bv } = r
    at harea ⊢
  obtain ⟨written, fs'⟩ := r
  dsimp only at harea
  have hframe : RecordFrame ia fs fs' := by
    rw [harea]
    refine ⟨?_, rfl, fun b i hb _ => congrFun (hout b hb) i⟩
    simp only [fixed, hnum]
  cases written with
  | true => exact hframe.trans ⟨rfl, rfl, fun _ _ _ _ => rfl⟩
  | false => exact hframe

end Books

section Growth
variable {fs fs' : Myfs} {mi mi' : Inode} {ia : ℤ}

/-- The pointers of a stream are 64-bit values, and there is no double indirect block. -/
structure Slots (d : DataStream) : Prop where
  direct : ∀ i < numDirectBlocks, Int64 (d.direct i)
  indirect : Int64 d.indirect
  doubleIndirect : d.doubleIndirect = 0

/-- One part of a growth: it is marked in the bitmap only and leaves the inode but for its
stream. -/
structure Grown (ia : ℤ) (s t : Myfs × Inode) : Prop where
  frame : RecordFrame ia s.1 t.1
  only : t.2 = { s.2 with data := t.2.data }
  slots : Slots s.2.data → Slots t.2.data

theorem Grown.refl (ia : ℤ) (s : Myfs × Inode) : Grown ia s s := ⟨.refl ia s.1, rfl, id⟩

theorem Grown.trans {s t u : Myfs × Inode} (h : Grown ia s t) (k : Grown ia t u) :
    Grown ia s u := by
  refine ⟨h.frame.trans k.frame, ?_, fun hs => k.slots (h.slots hs)⟩
  rw [k.only, h.only]

theorem Slots.setDirect {d : DataStream} (h : Slots d) (i : ℕ) {addr : ℤ} (ha : Int64 addr)
    (size : ℤ) : Slots { d with direct := Function.update d.direct i addr, size := size } := by
  refine ⟨fun j hj => ?_, h.indirect, h.doubleIndirect⟩
  rcases eq_or_ne j i with rfl | hne
  · dsimp only
    rw [Function.update_self]
    exact ha
  · dsimp only
    rw [Function.update_of_ne hne]
    exact h.direct j hj

theorem growDirect_grown (ia needed : ℤ) (left : ℕ) (fs : Myfs) (mi : Inode) (i : ℤ)
    (hl : Layout fs) (h : (growDirect needed left fs mi i).1 = 0) :
    Grown ia (fs, mi) ((growDirect needed left fs mi i).2.2.2,
      (growDirect needed left fs mi i).2.2.1) := by
  induction left generalizing fs mi i with
  | zero => exact .refl ia _
  | succ left ih =>
    rw [growDirect] at h ⊢
    split at h
    · rename_i hdone
      rw [if_pos hdone]
      exact .refl ia _
    rename_i hgo
    rw [if_neg hgo]
    dsimp only at h ⊢
    by_cases herr : (growBlock fs).1 = 0
    swap
    · rw [if_pos herr] at h
      exact absurd h herr
    rw [if_neg (not_not_intro herr)] at h ⊢
    obtain ⟨hframe, haddr⟩ := growBlock_frame ia hl herr
    refine Grown.trans ⟨hframe, ?_, ?_⟩ (ih _ _ _ (hframe.layout hl) h)
    · rfl
    · exact fun hs => hs.setDirect _ haddr _

theorem openIndirect_grown (ia : ℤ) (fs : Myfs) (mi : Inode) (hl : Layout fs)
    (h : (openIndirect fs mi).1 = 0) :
    Grown ia (fs, mi) ((openIndirect fs mi).2.2, (openIndirect fs mi).2.1) := by
  unfold openIndirect at h ⊢
  split at h
  swap
  · rename_i hsome
    rw [if_neg hsome]
    exact .refl ia _
  rename_i hnone
  rw [if_pos hnone]
  dsimp only at h ⊢
  by_cases herr : (growBlock fs).1 = 0
  swap
  · rw [if_pos herr] at h
    exact absurd h herr
  rw [if_neg (not_not_intro herr)]
  obtain ⟨hframe, haddr⟩ := growBlock_frame ia hl herr
  exact ⟨hframe.trans (.store ia _ _ _), rfl, fun hs => ⟨hs.direct, haddr, hs.doubleIndirect⟩⟩

theorem growIndirect_grown (ia needed : ℤ) (left : ℕ) (fs : Myfs) (mi : Inode) (i : ℤ)
    (hl : Layout fs) (h : (growIndirect needed left fs mi i).1 = 0) :
    Grown ia (fs, mi) ((growIndirect needed left fs mi i).2.2,
      (growIndirect needed left fs mi i).2.1) := by
  induction left generalizing fs mi i with
  | zero => exact .refl ia _
  | succ left ih =>
    rw [growIndirect] at h ⊢
    split at h
    · rename_i hdone
      rw [if_pos hdone]
      exact .refl ia _
    rename_i hgo
    rw [if_neg hgo]
    dsimp only at h ⊢
    by_cases herr : (growBlock fs).1 = 0
    swap
    · rw [if_pos herr] at h
      exact absurd h herr
    rw [if_neg (not_not_intro herr)] at h ⊢
    have hstored := fun block =>
      (growBlock_frame ia hl herr).1.trans (.store ia _ mi.data.indirect block)
    refine Grown.trans ⟨hstored _, rfl, ?_⟩ (ih _ _ _ ((hstored _).layout hl) h)
    exact fun hs => ⟨hs.direct, hs.indirect, hs.doubleIndirect⟩

/-- An inode that the table can hold, with a stream that the code can have made. -/
structure Good (fs : Myfs) (mi : Inode) : Prop where
  storable : InodeRecords.Storable mi
  bounded : mi.data.size ≤ maxIndirectRange fs.dsb.blockSize
  doubleIndirect : mi.data.doubleIndirect = 0

theorem Good.slots (h : Good fs mi) : Slots mi.data :=
  ⟨h.storable.fields.direct, h.storable.fields.indirect, h.doubleIndirect⟩

theorem blockSize_fixed (h : fixed fs' = fixed fs) : fs'.dsb.blockSize = fs.dsb.blockSize := by
  have hsize := congrArg (fun fs => fs.dsb.blockSize) h
  exact hsize

theorem maxIndirectRange_int64 (hl : Layout fs) {size : ℤ} (h₀ : 0 ≤ size)
    (h : size ≤ maxIndirectRange fs.dsb.blockSize) : Int64 size := by
  obtain ⟨k, hk, _, h31⟩ := hl.blockSize
  have hb : fs.dsb.blockSize ≤ 2 ^ 30 := by
    rw [hk]
    exact Nat.pow_le_pow_right (by decide) (by omega)
  rw [maxIndirectRange_eq] at h
  have hmax : ((numDirectBlocks + maxIndex fs : ℕ) : ℤ) ≤ 2 ^ 28 := by
    unfold maxIndex numDirectBlocks
    omega
  have hmul : ((numDirectBlocks + maxIndex fs : ℕ) : ℤ) * fs.dsb.blockSize ≤ 2 ^ 28 * 2 ^ 30 := by
    gcongr
    exact_mod_cast hb
  exact ⟨by omega, by omega⟩

/-- A good inode with another stream of good pointers and size. -/
theorem Good.withData (h : Good fs mi) (hl : Layout fs') (hfix : fixed fs' = fixed fs)
    (only : mi' = { mi with data := mi'.data }) (hs : Slots mi'.data) (h₀ : 0 ≤ mi'.data.size)
    (hsize : mi'.data.size ≤ maxIndirectRange fs.dsb.blockSize) : Good fs' mi' := by
  have hc := h.storable.fields
  rw [← blockSize_fixed hfix] at hsize
  refine ⟨⟨?_, ?_, h₀⟩, hsize, hs.doubleIndirect⟩
  · have hdouble : Int64 mi'.data.doubleIndirect := by
      rw [hs.doubleIndirect]
      exact ⟨by decide, by decide⟩
    rw [only]
    exact ⟨hc.uid, hc.gid, hc.mode, hc.inodeNum, hc.flags, hc.createTime, hc.lastModifiedTime,
      hs.direct, hs.indirect, hdouble, maxIndirectRange_int64 hl h₀ hsize⟩
  · rw [only]
    exact h.storable.addressable

theorem growIndirectRange_good (ia newSize needed i : ℤ) (hl : Layout fs) {s : ℕ}
    (hsize : mi.data.size = s * fs.dsb.blockSize) (hs : numDirectBlocks ≤ s)
    (h : (growIndirectRange fs mi newSize needed i).1 = 0) :
    Grown ia (fs, mi) ((growIndirectRange fs mi newSize needed i).2.2,
      (growIndirectRange fs mi newSize needed i).2.1) ∧
    (growIndirectRange fs mi newSize needed i).2.1.data.size = newSize ∧
    newSize ≤ maxIndirectRange fs.dsb.blockSize := by
  have hpos := hl.pos
  have hend : ∀ fs mi, (growEnd fs mi).1 ≠ 0 := by
    intro fs mi
    unfold growEnd
    split
    · exact (by decide : E2BIG ≠ 0)
    · exact (by decide : (-1 : ℤ) ≠ 0)
  unfold growIndirectRange at h ⊢
  dsimp only at h ⊢
  split at h
  swap
  · exact absurd h (hend _ _)
  rename_i hrange
  rw [if_pos hrange]
  have hopen := openIndirect_grown ia fs mi hl
  have hafter := (openIndirect_supply fs mi).2
  generalize openIndirect fs mi = r at h hopen hafter ⊢
  obtain ⟨err, mi₁, fs₁⟩ := r
  dsimp only at h hopen hafter ⊢
  by_cases herr : err = 0
  swap
  · rw [if_pos herr] at h
    exact absurd h herr
  rw [if_neg (not_not_intro herr)] at h ⊢
  obtain ⟨hsize₁, hbs₁, -⟩ := hafter herr
  have hg₁ := hopen herr
  have hloop := growIndirect_grown ia needed
    (maxIndex fs₁ - ((mi₁.data.size - directSize fs.dsb.blockSize) / fs.dsb.blockSize).toNat)
    fs₁ mi₁ i (hg₁.frame.layout hl)
  have hgrown := (growIndirect_supply needed
    (maxIndex fs₁ - ((mi₁.data.size - directSize fs.dsb.blockSize) / fs.dsb.blockSize).toNat)
    fs₁ mi₁ i).2
  generalize growIndirect needed _ fs₁ mi₁ i = r at h hloop hgrown ⊢
  obtain ⟨err₂, mi₂, fs₂⟩ := r
  dsimp only at h hloop hgrown ⊢
  by_cases herr₂ : err₂ = 0
  swap
  · rw [if_pos herr₂] at h
    exact absurd h herr₂
  rw [if_neg (not_not_intro herr₂)] at h ⊢
  split at h
  swap
  · exact absurd h (hend _ _)
  rename_i hdone
  rw [if_pos hdone]
  refine ⟨hg₁.trans ((hloop herr₂).trans ⟨.refl ia _, rfl, ?_⟩), setSize_size _ _, ?_⟩
  · exact fun hs => ⟨hs.direct, hs.indirect, hs.doubleIndirect⟩
  refine hdone.trans ?_
  have hindex : ((mi₁.data.size - directSize fs.dsb.blockSize) / fs.dsb.blockSize).toNat =
      s - numDirectBlocks := by
    rw [hsize₁, hsize]
    unfold directSize
    rw [← sub_mul, Int.mul_ediv_cancel _ (by omega)]
    omega
  have hmax : maxIndex fs₁ = maxIndex fs := by simp only [maxIndex, hbs₁]
  have hs' : s < numDirectBlocks + maxIndex fs := by
    have hlt := hrange.2
    rw [hsize, maxIndirectRange_eq] at hlt
    exact_mod_cast lt_of_mul_lt_mul_right hlt (by positivity)
  rw [hgrown herr₂, hindex, hsize₁, hsize, hmax, hbs₁, maxIndirectRange_eq, ← add_mul]
  gcongr
  omega

/-- A growth that returns 0 leaves a good inode of the wanted size. -/
theorem growDstream_good {newSize : ℤ} (ia : ℤ) (hl : Layout fs) (hg : Good fs mi)
    (hlt : mi.data.size < newSize) (h : growDstream fs mi newSize = .ok (0, mi', fs')) :
    RecordFrame ia fs fs' ∧ Good fs' mi' ∧ mi' = { mi with data := mi'.data } := by
  obtain ⟨k, hb, -, -⟩ := hl.blockSize
  have hpos := hl.pos
  have hbz : (0 : ℤ) < fs.dsb.blockSize := by exact_mod_cast hpos
  have h₀ := hg.storable.size
  obtain ⟨hm, hm₁, hm₂⟩ := blockCount_spec hb h₀
  obtain ⟨hn, hn₁, hn₂⟩ := blockCount_spec hb (show 0 ≤ newSize by omega)
  have hbound := hg.bounded
  rw [maxIndirectRange_eq] at hbound
  generalize blockCount fs.dsb.blockSize mi.data.size = m at hm hm₁ hm₂
  generalize blockCount fs.dsb.blockSize newSize = n at hn hn₁ hn₂
  have hmle : m ≤ numDirectBlocks + maxIndex fs := by
    have : (m * fs.dsb.blockSize : ℤ) <
        ((numDirectBlocks + maxIndex fs : ℕ) + 1 : ℤ) * fs.dsb.blockSize := by linarith
    have := lt_of_mul_lt_mul_right this hbz.le
    omega
  -- What is left once the growth is known to be good and the size it reached to be in range.
  have hfinish : Grown ia (fs, setSize mi (m * fs.dsb.blockSize)) (fs', mi') →
      mi'.data.size = newSize → newSize ≤ maxIndirectRange fs.dsb.blockSize →
      RecordFrame ia fs fs' ∧ Good fs' mi' ∧ mi' = { mi with data := mi'.data } := by
    intro hgrown hsize hle
    have hslots := hgrown.slots ⟨hg.slots.direct, hg.slots.indirect, hg.slots.doubleIndirect⟩
    have honly : mi' = { mi with data := mi'.data } := hgrown.only
    exact ⟨hgrown.frame, hg.withData (hgrown.frame.layout hl) hgrown.frame.fixed honly hslots
      (by omega) (by omega), honly⟩
  unfold growDstream at h
  dsimp only at h
  rw [hm, hn] at h
  split at h
  · cases h
  split at h
  · rename_i hsame
    cases h
    refine hfinish ⟨.refl ia _, rfl, ?_⟩ (setSize_size _ _) ?_
    · exact fun hs => ⟨hs.direct, hs.indirect, hs.doubleIndirect⟩
    · rw [maxIndirectRange_eq]
      refine hn₁.trans ?_
      rw [← hsame]
      gcongr
  rw [show ((m * fs.dsb.blockSize : ℤ) / fs.dsb.blockSize).toNat = m by
    rw [Int.mul_ediv_cancel _ hbz.ne', Int.toNat_natCast]] at h
  split at h
  swap
  · rename_i hdir
    have hm6 : numDirectBlocks ≤ m := by
      rw [directSize] at hdir
      exact_mod_cast le_of_mul_le_mul_right (not_lt.mp hdir) hbz
    have hcall := Except.ok.inj h
    obtain ⟨hgrown, hsize, hle⟩ := growIndirectRange_good ia newSize _ 0 hl
      (setSize_size mi (m * fs.dsb.blockSize)) hm6 (by rw [hcall])
    rw [hcall] at hgrown hsize
    exact hfinish hgrown hsize hle
  rename_i hdir
  have hm6 : m < numDirectBlocks := by
    rw [directSize] at hdir
    exact_mod_cast lt_of_mul_lt_mul_right hdir hbz.le
  have hmn : m ≤ n := by
    have : (m * fs.dsb.blockSize : ℤ) < (n + 1) * fs.dsb.blockSize := by linarith
    have := lt_of_mul_lt_mul_right this hbz.le
    omega
  rw [show ((n * fs.dsb.blockSize : ℤ) - m * fs.dsb.blockSize) / fs.dsb.blockSize = n - m by
    rw [← sub_mul, Int.mul_ediv_cancel _ hbz.ne']] at h
  split at h
  · cases h
  have hdirect := growDirect_grown ia (n - m) (numDirectBlocks - m) fs
    (setSize mi (m * fs.dsb.blockSize)) 0 hl
  have hafter := (growDirect_supply (n - m) (numDirectBlocks - m) fs
    (setSize mi (m * fs.dsb.blockSize)) 0 (by omega)).2
  generalize growDirect (n - m : ℤ) (numDirectBlocks - m) fs
    (setSize mi (m * fs.dsb.blockSize)) 0 = r at h hdirect hafter
  obtain ⟨err, i, mi₁, fs₁⟩ := r
  dsimp only at h hdirect hafter
  by_cases herr : err = 0
  swap
  · rw [if_pos herr] at h
    cases h
    exact absurd rfl herr
  rw [if_neg (not_not_intro herr)] at h
  have hg₁ := hdirect herr
  obtain ⟨-, hsize₁, -, -⟩ := hafter herr
  rw [setSize_size, ← add_mul] at hsize₁
  split at h
  · rename_i hdone
    cases h
    refine hfinish (hg₁.trans ⟨.refl ia _, rfl, ?_⟩) (setSize_size _ _) ?_
    · exact fun hs => ⟨hs.direct, hs.indirect, hs.doubleIndirect⟩
    · rw [maxIndirectRange_eq]
      refine hdone.trans ?_
      rw [hsize₁]
      gcongr
      omega
  · rename_i hshort
    -- The direct slots are used up, so the stream is at the start of the indirect range.
    have hsix : mi₁.data.size = numDirectBlocks * fs₁.dsb.blockSize := by
      rw [blockSize_fixed hg₁.frame.fixed, hsize₁]
      congr 1
      by_contra hne
      have hend : (m : ℤ) + (min (numDirectBlocks - m) ((n : ℤ) - m - 0).toNat : ℕ) = n := by omega
      rw [hend] at hsize₁
      omega
    have hcall := Except.ok.inj h
    obtain ⟨hgrown, hsize, hle⟩ := growIndirectRange_good ia newSize _ i (hg₁.frame.layout hl)
      hsix le_rfl (by rw [hcall])
    rw [hcall] at hgrown hsize
    rw [blockSize_fixed hg₁.frame.fixed] at hle
    exact hfinish (hg₁.trans hgrown) hsize hle

end Growth

section Shrinking
variable {fs fs' : Myfs} {mi mi' : Inode} {ia : ℤ}

/-- A block of the disk that holds no metadata. -/
def DataBlock (fs : Myfs) (a : ℤ) : Prop :=
  0 < a ∧ a < fs.dsb.numBlocks ∧ ¬InBitmap fs a ∧ ¬InInodeMap fs a ∧ ¬InInodeTable fs a

/-- The blocks of a stream are data blocks, and its indirect block is not one of its own data
blocks. -/
structure MapsData (fs : Myfs) (mi : Inode) : Prop where
  blocks : ∀ a, Pointer fs mi a → a ≠ 0 → DataBlock fs a
  indirect : mi.data.indirect ≠ 0 → ¬DataAddr fs mi mi.data.indirect

theorem int64_zero : Int64 0 := ⟨by decide, by decide⟩

theorem numbits_fixed (h : fixed fs' = fixed fs) : fs'.bv.numbits = fs.bv.numbits := by
  have hnum := congrArg (fun fs => fs.bv.numbits) h
  exact hnum

theorem freeBlock_frame_int (ia : ℤ) (hl : Layout fs) {a : ℤ} (h₀ : 0 < a)
    (h : a < fs.bv.numbits) : RecordFrame ia fs (myfsFreeBlocks fs a 1).2 := by
  lift a to ℕ using h₀.le
  exact freeBlock_frame ia hl (by omega)

theorem freeEntries_frame (ia : ℤ) {block : Block} {maxIdx : ℕ} (left : ℕ) (hl : Layout fs)
    (hleft : left ≤ maxIdx)
    (hrange : ∀ j < maxIdx, blockEntry block j ≠ 0 →
      0 < blockEntry block j ∧ blockEntry block j < fs.bv.numbits) :
    RecordFrame ia fs (freeEntries block maxIdx left fs) := by
  induction left generalizing fs with
  | zero => exact .refl ia fs
  | succ left ih =>
    rw [freeEntries]
    split
    · exact .refl ia fs
    rename_i hne
    obtain ⟨h₀, h₁⟩ := hrange (maxIdx - (left + 1)) (by omega) hne
    have hfree := freeBlock_frame_int ia hl h₀ h₁
    refine hfree.trans (ih (hfree.layout hl) (by omega) fun j hj hne => ?_)
    rw [numbits_fixed hfree.fixed]
    exact hrange j hj hne

/-- One part of a shrink; it takes pointers away. -/
theorem freeDirect_grown (ia : ℤ) (left : ℕ) (hl : Layout fs)
    (hrange : ∀ i < numDirectBlocks, mi.data.direct i ≠ 0 →
      0 < mi.data.direct i ∧ mi.data.direct i < fs.bv.numbits) (hleft : left ≤ numDirectBlocks) :
    Grown ia (fs, mi) ((freeDirect left fs mi).2, (freeDirect left fs mi).1) := by
  induction left generalizing fs mi with
  | zero => exact .refl ia _
  | succ left ih =>
    rw [freeDirect]
    split
    · exact .refl ia _
    rename_i hne
    obtain ⟨h₀, h₁⟩ := hrange (numDirectBlocks - (left + 1)) (by omega) hne
    have hfree := freeBlock_frame_int ia hl h₀ h₁
    refine Grown.trans ⟨hfree, rfl, ?_⟩ (ih (hfree.layout hl) ?_ (by omega))
    · exact fun hs => hs.setDirect _ int64_zero _
    · intro i hi hne
      rw [numbits_fixed hfree.fixed]
      rcases eq_or_ne i (numDirectBlocks - (left + 1)) with rfl | hother
      · rw [setDirect_direct, Function.update_self] at hne
        exact absurd rfl hne
      · rw [setDirect_direct, Function.update_of_ne hother] at hne ⊢
        exact hrange i hi hne

theorem shrinkIndirect_grown (ia newSizeRounded : ℤ) (hl : Layout fs) (hp : MapsData fs mi)
    (hsome : mi.data.indirect ≠ 0) :
    Grown ia (fs, mi) ((shrinkIndirect fs mi newSizeRounded).2,
      (shrinkIndirect fs mi newSizeRounded).1) ∧
    (shrinkIndirect fs mi newSizeRounded).1.data.direct = mi.data.direct := by
  have hblocks := hl.blocks
  have hentry : ∀ j < maxIndex fs, blockEntry (fs.dataArea mi.data.indirect) j ≠ 0 →
      0 < blockEntry (fs.dataArea mi.data.indirect) j ∧
        blockEntry (fs.dataArea mi.data.indirect) j < fs.bv.numbits := by
    intro j hj hne
    obtain ⟨h₀, h₁, -⟩ := hp.blocks _ (.inr (.inr ⟨hsome, j, hj, rfl⟩)) hne
    exact ⟨h₀, by omega⟩
  obtain ⟨h₀, h₁, -⟩ := hp.blocks _ (.inr (.inl rfl)) hsome
  unfold shrinkIndirect
  dsimp only
  generalize (if directSize fs.dsb.blockSize < newSizeRounded then
    ((newSizeRounded - directSize fs.dsb.blockSize) / fs.dsb.blockSize).toNat else 0) = i
  have hframe := freeEntries_frame ia (maxIndex fs - i) hl (Nat.sub_le _ _) hentry
  split
  · have hfree := freeBlock_frame_int ia (hframe.layout hl) h₀
      (by rw [numbits_fixed hframe.fixed]; omega)
    exact ⟨⟨hframe.trans hfree, rfl, fun hs => ⟨hs.direct, int64_zero, hs.doubleIndirect⟩⟩, rfl⟩
  · exact ⟨⟨hframe, rfl, id⟩, rfl⟩

/-- A shrink that returns 0 leaves a good inode of the wanted size. -/
theorem shrinkDstream_good {n : ℤ} (ia : ℤ) (hl : Layout fs) (hg : Good fs mi)
    (hp : MapsData fs mi) (hle : n ≤ mi.data.size) (h : shrinkDstream fs mi n = (0, mi', fs')) :
    RecordFrame ia fs fs' ∧ Good fs' mi' ∧ mi' = { mi with data := mi'.data } := by
  have hbound := hg.bounded
  have hfinish : 0 ≤ n → Grown ia (fs, mi) (fs', mi') → mi'.data.size = n →
      RecordFrame ia fs fs' ∧ Good fs' mi' ∧ mi' = { mi with data := mi'.data } := by
    intro h₀ hgrown hsize
    exact ⟨hgrown.frame, hg.withData (hgrown.frame.layout hl) hgrown.frame.fixed hgrown.only
      (hgrown.slots hg.slots) (by omega) (by omega), hgrown.only⟩
  have hresize : ∀ (fs : Myfs) (mi : Inode), Grown ia (fs, mi) (fs, setSize mi n) := fun fs mi =>
    ⟨.refl ia _, rfl, fun hs => ⟨hs.direct, hs.indirect, hs.doubleIndirect⟩⟩
  unfold shrinkDstream at h
  dsimp only at h
  split at h
  · cases h
  rename_i hguard
  split at h
  · cases h
    exact hfinish (by omega) (hresize fs mi) (setSize_size _ _)
  have hnone : ¬(roundUp (n - 1) fs.dsb.blockSize < maxDoubleIndirectRange fs.dsb.blockSize ∧
      mi.data.doubleIndirect ≠ 0) := fun hd => hd.2 hg.doubleIndirect
  rw [if_neg hnone] at h
  dsimp only at h
  generalize roundUp (n - 1) fs.dsb.blockSize = rounded at h
  obtain ⟨mi₁, fs₁, heq, hg₁, hdirect⟩ : ∃ mi₁ fs₁,
      (if rounded < maxIndirectRange fs.dsb.blockSize ∧ mi.data.indirect ≠ 0 then
        shrinkIndirect fs mi rounded else (mi, fs)) = (mi₁, fs₁) ∧
      Grown ia (fs, mi) (fs₁, mi₁) ∧ mi₁.data.direct = mi.data.direct := by
    split
    · rename_i hc
      obtain ⟨hgrown, hdirect⟩ := shrinkIndirect_grown ia rounded hl hp hc.2
      exact ⟨_, _, rfl, hgrown, hdirect⟩
    · exact ⟨mi, fs, rfl, .refl ia _, rfl⟩
  rw [heq] at h
  dsimp only at h
  have hrange : ∀ i < numDirectBlocks, mi₁.data.direct i ≠ 0 →
      0 < mi₁.data.direct i ∧ mi₁.data.direct i < fs₁.bv.numbits := by
    intro i hi hne
    rw [hdirect] at hne ⊢
    obtain ⟨h₀, h₁, -⟩ := hp.blocks _ (.inl ⟨i, hi, rfl⟩) hne
    rw [numbits_fixed hg₁.frame.fixed, ← hl.blocks]
    exact ⟨h₀, h₁⟩
  obtain ⟨mi₂, fs₂, heq₂, hg₂⟩ : ∃ mi₂ fs₂,
      (if rounded < directSize fs.dsb.blockSize then
        freeDirect (numDirectBlocks - (rounded / fs.dsb.blockSize).toNat) fs₁ mi₁
        else (mi₁, fs₁)) = (mi₂, fs₂) ∧ Grown ia (fs₁, mi₁) (fs₂, mi₂) := by
    split
    · exact ⟨_, _, rfl, freeDirect_grown ia _ (hg₁.frame.layout hl) hrange (Nat.sub_le _ _)⟩
    · exact ⟨mi₁, fs₁, rfl, .refl ia _⟩
  rw [heq₂] at h
  cases h
  exact hfinish (by omega) (hg₁.trans (hg₂.trans (hresize _ _))) (setSize_size _ _)

end Shrinking

section Records
variable {fs fs' : Myfs} {mi mi' : Inode} {ia ib : ℤ}

/-- The inode numbers that the map has a bit for. -/
def Numbered (fs : Myfs) (ia : ℤ) : Prop := 0 ≤ ia ∧ ia < fs.inodeMap.numbits

/-- The record of the inode holds its fields. -/
def Recorded (fs : Myfs) (mi : Inode) : Prop :=
  ∀ k < myfsInode, recordByte fs mi.inodeNum k = inodeByte mi k

/-- The blocks of the on-disk inode map hold the map in memory. -/
def MapOnDisk (fs : Myfs) : Prop :=
  ∀ q : ℕ, (q : ℤ) < fs.dsb.numInodeMapBlocks → ∀ i < fs.dsb.blockSize,
    fs.metaArea (fs.dsb.inodeMapStart + q) i =
      chunkByte fs.inodeMap.bits (q * fs.dsb.blockSize + i)

theorem Numbered.of_fixed (h : Numbered fs ia) (hfix : fixed fs' = fixed fs) : Numbered fs' ia := by
  have hnum := congrArg (fun fs => fs.inodeMap.numbits) hfix
  rw [Numbered, show fs'.inodeMap.numbits = fs.inodeMap.numbits from hnum]
  exact h

theorem Layout.addressable (hl : Layout fs) (h : Numbered fs ia) : Addressable ia := by
  have hlt := hl.inodes
  obtain ⟨h₀, h₁⟩ := h
  exact ⟨h₀, by omega⟩

/-- Every record lies in the inode table. -/
theorem Layout.record_inTable (hl : Layout fs) (h : Numbered fs ia) :
    InInodeTable fs (recordAddr fs ia) := by
  have haddr := hl.addressable h
  obtain ⟨c, hc, hb⟩ := hl.wholeRecords.per_block
  obtain ⟨h₀, h₁⟩ := h
  lift ia to ℕ using h₀
  have hroom := hl.tableRoom ia (by omega)
  have hlt := hl.int32
  have hblocks := hl.blocks
  have hend := hl.tableEnd
  have hstart := hl.tableStart
  have hsize := hl.tableSize
  have hq : ((ia * myfsInode / fs.dsb.blockSize : ℕ) : ℤ) = ia / c := by
    rw [Int.natCast_ediv, hb, Nat.cast_mul, show ((myfsInode : ℕ) : ℤ) = 128 from rfl,
      mul_comm (ia : ℤ), Int.mul_ediv_mul_of_pos _ _ (by decide)]
  rw [hq] at hroom
  have hpos : 0 ≤ (ia : ℤ) / c := Int.ediv_nonneg (by omega) hc.le
  rw [InodeRecords.recordAddr_eq hb haddr, MachineIntegers.toInt64_of_lt (by omega) (by omega)]
  exact ⟨by omega, by omega⟩

theorem RecordFrame.recordByte_other (h : RecordFrame ia fs fs') (hl : Layout fs)
    (ha : Numbered fs ia) (hb : Numbered fs ib) (hne : ib ≠ ia) {k : ℕ} (hk : k < myfsInode) :
    recordByte fs' ib k = recordByte fs ib k := by
  obtain ⟨-, -, -, haddr, hoff⟩ := areas_fixed h.fixed
  have hrecords := records_disjoint hl.wholeRecords (hl.addressable hb) (hl.addressable ha) hne
  unfold recordByte
  rw [haddr, hoff]
  refine h.outside _ _ (fun hin => ?_) fun hin => ?_
  · exact hl.bitmapTable _ hin (hl.record_inTable hb)
  · obtain ⟨hsame, hlow, hhigh⟩ := hin
    rcases hrecords with hother | hother
    · exact hother hsame
    · omega

theorem RecordFrame.mapOnDisk (h : RecordFrame ia fs fs') (hl : Layout fs) (ha : Numbered fs ia)
    (hm : MapOnDisk fs) : MapOnDisk fs' := by
  have hsize := blockSize_fixed h.fixed
  have hstart := congrArg (fun fs => fs.dsb.inodeMapStart) h.fixed
  have hblocks := congrArg (fun fs => fs.dsb.numInodeMapBlocks) h.fixed
  change fs'.dsb.inodeMapStart = fs.dsb.inodeMapStart at hstart
  change fs'.dsb.numInodeMapBlocks = fs.dsb.numInodeMapBlocks at hblocks
  intro q hq i hi
  rw [hblocks] at hq
  rw [hsize] at hi
  have hin : InInodeMap fs (fs.dsb.inodeMapStart + q) := ⟨by omega, by omega⟩
  rw [hsize, hstart, h.inodeMap, h.outside]
  · exact hm q hq i hi
  · exact fun hb => hl.bitmapMap _ hb hin
  · rintro ⟨haddr, -⟩
    rw [haddr] at hin
    exact hl.mapTable _ hin (hl.record_inTable ha)

/-- `update_inode` writes the record and nothing else. -/
theorem updateInode_recorded (hl : Layout fs) (hn : Numbered fs mi.inodeNum)
    (h : updateInode fs mi = .ok fs') : RecordFrame mi.inodeNum fs fs' ∧ Recorded fs' mi := by
  have haddr := hl.addressable hn
  have hlt := hl.int32
  have hblocks := hl.blocks
  have hend := hl.tableEnd
  rw [← updateInode_eq hl.wholeRecords haddr hl.tableStart hl.tableSize (by omega)] at h
  have hrecords := InodeRecords.updateInode_records hl.wholeRecords haddr h
  refine ⟨?_, hrecords.2.1⟩
  unfold InodeRecords.updateInode at h
  dsimp only at h
  split at h
  · cases h
  cases h
  refine ⟨rfl, rfl, fun b i _ hi => ?_⟩
  dsimp only
  rcases eq_or_ne b (recordAddr fs mi.inodeNum) with rfl | hne
  · rw [Function.update_self, if_neg fun hin => hi ⟨rfl, hin.1, hin.2⟩]
  · rw [Function.update_of_ne hne]

end Records

section Calls
variable {fs fs' : Myfs} {mi mi' : Inode} {ia : ℤ}

theorem writeLoop_frame (ia : ℤ) {buf : ℕ → UInt8} {len : ℕ} (fuel : ℕ) {fs : Myfs} {pos : ℤ}
    {done count : ℕ} {err : ℤ} (h : writeLoop mi buf len fuel fs pos done = .ok (err, count, fs')) :
    RecordFrame ia fs fs' := by
  induction fuel generalizing fs pos done with
  | zero =>
    cases h
    exact .refl ia _
  | succ fuel ih =>
    rw [writeLoop] at h
    split at h
    · cases h
      exact .refl ia _
    unfold writeChunk at h
    dsimp only at h
    generalize filePosToDiskAddr fs mi pos = r at h
    cases r with
    | error e => cases h
    | ok addr =>
      dsimp only [Except.bind, bind, pure, Except.pure] at h
      split at h
      · cases h
      rename_i r hr
      split at hr
      · cases hr
        cases h
        exact .refl ia _
      · cases hr
        exact (RecordFrame.store ia fs addr _).trans (ih h)

theorem writeBytes_record (ia : ℤ) {buf : ℕ → UInt8} {len : ℕ} {pos : ℤ} {count : ℕ} {err : ℤ}
    (h : writeBytes fs mi pos buf len = .ok (err, count, fs')) : RecordFrame ia fs fs' := by
  unfold writeBytes at h
  dsimp only at h
  generalize filePosToDiskAddr fs mi pos = r at h
  cases r with
  | error e => cases h
  | ok addr =>
    dsimp only [Except.bind] at h
    split at h
    · cases h
      exact .refl ia _
    split at h
    · exact (RecordFrame.store ia fs addr _).trans (writeLoop_frame ia _ h)
    · exact writeLoop_frame ia _ h

/-- What a call for the inode `mi` leaves when it returns 0. -/
structure Saves (fs fs' : Myfs) (mi mi' : Inode) : Prop where
  frame : RecordFrame mi.inodeNum fs fs'
  good : Good fs' mi'
  inodeNum : mi'.inodeNum = mi.inodeNum
  recorded : Recorded fs mi → Recorded fs' mi'

theorem Good.frame (h : Good fs mi) (hfix : fixed fs' = fixed fs) : Good fs' mi :=
  ⟨h.storable, by rw [blockSize_fixed hfix]; exact h.bounded, h.doubleIndirect⟩

theorem Good.stamp (h : Good fs mi) {t : ℤ} (ht : Int64 t) :
    Good fs { mi with lastModifiedTime := t } := by
  obtain ⟨⟨hc, haddr, hsize⟩, hbound, hdouble⟩ := h
  exact ⟨⟨⟨hc.uid, hc.gid, hc.mode, hc.inodeNum, hc.flags, hc.createTime, ht, hc.direct,
    hc.indirect, hc.doubleIndirect, hc.size⟩, haddr, hsize⟩, hbound, hdouble⟩

/-- The end of the calls: the time is set and the record is written. -/
theorem Saves.of_update {fs₁ fs₂ : Myfs} {mi₁ : Inode} (hl : Layout fs)
    (hn : Numbered fs mi.inodeNum) (hframe : RecordFrame mi.inodeNum fs fs₁) (hg : Good fs₁ mi₁)
    (hnum : mi₁.inodeNum = mi.inodeNum) {t : ℤ} (ht : Int64 t)
    (h : updateInode fs₁ { mi₁ with lastModifiedTime := t } = .ok fs₂)
    (hsame : RecordFrame mi.inodeNum fs₂ fs') (hmeta : fs'.metaArea = fs₂.metaArea) :
    Saves fs fs' mi { mi₁ with lastModifiedTime := t } := by
  have hn₁ : Numbered fs₁ ({ mi₁ with lastModifiedTime := t } : Inode).inodeNum := by
    change Numbered fs₁ mi₁.inodeNum
    rw [hnum]
    exact hn.of_fixed hframe.fixed
  obtain ⟨hupdate, hrecorded⟩ := updateInode_recorded (hframe.layout hl) hn₁ h
  have hupdate' : RecordFrame mi.inodeNum fs₁ fs₂ := by
    rw [← hnum]
    exact hupdate
  refine ⟨hframe.trans (hupdate'.trans hsame), ?_, hnum, fun _ => ?_⟩
  · exact ((hg.stamp ht).frame hupdate.fixed).frame hsame.fixed
  · obtain ⟨-, -, -, haddr, hoff⟩ := areas_fixed hsame.fixed
    intro k hk
    rw [← hrecorded k hk]
    unfold recordByte
    rw [hmeta, haddr, hoff]

theorem now_fixed (h : fixed fs' = fixed fs) : fs'.now = fs.now := by
  have hnow := congrArg (fun fs => fs.now) h
  exact hnow

theorem setFileSize_saves {n : ℤ} (hl : Layout fs) (hn : Numbered fs mi.inodeNum) (hg : Good fs mi)
    (hp : n < mi.data.size → MapsData fs mi) (h : myfsSetFileSize fs mi n = .ok (0, mi', fs')) :
    Saves fs fs' mi mi' := by
  unfold myfsSetFileSize at h
  split at h
  · cases h
    exact ⟨.refl _ _, hg, rfl, id⟩
  rename_i hne
  obtain ⟨err, mi₁, fs₁, hcall, hrest⟩ : ∃ err mi₁ fs₁,
      (if n < mi.data.size then .ok (shrinkDstream fs mi n) else growDstream fs mi n) =
        Except.ok (err, mi₁, fs₁) ∧
      (if err ≠ 0 then .ok (err, mi₁, fs₁)
        else (updateInode fs₁ { mi₁ with lastModifiedTime := fs₁.now }).map fun fs =>
          ((0 : ℤ), { mi₁ with lastModifiedTime := fs₁.now }, writeSuperBlock fs)) =
        Except.ok (0, mi', fs') := by
    generalize (if n < mi.data.size then .ok (shrinkDstream fs mi n)
      else growDstream fs mi n : Except Halt (ℤ × Inode × Myfs)) = r at h
    cases r with
    | error e => cases h
    | ok r => exact ⟨_, _, _, rfl, h⟩
  by_cases herr : err = 0
  swap
  · rw [if_pos herr] at hrest
    cases hrest
    exact absurd rfl herr
  rw [if_neg (not_not_intro herr)] at hrest
  subst herr
  have hstream : RecordFrame mi.inodeNum fs fs₁ ∧ Good fs₁ mi₁ ∧
      mi₁ = { mi with data := mi₁.data } := by
    split at hcall
    · rename_i hlt
      exact shrinkDstream_good mi.inodeNum hl hg (hp hlt) hlt.le (Except.ok.inj hcall)
    · exact growDstream_good mi.inodeNum hl hg (by omega) hcall
  obtain ⟨hframe, hg₁, honly⟩ := hstream
  have hnum : mi₁.inodeNum = mi.inodeNum := by rw [honly]
  cases hupdate : updateInode fs₁ { mi₁ with lastModifiedTime := fs₁.now } with
  | error e =>
    rw [hupdate] at hrest
    cases hrest
  | ok fs₂ =>
    rw [hupdate] at hrest
    cases hrest
    exact .of_update hl hn hframe hg₁ hnum (hframe.layout hl).now hupdate (.superBlock _ _) rfl

theorem growForWrite_saves {n : ℤ} (hl : Layout fs) (hn : Numbered fs mi.inodeNum)
    (hg : Good fs mi) (h : growForWrite fs mi n = .ok (0, mi', fs')) : Saves fs fs' mi mi' := by
  unfold growForWrite at h
  split at h
  swap
  · cases h
    exact ⟨.refl _ _, hg, rfl, id⟩
  rename_i hlt
  cases hcall : growDstream fs mi n with
  | error e =>
    rw [hcall] at h
    cases h
  | ok r =>
    obtain ⟨err, mi₁, fs₁⟩ := r
    rw [hcall] at h
    dsimp only [Except.bind] at h
    by_cases herr : err = 0
    swap
    · rw [if_pos herr] at h
      cases h
      exact absurd rfl herr
    rw [if_neg (not_not_intro herr)] at h
    subst herr
    obtain ⟨hframe, hg₁, honly⟩ := growDstream_good mi.inodeNum hl hg hlt hcall
    have hnum : mi₁.inodeNum = mi.inodeNum := by rw [honly]
    cases hupdate : updateInode fs₁ { mi₁ with lastModifiedTime := fs₁.now } with
    | error e =>
      rw [hupdate] at h
      cases h
    | ok fs₂ =>
      rw [hupdate] at h
      cases h
      exact .of_update hl hn hframe hg₁ hnum (hframe.layout hl).now hupdate (.superBlock _ _) rfl

theorem writeDataStream_saves {pos : ℤ} {buf : ℕ → UInt8} {len count : ℕ} (hl : Layout fs)
    (hn : Numbered fs mi.inodeNum) (hg : Good fs mi)
    (h : myfsWriteDataStream fs mi pos buf len = .ok (0, count, mi', fs')) :
    Saves fs fs' mi mi' := by
  unfold myfsWriteDataStream at h
  split at h
  · cases h
    exact ⟨.refl _ _, hg, rfl, id⟩
  dsimp only at h
  generalize (if pos < 0 then 0 else pos) = pos at h
  cases hgrow : growForWrite fs mi (pos + len) with
  | error e =>
    rw [hgrow] at h
    cases h
  | ok r =>
    obtain ⟨err, mi₁, fs₁⟩ := r
    rw [hgrow] at h
    dsimp only [Except.bind] at h
    by_cases herr : err = 0
    swap
    · rw [if_pos herr] at h
      cases h
      exact absurd rfl herr
    rw [if_neg (not_not_intro herr)] at h
    subst herr
    have hgrown := growForWrite_saves hl hn hg hgrow
    cases hwrite : writeBytes fs₁ mi₁ pos buf len with
    | error e =>
      rw [hwrite] at h
      cases h
    | ok r =>
      obtain ⟨err, done, fs₂⟩ := r
      rw [hwrite] at h
      dsimp only at h
      by_cases herr : err = 0
      swap
      · rw [if_pos herr] at h
        cases h
        exact absurd rfl herr
      rw [if_neg (not_not_intro herr)] at h
      have hbytes := writeBytes_record mi.inodeNum hwrite
      have hframe := hgrown.frame.trans hbytes
      cases hupdate : updateInode fs₂ { mi₁ with lastModifiedTime := fs₂.now } with
      | error e =>
        rw [hupdate] at h
        cases h
      | ok fs₃ =>
        rw [hupdate] at h
        cases h
        exact .of_update hl hn hframe (hgrown.good.frame hbytes.fixed) hgrown.inodeNum
          (hframe.layout hl).now hupdate (.refl _ _) rfl

end Calls

end MetadataFrames
