import Mathlib.Tactic
import FsKit.BlockBitmap
import FsKit.LittleEndian

/-! Inodes (`inode.c`): the inode map, the inode records on disk, and the data stream and
directory fields that the other parts of the file system keep in a loaded inode. -/
namespace InodeTable

open MachineIntegers
open BitVectorSearch BlockBitmap LittleEndian TransitionTrace

/-- A call that never returns: `myfs_die` spins, and a pointer that was never set is used. -/
inductive Halt where
  | myfsDie
  | wildPointer
  deriving DecidableEq, Repr

/-- The call comes back with error code 0. -/
def Succeeds {α : Type} (r : Except Halt (ℤ × α)) : Prop := ∃ a, r = .ok (0, a)

instance {α : Type} (r : Except Halt (ℤ × α)) : Decidable (Succeeds r) :=
  match r with
  | .error _ => isFalse (fun ⟨_, h⟩ => by cases h)
  | .ok (err, a) =>
    if h : err = 0 then isTrue ⟨a, by rw [h]⟩ else isFalse (fun ⟨_, he⟩ => by cases he; exact h rfl)

def numDirectBlocks : ℕ := 6

structure DataStream where
  direct : ℕ → ℤ
  indirect : ℤ
  doubleIndirect : ℤ
  size : ℤ

/-- A loaded inode. `contents` and `counter` are the fields of its `etc` part: the bytes
of a directory, read on demand, and the number of changes made to them. -/
structure Inode where
  uid : ℤ
  gid : ℤ
  mode : ℤ
  inodeNum : ℤ
  flags : ℤ
  createTime : ℤ
  lastModifiedTime : ℤ
  data : DataStream
  contents : Option (ℕ → UInt8)
  counter : ℤ

def myfsInode : ℕ := 128

/-- Byte `k` of the 128 bytes of an inode record; the pointer `etc` is written as zero. -/
def inodeByte (mi : Inode) (k : ℕ) : UInt8 :=
  if k < 4 then leByte 0x496e6f64 k
  else if k < 8 then leByte mi.uid (k - 4)
  else if k < 12 then leByte mi.gid (k - 8)
  else if k < 16 then leByte mi.mode (k - 12)
  else if k < 24 then leByte mi.inodeNum (k - 16)
  else if k < 28 then leByte mi.flags (k - 24)
  else if k < 32 then 0
  else if k < 40 then leByte mi.createTime (k - 32)
  else if k < 48 then leByte mi.lastModifiedTime (k - 40)
  else if k < 56 then 0
  else if k < 104 then leByte (mi.data.direct ((k - 56) / 8)) ((k - 56) % 8)
  else if k < 112 then leByte mi.data.indirect (k - 104)
  else if k < 120 then leByte mi.data.doubleIndirect (k - 112)
  else leByte mi.data.size (k - 120)

def updateInode (fs : Myfs) (mi : Inode) : Except Halt Myfs :=
  let bsize : ℤ := fs.dsb.blockSize
  let addr := fs.dsb.inodesStart + (mi.inodeNum * myfsInode).tdiv bsize
  let offset := ((mi.inodeNum.tmod (bsize.tdiv myfsInode)) * myfsInode).toNat
  if fs.dsb.inodesStart + fs.dsb.numInodeBlocks < addr then .error .myfsDie
  else .ok { fs with
    metaArea := Function.update fs.metaArea addr fun i =>
      if offset ≤ i ∧ i < offset + myfsInode then inodeByte mi (i - offset)
      else fs.metaArea addr i }

/-- The inode that `myfs_allocate_inode` fills in for number `ia`. -/
def freshInode (fs : Myfs) (mode ia : ℤ) : Inode :=
  { uid := fs.uid
    gid := fs.gid
    mode := mode
    inodeNum := ia
    flags := 0
    createTime := fs.now
    lastModifiedTime := fs.now
    data := ⟨fun _ => 0, 0, 0, 0⟩
    contents := none
    counter := 0 }

def myfsAllocateInode (fs : Myfs) (mode : ℤ) : Except Halt (Option Inode × Myfs) :=
  let (ia, _, bv) := getFreeRangeOfBits fs.inodeMap 1
  let fs := { fs with inodeMap := bv }
  if ia < 0 then .ok (none, fs)
  else
    let bsize : ℤ := fs.dsb.blockSize
    let offset := toInt32 ((ia.tdiv 8).tdiv bsize)
    if fs.dsb.numInodeMapBlocks ≤ offset then .error .myfsDie
    else
      let (_, fs) := writeBlocks fs (fs.dsb.inodeMapStart + offset)
        (fun k => chunkByte bv.bits ((offset * bsize).toNat + k)) 1
      .ok (some (freshInode fs mode ia), fs)

def myfsFreeInode (fs : Myfs) (ia : ℤ) : ℤ × Myfs :=
  let bv := (unSetBV fs.inodeMap (toInt32 ia)).2
  let fs := { fs with inodeMap := bv }
  let bsize : ℤ := fs.dsb.blockSize
  let offset := toInt32 ((ia.tdiv 8).tdiv bsize)
  let (_, fs) := writeBlocks fs (fs.dsb.inodeMapStart + offset)
    (fun k => chunkByte bv.bits ((offset * bsize).toNat + k)) 1
  (0, fs)

/-- The inode map as the allocator keeps it: inode 0 is taken, no bit behind the last
inode is set, and the map blocks on disk have room for every inode. -/
structure MapSound (fs : Myfs) : Prop where
  zero : fs.inodeMap.bit 0 = true
  nonempty : 1 ≤ fs.inodeMap.numbits
  int32 : fs.inodeMap.numbits < 2 ^ 31
  inside : ∀ p, fs.inodeMap.bit p = true → p < fs.inodeMap.numbits
  hint : fs.inodeMap.nextFree ≤ fs.inodeMap.numbits
  room : (fs.inodeMap.numbits : ℤ) ≤ 8 * (fs.dsb.blockSize * fs.dsb.numInodeMapBlocks)

/-- A map in which only inode 0 is allocated. -/
structure FreshMap (fs : Myfs) : Prop where
  two : 2 ≤ fs.inodeMap.numbits
  int32 : fs.inodeMap.numbits < 2 ^ 31
  only : ∀ p, fs.inodeMap.bit p = decide (p = 0)
  hint : fs.inodeMap.nextFree ≤ fs.inodeMap.numbits
  notFull : fs.inodeMap.isFull = false
  room : (fs.inodeMap.numbits : ℤ) ≤ 8 * (fs.dsb.blockSize * fs.dsb.numInodeMapBlocks)

theorem FreshMap.sound {fs : Myfs} (h : FreshMap fs) : MapSound fs := by
  refine ⟨by rw [h.only]; rfl, le_trans (by decide) h.two, h.int32, fun p hp => ?_, h.hint, h.room⟩
  rw [h.only, decide_eq_true_eq] at hp
  have := h.two
  omega

theorem MapSound.tailClear {fs : Myfs} (h : MapSound fs) : TailClear fs.inodeMap := by
  intro p hp _
  by_contra hset
  have := h.inside p (by simpa using hset)
  omega

inductive Event where
  | alloc (mode : ℤ)
  | free (ia : ℤ)
  deriving DecidableEq, Repr

def next (fs : Myfs) : Event → Myfs
  | .alloc mode =>
    match myfsAllocateInode fs mode with
    | .ok (_, fs') => fs'
    | .error _ => fs
  | .free ia => (myfsFreeInode fs ia).2

/-- Only allocated inodes other than inode 0 are given back. -/
def Enabled (fs : Myfs) : Event → Prop
  | .alloc _ => True
  | .free ia => 1 ≤ ia ∧ ia < fs.inodeMap.numbits ∧ fs.inodeMap.bit ia.toNat = true

/-- The allocation returns an inode that was free, and fails on a used-up map only. -/
def LosesNoInode (fs : Myfs) : Event → Prop
  | .alloc mode =>
    match myfsAllocateInode fs mode with
    | .ok (some mi, _) => 1 ≤ mi.inodeNum ∧ mi.inodeNum < fs.inodeMap.numbits ∧
        fs.inodeMap.bit mi.inodeNum.toNat = false
    | .ok (none, _) => AllSet fs.inodeMap
    | .error _ => False
  | .free _ => True

/-- Before an allocation: the map is used up, or neither the full mark nor the jump over
chunk 0 hides its free inodes from the search. -/
def SearchSees (fs : Myfs) : Event → Prop
  | .alloc _ => AllSet fs.inodeMap ∨
      (fs.inodeMap.isFull = false ∧ ¬ SkipsChunkZero fs.inodeMap)
  | .free _ => True

/-- The outcomes of an allocation: a free inode is taken, or no bit changes. -/
theorem myfsAllocateInode_cases {fs : Myfs} (h : MapSound fs) (mode : ℤ) :
    (∃ (start : ℕ) (bv : BitVector) (area : ℤ → Block),
      (getFreeRangeOfBits fs.inodeMap 1).1 = start ∧ RangeTaken fs.inodeMap bv start 1 ∧
      myfsAllocateInode fs mode = .ok (some (freshInode fs mode start),
        { fs with inodeMap := bv, metaArea := area })) ∨
    (∃ full, (getFreeRangeOfBits fs.inodeMap 1).1 = -1 ∧
      myfsAllocateInode fs mode = .ok (none,
        { fs with inodeMap := { fs.inodeMap with isFull := full } })) := by
  have hcases := getFreeRangeOfBits_cases fs.inodeMap 1
  unfold myfsAllocateInode
  generalize getFreeRangeOfBits fs.inodeMap 1 = r at hcases ⊢
  obtain ⟨ia, biggest, bv⟩ := r
  dsimp only at hcases ⊢
  obtain ⟨start, rfl, _, _, ht⟩ | ⟨rfl, full, rfl, _⟩ := hcases
  · refine Or.inl ⟨start, bv, ?_⟩
    have hin := ht.inside
    have hroom := h.room
    have hint := h.int32
    simp only [Int.toNat_one] at ht hin
    have hoff : ((start : ℤ).tdiv 8).tdiv fs.dsb.blockSize < fs.dsb.numInodeMapBlocks ∧
        0 ≤ ((start : ℤ).tdiv 8).tdiv fs.dsb.blockSize ∧
        ((start : ℤ).tdiv 8).tdiv fs.dsb.blockSize ≤ start := by
      rw [Int.tdiv_eq_ediv_of_nonneg (a := (start : ℤ)) (by omega),
        Int.tdiv_eq_ediv_of_nonneg (by omega)]
      have hb : (0 : ℤ) < fs.dsb.blockSize := by
        by_contra hz
        have : (fs.dsb.blockSize : ℤ) = 0 := by omega
        rw [this, zero_mul] at hroom
        omega
      have hle := Int.ediv_le_self (b := (fs.dsb.blockSize : ℤ)) (show 0 ≤ (start : ℤ) / 8 by omega)
      refine ⟨?_, Int.ediv_nonneg (by omega) (by omega), by omega⟩
      apply Int.ediv_lt_of_lt_mul hb
      rw [mul_comm]
      omega
    rw [toInt32_of_lt hoff.2.1 (by omega), if_neg (by omega), if_neg (by omega)]
    obtain ⟨area, ha⟩ := writeBlocks_frame { fs with inodeMap := bv }
      (fs.dsb.inodeMapStart + ((start : ℤ).tdiv 8).tdiv fs.dsb.blockSize)
      (fun k => chunkByte bv.bits
        ((((start : ℤ).tdiv 8).tdiv fs.dsb.blockSize * fs.dsb.blockSize).toNat + k)) 1
    generalize writeBlocks _ _ _ _ = w at ha ⊢
    obtain ⟨amt, fs'⟩ := w
    dsimp only at ha
    subst ha
    exact ⟨area, rfl, ht, rfl⟩
  · exact Or.inr ⟨full, rfl, rfl⟩

/-- Freeing inode `ia` clears its bit, moves the hint to it and leaves the full mark. -/
theorem myfsFreeInode_spec {fs : Myfs} (h : MapSound fs) {ia : ℤ}
    (he : Enabled fs (.free ia)) :
    ∃ area bits, (myfsFreeInode fs ia).2 = { fs with
        inodeMap := { fs.inodeMap with bits := bits, nextFree := ia.toNat }
        metaArea := area } ∧
      ∀ p, bitOf bits p = (fs.inodeMap.bit p && !decide (p = ia.toNat)) := by
  obtain ⟨hpos, hlt, _⟩ := he
  have hint := h.int32
  have hconv : toInt32 ia = ia := toInt32_of_lt (by omega) (by omega)
  unfold myfsFreeInode
  rw [hconv, unSetBV, if_neg (by omega)]
  dsimp only
  obtain ⟨area, ha⟩ := writeBlocks_frame { fs with inodeMap := { fs.inodeMap with
      bits := clearChunkBit fs.inodeMap.bits (ia.toNat / 32) (ia.toNat % 32)
      nextFree := ia.toNat } }
    (fs.dsb.inodeMapStart + toInt32 ((ia.tdiv 8).tdiv fs.dsb.blockSize))
    (fun k => chunkByte (clearChunkBit fs.inodeMap.bits (ia.toNat / 32) (ia.toNat % 32))
      ((toInt32 ((ia.tdiv 8).tdiv fs.dsb.blockSize) * fs.dsb.blockSize).toNat + k)) 1
  refine ⟨area, clearChunkBit fs.inodeMap.bits (ia.toNat / 32) (ia.toNat % 32), ha, fun p => ?_⟩
  rw [bitOf_clearChunkBit _ (by omega), show ia.toNat / 32 * 32 + ia.toNat % 32 = ia.toNat by omega]
  rfl

theorem step_sound {fs : Myfs} {e : Event} (h : MapSound fs) (he : Enabled fs e) :
    MapSound (next fs e) := by
  cases e with
  | alloc mode =>
    rcases myfsAllocateInode_cases h mode with ⟨start, bv, area, _, ht, ho⟩ | ⟨full, _, ho⟩
    · have hnum := ht.numbits
      have hin := ht.inside
      have hnext : next fs (.alloc mode) = { fs with inodeMap := bv, metaArea := area } := by
        simp only [next, ho]
      rw [hnext]
      refine ⟨?_, by rw [hnum]; exact h.nonempty, by rw [hnum]; exact h.int32, fun p hp => ?_, ?_,
        by rw [hnum]; exact h.room⟩
      · rw [ht.bits, h.zero, Bool.true_or]
      · rw [hnum]
        rw [ht.bits, Bool.or_eq_true, decide_eq_true_eq] at hp
        rcases hp with hp | hp
        · exact h.inside p hp
        · omega
      · rw [hnum]
        rcases ht.nextFree with hk | hk
        · rw [hk]; exact h.hint
        · rw [hk]; exact hin
    · have hnext : next fs (.alloc mode) =
          { fs with inodeMap := { fs.inodeMap with isFull := full } } := by
        simp only [next, ho]
      rw [hnext]
      exact ⟨h.zero, h.nonempty, h.int32, h.inside, h.hint, h.room⟩
  | free ia =>
    obtain ⟨area, bits, hf, hbits⟩ := myfsFreeInode_spec h he
    obtain ⟨hpos, hlt, _⟩ := he
    rw [next, hf]
    refine ⟨?_, h.nonempty, h.int32, fun p hp => ?_, by dsimp only; omega, h.room⟩
    · rw [bit_eq_bitOf, hbits, h.zero, decide_eq_false (by omega)]
      rfl
    · rw [bit_eq_bitOf, hbits, Bool.and_eq_true] at hp
      exact h.inside p hp.1

/-- In a sound state an allocation keeps its promise exactly when its search is not blind. -/
theorem losesNoInode_iff {fs : Myfs} (h : MapSound fs) (e : Event) :
    LosesNoInode fs e ↔ SearchSees fs e := by
  cases e with
  | free ia => exact Iff.rfl
  | alloc mode =>
    have hfail := one_bit_fails_iff h.nonempty h.hint h.tailClear
    rcases myfsAllocateInode_cases h mode with ⟨start, bv, area, hs, ht, ho⟩ | ⟨full, hs, ho⟩
    · have hclear := ht.clear start le_rfl (by omega)
      have hin := ht.inside
      have hne : start ≠ 0 := by
        rintro rfl
        rw [h.zero] at hclear
        cases hclear
      have hok : ¬ (fs.inodeMap.isFull = true ∨ AllSet fs.inodeMap ∨
          SkipsChunkZero fs.inodeMap) := by
        rw [← hfail, hs]
        omega
      simp only [not_or, Bool.not_eq_true] at hok
      simp only [LosesNoInode, SearchSees, ho, freshInode]
      refine ⟨fun _ => Or.inr ⟨hok.1, hok.2.2⟩, fun _ => ⟨by omega, by omega, ?_⟩⟩
      rw [Int.toNat_natCast]
      exact hclear
    · simp only [LosesNoInode, SearchSees, ho]
      refine ⟨Or.inl, ?_⟩
      rintro (hall | ⟨hnf, hns⟩)
      · exact hall
      · rcases hfail.mp hs with hf | hall | hsk
        · rw [hnf] at hf; cases hf
        · exact hall
        · exact absurd hsk hns

/-- Over every history of allocations and frees, no allocation goes wrong exactly when no
allocation is made while the search is blind to the free inodes. -/
theorem allocator_loses_no_inode_iff (fs : Myfs) (h : FreshMap fs) (es : List Event)
    (hv : EveryStep next Enabled fs es) :
    EveryStep next LosesNoInode fs es ↔ EveryStep next SearchSees fs es :=
  everyStep_congr_of_inv (fun _ _ hs he _ => step_sound hs he)
    (fun _ e hs _ => losesNoInode_iff hs e) h.sound hv

/-- The small disk with a map of two inodes, of which inode 0 is allocated. -/
def twoInodes : Myfs :=
  { smallDisk with
    inodeMap := ⟨2, 1, false, fun i => if i = 0 then 1 else 0⟩ }

theorem twoInodes_fresh : FreshMap twoInodes := by
  refine ⟨by decide, by decide, fun p => ?_, by decide, rfl, by decide⟩
  unfold twoInodes BitVector.bit BitVector.test
  dsimp only
  by_cases hp : p / 32 = 0
  · rw [if_pos hp]
    have : p % 32 = p := by omega
    rw [this]
    exact BitVec.getLsbD_one
  · rw [if_neg hp, decide_eq_false (by omega)]
    exact BitVec.getLsbD_zero

theorem allocator_loses_no_inode_twoInodes :
    EveryStep next LosesNoInode twoInodes [.alloc 0, .free 1, .alloc 0] := by
  refine (allocator_loses_no_inode_iff twoInodes twoInodes_fresh _ ?_).mpr ?_
  · exact ⟨trivial, ⟨by decide, by decide +kernel, by decide +kernel⟩, trivial, trivial⟩
  · refine ⟨Or.inr ⟨rfl, fun h => ?_⟩, trivial, Or.inr ⟨by decide +kernel, fun h => ?_⟩, trivial⟩
    · exact absurd h.hint (by decide)
    · exact absurd h.hint (by decide +kernel)

/-- The failed allocation on the used-up map sets the full mark, and freeing inode 1 does
not reset it: the next allocation fails although inode 1 is free. -/
theorem freed_inode_lost :
    EveryStep next Enabled twoInodes [.alloc 0, .alloc 0, .free 1, .alloc 0] ∧
    ¬ EveryStep next LosesNoInode twoInodes [.alloc 0, .alloc 0, .free 1, .alloc 0] := by
  refine ⟨⟨trivial, trivial, ⟨by decide, by decide +kernel, by decide +kernel⟩, trivial, trivial⟩,
    ?_⟩
  rintro ⟨_, _, _, h, _⟩
  have hnone : (myfsAllocateInode (next (next (next twoInodes (.alloc 0)) (.alloc 0)) (.free 1)) 0
      ).toOption.map (fun r => r.1.isNone) = some true := by decide +kernel
  have hfree : (next (next (next twoInodes (.alloc 0)) (.alloc 0)) (.free 1)).inodeMap.bit 1 =
      false := by decide +kernel
  have hnum : (next (next (next twoInodes (.alloc 0)) (.alloc 0)) (.free 1)).inodeMap.numbits =
      2 := by decide +kernel
  generalize next (next (next twoInodes (.alloc 0)) (.alloc 0)) (.free 1) = fs at h hnone hfree hnum
  unfold LosesNoInode at h
  dsimp only at h
  generalize myfsAllocateInode fs 0 = r at h hnone
  match r with
  | .ok (none, _) =>
    have := h 1 (by omega)
    rw [hfree] at this
    cases this
  | .ok (some mi, _) => cases hnone
  | .error _ => exact h

end InodeTable
