import Mathlib.Tactic
import Mathlib.Data.Int.Bitwise
import Mathlib.Algebra.Order.BigOperators.Group.Finset
import FsKit.BitVectorSearch
import FsKit.BlockRounding
import FsKit.MachineIntegers
import FsKit.TransitionTrace

/-! The map of used and free blocks (`bitmap.c`) and the block writes under it (`io.c`).
The device is seen through the block cache, in two areas: what is written as metadata (super
block, bitmap, inode map, inode table), and what is written as a block of a file. They are parts
of one disk as long as no file has a metadata block, which the results about both of them assume
and show to stay so. Semaphores are left out: the code runs
sequentially and every path releases what it acquired. -/
namespace BlockBitmap

open BitVectorSearch BlockRounding MachineIntegers TransitionTrace

def EPERM : ℤ := 1
def ENOENT : ℤ := 2
def E2BIG : ℤ := 7
def ENOMEM : ℤ := 12
def EEXIST : ℤ := 17
def EINVAL : ℤ := 22
def ENOSPC : ℤ := 28
def ENAMETOOLONG : ℤ := 36

/-- The bytes of a block; only indices below the block size matter. -/
abbrev Block := ℕ → UInt8

inductive SuperFlags where
  | clean | dirty
  deriving DecidableEq, Repr

structure SuperBlock where
  blockSize : ℕ
  numBlocks : ℤ
  usedBlocks : ℤ
  numInodes : ℤ
  inodeMapStart : ℤ
  numInodeMapBlocks : ℤ
  inodesStart : ℤ
  numInodeBlocks : ℤ
  flags : SuperFlags

/-- The part of `myfs_info` the file system code works on. `cacheFails` is the verdict of
`cached_write` on a request at a block of a given length; `now`, `uid` and `gid` are
what `time`, `getuid` and `getgid` answer. -/
structure Myfs where
  dsb : SuperBlock
  bv : BitVector
  numBitmapBlocks : ℤ
  inodeMap : BitVector
  readOnly : Bool
  metaArea : ℤ → Block
  dataArea : ℤ → Block
  cacheFails : ℤ → ℤ → Bool
  now : ℤ
  uid : ℤ
  gid : ℤ

/-- Byte `k` of the chunk buffer, in the byte order of the host. -/
def chunkByte (bits : ℕ → BitVec 32) (k : ℕ) : UInt8 :=
  UInt8.ofNat ((bits (k / 4)).toNat >>> (8 * (k % 4)))

/-- A request for no blocks, on which `cached_write` panics, counts as failed. -/
def writeBlocks (fs : Myfs) (blockNum : ℤ) (mem : ℕ → UInt8) (nblocks : ℤ) : ℤ × Myfs :=
  if fs.readOnly then (-1, fs)
  else if fs.dsb.numBlocks ≤ blockNum then (-1, fs)
  else if fs.dsb.numBlocks < blockNum + nblocks then (-1, fs)
  else if nblocks ≤ 0 ∨ fs.cacheFails blockNum nblocks then (-1, fs)
  else (nblocks, { fs with
    metaArea := fun b =>
      if blockNum ≤ b ∧ b < blockNum + nblocks then
        fun i => mem ((b - blockNum).toNat * fs.dsb.blockSize + i)
      else fs.metaArea b })

/-- A zeroed bit vector of `numbits` bits. -/
def newVector (numbits : ℤ) : BitVector :=
  { numbits := (toInt32 numbits).toNat
    nextFree := 0
    isFull := false
    bits := fun _ => 0 }

def myfsCreateStorageMap (fs : Myfs) : ℤ × Myfs :=
  let bsize : ℤ := fs.dsb.blockSize
  let n := toInt32 (fs.dsb.numBlocks.tdiv 8)
  let n := toInt32 (maskDown (n + bsize - 1) bsize)
  let n := n.tdiv bsize
  let numBlocks := n + 1
  let (start, _, bv) := getFreeRangeOfBits (newVector fs.dsb.numBlocks) (toInt32 numBlocks)
  if start ≠ 0 then (ENOSPC, fs)
  else
    let fs := { fs with bv := bv, numBitmapBlocks := n }
    let (amt, fs) := writeBlocks fs 1 (chunkByte bv.bits) n
    if amt ≠ n then (EINVAL, fs)
    else (0, { fs with dsb := { fs.dsb with usedBlocks := fs.dsb.usedBlocks + numBlocks } })

inductive AllocMode where
  | exactAllocation | looseAllocation | tryHardAllocation
  deriving DecidableEq, Repr

/-- The second try of the loose mode, with the biggest range the first one saw. -/
def looseRetry (mode : AllocMode) (biggest : ℤ) (bv : BitVector) (nblocks : ℤ) :
    ℤ × ℤ × BitVector :=
  if mode = .looseAllocation ∧ 0 < biggest ∧ nblocks >>> 4 ≤ biggest then
    let (start, _, bv) := getFreeRangeOfBits bv biggest
    (start, biggest, bv)
  else (-1, nblocks, bv)

def tryHardRetry (mode : AllocMode) (maxFree : ℤ) (bv : BitVector) (nblocks : ℤ) :
    ℤ × ℤ × BitVector :=
  if mode = .tryHardAllocation ∧ 1 < maxFree then
    let nblocks := if maxFree < nblocks then maxFree else nblocks
    let (start, _, bv) := getFreeRangeOfBits bv nblocks
    (start, nblocks, bv)
  else (-1, nblocks, bv)

/-- The search loop of `real_allocate_blocks`: the start (or -1), the number of blocks
and the bit vector it ends with. `nblocks` gets smaller in every round. -/
def allocateLoop (mode : AllocMode) : ℕ → BitVector → ℤ → ℤ × ℤ × BitVector
  | 0, bv, nblocks => (-1, nblocks, bv)
  | fuel + 1, bv, nblocks =>
    if nblocks < 1 then (-1, nblocks, bv)
    else
      let (start, biggest, bv) := getFreeRangeOfBits bv nblocks
      if start ≠ -1 then (start, nblocks, bv)
      else
        let maxFree := if 1 < biggest then biggest else 1
        let (start, nblocks, bv) := looseRetry mode biggest bv nblocks
        if start ≠ -1 ∨ mode = .exactAllocation then (start, nblocks, bv)
        else
          let (start, nblocks, bv) := tryHardRetry mode maxFree bv nblocks
          if start ≠ -1 then (start, nblocks, bv)
          else
            let nblocks :=
              if mode = .looseAllocation ∧ maxFree * 2 < nblocks then maxFree * 2 else nblocks
            allocateLoop mode fuel bv (nblocks.tdiv 2)

/-- Returns the error code, `*num_blocks`, `*start_addr` and the file system. -/
def realAllocateBlocks (fs : Myfs) (numBlocks startAddr : ℤ) (mode : AllocMode) :
    ℤ × ℤ × ℤ × Myfs :=
  if numBlocks ≤ 0 then (EINVAL, numBlocks, startAddr, fs)
  else if fs.dsb.numBlocks - fs.dsb.usedBlocks < numBlocks then
    (ENOSPC, numBlocks, startAddr, fs)
  else
    let bsize : ℤ := fs.dsb.blockSize
    let (start, nblocks, bv) :=
      allocateLoop mode (toInt32 numBlocks).toNat fs.bv (toInt32 numBlocks)
    let fs := { fs with bv := bv }
    if start = -1 then (ENOSPC, numBlocks, startAddr, fs)
    else
      let n := (start.tdiv 8).tdiv bsize + 1
      let len := (nblocks.tdiv 8).tdiv bsize + 1
      let off := ((start.tdiv 8).tdiv bsize * bsize).toNat
      let (amt, fs) := writeBlocks fs n (fun k => chunkByte bv.bits (off + k)) len
      if amt ≠ len then (EINVAL, nblocks, start, fs)
      else (0, nblocks, start, { fs with
        dsb := { fs.dsb with usedBlocks := fs.dsb.usedBlocks + nblocks, flags := .dirty } })

def myfsAllocateBlocks (fs : Myfs) (numBlocks startAddr : ℤ) (mode : AllocMode) :
    ℤ × ℤ × ℤ × Myfs := realAllocateBlocks fs numBlocks startAddr mode

def preAllocateBlocks (fs : Myfs) (numBlocks startAddr : ℤ) : ℤ × ℤ × ℤ × Myfs :=
  realAllocateBlocks fs numBlocks startAddr .looseAllocation

/-- The write-back loop of `myfs_free_blocks`, one bitmap block a round. -/
def freeWriteBack (bits : ℕ → BitVec 32) (off : ℕ) : ℕ → ℤ → Myfs → Bool × Myfs
  | 0, _, fs => (true, fs)
  | len + 1, n, fs =>
    let (amt, fs) := writeBlocks fs n (fun k => chunkByte bits (off + k)) 1
    if amt ≠ 1 then (false, fs) else freeWriteBack bits (off + fs.dsb.blockSize) len (n + 1) fs

/-- `UnSetRangeBV` and the reset of the full mark. -/
def clearedVector (bv : BitVector) (start numBlocks : ℤ) : BitVector :=
  { (unSetRangeBV bv (toInt32 start) (toInt32 numBlocks)).2 with isFull := false }

def myfsFreeBlocks (fs : Myfs) (start numBlocks : ℤ) : ℤ × Myfs :=
  let bsize : ℤ := fs.dsb.blockSize
  let bv := clearedVector fs.bv start numBlocks
  let fs := { fs with bv := bv }
  let n := (start.tdiv 8).tdiv bsize + 1
  let len := (numBlocks.tdiv 8).tdiv bsize + 1
  let off := ((start.tdiv 8).tdiv bsize * bsize).toNat
  let (ok, fs) := freeWriteBack bv.bits off len.toNat n fs
  if ok then
    (0, { fs with dsb := { fs.dsb with usedBlocks := fs.dsb.usedBlocks - len, flags := .dirty } })
  else (EINVAL, fs)

/-- A block write changes nothing but the metadata area. -/
theorem writeBlocks_frame (fs : Myfs) (n : ℤ) (mem : ℕ → UInt8) (k : ℤ) :
    ∃ area, (writeBlocks fs n mem k).2 = { fs with metaArea := area } := by
  unfold writeBlocks
  split_ifs <;> exact ⟨_, rfl⟩

theorem writeBlocks_other (fs : Myfs) (n : ℤ) (mem : ℕ → UInt8) (k : ℤ) {b : ℤ}
    (h : ¬(n ≤ b ∧ b < n + k)) : (writeBlocks fs n mem k).2.metaArea b = fs.metaArea b := by
  unfold writeBlocks
  split_ifs
  · rfl
  · rfl
  · rfl
  · rfl
  · exact if_neg h

theorem freeWriteBack_frame (bits : ℕ → BitVec 32) (off len : ℕ) (n : ℤ) (fs : Myfs) :
    ∃ area, (freeWriteBack bits off len n fs).2 = { fs with metaArea := area } := by
  induction len generalizing off n fs with
  | zero => exact ⟨fs.metaArea, rfl⟩
  | succ len ih =>
    rw [freeWriteBack]
    obtain ⟨area, ha⟩ := writeBlocks_frame fs n (fun k => chunkByte bits (off + k)) 1
    generalize writeBlocks fs n (fun k => chunkByte bits (off + k)) 1 = r at ha
    obtain ⟨amt, fs'⟩ := r
    subst ha
    dsimp only
    split
    · exact ⟨area, rfl⟩
    · obtain ⟨area', h'⟩ := ih (off + fs.dsb.blockSize) (n + 1) { fs with metaArea := area }
      exact ⟨area', h'⟩

/-- The search loop either fails and leaves every bit, or takes one range. -/
def SearchOutcome (bv : BitVector) (r : ℤ × ℤ × BitVector) : Prop :=
  (∃ start : ℕ, r.1 = start ∧ 0 < r.2.1 ∧ RangeTaken bv r.2.2 start r.2.1.toNat) ∨
  (r.1 = -1 ∧ ∃ full, r.2.2 = { bv with isFull := full })

theorem SearchOutcome.of_isFull {bv : BitVector} {full : Bool} {r : ℤ × ℤ × BitVector}
    (h : SearchOutcome { bv with isFull := full } r) : SearchOutcome bv r := by
  rcases h with ⟨start, h₁, h₂, h₃⟩ | ⟨h₁, full', h₂⟩
  · exact Or.inl ⟨start, h₁, h₂, h₃.inside, h₃.clear, h₃.bits, h₃.numbits, h₃.isFull, h₃.nextFree⟩
  · exact Or.inr ⟨h₁, full', h₂⟩

theorem searchOutcome_getFree (bv : BitVector) (len : ℤ) :
    SearchOutcome bv ((getFreeRangeOfBits bv len).1, len, (getFreeRangeOfBits bv len).2.2) := by
  rcases getFreeRangeOfBits_cases bv len with ⟨start, h₁, h₂, _, h₃⟩ | ⟨h₁, full, h₂, _⟩
  · exact Or.inl ⟨start, h₁, h₂, h₃⟩
  · exact Or.inr ⟨h₁, full, h₂⟩

theorem looseRetry_outcome (mode : AllocMode) (biggest : ℤ) (bv : BitVector) (nblocks : ℤ) :
    SearchOutcome bv (looseRetry mode biggest bv nblocks) := by
  unfold looseRetry
  split
  · exact searchOutcome_getFree bv biggest
  · exact Or.inr ⟨rfl, bv.isFull, rfl⟩

theorem tryHardRetry_outcome (mode : AllocMode) (maxFree : ℤ) (bv : BitVector) (nblocks : ℤ) :
    SearchOutcome bv (tryHardRetry mode maxFree bv nblocks) := by
  unfold tryHardRetry
  split
  · exact searchOutcome_getFree bv _
  · exact Or.inr ⟨rfl, bv.isFull, rfl⟩

theorem SearchOutcome.failed {bv bv' : BitVector} {start n : ℤ}
    (h : SearchOutcome bv (start, n, bv')) (hs : start = -1) :
    ∃ full, bv' = { bv with isFull := full } := by
  rcases h with ⟨s, hs', _⟩ | ⟨_, h⟩
  · dsimp only at hs'; omega
  · exact h

theorem allocateLoop_outcome (mode : AllocMode) (fuel : ℕ) (bv : BitVector) (nblocks : ℤ) :
    SearchOutcome bv (allocateLoop mode fuel bv nblocks) := by
  induction fuel generalizing bv nblocks with
  | zero => exact Or.inr ⟨rfl, bv.isFull, rfl⟩
  | succ fuel ih =>
    rw [allocateLoop]
    split
    · exact Or.inr ⟨rfl, bv.isFull, rfl⟩
    have h₁ := searchOutcome_getFree bv nblocks
    generalize getFreeRangeOfBits bv nblocks = r at h₁ ⊢
    obtain ⟨start₁, biggest, bv₁⟩ := r
    dsimp only at h₁ ⊢
    split
    · exact h₁
    rename_i hs₁
    obtain ⟨full₁, rfl⟩ := h₁.failed (not_not.mp hs₁)
    have h₂ := (looseRetry_outcome mode biggest { bv with isFull := full₁ } nblocks).of_isFull
    generalize looseRetry mode biggest { bv with isFull := full₁ } nblocks = r at h₂ ⊢
    obtain ⟨start₂, nblocks₂, bv₂⟩ := r
    dsimp only
    split
    · exact h₂
    rename_i hs₂
    obtain ⟨full₂, rfl⟩ := h₂.failed (not_not.mp (not_or.mp hs₂).1)
    have h₃ := (tryHardRetry_outcome mode (if 1 < biggest then biggest else 1)
      { bv with isFull := full₂ } nblocks₂).of_isFull
    generalize tryHardRetry mode (if 1 < biggest then biggest else 1)
      { bv with isFull := full₂ } nblocks₂ = r at h₃ ⊢
    obtain ⟨start₃, nblocks₃, bv₃⟩ := r
    dsimp only
    split
    · exact h₃
    rename_i hs₃
    obtain ⟨full₃, rfl⟩ := h₃.failed (not_not.mp hs₃)
    exact (ih _ _).of_isFull

/-- What a successful allocation of `n` blocks from `start` on does to the file system. -/
structure Allocated (fs fs' : Myfs) (start n : ℕ) : Prop where
  taken : RangeTaken fs.bv fs'.bv start n
  frame : ∃ area, fs' = { fs with
    bv := fs'.bv
    metaArea := area
    dsb := { fs.dsb with usedBlocks := fs.dsb.usedBlocks + n, flags := .dirty } }
  written : ∀ b : ℤ, ¬(((start / 8 / fs.dsb.blockSize : ℕ) : ℤ) + 1 ≤ b ∧
    b < ((start / 8 / fs.dsb.blockSize : ℕ) : ℤ) + 1 + (((n / 8 / fs.dsb.blockSize : ℕ) : ℤ) + 1)) →
    fs'.metaArea b = fs.metaArea b

theorem Allocated.blockSize {fs fs' : Myfs} {start n : ℕ} (h : Allocated fs fs' start n) :
    fs'.dsb.blockSize = fs.dsb.blockSize := by
  obtain ⟨area, hf⟩ := h.frame
  rw [hf]

theorem Allocated.dataArea {fs fs' : Myfs} {start n : ℕ} (h : Allocated fs fs' start n) :
    fs'.dataArea = fs.dataArea := by
  obtain ⟨area, hf⟩ := h.frame
  rw [hf]

/-- A refused allocation changes nothing but the full mark of the bit vector. -/
def Refused (fs fs' : Myfs) : Prop := ∃ full, fs' = { fs with bv := { fs.bv with isFull := full } }

theorem realAllocateBlocks_cases (fs : Myfs) (c a : ℤ) (mode : AllocMode) :
    ((realAllocateBlocks fs c a mode).1 = 0 ∧ ∃ start n : ℕ, 0 < n ∧
      (realAllocateBlocks fs c a mode).2.1 = n ∧ (realAllocateBlocks fs c a mode).2.2.1 = start ∧
      Allocated fs (realAllocateBlocks fs c a mode).2.2.2 start n) ∨
    (((realAllocateBlocks fs c a mode).1 = ENOSPC ∨
        c ≤ 0 ∧ (realAllocateBlocks fs c a mode).1 = EINVAL) ∧
      Refused fs (realAllocateBlocks fs c a mode).2.2.2) ∨
    ((realAllocateBlocks fs c a mode).1 = EINVAL ∧ 0 < c) := by
  unfold realAllocateBlocks
  split
  · rename_i hc
    exact Or.inr (Or.inl ⟨Or.inr ⟨hc, rfl⟩, fs.bv.isFull, rfl⟩)
  rename_i hc
  split
  · exact Or.inr (Or.inl ⟨Or.inl rfl, fs.bv.isFull, rfl⟩)
  dsimp only
  have h := allocateLoop_outcome mode (toInt32 c).toNat fs.bv (toInt32 c)
  generalize allocateLoop mode (toInt32 c).toNat fs.bv (toInt32 c) = r at h ⊢
  obtain ⟨start, nblocks, bv⟩ := r
  dsimp only at h ⊢
  split
  · rename_i hs
    obtain ⟨full, rfl⟩ := h.failed hs
    exact Or.inr (Or.inl ⟨Or.inl rfl, full, rfl⟩)
  rename_i hs
  obtain ⟨s, hs', hpos, htaken⟩ | ⟨hs', _⟩ := h
  · dsimp only at hs' hpos htaken
    obtain ⟨area, ha⟩ := writeBlocks_frame { fs with bv := bv }
      ((start.tdiv 8).tdiv fs.dsb.blockSize + 1)
      (fun k => chunkByte bv.bits (((start.tdiv 8).tdiv fs.dsb.blockSize *
        fs.dsb.blockSize).toNat + k)) ((nblocks.tdiv 8).tdiv fs.dsb.blockSize + 1)
    have hother := fun b => writeBlocks_other { fs with bv := bv }
      ((start.tdiv 8).tdiv fs.dsb.blockSize + 1)
      (fun k => chunkByte bv.bits (((start.tdiv 8).tdiv fs.dsb.blockSize *
        fs.dsb.blockSize).toNat + k)) ((nblocks.tdiv 8).tdiv fs.dsb.blockSize + 1) (b := b)
    generalize writeBlocks _ _ _ _ = w at ha hother ⊢
    obtain ⟨amt, fs'⟩ := w
    dsimp only at ha hother
    subst ha
    dsimp only
    split
    · exact Or.inr (Or.inr ⟨rfl, by omega⟩)
    · have hn : ((nblocks.toNat : ℕ) : ℤ) = nblocks := Int.toNat_of_nonneg (by omega)
      refine Or.inl ⟨rfl, s, nblocks.toNat, by omega, hn.symm, hs', htaken, ⟨area, ?_⟩, ?_⟩
      · rw [hn]
      · rw [hs', ← hn] at hother
        exact hother
  · exact absurd hs' hs

theorem myfsFreeBlocks_frame (fs : Myfs) (start n : ℤ) (h : (myfsFreeBlocks fs start n).1 = 0) :
    ∃ area, (myfsFreeBlocks fs start n).2 = { fs with
      bv := clearedVector fs.bv start n
      metaArea := area
      dsb := { fs.dsb with
        usedBlocks := fs.dsb.usedBlocks - ((n.tdiv 8).tdiv fs.dsb.blockSize + 1)
        flags := .dirty } } := by
  unfold myfsFreeBlocks at h ⊢
  generalize clearedVector fs.bv start n = bv at h ⊢
  dsimp only at h ⊢
  obtain ⟨area, ha⟩ := freeWriteBack_frame bv.bits
    ((start.tdiv 8).tdiv fs.dsb.blockSize * fs.dsb.blockSize).toNat
    ((n.tdiv 8).tdiv fs.dsb.blockSize + 1).toNat ((start.tdiv 8).tdiv fs.dsb.blockSize + 1)
    { fs with bv := bv }
  generalize freeWriteBack bv.bits _ _ _ _ = w at h ha ⊢
  obtain ⟨ok, fs'⟩ := w
  dsimp only at ha
  subst ha
  cases ok
  · cases h
  · exact ⟨area, rfl⟩

/-- Whether or not the write-back succeeds, the range is clear in the bit vector. -/
theorem myfsFreeBlocks_any (fs : Myfs) (start n : ℤ) :
    ∃ area dsb, (myfsFreeBlocks fs start n).2 = { fs with
      bv := clearedVector fs.bv start n
      metaArea := area
      dsb := dsb } ∧ dsb.blockSize = fs.dsb.blockSize := by
  unfold myfsFreeBlocks
  generalize clearedVector fs.bv start n = bv
  dsimp only
  obtain ⟨area, ha⟩ := freeWriteBack_frame bv.bits
    ((start.tdiv 8).tdiv fs.dsb.blockSize * fs.dsb.blockSize).toNat
    ((n.tdiv 8).tdiv fs.dsb.blockSize + 1).toNat ((start.tdiv 8).tdiv fs.dsb.blockSize + 1)
    { fs with bv := bv }
  generalize freeWriteBack bv.bits _ _ _ _ = w at ha ⊢
  obtain ⟨ok, fs'⟩ := w
  dsimp only at ha
  subst ha
  cases ok
  · exact ⟨area, _, rfl, rfl⟩
  · exact ⟨area, _, rfl, rfl⟩

/-- The number of set bits among the blocks of the disk. -/
def usedCount (fs : Myfs) : ℕ :=
  ((Finset.range fs.dsb.numBlocks.toNat).filter fun p => fs.bv.bit p = true).card

def UsedExact (fs : Myfs) : Prop := fs.dsb.usedBlocks = usedCount fs

/-- The bitmap of a made disk: no bit is set outside the vector, which covers no more
than the blocks of the disk and has an `int` length. -/
structure MapInside (fs : Myfs) : Prop where
  inside : ∀ p, fs.bv.bit p = true → p < fs.bv.numbits
  covers : (fs.bv.numbits : ℤ) ≤ fs.dsb.numBlocks
  int32 : fs.bv.numbits < 2 ^ 31

theorem card_filter_range_add {f g : ℕ → Bool} {N a n : ℕ} (hin : a + n ≤ N)
    (hclear : ∀ p, a ≤ p → p < a + n → f p = false)
    (hg : ∀ p, g p = (f p || decide (a ≤ p ∧ p < a + n))) :
    ((Finset.range N).filter fun p => g p = true).card =
      ((Finset.range N).filter fun p => f p = true).card + n := by
  have hunion : ((Finset.range N).filter fun p => g p = true) =
      ((Finset.range N).filter fun p => f p = true) ∪ Finset.Ico a (a + n) := by
    ext p
    simp only [Finset.mem_filter, Finset.mem_range, hg, Bool.or_eq_true, decide_eq_true_eq,
      Finset.mem_union, Finset.mem_Ico]
    constructor
    · rintro ⟨hp, h | h⟩
      · exact Or.inl ⟨hp, h⟩
      · exact Or.inr h
    · rintro (⟨hp, h⟩ | h)
      · exact ⟨hp, Or.inl h⟩
      · exact ⟨by omega, Or.inr h⟩
  have hdisj : Disjoint ((Finset.range N).filter fun p => f p = true)
      (Finset.Ico a (a + n)) := by
    rw [Finset.disjoint_left]
    intro p hp hq
    rw [Finset.mem_Ico] at hq
    have := hclear p hq.1 hq.2
    rw [(Finset.mem_filter.mp hp).2] at this
    cases this
  rw [hunion, Finset.card_union_of_disjoint hdisj, Nat.card_Ico, Nat.add_sub_cancel_left]

theorem clearedVector_spec (bv : BitVector) (start n : ℤ) :
    (clearedVector bv start n).numbits = bv.numbits ∧
    ∀ p, (clearedVector bv start n).bit p = (bv.bit p &&
      !decide (0 ≤ toInt32 start ∧ 0 ≤ toInt32 n ∧
        toInt32 start + toInt32 n ≤ bv.numbits ∧
        (toInt32 start).toNat ≤ p ∧ p < (toInt32 start).toNat + (toInt32 n).toNat)) := by
  unfold clearedVector unSetRangeBV
  split
  · rename_i hbad
    refine ⟨rfl, fun p => ?_⟩
    have : ¬ (0 ≤ toInt32 start ∧ 0 ≤ toInt32 n ∧ toInt32 start + toInt32 n ≤ bv.numbits ∧
        (toInt32 start).toNat ≤ p ∧ p < (toInt32 start).toNat + (toInt32 n).toNat) := by omega
    rw [decide_eq_false this, Bool.not_false, Bool.and_true]
    rfl
  · rename_i hok
    refine ⟨rfl, fun p => ?_⟩
    have hiff : (0 ≤ toInt32 start ∧ 0 ≤ toInt32 n ∧ toInt32 start + toInt32 n ≤ bv.numbits ∧
        (toInt32 start).toNat ≤ p ∧ p < (toInt32 start).toNat + (toInt32 n).toNat) ↔
        ((toInt32 start).toNat ≤ p ∧ p < (toInt32 start).toNat + (toInt32 n).toNat) := by omega
    rw [decide_eq_decide.mpr hiff]
    exact bitOf_clearRange _ _ _ _

inductive Op where
  | alloc (c : ℤ) (mode : AllocMode)
  | free (start n : ℤ)
  deriving DecidableEq, Repr

def next (fs : Myfs) : Op → Myfs
  | .alloc c mode => (realAllocateBlocks fs c 0 mode).2.2.2
  | .free start n => (myfsFreeBlocks fs start n).2

/-- `write_blocks` succeeds in the call, and a freed range is allocated as a whole. -/
def Enabled (fs : Myfs) : Op → Prop
  | .alloc c mode => 0 < c → (realAllocateBlocks fs c 0 mode).1 ≠ EINVAL
  | .free start n => 0 ≤ n ∧ (∀ p, start ≤ p → p < start + n →
      0 ≤ p ∧ p < fs.dsb.numBlocks ∧ fs.bv.bit p.toNat = true) ∧ (myfsFreeBlocks fs start n).1 = 0

/-- A free call gives back one block. -/
def FreesOne : Op → Prop
  | .alloc _ _ => True
  | .free _ n => n = 1

theorem MapInside.allocated {fs fs' : Myfs} {start n : ℕ} (h : MapInside fs)
    (ha : Allocated fs fs' start n) : MapInside fs' := by
  obtain ⟨ht, ⟨area, hf⟩, _⟩ := ha
  have hin := ht.inside
  have hnum := ht.numbits
  rw [hf]
  refine ⟨fun p hp => ?_, by rw [hnum]; exact h.covers, by rw [hnum]; exact h.int32⟩
  rw [hnum]
  rw [ht.bits p, Bool.or_eq_true, decide_eq_true_eq] at hp
  rcases hp with hp | hp
  · exact h.inside p hp
  · omega

theorem UsedExact.allocated {fs fs' : Myfs} {start n : ℕ} (hm : MapInside fs)
    (h : UsedExact fs) (ha : Allocated fs fs' start n) : UsedExact fs' := by
  obtain ⟨ht, ⟨area, hf⟩, _⟩ := ha
  have hin := ht.inside
  have hcov := hm.covers
  have hadd := card_filter_range_add (f := fs.bv.bit) (N := fs.dsb.numBlocks.toNat)
    (by omega) ht.clear ht.bits
  unfold UsedExact usedCount at h ⊢
  rw [hf]
  dsimp only
  rw [hadd, h]
  push_cast
  ring

theorem refused_bits {fs fs' : Myfs} (h : Refused fs fs') :
    fs'.dsb = fs.dsb ∧ fs'.bv.numbits = fs.bv.numbits ∧ ∀ p, fs'.bv.bit p = fs.bv.bit p := by
  obtain ⟨full, rfl⟩ := h
  exact ⟨rfl, rfl, fun _ => rfl⟩

/-- After a free call: the bits of the range are clear, and the count went down by the
number of bitmap blocks that were written back. -/
theorem free_step {fs : Myfs} {start n : ℤ} (hm : MapInside fs) (he : Enabled fs (.free start n)) :
    MapInside (next fs (.free start n)) ∧
    (next fs (.free start n)).dsb.usedBlocks =
      fs.dsb.usedBlocks - ((n.tdiv 8).tdiv fs.dsb.blockSize + 1) ∧
    (usedCount fs : ℤ) = usedCount (next fs (.free start n)) + n := by
  obtain ⟨hn, hrange, hret⟩ := he
  obtain ⟨area, hf⟩ := myfsFreeBlocks_frame fs start n hret
  obtain ⟨hnum, hbits⟩ := clearedVector_spec fs.bv start n
  have hnext : next fs (.free start n) = (myfsFreeBlocks fs start n).2 := rfl
  rw [hnext, hf]
  refine ⟨⟨fun p hp => ?_, by rw [hnum]; exact hm.covers, by rw [hnum]; exact hm.int32⟩, rfl, ?_⟩
  · rw [hnum]
    rw [hbits, Bool.and_eq_true] at hp
    exact hm.inside p hp.1
  · unfold usedCount
    dsimp only
    have hint := hm.int32
    rcases Int.lt_or_eq_of_le hn with hpos | hzero
    · have hfirst := hrange start le_rfl (by omega)
      have hlast := hrange (start + n - 1) (by omega) (by omega)
      have hlt := hm.inside _ hlast.2.2
      have hcov := hm.covers
      rw [toInt32_of_lt hfirst.1 (by omega), toInt32_of_lt hn (by omega)] at hbits
      have hadd := card_filter_range_add (f := (clearedVector fs.bv start n).bit)
        (g := fs.bv.bit) (N := fs.dsb.numBlocks.toNat) (a := start.toNat) (n := n.toNat)
        (by omega) (fun p hp hq => by
          rw [hbits, decide_eq_true (by omega)]
          simp) (fun p => by
          rw [hbits]
          by_cases hp : start.toNat ≤ p ∧ p < start.toNat + n.toNat
          · have hset := (hrange p (by omega) (by omega)).2.2
            rw [Int.toNat_natCast] at hset
            simp [hp, hset]
          · rw [decide_eq_false hp, decide_eq_false (by omega)]
            simp)
      rw [hadd]
      push_cast
      omega
    · subst hzero
      have hz : toInt32 0 = 0 := by decide
      rw [hz] at hbits
      have hsame : ∀ p, (clearedVector fs.bv start 0).bit p = fs.bv.bit p := by
        intro p
        rw [hbits, decide_eq_false (by omega)]
        simp
      simp only [hsame, add_zero]

theorem step_inside {fs : Myfs} {op : Op} (hm : MapInside fs) (he : Enabled fs op) :
    MapInside (next fs op) := by
  cases op with
  | alloc c mode =>
    rcases realAllocateBlocks_cases fs c 0 mode with
      ⟨_, start, n, _, _, _, ha⟩ | ⟨_, hr⟩ | ⟨hbad, hc⟩
    · exact hm.allocated ha
    · obtain ⟨full, hr⟩ := hr
      rw [next, hr]
      exact ⟨hm.inside, hm.covers, hm.int32⟩
    · exact absurd hbad (he hc)
  | free start n => exact (free_step hm he).1

theorem step_exact_iff {fs : Myfs} {op : Op} (hm : MapInside fs) (hu : UsedExact fs)
    (he : Enabled fs op) : UsedExact (next fs op) ↔ FreesOne op := by
  cases op with
  | alloc c mode =>
    refine ⟨fun _ => trivial, fun _ => ?_⟩
    rcases realAllocateBlocks_cases fs c 0 mode with
      ⟨_, start, n, _, _, _, ha⟩ | ⟨_, hr⟩ | ⟨hbad, hc⟩
    · exact hu.allocated hm ha
    · obtain ⟨full, hr⟩ := hr
      rw [next, hr]
      exact hu
    · exact absurd hbad (he hc)
  | free start n =>
    obtain ⟨_, hused, hcount⟩ := free_step hm he
    have hn := he.1
    unfold UsedExact at hu ⊢
    rw [hused, hu, hcount]
    -- the count goes down by one more than the bitmap blocks the range fills
    have hlen : (n.tdiv 8).tdiv fs.dsb.blockSize + 1 = n ↔ n = 1 := by
      rw [Int.tdiv_eq_ediv_of_nonneg hn, Int.tdiv_eq_ediv_of_nonneg (by omega)]
      have hle := Int.ediv_le_self (b := (fs.dsb.blockSize : ℤ)) (show 0 ≤ n / 8 by omega)
      have hge := Int.ediv_nonneg (show 0 ≤ n / 8 by omega)
        (show (0 : ℤ) ≤ fs.dsb.blockSize by omega)
      constructor
      · intro h; omega
      · rintro rfl; simp
    constructor
    · intro h; exact hlen.mp (by omega)
    · intro h; have := hlen.mpr h; omega

theorem newVector_bit (n : ℤ) (p : ℕ) : (newVector n).bit p = false := by
  simp [newVector, BitVector.bit, BitVector.test]

/-- The number of bitmap blocks is an `int`, so one more of them wraps to a negative
length or not at all. -/
theorem toInt32_succ_tdiv {x : ℤ} {b : ℕ} (hn : 0 < (toInt32 x).tdiv b)
    (hpos : 0 < toInt32 ((toInt32 x).tdiv b + 1)) :
    toInt32 ((toInt32 x).tdiv b + 1) = (toInt32 x).tdiv b + 1 := by
  have hx : toInt32 x < 2 ^ 31 := by
    have := Int.bmod_lt (x := x) (m := 2 ^ 32) (by decide)
    unfold toInt32
    omega
  have hpx : 0 < toInt32 x := by
    by_contra hneg
    have := Int.tdiv_nonneg (show 0 ≤ -toInt32 x by omega) (show (0 : ℤ) ≤ b by omega)
    rw [Int.neg_tdiv] at this
    omega
  have hle : (toInt32 x).tdiv b ≤ toInt32 x := Int.tdiv_le_self _ (by omega)
  rcases Int.lt_or_eq_of_le (show (toInt32 x).tdiv b + 1 ≤ 2 ^ 31 by omega) with h | h
  · exact toInt32_of_lt (by omega) h
  · rw [h] at hpos
    exact absurd hpos (by decide)

theorem createStorageMap_exact {fs : Myfs} (h₀ : fs.dsb.usedBlocks = 0)
    (h : (myfsCreateStorageMap fs).1 = 0) :
    MapInside (myfsCreateStorageMap fs).2 ∧ UsedExact (myfsCreateStorageMap fs).2 := by
  unfold myfsCreateStorageMap at h ⊢
  dsimp only at h ⊢
  have hwrap := @toInt32_succ_tdiv (maskDown (toInt32 (fs.dsb.numBlocks.tdiv 8) +
    fs.dsb.blockSize - 1) fs.dsb.blockSize) fs.dsb.blockSize
  generalize (toInt32 (maskDown (toInt32 (fs.dsb.numBlocks.tdiv 8) + fs.dsb.blockSize - 1)
    fs.dsb.blockSize)).tdiv fs.dsb.blockSize = n at h hwrap ⊢
  have hcases := getFreeRangeOfBits_cases (newVector fs.dsb.numBlocks) (toInt32 (n + 1))
  generalize getFreeRangeOfBits (newVector fs.dsb.numBlocks) (toInt32 (n + 1)) = r at h hcases ⊢
  obtain ⟨start, biggest, bv⟩ := r
  dsimp only at h hcases ⊢
  split at h
  · cases h
  rename_i hs
  rw [if_neg hs]
  rw [not_not] at hs
  obtain ⟨s, hs', hpos, _, ht⟩ | ⟨hs', _⟩ := hcases
  swap
  · omega
  have hzero : s = 0 := by omega
  subst hzero
  obtain ⟨area, ha⟩ := writeBlocks_frame { fs with bv := bv, numBitmapBlocks := n } 1
    (chunkByte bv.bits) n
  have hbig : (writeBlocks { fs with bv := bv, numBitmapBlocks := n } 1
      (chunkByte bv.bits) n).1 = n → 0 < n ∧ n < fs.dsb.numBlocks := by
    have hne : n ≠ -1 := by
      rintro rfl
      exact absurd hpos (by decide)
    unfold writeBlocks
    dsimp only
    split_ifs <;> intro hw <;> dsimp only at hw <;> omega
  generalize writeBlocks { fs with bv := bv, numBitmapBlocks := n } 1
    (chunkByte bv.bits) n = w at h ha hbig ⊢
  obtain ⟨amt, fs'⟩ := w
  dsimp only at h ha hbig ⊢
  subst ha
  split at h
  · cases h
  rename_i hw
  rw [if_neg hw]
  obtain ⟨hn₁, hn₂⟩ := hbig (not_not.mp hw)
  obtain ⟨hle, hlt⟩ := toInt32_le (show 0 ≤ fs.dsb.numBlocks by omega)
  have hnum : bv.numbits = (toInt32 fs.dsb.numBlocks).toNat := ht.numbits
  have hin : 0 + (toInt32 (n + 1)).toNat ≤ (toInt32 fs.dsb.numBlocks).toNat := ht.inside
  refine ⟨⟨fun p hp => ?_, ?_, ?_⟩, ?_⟩
  · dsimp only at hp ⊢
    rw [ht.bits, newVector_bit, Bool.false_or, decide_eq_true_eq] at hp
    omega
  · dsimp only; omega
  · dsimp only; omega
  · unfold UsedExact usedCount
    dsimp only
    have hadd := card_filter_range_add (f := (newVector fs.dsb.numBlocks).bit)
      (N := fs.dsb.numBlocks.toNat) (by omega) ht.clear ht.bits
    simp only [newVector_bit, Bool.false_eq_true, Finset.filter_false, Finset.card_empty] at hadd
    rw [hadd, h₀, hwrap hn₁ hpos]
    push_cast
    omega

theorem everyStep_freesOne_iff (fs : Myfs) (ops : List Op) :
    EveryStep next (fun _ op => FreesOne op) fs ops ↔ ∀ op ∈ ops, FreesOne op := by
  induction ops generalizing fs with
  | nil => simp [EveryStep]
  | cons op ops ih => simp [EveryStep, ih]

/-- The used-block count is exact in every state of a run after the map was made exactly
when every free call of the run gives back a single block. -/
theorem used_count_exact_iff (fs : Myfs) (h₀ : fs.dsb.usedBlocks = 0)
    (hc : (myfsCreateStorageMap fs).1 = 0) (ops : List Op)
    (hv : EveryStep next Enabled (myfsCreateStorageMap fs).2 ops) :
    EveryState next UsedExact (myfsCreateStorageMap fs).2 ops ↔ ∀ op ∈ ops, FreesOne op := by
  obtain ⟨hm, hu⟩ := createStorageMap_exact h₀ hc
  rw [← everyStep_freesOne_iff (myfsCreateStorageMap fs).2 ops]
  exact everyState_iff_everyStep (fun _ _ hm _ he _ => step_inside hm he)
    (fun _ _ hm hu he => step_exact_iff hm hu he) hm hu hv

/-- A disk of 16 blocks of 512 bytes, before its storage map is made. -/
def smallDisk : Myfs :=
  { dsb := ⟨512, 16, 0, 4, 2, 1, 3, 1, .clean⟩
    bv := newVector 16
    numBitmapBlocks := 0
    inodeMap := newVector 4
    readOnly := false
    metaArea := fun _ _ => 0
    dataArea := fun _ _ => 0
    cacheFails := fun _ _ => false
    now := 0
    uid := 0
    gid := 0 }

theorem used_count_exact_smallDisk :
    EveryState next UsedExact (myfsCreateStorageMap smallDisk).2
      [.alloc 2 .looseAllocation, .free 3 1] := by
  refine (used_count_exact_iff smallDisk rfl (by decide +kernel) _ ?_).mpr (by simp [FreesOne])
  refine ⟨fun _ => by decide +kernel, ⟨by decide, ?_, by decide +kernel⟩, trivial⟩
  intro p hp hq
  obtain rfl : p = 3 := by omega
  decide +kernel

theorem free_two_blocks_miscounted :
    (myfsCreateStorageMap smallDisk).1 = 0 ∧
    EveryStep next Enabled (myfsCreateStorageMap smallDisk).2
      [.alloc 2 .looseAllocation, .free 2 2] ∧
    ¬ EveryState next UsedExact (myfsCreateStorageMap smallDisk).2
      [.alloc 2 .looseAllocation, .free 2 2] := by
  refine ⟨by decide +kernel, ⟨fun _ => by decide +kernel, ⟨by decide, ?_, by decide +kernel⟩,
    trivial⟩, ?_⟩
  · intro p hp hq
    obtain rfl | rfl : p = 2 ∨ p = 3 := by omega
    all_goals decide +kernel
  · rintro ⟨_, _, h⟩
    simp only [EveryState, UsedExact] at h
    revert h
    decide +kernel

end BlockBitmap
