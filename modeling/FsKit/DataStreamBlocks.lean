import Mathlib.Tactic
import FsKit.BlockRounding
import FsKit.InodeTable

/-! The data stream of a file (`dstream.c`): the map from file positions to blocks, and
the calls that grow, shrink, read and write it. File positions and sizes are the
non-negative ones the callers pass; a comparison that the source makes between a signed
and an unsigned number says so in its guard. `get_block` is seen through the cache: a
block that was changed in place is the block the next reader gets. -/
namespace DataStreamBlocks

open BitVectorSearch BlockBitmap BlockRounding InodeTable LittleEndian

/-- The sizes are products of an `int` and a `size_t`. None of them wraps for a block size below
64 KB, and `get_block` serves no larger blocks (`cache_block_io` goes past the cache for them). -/
def directSize (bsize : ℤ) : ℤ := numDirectBlocks * bsize

def indirectSize (bsize : ℤ) : ℤ := bsize / 8 * bsize

def maxIndirectRange (bsize : ℤ) : ℤ := indirectSize bsize + directSize bsize

def maxDoubleIndirectRange (bsize : ℤ) : ℤ :=
  bsize / 8 * indirectSize bsize + maxIndirectRange bsize

def roundUp (size bsize : ℤ) : ℤ := maskDown (size + bsize - 1) bsize

/-- Entry `i` of a block of block addresses. -/
def blockEntry (block : Block) (i : ℕ) : ℤ := word64 block (8 * i)

def maxIndex (fs : Myfs) : ℕ := fs.dsb.blockSize / 8

/-- The numbers in the slots of a stream and in its indirect block. -/
def Pointer (fs : Myfs) (mi : Inode) (a : ℤ) : Prop :=
  (∃ i < numDirectBlocks, mi.data.direct i = a) ∨ mi.data.indirect = a ∨
    mi.data.indirect ≠ 0 ∧ ∃ j < maxIndex fs, blockEntry (fs.dataArea mi.data.indirect) j = a

def setSize (mi : Inode) (size : ℤ) : Inode := { mi with data := { mi.data with size := size } }

def setDirect (mi : Inode) (i : ℕ) (addr : ℤ) : Inode :=
  { mi with data := { mi.data with direct := Function.update mi.data.direct i addr } }

def setIndirect (mi : Inode) (addr : ℤ) : Inode :=
  { mi with data := { mi.data with indirect := addr } }

def storeBlock (fs : Myfs) (addr : ℤ) (block : Block) : Myfs :=
  { fs with dataArea := Function.update fs.dataArea addr block }

section Projections

variable (mi : Inode) (fs : Myfs) (size addr : ℤ) (i : ℕ) (block : Block)

@[simp] theorem setSize_size : (setSize mi size).data.size = size := rfl
@[simp] theorem setSize_direct : (setSize mi size).data.direct = mi.data.direct := rfl
@[simp] theorem setSize_indirect : (setSize mi size).data.indirect = mi.data.indirect := rfl
@[simp] theorem setSize_doubleIndirect :
    (setSize mi size).data.doubleIndirect = mi.data.doubleIndirect := rfl
@[simp] theorem setDirect_size : (setDirect mi i addr).data.size = mi.data.size := rfl
@[simp] theorem setDirect_direct :
    (setDirect mi i addr).data.direct = Function.update mi.data.direct i addr := rfl
@[simp] theorem setDirect_indirect : (setDirect mi i addr).data.indirect = mi.data.indirect := rfl
@[simp] theorem setDirect_doubleIndirect :
    (setDirect mi i addr).data.doubleIndirect = mi.data.doubleIndirect := rfl
@[simp] theorem setIndirect_size : (setIndirect mi addr).data.size = mi.data.size := rfl
@[simp] theorem setIndirect_direct : (setIndirect mi addr).data.direct = mi.data.direct := rfl
@[simp] theorem setIndirect_indirect : (setIndirect mi addr).data.indirect = addr := rfl
@[simp] theorem setIndirect_doubleIndirect :
    (setIndirect mi addr).data.doubleIndirect = mi.data.doubleIndirect := rfl
@[simp] theorem storeBlock_dsb : (storeBlock fs addr block).dsb = fs.dsb := rfl
@[simp] theorem storeBlock_bv : (storeBlock fs addr block).bv = fs.bv := rfl
@[simp] theorem storeBlock_dataArea :
    (storeBlock fs addr block).dataArea = Function.update fs.dataArea addr block := rfl
@[simp] theorem storeBlock_maxIndex : maxIndex (storeBlock fs addr block) = maxIndex fs := rfl

end Projections

def checkAddr (fs : Myfs) (addr : ℤ) : Except Halt ℤ :=
  if addr < 0 ∨ fs.dsb.numBlocks < addr then .error .myfsDie else .ok addr

/-- In the double indirect range the source looks the address up and returns -1. -/
def filePosToDiskAddr (fs : Myfs) (mi : Inode) (pos : ℤ) : Except Halt ℤ :=
  let bsize : ℤ := fs.dsb.blockSize
  if pos < directSize bsize then checkAddr fs (mi.data.direct (pos / bsize).toNat)
  else if pos < maxIndirectRange bsize then
    checkAddr fs (blockEntry (fs.dataArea mi.data.indirect)
      ((pos - directSize bsize) / bsize).toNat)
  else if pos < maxDoubleIndirectRange bsize then
    let index := ((pos - maxIndirectRange bsize) / indirectSize bsize).toNat
    let tmp := blockEntry (fs.dataArea mi.data.doubleIndirect) index
    let addr := blockEntry (fs.dataArea tmp)
      ((pos - maxIndirectRange bsize) % indirectSize bsize / bsize).toNat
    (checkAddr fs addr).map fun _ => -1
  else .ok (-1)

/-- One block for the stream: the error, the address and the file system. -/
def growBlock (fs : Myfs) : ℤ × ℤ × Myfs :=
  let (err, _, addr, fs) := myfsAllocateBlocks fs 1 0 .exactAllocation
  if err ≠ 0 then (err, addr, fs)
  else if addr < 0 then (ENOSPC, addr, fs)
  else (0, addr, fs)

/-- The loop over the direct blocks; the first argument counts the slots that are left.
Returns the error and the loop counter `i` with the inode and the file system. -/
def growDirect (needed : ℤ) : ℕ → Myfs → Inode → ℤ → ℤ × ℤ × Inode × Myfs
  | 0, fs, mi, i => (0, i, mi, fs)
  | left + 1, fs, mi, i =>
    if needed ≤ i then (0, i, mi, fs)
    else
      let (err, addr, fs) := growBlock fs
      if err ≠ 0 then (err, i, mi, fs)
      else
        let mi := setDirect mi (numDirectBlocks - (left + 1)) addr
        growDirect needed left fs (setSize mi (mi.data.size + fs.dsb.blockSize)) (i + 1)

/-- The loop over the entries of the indirect block, which is changed in place. -/
def growIndirect (needed : ℤ) : ℕ → Myfs → Inode → ℤ → ℤ × Inode × Myfs
  | 0, fs, mi, _ => (0, mi, fs)
  | left + 1, fs, mi, i =>
    if needed ≤ i then (0, mi, fs)
    else
      let (err, addr, fs) := growBlock fs
      if err ≠ 0 then (err, mi, fs)
      else
        let block := putWord64 (fs.dataArea mi.data.indirect)
          (8 * (maxIndex fs - (left + 1))) addr
        growIndirect needed left (storeBlock fs mi.data.indirect block)
          (setSize mi (mi.data.size + fs.dsb.blockSize)) (i + 1)

/-- The indirect block of the stream, allocated and cleared when there is none. -/
def openIndirect (fs : Myfs) (mi : Inode) : ℤ × Inode × Myfs :=
  if mi.data.indirect = 0 then
    let (err, addr, fs) := growBlock fs
    if err ≠ 0 then (err, mi, fs)
    else (0, setIndirect mi addr, storeBlock fs addr fun _ => 0)
  else (0, mi, fs)

def growEnd (fs : Myfs) (mi : Inode) : ℤ × Inode × Myfs :=
  if maxIndirectRange fs.dsb.blockSize ≤ mi.data.size then (E2BIG, mi, fs) else (-1, mi, fs)

/-- The second half of `grow_dstream`, from the indirect range on. -/
def growIndirectRange (fs : Myfs) (mi : Inode) (newSize needed i : ℤ) : ℤ × Inode × Myfs :=
  let bsize : ℤ := fs.dsb.blockSize
  if directSize bsize ≤ mi.data.size ∧ mi.data.size < maxIndirectRange bsize then
    let (err, mi, fs) := openIndirect fs mi
    if err ≠ 0 then (err, mi, fs)
    else
      let index := ((mi.data.size - directSize bsize) / bsize).toNat
      let (err, mi, fs) := growIndirect needed (maxIndex fs - index) fs mi i
      if err ≠ 0 then (err, mi, fs)
      else if newSize ≤ mi.data.size then (0, setSize mi newSize, fs)
      else growEnd fs mi
  else growEnd fs mi

/-- The first guard compares as unsigned numbers, so a negative size is too big. -/
def growDstream (fs : Myfs) (mi : Inode) (newSize : ℤ) : Except Halt (ℤ × Inode × Myfs) :=
  let bsize : ℤ := fs.dsb.blockSize
  if newSize < 0 ∨ maxDoubleIndirectRange bsize < newSize then .ok (E2BIG, mi, fs)
  else
    let curSizeRounded := roundUp mi.data.size bsize
    let newSizeRounded := roundUp newSize bsize
    if curSizeRounded = newSizeRounded then .ok (0, setSize mi newSize, fs)
    else
      let needed := (newSizeRounded - curSizeRounded) / bsize
      let mi := setSize mi curSizeRounded
      if curSizeRounded < directSize bsize then
        let index := (curSizeRounded / bsize).toNat
        if mi.data.direct index ≠ 0 then .error .myfsDie
        else
          let (err, i, mi, fs) := growDirect needed (numDirectBlocks - index) fs mi 0
          if err ≠ 0 then .ok (err, mi, fs)
          else if newSize ≤ mi.data.size then .ok (0, setSize mi newSize, fs)
          else .ok (growIndirectRange fs mi newSize needed i)
      else .ok (growIndirectRange fs mi newSize needed 0)

/-- The loop that frees the entries of a block from `maxIdx - left` on, up to a zero. -/
def freeEntries (block : Block) (maxIdx : ℕ) : ℕ → Myfs → Myfs
  | 0, fs => fs
  | left + 1, fs =>
    let addr := blockEntry block (maxIdx - (left + 1))
    if addr = 0 then fs else freeEntries block maxIdx left (myfsFreeBlocks fs addr 1).2

/-- The same loop in the double indirect range, which does not stop at a zero. -/
def freeAllEntries (block : Block) (maxIdx : ℕ) : ℕ → Myfs → Myfs
  | 0, fs => fs
  | left + 1, fs =>
    freeAllEntries block maxIdx left
      (myfsFreeBlocks fs (blockEntry block (maxIdx - (left + 1))) 1).2

/-- The loop over the entries of the double indirect block, with `j` and `free_block2`. -/
def freeDoubleEntries (block : Block) (maxIdx : ℕ) : ℕ → ℕ → Bool → Myfs → Myfs
  | 0, _, _, fs => fs
  | left + 1, j, freeBlock2, fs =>
    let addr := blockEntry block (maxIdx - (left + 1))
    if addr = 0 then fs
    else
      let fs := freeAllEntries (fs.dataArea addr) maxIdx (maxIdx - j) fs
      let fs := if freeBlock2 then (myfsFreeBlocks fs addr 1).2 else fs
      freeDoubleEntries block maxIdx left 0 true fs

def shrinkDoubleIndirect (fs : Myfs) (mi : Inode) (newSizeRounded : ℤ) : Inode × Myfs :=
  let bsize : ℤ := fs.dsb.blockSize
  let beyond := newSizeRounded - maxIndirectRange bsize
  let i := if beyond < 0 then 0 else (beyond / indirectSize bsize).toNat
  let j := if beyond < 0 then 0 else (beyond % indirectSize bsize / bsize).toNat
  let fs := freeDoubleEntries (fs.dataArea mi.data.doubleIndirect) (maxIndex fs)
    (maxIndex fs - i) j (j = 0) fs
  if i = 0 then
    ({ mi with data := { mi.data with doubleIndirect := 0 } },
      (myfsFreeBlocks fs mi.data.doubleIndirect 1).2)
  else (mi, fs)

/-- The entries of the indirect block are freed but not cleared. -/
def shrinkIndirect (fs : Myfs) (mi : Inode) (newSizeRounded : ℤ) : Inode × Myfs :=
  let bsize : ℤ := fs.dsb.blockSize
  let i := if directSize bsize < newSizeRounded then
    ((newSizeRounded - directSize bsize) / bsize).toNat else 0
  let fs := freeEntries (fs.dataArea mi.data.indirect) (maxIndex fs) (maxIndex fs - i) fs
  if i = 0 then (setIndirect mi 0, (myfsFreeBlocks fs mi.data.indirect 1).2) else (mi, fs)

def freeDirect : ℕ → Myfs → Inode → Inode × Myfs
  | 0, fs, mi => (mi, fs)
  | left + 1, fs, mi =>
    let i := numDirectBlocks - (left + 1)
    if mi.data.direct i = 0 then (mi, fs)
    else freeDirect left (myfsFreeBlocks fs (mi.data.direct i) 1).2 (setDirect mi i 0)

def shrinkDstream (fs : Myfs) (mi : Inode) (newSize : ℤ) : ℤ × Inode × Myfs :=
  let bsize : ℤ := fs.dsb.blockSize
  if newSize < 0 ∨ maxDoubleIndirectRange bsize < newSize then (E2BIG, mi, fs)
  else
    let curSizeRounded := roundUp mi.data.size bsize
    let newSizeRounded := roundUp (newSize - 1) bsize
    if curSizeRounded = newSizeRounded then (0, setSize mi newSize, fs)
    else
      let (mi, fs) :=
        if newSizeRounded < maxDoubleIndirectRange bsize ∧ mi.data.doubleIndirect ≠ 0 then
          shrinkDoubleIndirect fs mi newSizeRounded
        else (mi, fs)
      let (mi, fs) :=
        if newSizeRounded < maxIndirectRange bsize ∧ mi.data.indirect ≠ 0 then
          shrinkIndirect fs mi newSizeRounded
        else (mi, fs)
      let (mi, fs) :=
        if newSizeRounded < directSize bsize then
          freeDirect (numDirectBlocks - (newSizeRounded / bsize).toNat) fs mi
        else (mi, fs)
      (0, setSize mi newSize, fs)

/-- The record itself goes to block 0 past the cache; nothing here reads it back. -/
def writeSuperBlock (fs : Myfs) : Myfs := { fs with dsb := { fs.dsb with flags := .clean } }

/-- `memcpy` of `amt` bytes of `src` to `offset` in a block. -/
def copyInto (block : Block) (offset amt : ℕ) (src : ℕ → UInt8) : Block := fun i =>
  if offset ≤ i ∧ i < offset + amt then src (i - offset) else block i

/-- One round of the writing loops: the block under `pos` gets `amt` bytes of `src`. -/
def writeChunk (fs : Myfs) (mi : Inode) (pos : ℤ) (offset amt : ℕ) (src : ℕ → UInt8) :
    Except Halt (Option Myfs) := do
  let addr ← filePosToDiskAddr fs mi pos
  if addr < 0 then pure none
  else pure (some (storeBlock fs addr (copyInto (fs.dataArea addr) offset amt src)))

/-- The main loop: `done` bytes are written, and every round writes at least one more. -/
def writeLoop (mi : Inode) (buf : ℕ → UInt8) (len : ℕ) :
    ℕ → Myfs → ℤ → ℕ → Except Halt (ℤ × ℕ × Myfs)
  | 0, fs, _, done => .ok (0, done, fs)
  | fuel + 1, fs, pos, done =>
    if len ≤ done then .ok (0, done, fs)
    else
      let amt := if len - done < fs.dsb.blockSize then len - done else fs.dsb.blockSize
      (writeChunk fs mi pos 0 amt fun k => buf (done + k)).bind fun
        | none => .ok (EINVAL, done, fs)
        | some fs' => writeLoop mi buf len fuel fs' (pos + amt) (done + amt)

/-- The part of `myfs_write_data_stream` behind the growth of the stream. -/
def writeBytes (fs : Myfs) (mi : Inode) (pos : ℤ) (buf : ℕ → UInt8) (len : ℕ) :
    Except Halt (ℤ × ℕ × Myfs) :=
  let bsize : ℤ := fs.dsb.blockSize
  (filePosToDiskAddr fs mi pos).bind fun addr =>
    if addr < 0 then .ok (EINVAL, 0, fs)
    else if pos % bsize ≠ 0 then
      let offset := (pos % bsize).toNat
      let amt := if len < fs.dsb.blockSize - offset then len else fs.dsb.blockSize - offset
      let fs := storeBlock fs addr (copyInto (fs.dataArea addr) offset amt buf)
      writeLoop mi buf len len fs (pos + amt) amt
    else writeLoop mi buf len len fs pos 0

def growForWrite (fs : Myfs) (mi : Inode) (newSize : ℤ) : Except Halt (ℤ × Inode × Myfs) :=
  if mi.data.size < newSize then
    (growDstream fs mi newSize).bind fun (err, mi, fs) =>
      if err ≠ 0 then .ok (err, mi, fs)
      else
        let mi := { mi with lastModifiedTime := fs.now }
        (updateInode fs mi).map fun fs => (0, mi, writeSuperBlock fs)
  else .ok (0, mi, fs)

/-- Returns the error, `*_len`, the inode and the file system. -/
def myfsWriteDataStream (fs : Myfs) (mi : Inode) (pos : ℤ) (buf : ℕ → UInt8) (len : ℕ) :
    Except Halt (ℤ × ℕ × Inode × Myfs) :=
  if len = 0 then .ok (0, len, mi, fs)
  else
    let pos := if pos < 0 then 0 else pos
    (growForWrite fs mi (pos + len)).bind fun (err, mi, fs) =>
      if err ≠ 0 then .ok (err, len, mi, fs)
      else
        (writeBytes fs mi pos buf len).bind fun (err, done, fs) =>
          if err ≠ 0 then .ok (err, done, mi, fs)
          else
            let mi := { mi with lastModifiedTime := fs.now }
            (updateInode fs mi).map fun fs => (0, done, mi, fs)

def myfsSetFileSize (fs : Myfs) (mi : Inode) (newSize : ℤ) : Except Halt (ℤ × Inode × Myfs) :=
  if newSize = mi.data.size then .ok (0, mi, fs)
  else
    (if newSize < mi.data.size then .ok (shrinkDstream fs mi newSize)
      else growDstream fs mi newSize).bind fun (err, mi, fs) =>
      if err ≠ 0 then .ok (err, mi, fs)
      else
        let mi := { mi with lastModifiedTime := fs.now }
        (updateInode fs mi).map fun fs => (0, mi, writeSuperBlock fs)

def myfsFreeDataStream (fs : Myfs) (mi : Inode) : ℤ × Inode × Myfs :=
  let (_, mi, fs) := shrinkDstream fs mi 0
  (0, mi, writeSuperBlock fs)

/-- The reading loop: `out` holds the bytes read so far, `*_len` of them. -/
def readLoop (fs : Myfs) (mi : Inode) (len : ℕ) :
    ℕ → ℤ → ℕ → (ℕ → UInt8) → Except Halt (ℤ × ℕ × (ℕ → UInt8))
  | 0, _, count, out => .ok (0, count, out)
  | fuel + 1, pos, count, out =>
    if len ≤ count then .ok (0, count, out)
    else
      (filePosToDiskAddr fs mi pos).bind fun addr =>
        if addr < 0 then .ok (EINVAL, count, out)
        else
          let amt := if len - count < fs.dsb.blockSize then len - count else fs.dsb.blockSize
          readLoop fs mi len fuel (pos + amt) (count + amt)
            (copyInto out count amt (fs.dataArea addr))

/-- Returns the error, `*_len` and the buffer. -/
def myfsReadDataStream (fs : Myfs) (mi : Inode) (pos : ℤ) (buf : ℕ → UInt8) (len : ℕ) :
    Except Halt (ℤ × ℕ × (ℕ → UInt8)) :=
  let bsize : ℤ := fs.dsb.blockSize
  if len = 0 then .ok (0, len, buf)
  else
    let pos := if pos < 0 then 0 else pos
    if mi.data.size < pos then .ok (0, 0, buf)
    else
      let len := if mi.data.size < pos + len then (mi.data.size - pos).toNat else len
      (filePosToDiskAddr fs mi pos).bind fun addr =>
        if addr < 0 then .ok (EINVAL, 0, buf)
        else if pos % bsize ≠ 0 then
          let offset := (pos % bsize).toNat
          let amt := if len < fs.dsb.blockSize - offset then len else fs.dsb.blockSize - offset
          let out := copyInto buf 0 amt fun k => fs.dataArea addr (offset + k)
          readLoop fs mi len len (pos + amt) amt out
        else readLoop fs mi len len pos 0 buf

/-- The small disk with its storage map made and the blocks of its inodes reserved. -/
def madeDisk : Myfs :=
  (preAllocateBlocks (myfsCreateStorageMap smallDisk).2 2 0).2.2.2

end DataStreamBlocks
