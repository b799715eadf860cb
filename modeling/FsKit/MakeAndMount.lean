import Mathlib.Tactic
import FsKit.DirectoryOps
import FsKit.FailedCreate

/-! Making a file system and mounting it (`mount.c`, with `read_super_block` and
`write_super_block` of `io.c` and `myfs_create_inodes` of `inode.c`). The two sides compute
the block size of the device on their own; the device reports 512 bytes. -/
namespace MakeAndMount

open MachineIntegers
open BitVectorSearch BlockBitmap InodeTable DataStreamBlocks DirectoryOps
open FailedCreate (writeBytes_frame)

def EBADF : ℤ := 9

def SUPER_BLOCK_MAGIC1 : BitVec 32 := 0x4d594653
def SUPER_BLOCK_MAGIC2 : BitVec 32 := 0xce0169f9
def SUPER_BLOCK_MAGIC3 : BitVec 32 := 0x53424c4b
def MYFS_BIG_ENDIAN : BitVec 32 := 0x42494745

/-- The super block as it is on disk. -/
structure DiskSuper where
  magic1 : BitVec 32
  fsByteOrder : BitVec 32
  blockShift : ℕ
  dsb : SuperBlock
  magic2 : BitVec 32
  rootInum : ℤ
  magic3 : BitVec 32

/-- The file that stands for the device, and the record its first bytes hold. -/
structure Device where
  size : ℕ
  super : DiskSuper

def getDeviceBlockSize : ℤ := 512

def getNumDeviceBlocks (dev : Device) : ℤ := (dev.size : ℤ).tdiv getDeviceBlockSize

/-- What the host answers while a file system is made. -/
structure Host where
  opens : Bool
  metaArea : ℤ → Block
  dataArea : ℤ → Block
  cacheFails : ℤ → ℤ → Bool
  superFails : Bool
  now : ℤ
  uid : ℤ
  gid : ℤ
  stack : ℕ → UInt8

/-- The loops that zero the inode map and the inode table; a failed write ends them. -/
def zeroBlocks (start : ℤ) : ℕ → ℤ → Myfs → Myfs
  | 0, _, fs => fs
  | left + 1, i, fs =>
    let (amt, fs) := writeBlocks fs (start + i) (fun _ => 0) 1
    if amt ≠ 1 then fs else zeroBlocks start left (i + 1) fs

def myfsCreateInodes (fs : Myfs) : ℤ × Myfs :=
  let bsize : ℤ := fs.dsb.blockSize
  let numInodes := fs.dsb.numBlocks >>> 2
  let numInodeBlocks := (numInodes * myfsInode).tdiv bsize
  let numMapBlocks := (numInodeBlocks.tdiv 8).tdiv bsize + 1
  let (err, numMapBlocks, mapStart, fs) := preAllocateBlocks fs numMapBlocks 0
  if err ≠ 0 then (ENOSPC, fs)
  else
    let (err, numInodeBlocks, inodesStart, fs) := preAllocateBlocks fs numInodeBlocks 0
    if err ≠ 0 then (ENOSPC, fs)
    else
      let fs := zeroBlocks mapStart numMapBlocks.toNat 0 fs
      let fs := zeroBlocks inodesStart numInodeBlocks.toNat 0 fs
      let fs := { fs with
        dsb := { fs.dsb with
          numInodes := numInodes
          inodesStart := inodesStart
          numInodeBlocks := numInodeBlocks
          inodeMapStart := mapStart
          numInodeMapBlocks := numMapBlocks }
        inodeMap := (getFreeRangeOfBits (newVector numInodes) 1).2.2 }
      (0, (writeBlocks fs mapStart (chunkByte fs.inodeMap.bits) 1).2)

/-- Returns the error, the number of the root inode and the file system. A positive error of
`make_dir` goes on with a pointer never set. -/
def myfsCreateRootDir (fs : Myfs) (stack : ℕ → UInt8) : Except Halt (ℤ × ℤ × Myfs) :=
  (makeDir fs none 0o777 stack).bind fun (ret, mi, fs) =>
    if ret < 0 then .ok (ret, 0, fs)
    else
      match mi with
      | none => .error .wildPointer
      | some mi => .ok (0, mi.inodeNum, fs)

/-- The first power of two that is the block size. -/
def findShift (blockSize : ℤ) : Option ℕ :=
  (List.range 32).find? fun bshift => toInt32 (2 ^ bshift) = blockSize

/-- The structure that `calloc` returns, with its geometry filled in. -/
def blankFs (host : Host) (blockSize numBlocks : ℤ) : Myfs :=
  { dsb := ⟨blockSize.toNat, numBlocks, 0, 0, 0, 0, 0, 0, .clean⟩
    bv := newVector 0
    numBitmapBlocks := 0
    inodeMap := newVector 0
    readOnly := false
    metaArea := host.metaArea
    dataArea := host.dataArea
    cacheFails := host.cacheFails
    now := host.now
    uid := host.uid
    gid := host.gid }

/-- As many bytes as a block has go to the start of the device, which grows if it is shorter. -/
def storeSuperBlock (dev : Device) (super : DiskSuper) : Device :=
  ⟨max dev.size super.dsb.blockSize, super⟩

/-- A file system that was made, and the device with its super block. -/
structure Made where
  fs : Myfs
  dev : Device

/-- The end of `myfs_create_fs`, from the storage map on. -/
def fillDevice (host : Host) (dev : Device) (fs : Myfs) (bshift : ℕ) :
    Except Halt (Option Made) :=
  let (err, fs) := myfsCreateStorageMap fs
  if err ≠ 0 then .ok none
  else
    let (err, fs) := myfsCreateInodes fs
    if err ≠ 0 then .ok none
    else
      (myfsCreateRootDir fs host.stack).bind fun (err, rootInum, fs) =>
        if err ≠ 0 then .ok none
        else if host.superFails then .ok none
        else
          let fs := writeSuperBlock fs
          .ok (some ⟨fs, storeSuperBlock dev ⟨SUPER_BLOCK_MAGIC1, MYFS_BIG_ENDIAN, bshift, fs.dsb,
            SUPER_BLOCK_MAGIC2, rootInum, SUPER_BLOCK_MAGIC3⟩⟩)

/-- A creation that fails has no result. Its cleanup may crash, as it gives `delete_sem` a semaphore
that was not made. -/
def myfsCreateFs (host : Host) (dev : Device) (blockSize : ℤ) : Except Halt (Option Made) :=
  if blockSize % myfsInode ≠ 0 then .ok none
  else
    let blockSize := if blockSize < 512 then 512 else blockSize
    match findShift blockSize with
    | none => .ok none
    | some bshift =>
      if host.opens = false then .ok none
      else
        let devBlockSize := getDeviceBlockSize
        let blockSize := if blockSize < devBlockSize then devBlockSize else blockSize
        if blockSize.tmod devBlockSize ≠ 0 then .ok none
        else
          let devBlockConversion := blockSize.tdiv devBlockSize
          fillDevice host dev
            (blankFs host blockSize ((getNumDeviceBlocks dev).tdiv devBlockConversion)) bshift

/-- What a mount has read and computed. -/
structure Mounting where
  super : DiskSuper
  devBlockSize : ℤ
  devBlockConversion : ℤ

def readSuperBlock (dev : Device) : Except ℤ Mounting :=
  let blockSize := if getDeviceBlockSize < 1024 then 1024 else getDeviceBlockSize
  if (dev.size : ℤ) < blockSize then .error EINVAL
  else .ok ⟨dev.super, blockSize, (dev.super.dsb.blockSize : ℤ).tdiv blockSize⟩

/-- The branch that repairs a block size or a shift that do not match. -/
def repairShift (super : DiskSuper) : Option DiskSuper :=
  if 8 < super.blockShift ∧ super.blockShift < 16 then
    some { super with dsb := { super.dsb with blockSize := 2 ^ super.blockShift } }
  else
    match findShift (toInt32 super.dsb.blockSize) with
    | none => none
    | some i => if 16 < i then none else some { super with blockShift := i }

def superBlockIsSane (dev : Device) (m : Mounting) : Option Mounting :=
  if m.super.magic1 ≠ SUPER_BLOCK_MAGIC1 ∨ m.super.magic2 ≠ SUPER_BLOCK_MAGIC2 ∨
      m.super.magic3 ≠ SUPER_BLOCK_MAGIC3 then none
  else if (m.super.dsb.blockSize : ℤ).tmod m.devBlockSize ≠ 0 then none
  else if getDeviceBlockSize = 0 then none
  else if toInt64 (getNumDeviceBlocks dev * getDeviceBlockSize) <
      toInt64 (m.super.dsb.numBlocks * m.super.dsb.blockSize) then none
  else if m.super.dsb.blockSize ≠ 2 ^ m.super.blockShift % 2 ^ 32 then
    (repairShift m.super).map fun super => { m with super := super }
  else some m

/-- The checks of `myfs_mount` on the super block of a device. -/
def mountChecks (dev : Device) : Except ℤ Mounting :=
  (readSuperBlock dev).bind fun m =>
    match superBlockIsSane dev m with
    | none => .error EBADF
    | some m => if m.super.dsb.blockSize % myfsInode ≠ 0 then .error EINVAL else .ok m

section Geometry

/-- The part of the super block that is fixed before anything is allocated. -/
def geometry (fs : Myfs) : ℕ × ℤ := (fs.dsb.blockSize, fs.dsb.numBlocks)

theorem writeBlocks_geometry (fs : Myfs) (n : ℤ) (mem : ℕ → UInt8) (k : ℤ) :
    geometry (writeBlocks fs n mem k).2 = geometry fs := by
  obtain ⟨area, h⟩ := writeBlocks_frame fs n mem k
  rw [h]
  rfl

theorem myfsCreateStorageMap_geometry (fs : Myfs) :
    geometry (myfsCreateStorageMap fs).2 = geometry fs := by
  unfold myfsCreateStorageMap
  dsimp only
  split
  · rfl
  · split
    · exact writeBlocks_geometry _ _ _ _
    · exact writeBlocks_geometry _ _ _ _

theorem realAllocateBlocks_geometry (fs : Myfs) (c a : ℤ) (mode : AllocMode) :
    geometry (realAllocateBlocks fs c a mode).2.2.2 = geometry fs := by
  unfold realAllocateBlocks
  split
  · rfl
  split
  · rfl
  dsimp only
  split
  · rfl
  split
  · exact writeBlocks_geometry _ _ _ _
  · exact writeBlocks_geometry _ _ _ _

theorem zeroBlocks_geometry (start : ℤ) (left : ℕ) (i : ℤ) (fs : Myfs) :
    geometry (zeroBlocks start left i fs) = geometry fs := by
  induction left generalizing i fs with
  | zero => rfl
  | succ left ih =>
    rw [zeroBlocks]
    dsimp only
    split
    · exact writeBlocks_geometry _ _ _ _
    · exact (ih _ _).trans (writeBlocks_geometry _ _ _ _)

theorem myfsCreateInodes_geometry (fs : Myfs) :
    geometry (myfsCreateInodes fs).2 = geometry fs := by
  unfold myfsCreateInodes preAllocateBlocks
  dsimp only
  split
  · exact realAllocateBlocks_geometry _ _ _ _
  split
  · exact (realAllocateBlocks_geometry _ _ _ _).trans (realAllocateBlocks_geometry _ _ _ _)
  refine (writeBlocks_geometry _ _ _ _).trans ?_
  refine (zeroBlocks_geometry _ _ _ _).trans ?_
  refine (zeroBlocks_geometry _ _ _ _).trans ?_
  exact (realAllocateBlocks_geometry _ _ _ _).trans (realAllocateBlocks_geometry _ _ _ _)

theorem growBlock_geometry (fs : Myfs) : geometry (growBlock fs).2.2 = geometry fs := by
  unfold growBlock myfsAllocateBlocks
  dsimp only
  split
  · exact realAllocateBlocks_geometry _ _ _ _
  split <;> exact realAllocateBlocks_geometry _ _ _ _

theorem growDirect_geometry (needed : ℤ) (left : ℕ) (fs : Myfs) (mi : Inode) (i : ℤ) :
    geometry (growDirect needed left fs mi i).2.2.2 = geometry fs := by
  induction left generalizing fs mi i with
  | zero => rfl
  | succ left ih =>
    rw [growDirect]
    split
    · rfl
    dsimp only
    split
    · exact growBlock_geometry fs
    · exact (ih _ _ _).trans (growBlock_geometry fs)

theorem growIndirect_geometry (needed : ℤ) (left : ℕ) (fs : Myfs) (mi : Inode) (i : ℤ) :
    geometry (growIndirect needed left fs mi i).2.2 = geometry fs := by
  induction left generalizing fs mi i with
  | zero => rfl
  | succ left ih =>
    rw [growIndirect]
    split
    · rfl
    dsimp only
    split
    · exact growBlock_geometry fs
    · exact (ih _ _ _).trans (growBlock_geometry fs)

theorem openIndirect_geometry (fs : Myfs) (mi : Inode) :
    geometry (openIndirect fs mi).2.2 = geometry fs := by
  unfold openIndirect
  split
  · dsimp only
    split
    · exact growBlock_geometry fs
    · exact growBlock_geometry fs
  · rfl

theorem growEnd_geometry (fs : Myfs) (mi : Inode) : geometry (growEnd fs mi).2.2 = geometry fs := by
  unfold growEnd
  split <;> rfl

theorem growIndirectRange_geometry (fs : Myfs) (mi : Inode) (newSize needed i : ℤ) :
    geometry (growIndirectRange fs mi newSize needed i).2.2 = geometry fs := by
  unfold growIndirectRange
  dsimp only
  split
  · split
    · exact openIndirect_geometry fs mi
    have hgrown := fun left => (growIndirect_geometry needed left (openIndirect fs mi).2.2
      (openIndirect fs mi).2.1 i).trans (openIndirect_geometry fs mi)
    split
    · exact hgrown _
    split
    · exact hgrown _
    · exact (growEnd_geometry _ _).trans (hgrown _)
  · exact growEnd_geometry _ _

/-- The file system that a call hands back, if it comes back. -/
def Keeps {α : Type} (fs : Myfs) (state : α → Myfs) (r : Except Halt α) : Prop :=
  ∀ a, r = .ok a → geometry (state a) = geometry fs

theorem Keeps.ok {α : Type} {fs : Myfs} {state : α → Myfs} {a : α}
    (h : geometry (state a) = geometry fs) : Keeps fs state (.ok a) := by
  rintro b ⟨⟩
  exact h

theorem Keeps.bind {α β : Type} {fs : Myfs} {state : α → Myfs} {state' : β → Myfs}
    {r : Except Halt α} {k : α → Except Halt β} (h : Keeps fs state r)
    (hk : ∀ a, r = .ok a → Keeps (state a) state' (k a)) : Keeps fs state' (r.bind k) := by
  cases r with
  | error e =>
    intro b hb
    cases hb
  | ok a =>
    intro b hb
    exact (hk a rfl b hb).trans (h a rfl)

theorem Keeps.map {α β : Type} {fs : Myfs} {state : α → Myfs} {state' : β → Myfs}
    {r : Except Halt α} {k : α → β} (h : Keeps fs state r)
    (hk : ∀ a, geometry (state' (k a)) = geometry (state a)) : Keeps fs state' (r.map k) := by
  cases r with
  | error e =>
    intro b hb
    cases hb
  | ok a =>
    rintro b ⟨⟩
    exact (hk a).trans (h a rfl)

theorem growDstream_keeps (fs : Myfs) (mi : Inode) (newSize : ℤ) :
    Keeps fs (fun r => r.2.2) (growDstream fs mi newSize) := by
  unfold growDstream
  dsimp only
  split
  · exact .ok rfl
  split
  · exact .ok rfl
  split
  · split
    · rintro a ⟨⟩
    have hdirect := growDirect_geometry ((roundUp newSize fs.dsb.blockSize -
      roundUp mi.data.size fs.dsb.blockSize) / fs.dsb.blockSize)
    split
    · exact .ok (hdirect _ _ _ _)
    split
    · exact .ok (hdirect _ _ _ _)
    · exact .ok ((growIndirectRange_geometry _ _ _ _ _).trans (hdirect _ _ _ _))
  · exact .ok (growIndirectRange_geometry _ _ _ _ _)

theorem updateInode_keeps (fs : Myfs) (mi : Inode) : Keeps fs id (updateInode fs mi) := by
  unfold updateInode
  dsimp only
  split
  · rintro a ⟨⟩
  · exact .ok rfl

theorem growForWrite_keeps (fs : Myfs) (mi : Inode) (newSize : ℤ) :
    Keeps fs (fun r => r.2.2) (growForWrite fs mi newSize) := by
  unfold growForWrite
  split
  · refine (growDstream_keeps fs mi newSize).bind fun r _ => ?_
    dsimp only
    split
    · exact .ok rfl
    · exact (updateInode_keeps _ _).map fun _ => rfl
  · exact .ok rfl

theorem myfsWriteDataStream_keeps (fs : Myfs) (mi : Inode) (pos : ℤ) (buf : ℕ → UInt8)
    (len : ℕ) : Keeps fs (fun r => r.2.2.2) (myfsWriteDataStream fs mi pos buf len) := by
  unfold myfsWriteDataStream
  split
  · exact .ok rfl
  refine (growForWrite_keeps fs mi _).bind fun r _ => ?_
  dsimp only
  split
  · exact .ok rfl
  have hbytes : Keeps r.2.2 (fun w => w.2.2)
      (writeBytes r.2.2 r.2.1 (if pos < 0 then 0 else pos) buf len) := by
    rintro ⟨err, count, fs'⟩ hw
    rw [geometry, (writeBytes_frame hw).2, geometry]
  refine hbytes.bind fun w _ => ?_
  obtain ⟨err, count, fs'⟩ := w
  dsimp only
  split
  · exact .ok rfl
  · exact (updateInode_keeps _ _).map fun _ => rfl

theorem myfsAllocateInode_keeps (fs : Myfs) (mode : ℤ) :
    Keeps fs Prod.snd (myfsAllocateInode fs mode) := by
  unfold myfsAllocateInode
  dsimp only
  split
  · exact .ok rfl
  split
  · rintro a ⟨⟩
  · exact .ok (writeBlocks_geometry _ _ _ _)

theorem myfsFreeInode_geometry (fs : Myfs) (ia : ℤ) :
    geometry (myfsFreeInode fs ia).2 = geometry fs := by
  unfold myfsFreeInode
  exact writeBlocks_geometry _ _ _ _

theorem makeDir_keeps (fs : Myfs) (parent : Option Inode) (mode : ℤ) (stack : ℕ → UInt8) :
    Keeps fs (fun r => r.2.2) (makeDir fs parent mode stack) := by
  unfold makeDir
  refine (myfsAllocateInode_keeps fs mode).bind fun r _ => ?_
  match r with
  | (none, fs₁) => exact .ok rfl
  | (some mi, fs₁) =>
    dsimp only
    refine (myfsWriteDataStream_keeps fs₁ _ 0 _ 32).bind fun w _ => ?_
    obtain ⟨ret, len, mi', fs₂⟩ := w
    dsimp only
    split
    · exact .ok (myfsFreeInode_geometry _ _)
    · exact (updateInode_keeps _ _).map fun _ => rfl

theorem myfsCreateRootDir_keeps (fs : Myfs) (stack : ℕ → UInt8) :
    Keeps fs (fun r => r.2.2) (myfsCreateRootDir fs stack) := by
  unfold myfsCreateRootDir
  refine (makeDir_keeps fs none 0o777 stack).bind fun r _ => ?_
  obtain ⟨ret, mi, fs₁⟩ := r
  dsimp only
  split
  · exact .ok rfl
  · cases mi with
    | none =>
      rintro a ⟨⟩
    | some mi => exact .ok rfl

end Geometry

/-- What `myfs_create_fs` leaves on the device. -/
structure Created (dev : Device) (fs₀ : Myfs) (bshift : ℕ) (made : Made) : Prop where
  magic1 : made.dev.super.magic1 = SUPER_BLOCK_MAGIC1
  magic2 : made.dev.super.magic2 = SUPER_BLOCK_MAGIC2
  magic3 : made.dev.super.magic3 = SUPER_BLOCK_MAGIC3
  shift : made.dev.super.blockShift = bshift
  blockSize : made.dev.super.dsb.blockSize = fs₀.dsb.blockSize
  numBlocks : made.dev.super.dsb.numBlocks = fs₀.dsb.numBlocks
  size : made.dev.size = max dev.size fs₀.dsb.blockSize

theorem fillDevice_created {host : Host} {dev : Device} {fs : Myfs} {bshift : ℕ} {made : Made}
    (h : fillDevice host dev fs bshift = .ok (some made)) : Created dev fs bshift made := by
  unfold fillDevice at h
  have hmap := myfsCreateStorageMap_geometry fs
  generalize myfsCreateStorageMap fs = r at h hmap
  obtain ⟨err, fs₁⟩ := r
  dsimp only at h hmap
  split at h
  · cases h
  have hinodes := (myfsCreateInodes_geometry fs₁).trans hmap
  generalize myfsCreateInodes fs₁ = r at h hinodes
  obtain ⟨err', fs₂⟩ := r
  dsimp only at h hinodes
  split at h
  · cases h
  have hroot := myfsCreateRootDir_keeps fs₂ host.stack
  generalize myfsCreateRootDir fs₂ host.stack = r at h hroot
  cases r with
  | error e => cases h
  | ok r =>
    have hgeo := (hroot r rfl).trans hinodes
    obtain ⟨err'', rootInum, fs₃⟩ := r
    simp only [Except.bind] at h
    split at h
    · cases h
    split at h
    · cases h
    cases h
    have hbs : fs₃.dsb.blockSize = fs.dsb.blockSize := congrArg Prod.fst hgeo
    have hnum : fs₃.dsb.numBlocks = fs.dsb.numBlocks := congrArg Prod.snd hgeo
    exact ⟨rfl, rfl, rfl, rfl, hbs, hnum, congrArg (max dev.size) hbs⟩

theorem findShift_spec {b : ℤ} {k : ℕ} (hb : 0 ≤ b) (h : findShift b = some k) :
    b = 2 ^ k ∧ k < 31 := by
  have hk := List.find?_some h
  have hmem := List.mem_range.mp (List.mem_of_find?_eq_some h)
  have hval : toInt32 (2 ^ k) = b := by simpa using hk
  have hcases : ∀ k < 32, k < 31 ∧ toInt32 (2 ^ k) = 2 ^ k ∨ toInt32 (2 ^ k) < 0 := by
    decide +kernel
  rcases hcases k hmem with ⟨hlt, hpow⟩ | hneg
  · exact ⟨hval.symm.trans hpow, hlt⟩
  · omega

/-- The block size that is used for the one requested. -/
def usedBlockSize (blockSize : ℤ) : ℤ := if blockSize < 512 then 512 else blockSize

theorem myfsCreateFs_created {host : Host} {dev : Device} {blockSize : ℤ} {made : Made}
    (h : myfsCreateFs host dev blockSize = .ok (some made)) :
    ∃ k < 31, usedBlockSize blockSize = 2 ^ k ∧ Created dev (blankFs host (usedBlockSize blockSize)
      ((getNumDeviceBlocks dev).tdiv ((usedBlockSize blockSize).tdiv 512))) k made := by
  have hmin : 512 ≤ usedBlockSize blockSize := by
    unfold usedBlockSize
    split <;> omega
  have hdev : ¬usedBlockSize blockSize < getDeviceBlockSize := by
    unfold getDeviceBlockSize
    omega
  unfold myfsCreateFs at h
  split at h
  · cases h
  dsimp only at h
  rw [← usedBlockSize] at h
  cases hshift : findShift (usedBlockSize blockSize) with
  | none =>
    rw [hshift] at h
    cases h
  | some k =>
    obtain ⟨hpow, hk⟩ := findShift_spec (by omega) hshift
    rw [hshift] at h
    dsimp only at h
    split at h
    · cases h
    by_cases hmod : (usedBlockSize blockSize).tmod getDeviceBlockSize ≠ 0
    · rw [if_pos hmod] at h
      cases h
    · rw [if_neg hmod] at h
      exact ⟨k, hk, hpow, fillDevice_created h⟩

/-- The checks of a mount pass, and the super block they leave is the one that was made. -/
def Mountable (made : Made) : Prop :=
  ∃ m, mountChecks made.dev = .ok m ∧ m.super = made.dev.super

theorem readSuperBlock_eq (dev : Device) : readSuperBlock dev =
    if (dev.size : ℤ) < 1024 then .error EINVAL
    else .ok ⟨dev.super, 1024, (dev.super.dsb.blockSize : ℤ).tdiv 1024⟩ := by
  have hsize : (if getDeviceBlockSize < 1024 then 1024 else getDeviceBlockSize) = 1024 := by decide
  unfold readSuperBlock
  rw [hsize]

section Checks
variable {host : Host} {dev : Device} {b : ℤ} {k : ℕ} {made : Made}

theorem Created.fits (hb : b = 2 ^ k) (hk : 9 ≤ k)
    (h : Created dev (blankFs host b ((getNumDeviceBlocks dev).tdiv (b.tdiv 512))) k made) :
    0 ≤ made.dev.super.dsb.numBlocks ∧ made.dev.super.dsb.numBlocks * made.dev.super.dsb.blockSize ≤
      getNumDeviceBlocks made.dev * getDeviceBlockSize := by
  obtain ⟨j, rfl⟩ : ∃ j, k = 9 + j := ⟨k - 9, by omega⟩
  have hb' : b = 2 ^ j * 512 := by
    rw [hb, pow_add]
    ring
  have hj : (0 : ℤ) < 2 ^ j := by positivity
  have hconv : b.tdiv 512 = 2 ^ j := by
    rw [hb']
    exact Int.mul_tdiv_cancel _ (by decide)
  have hold : getNumDeviceBlocks dev = (dev.size / 512 : ℕ) := by
    unfold getNumDeviceBlocks getDeviceBlockSize
    rw [Int.tdiv_eq_ediv_of_nonneg (by omega)]
    rfl
  have hnew : getNumDeviceBlocks made.dev = (made.dev.size / 512 : ℕ) := by
    unfold getNumDeviceBlocks getDeviceBlockSize
    rw [Int.tdiv_eq_ediv_of_nonneg (by omega)]
    rfl
  have hgrown : dev.size / 512 ≤ made.dev.size / 512 := by
    rw [h.size]
    exact Nat.div_le_div_right (le_max_left _ _)
  have hcount : made.dev.super.dsb.numBlocks = ((dev.size / 512 : ℕ) : ℤ) / 2 ^ j := by
    rw [h.numBlocks, hconv, hold, blankFs]
    dsimp only
    exact Int.tdiv_eq_ediv_of_nonneg (Int.natCast_nonneg _)
  have hsize : (made.dev.super.dsb.blockSize : ℤ) = 2 ^ j * 512 := by
    rw [h.blockSize, ← hb']
    exact Int.toNat_of_nonneg (by rw [hb]; positivity)
  rw [hcount, hsize, hnew]
  refine ⟨Int.ediv_nonneg (by omega) hj.le, ?_⟩
  have hmul := Int.ediv_mul_le ((dev.size / 512 : ℕ) : ℤ) hj.ne'
  calc ((dev.size / 512 : ℕ) : ℤ) / 2 ^ j * (2 ^ j * 512)
      = ((dev.size / 512 : ℕ) : ℤ) / 2 ^ j * 2 ^ j * 512 := by ring
    _ ≤ ((dev.size / 512 : ℕ) : ℤ) * 512 := by omega
    _ ≤ ((made.dev.size / 512 : ℕ) : ℤ) * 512 := by omega

theorem Created.mountable (hb : b = 2 ^ k) (hk : 10 ≤ k) (hk' : k < 31) (hdev : dev.size < 2 ^ 63)
    (h : Created dev (blankFs host b ((getNumDeviceBlocks dev).tdiv (b.tdiv 512))) k made) :
    Mountable made := by
  obtain ⟨hnum, hfits⟩ := h.fits hb (by omega)
  have hsize : made.dev.super.dsb.blockSize = 2 ^ k := by
    rw [h.blockSize, blankFs, hb]
    exact_mod_cast Int.toNat_natCast (2 ^ k)
  have hpow : (2 : ℕ) ^ k ≤ 2 ^ 30 := Nat.pow_le_pow_right (by decide) (by omega)
  have hbig : 1024 ≤ (2 : ℕ) ^ k :=
    (show (1024 : ℕ) = 2 ^ 10 by decide) ▸ Nat.pow_le_pow_right (by decide) hk
  have hlen : made.dev.size = max dev.size (2 ^ k) := by rw [h.size, ← h.blockSize, hsize]
  have hlarge : 1024 ≤ made.dev.size := by omega
  have hdvd : (1024 : ℕ) ∣ 2 ^ k := (show (1024 : ℕ) = 2 ^ 10 by decide) ▸ pow_dvd_pow 2 hk
  have hdevice : getNumDeviceBlocks made.dev * getDeviceBlockSize ≤ made.dev.size := by
    unfold getNumDeviceBlocks getDeviceBlockSize
    rw [Int.tdiv_eq_ediv_of_nonneg (by omega)]
    omega
  have hprod : 0 ≤ made.dev.super.dsb.numBlocks * made.dev.super.dsb.blockSize :=
    mul_nonneg hnum (by omega)
  refine ⟨⟨made.dev.super, 1024, (made.dev.super.dsb.blockSize : ℤ).tdiv 1024⟩, ?_, rfl⟩
  have hread : readSuperBlock made.dev =
      .ok ⟨made.dev.super, 1024, (made.dev.super.dsb.blockSize : ℤ).tdiv 1024⟩ := by
    rw [readSuperBlock_eq, if_neg (by omega)]
  have hsane : superBlockIsSane made.dev
      ⟨made.dev.super, 1024, (made.dev.super.dsb.blockSize : ℤ).tdiv 1024⟩ =
      some ⟨made.dev.super, 1024, (made.dev.super.dsb.blockSize : ℤ).tdiv 1024⟩ := by
    unfold superBlockIsSane
    rw [if_neg (by simp [h.magic1, h.magic2, h.magic3]), if_neg, if_neg (by decide), if_neg, if_neg]
    · rw [h.shift, hsize, Nat.mod_eq_of_lt (by omega)]
      simp
    · rw [toInt64_of_lt (hprod.trans hfits) (by omega), toInt64_of_lt hprod (by omega)]
      omega
    · rw [hsize, not_not]
      exact Int.tmod_eq_zero_of_dvd (Int.natCast_dvd_natCast.mpr hdvd)
  unfold mountChecks
  rw [hread]
  simp only [Except.bind]
  rw [hsane]
  dsimp only
  rw [hsize, if_neg]
  rw [not_not]
  exact Nat.mod_eq_zero_of_dvd ((show (128 : ℕ) ∣ 1024 by decide).trans hdvd)

theorem Created.not_mountable
    (h : Created dev (blankFs host 512 ((getNumDeviceBlocks dev).tdiv 1)) k made) :
    ¬Mountable made := by
  have hsize : made.dev.super.dsb.blockSize = 512 := h.blockSize
  rintro ⟨m, hm, _⟩
  unfold mountChecks at hm
  rw [readSuperBlock_eq] at hm
  split at hm
  · cases hm
  simp only [Except.bind] at hm
  have hsane : superBlockIsSane made.dev
      ⟨made.dev.super, 1024, (made.dev.super.dsb.blockSize : ℤ).tdiv 1024⟩ = none := by
    unfold superBlockIsSane
    rw [if_neg (by simp [h.magic1, h.magic2, h.magic3]), if_pos]
    rw [hsize]
    exact (by decide : (512 : ℤ).tmod 1024 ≠ 0)
  rw [hsane] at hm
  cases hm

end Checks

/-- A file system that was made passes the checks of a mount, with its super block unchanged,
exactly if blocks of at least 1024 bytes were asked for. -/
theorem makefs_mountable_iff (host : Host) (dev : Device) (hdev : dev.size < 2 ^ 63)
    (blockSize : ℤ) (made : Made) (h : myfsCreateFs host dev blockSize = .ok (some made)) :
    Mountable made ↔ 1024 ≤ blockSize := by
  obtain ⟨k, hk, hpow, hcreated⟩ := myfsCreateFs_created h
  have hused : usedBlockSize blockSize = if blockSize < 512 then 512 else blockSize := rfl
  constructor
  · intro hm
    by_contra hsmall
    -- only 512 is left
    have hk9 : k = 9 := by
      have hlow : (2 : ℤ) ^ k < 2 ^ 10 := by
        rw [← hpow, hused]
        split <;> omega
      have hhigh : (2 : ℤ) ^ 8 < 2 ^ k := by
        rw [← hpow, hused]
        split <;> omega
      have h₁ := (pow_lt_pow_iff_right₀ (by decide : (1 : ℤ) < 2)).mp hlow
      have h₂ := (pow_lt_pow_iff_right₀ (by decide : (1 : ℤ) < 2)).mp hhigh
      omega
    subst hk9
    rw [hpow] at hcreated
    exact hcreated.not_mountable hm
  · intro hbig
    have hk10 : 10 ≤ k := by
      have hle : (2 : ℤ) ^ 9 < 2 ^ k := by
        rw [← hpow, hused, if_neg (by omega)]
        omega
      exact (pow_lt_pow_iff_right₀ (by decide : (1 : ℤ) < 2)).mp hle
    exact hcreated.mountable hpow hk10 hk hdev

/-- A device of 64 KB, with a host on which everything goes well. -/
def freshDevice : Device :=
  ⟨65536, ⟨0, 0, 0, ⟨0, 0, 0, 0, 0, 0, 0, 0, .clean⟩, 0, 0, 0⟩⟩

def goodHost : Host :=
  { opens := true
    metaArea := fun _ _ => 0
    dataArea := fun _ _ => 0
    cacheFails := fun _ _ => false
    superFails := false
    now := 0
    uid := 0
    gid := 0
    stack := fun _ => 0 }

/-- The call returns a file system. -/
def makes (r : Except Halt (Option Made)) : Bool :=
  match r with
  | .ok (some _) => true
  | _ => false

theorem makes_spec {r : Except Halt (Option Made)} (h : makes r = true) :
    ∃ made, r = .ok (some made) := by
  unfold makes at h
  split at h
  · exact ⟨_, rfl⟩
  · cases h

theorem makefs_mountable_freshDevice :
    ∃ made, myfsCreateFs goodHost freshDevice 1024 = .ok (some made) ∧ Mountable made := by
  obtain ⟨made, h⟩ := makes_spec (r := myfsCreateFs goodHost freshDevice 1024) (by decide +kernel)
  exact ⟨made, h, (makefs_mountable_iff goodHost freshDevice (by decide) 1024 made h).mpr le_rfl⟩

/-- The smallest block size that is accepted, on the same device. -/
theorem makefs_512_not_mountable :
    ∃ made, myfsCreateFs goodHost freshDevice 512 = .ok (some made) ∧ ¬Mountable made := by
  obtain ⟨made, h⟩ := makes_spec (r := myfsCreateFs goodHost freshDevice 512) (by decide +kernel)
  obtain ⟨k, _, _, hcreated⟩ := myfsCreateFs_created h
  exact ⟨made, h, hcreated.not_mountable⟩

section Sane

/-- What a mount relies on: the block size is the power of two that the shift says, it is made
of whole device blocks, and all the blocks are on the device. -/
structure Consistent (dev : Device) (m : Mounting) : Prop where
  power : m.super.dsb.blockSize = 2 ^ m.super.blockShift
  whole : m.devBlockSize ∣ m.super.dsb.blockSize
  fits : m.super.dsb.numBlocks * m.super.dsb.blockSize ≤ dev.size

/-- The block size and the shift do not match, and the repair trusts the shift. -/
def SizeFromShift (super : DiskSuper) : Prop :=
  super.dsb.blockSize ≠ 2 ^ super.blockShift ∧ 8 < super.blockShift ∧ super.blockShift < 16

/-- The super block with the block size that its shift says. -/
def resized (super : DiskSuper) : DiskSuper :=
  { super with dsb := { super.dsb with blockSize := 2 ^ super.blockShift } }

/-- What the checks establish before any repair. -/
structure Checked (dev : Device) (m : Mounting) : Prop where
  whole : m.devBlockSize ∣ m.super.dsb.blockSize
  fits : toInt64 (m.super.dsb.numBlocks * m.super.dsb.blockSize) ≤
    toInt64 (getNumDeviceBlocks dev * getDeviceBlockSize)

variable {dev : Device} {m m' : Mounting}

theorem findShift_toInt32 {b i : ℕ} (hb : b < 2 ^ 32) (hi : i ≤ 16)
    (h : findShift (toInt32 b) = some i) : b = 2 ^ i := by
  have hval : toInt32 (2 ^ i) = toInt32 b := by simpa using List.find?_some h
  have hpow : (2 : ℕ) ^ i ≤ 2 ^ 16 := Nat.pow_le_pow_right (by decide) hi
  rw [show (2 : ℤ) ^ i = ((2 ^ i : ℕ) : ℤ) by push_cast; rfl] at hval
  generalize 2 ^ i = p at hval hpow ⊢
  unfold toInt32 at hval
  have hmod := congrArg (· % ((2 ^ 32 : ℕ) : ℤ)) hval
  simp only [Int.bmod_emod] at hmod
  omega

/-- A repaired shift is the logarithm of the block size, so only it has changed. -/
theorem repairShift_cases {super super' : DiskSuper} (hb : super.dsb.blockSize < 2 ^ 32)
    (hne : super.dsb.blockSize ≠ 2 ^ super.blockShift) (h : repairShift super = some super') :
    SizeFromShift super ∧ super' = resized super ∨
    ¬SizeFromShift super ∧ ∃ i, super.dsb.blockSize = 2 ^ i ∧
      super' = { super with blockShift := i } := by
  unfold repairShift at h
  split at h
  · rename_i hmid
    cases h
    exact .inl ⟨⟨hne, hmid⟩, rfl⟩
  · rename_i hmid
    refine .inr ⟨fun hs => hmid hs.2, ?_⟩
    split at h
    · cases h
    · rename_i i hi
      split at h
      · cases h
      · cases h
        exact ⟨i, findShift_toInt32 hb (by omega) hi, rfl⟩

theorem superBlockIsSane_cases (hb : m.super.dsb.blockSize < 2 ^ 32)
    (hshift : m.super.blockShift < 31) (h : superBlockIsSane dev m = some m') :
    Checked dev m ∧ (SizeFromShift m.super ∧ m' = { m with super := resized m.super } ∨
      ¬SizeFromShift m.super ∧ ∃ i, m.super.dsb.blockSize = 2 ^ i ∧
        m' = { m with super := { m.super with blockShift := i } }) := by
  have hpow : (2 : ℕ) ^ m.super.blockShift ≤ 2 ^ 30 := Nat.pow_le_pow_right (by decide) (by omega)
  unfold superBlockIsSane at h
  split at h
  · cases h
  split at h
  · cases h
  rename_i hwhole
  split at h
  · cases h
  split at h
  · cases h
  rename_i hfits
  refine ⟨⟨Int.dvd_of_tmod_eq_zero (not_not.mp hwhole), not_lt.mp hfits⟩, ?_⟩
  rw [Nat.mod_eq_of_lt (by omega)] at h
  split at h
  · rename_i hne
    obtain ⟨super', hrep, rfl⟩ := Option.map_eq_some_iff.mp h
    rcases repairShift_cases hb hne hrep with ⟨hs, rfl⟩ | ⟨hs, i, hi, rfl⟩
    · exact .inl ⟨hs, rfl⟩
    · exact .inr ⟨hs, i, hi, rfl⟩
  · rename_i heq
    cases h
    exact .inr ⟨fun hs => heq hs.1, m.super.blockShift, not_not.mp heq, rfl⟩

theorem Checked.on_device (hdev : dev.size < 2 ^ 63) (hnum : 0 ≤ m.super.dsb.numBlocks)
    (hprod : m.super.dsb.numBlocks * m.super.dsb.blockSize < 2 ^ 63) (h : Checked dev m) :
    m.super.dsb.numBlocks * m.super.dsb.blockSize ≤ dev.size := by
  have hdevice : 0 ≤ getNumDeviceBlocks dev * getDeviceBlockSize ∧
      getNumDeviceBlocks dev * getDeviceBlockSize ≤ dev.size := by
    unfold getNumDeviceBlocks getDeviceBlockSize
    rw [Int.tdiv_eq_ediv_of_nonneg (by omega)]
    omega
  have hfits := h.fits
  rw [toInt64_of_lt (mul_nonneg hnum (by omega)) hprod,
    toInt64_of_lt hdevice.1 (by omega)] at hfits
  exact hfits.trans hdevice.2

theorem readSuperBlock_of_large (h : 1024 ≤ dev.size) : readSuperBlock dev =
    .ok ⟨dev.super, 1024, (dev.super.dsb.blockSize : ℤ).tdiv 1024⟩ := by
  rw [readSuperBlock_eq, if_neg (by omega)]

theorem readSuperBlock_devBlockSize (h : readSuperBlock dev = .ok m) : m.devBlockSize = 1024 := by
  rw [readSuperBlock_eq] at h
  split at h
  · cases h
  · cases h
    rfl

end Sane

/-- An accepted super block is consistent exactly if its block size was not taken from the
shift, or the blocks of the new size are whole device blocks too and fit as well. The product of
the count and the size may be bounded before the repair or after it. -/
theorem superBlockIsSane_consistent_iff (dev : Device) (m m' : Mounting)
    (hread : readSuperBlock dev = .ok m) (hdev : dev.size < 2 ^ 63)
    (hmax : m.super.dsb.blockSize < 2 ^ 32) (hshift : m.super.blockShift < 31)
    (hnum : 0 ≤ m.super.dsb.numBlocks)
    (hprod : m.super.dsb.numBlocks * m.super.dsb.blockSize < 2 ^ 63 ∨
      m.super.dsb.numBlocks * m'.super.dsb.blockSize < 2 ^ 63)
    (h : superBlockIsSane dev m = some m') :
    Consistent dev m' ↔ (SizeFromShift m.super → 10 ≤ m.super.blockShift ∧
      m.super.dsb.numBlocks * 2 ^ m.super.blockShift ≤ dev.size) := by
  have hunit := readSuperBlock_devBlockSize hread
  obtain ⟨hchecked, ⟨hs, rfl⟩ | ⟨hs, i, hi, rfl⟩⟩ := superBlockIsSane_cases hmax hshift h
  · have hwhole : m.devBlockSize ∣ ((2 ^ m.super.blockShift : ℕ) : ℤ) ↔
        10 ≤ m.super.blockShift := by
      rw [hunit]
      exact Int.natCast_dvd_natCast.trans
        (Nat.pow_dvd_pow_iff_le_right (x := 2) (k := 10) (by decide))
    constructor
    · intro hc _
      refine ⟨hwhole.mp hc.whole, ?_⟩
      have hfits := hc.fits
      simp only [resized] at hfits
      exact_mod_cast hfits
    · intro hc
      obtain ⟨hlow, hfits⟩ := hc hs
      refine ⟨rfl, hwhole.mpr hlow, ?_⟩
      simp only [resized]
      exact_mod_cast hfits
  · have hsmall : m.super.dsb.numBlocks * m.super.dsb.blockSize < 2 ^ 63 := by
      rcases hprod with hp | hp <;> exact hp
    refine ⟨fun _ hs' => absurd hs' hs, fun _ => ⟨hi, hchecked.whole, ?_⟩⟩
    exact Checked.on_device (m := m) hdev hnum hsmall hchecked

/-- A device of 64 KB whose super block counts 64 blocks of 1 KB, with another shift. -/
def shiftedDevice (shift : ℕ) : Device :=
  ⟨65536, ⟨SUPER_BLOCK_MAGIC1, MYFS_BIG_ENDIAN, shift, ⟨1024, 64, 0, 0, 0, 0, 0, 0, .clean⟩,
    SUPER_BLOCK_MAGIC2, 0, SUPER_BLOCK_MAGIC3⟩⟩

/-- What the mount has read from it. -/
def shiftedMounting (shift : ℕ) : Mounting := ⟨(shiftedDevice shift).super, 1024, 1⟩

theorem shiftedDevice_read (shift : ℕ) :
    readSuperBlock (shiftedDevice shift) = .ok (shiftedMounting shift) := by
  have hlarge : 1024 ≤ (shiftedDevice shift).size := show 1024 ≤ 65536 by decide
  have hunits : ((1024 : ℕ) : ℤ).tdiv 1024 = 1 := by decide
  rw [readSuperBlock_of_large hlarge, shiftedMounting, ← hunits]
  rfl

theorem superBlockIsSane_consistent_shiftedDevice :
    Consistent (shiftedDevice 30) (shiftedMounting 10) := by
  have h := superBlockIsSane_consistent_iff (shiftedDevice 30) (shiftedMounting 30)
    (shiftedMounting 10) (shiftedDevice_read 30) (by decide) (by decide) (by decide) (by decide)
    (.inl (by decide)) rfl
  exact h.mpr fun hs => absurd hs.2.2 (by decide)

/-- Accepted with a block size of 512 in the one case, and with 2 MB of blocks in the other. -/
theorem superBlockIsSane_accepts_misfits :
    (∃ m m', readSuperBlock (shiftedDevice 9) = .ok m ∧
      superBlockIsSane (shiftedDevice 9) m = some m' ∧
      ¬m'.devBlockSize ∣ m'.super.dsb.blockSize) ∧
    (∃ m m', readSuperBlock (shiftedDevice 15) = .ok m ∧
      superBlockIsSane (shiftedDevice 15) m = some m' ∧
      (shiftedDevice 15).size < m'.super.dsb.numBlocks * m'.super.dsb.blockSize) :=
  ⟨⟨_, ⟨resized (shiftedDevice 9).super, 1024, 1⟩, shiftedDevice_read 9, rfl, by decide⟩,
    ⟨_, ⟨resized (shiftedDevice 15).super, 1024, 1⟩, shiftedDevice_read 15, rfl, by decide⟩⟩

end MakeAndMount
