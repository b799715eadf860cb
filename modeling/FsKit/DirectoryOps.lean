import Mathlib.Tactic
import FsKit.DataStreamShape

/-! Directories (`dir.c`) and the creation of files (`file.c`). A directory is a stream of
packed entries: the inode number in eight bytes, the length of the name, the name with its
terminating zero, and padding to a multiple of eight. Names are C strings, given by their
bytes without the zero. `stack` stands for the bytes that a buffer on the stack holds
before it is filled in. Memory allocation succeeds, and the kernel call `new_vnode` at the
end of a successful create is left out. -/
namespace DirectoryOps

open BlockBitmap InodeTable LittleEndian DataStreamBlocks

abbrev Name := List UInt8

def fileNameLength : ℕ := 256

def mySIfreg : ℤ := 0o100000
def mySIfdir : ℤ := 0o40000

/-- `NEXT_MDE`: the entry behind the one at `p`, whose name has `nameLen` bytes. -/
def nextMde (p nameLen : ℕ) : ℕ := (p + nameLen + 17) / 8 * 8

/-- `strcmp(mde->name, name) == 0` for the entry at `p`. -/
def nameMatches (contents : ℕ → UInt8) (p : ℕ) (name : Name) : Bool :=
  (List.range name.length).all (fun i => contents (p + 9 + i) == name.getD i 0) &&
    contents (p + 9 + name.length) == 0

/-- The bytes of an entry with a name, as `dir_insert` and `make_dir` build it. -/
def entryByte (inum : ℤ) (name : Name) (stack : ℕ → UInt8) (k : ℕ) : UInt8 :=
  if k < 8 then leByte inum k
  else if k = 8 then UInt8.ofNat name.length
  else if k < 9 + name.length then name.getD (k - 9) 0
  else if k = 9 + name.length then 0
  else stack k

/-- The loop of `dir_lookup`: the inode number of the first entry with the name. -/
def scanEntries (contents : ℕ → UInt8) (size : ℕ) (name : Name) : ℕ → ℕ → Option ℤ
  | 0, _ => none
  | fuel + 1, p =>
    if size ≤ p then none
    else if nameMatches contents p name then some (word64 contents p)
    else scanEntries contents size name fuel (nextMde p (contents (p + 8)).toNat)

def getDirContents (fs : Myfs) (mi : Inode) : Except Halt (ℤ × Inode) :=
  (myfsReadDataStream fs mi 0 (fun _ => 0) mi.data.size.toNat).map fun (ret, sz, buf) =>
    if (sz : ℤ) ≠ mi.data.size then (ret, mi) else (0, { mi with contents := some buf })

/-- The contents of a directory, read in when they are not there yet. A read that fails
with code 0 would leave the null pointer in use. -/
def loadContents (fs : Myfs) (dir : Inode) : Except Halt (ℤ × (ℕ → UInt8) × Inode) :=
  match dir.contents with
  | some c => .ok (0, c, dir)
  | none =>
    (getDirContents fs dir).bind fun (ret, dir) =>
      if ret ≠ 0 then .ok (ret, (fun _ => 0), dir)
      else
        match dir.contents with
        | some c => .ok (0, c, dir)
        | none => .error .wildPointer

/-- Returns the error, the inode number found, and the directory. -/
def dirLookup (fs : Myfs) (dir : Inode) (name : Name) : Except Halt (ℤ × ℤ × Inode) :=
  (loadContents fs dir).map fun (ret, c, dir) =>
    if ret ≠ 0 then (ret, 0, dir)
    else
      match scanEntries c dir.data.size.toNat name dir.data.size.toNat 0 with
      | some inum => (0, inum, dir)
      | none => (ENOENT, 0, dir)

/-- The directory with the new entry behind its contents. -/
def appendEntry (dir : Inode) (c : ℕ → UInt8) (name : Name) (inum : ℤ) (stack : ℕ → UInt8) :
    Inode :=
  let sz := nextMde 0 name.length
  { dir with
    contents := some (copyInto c dir.data.size.toNat sz (entryByte inum name stack))
    counter := dir.counter + 1 }

def dirInsert (fs : Myfs) (dir : Inode) (name : Name) (inum : ℤ) (stack : ℕ → UInt8) :
    Except Halt (ℤ × Inode × Myfs) :=
  (loadContents fs dir).bind fun (ret, c, dir) =>
    if ret ≠ 0 then .ok (ret, dir, fs)
    else
      let sz := nextMde 0 name.length
      let ptr := copyInto c dir.data.size.toNat sz (entryByte inum name stack)
      (myfsWriteDataStream fs (appendEntry dir c name inum stack) 0 ptr
        (dir.data.size.toNat + sz)).map fun (ret, _, dir, fs) => (ret, dir, fs)

/-- The loop of `dir_delete`: the place of the first entry with the name. -/
def findEntry (contents : ℕ → UInt8) (size : ℕ) (name : Name) : ℕ → ℕ → Option ℕ
  | 0, _ => none
  | fuel + 1, p =>
    if size ≤ p then none
    else if nameMatches contents p name then some p
    else findEntry contents size name fuel (nextMde p (contents (p + 8)).toNat)

/-- A `memcpy` inside one buffer that copies forward, byte by byte. -/
def memcpyForward (buf : ℕ → UInt8) (dst src : ℕ) : ℕ → ℕ → UInt8
  | 0 => buf
  | n + 1 =>
    let buf := memcpyForward buf dst src n
    Function.update buf (dst + n) (buf (src + n))

/-- The contents without the entry at `p`: what is behind it moves down. -/
def closeGap (c : ℕ → UInt8) (size p : ℕ) : ℕ → UInt8 :=
  let next := nextMde p (c (p + 8)).toNat
  if next < size then memcpyForward c p next (size - next) else c

/-- The result of `myfs_set_file_size` is not looked at. -/
def dirDelete (fs : Myfs) (dir : Inode) (name : Name) : Except Halt (ℤ × Inode × Myfs) :=
  if name = [46] ∨ name = [46, 46] then .ok (EINVAL, dir, fs)
  else
    (loadContents fs dir).bind fun (ret, c, dir) =>
      if ret ≠ 0 then .ok (ret, dir, fs)
      else
        let size := dir.data.size.toNat
        match findEntry c size name size 0 with
        | none => .ok (ENOENT, dir, fs)
        | some p =>
          let sz := nextMde p (c (p + 8)).toNat - p
          let ptr := closeGap c size p
          let dir := { dir with contents := some ptr, counter := dir.counter + 1 }
          (myfsWriteDataStream fs dir 0 ptr (size - sz)).bind fun (ret, nsize, dir, fs) =>
            if ret ≠ 0 ∨ (nsize : ℤ) ≠ dir.data.size - sz then .ok (ret, dir, fs)
            else (myfsSetFileSize fs dir nsize).map fun (_, dir, fs) => (0, dir, fs)

/-- The two entries of a new directory. -/
def newDirBytes (inum parentInum : ℤ) (stack : ℕ → UInt8) (k : ℕ) : UInt8 :=
  if k < 16 then entryByte inum [46] stack k
  else entryByte parentInum [46, 46] (fun j => stack (16 + j)) (k - 16)

/-- Returns the error, `*newdir` (set when the error is 0) and the file system. -/
def makeDir (fs : Myfs) (parent : Option Inode) (mode : ℤ) (stack : ℕ → UInt8) :
    Except Halt (ℤ × Option Inode × Myfs) :=
  (myfsAllocateInode fs mode).bind fun
    | (none, fs) => .ok (ENOSPC, none, fs)
    | (some mi, fs) =>
      let mi := { mi with mode := Int.lor mi.mode mySIfdir }
      let up := (parent.map (·.inodeNum)).getD mi.inodeNum
      (myfsWriteDataStream fs mi 0 (newDirBytes mi.inodeNum up stack) 32).bind
        fun (ret, len, mi, fs) =>
          if ret ≠ 0 ∨ len ≠ 32 then
            let fs := (myfsFreeInode fs mi.inodeNum).2
            .ok (if ret = 0 then ENOSPC else ret, none, fs)
          else (updateInode fs mi).map fun fs => (0, some mi, fs)

def makeFile (fs : Myfs) (mode : ℤ) : Except Halt (ℤ × Option Inode × Myfs) :=
  (myfsAllocateInode fs mode).bind fun
    | (none, fs) => .ok (ENOSPC, none, fs)
    | (some mi, fs) =>
      let mi := { mi with mode := Int.lor mi.mode mySIfreg }
      (updateInode fs mi).map fun fs => (0, some mi, fs)

/-- The checks that `myfs_create` and `myfs_mkdir` make before anything is allocated:
the code they return at once, or the directory with its contents. -/
def checkNewName (fs : Myfs) (parent : Inode) (name : Name) :
    Except Halt (Option ℤ × Inode) :=
  if parent.data.size < 0 then .error .myfsDie
  else if name = [46] ∨ name = [46, 46] then .ok (some EINVAL, parent)
  else if fileNameLength - 1 ≤ name.length then .ok (some ENAMETOOLONG, parent)
  else
    (dirLookup fs parent name).map fun (ret, _, parent) =>
      if ret = 0 then (some EEXIST, parent) else (none, parent)

/-- Both calls insert the new inode into the parent and give it back when that fails. With
the test `ret < 0` a positive error of the maker goes on with a pointer never set. -/
def insertNew (parent : Inode) (name : Name) (stack : ℕ → UInt8)
    (made : ℤ × Option Inode × Myfs) : Except Halt (ℤ × Inode × Myfs) :=
  if made.1 < 0 then .ok (made.1, parent, made.2.2)
  else
    match made.2.1 with
    | none => .error .wildPointer
    | some mi =>
      (dirInsert made.2.2 parent name mi.inodeNum stack).map fun (ret, parent, fs) =>
        if ret ≠ 0 then (ret, parent, (myfsFreeInode fs mi.inodeNum).2) else (ret, parent, fs)

/-- Returns the error, the parent and the file system. -/
def myfsCreate (fs : Myfs) (parent : Inode) (name : Name) (mode : ℤ) (stack : ℕ → UInt8) :
    Except Halt (ℤ × Inode × Myfs) :=
  (checkNewName fs parent name).bind fun
    | (some err, parent) => .ok (err, parent, fs)
    | (none, parent) => (makeFile fs mode).bind (insertNew parent name stack)

def myfsMkdir (fs : Myfs) (parent : Inode) (name : Name) (mode : ℤ) (stack : ℕ → UInt8) :
    Except Halt (ℤ × Inode × Myfs) :=
  (checkNewName fs parent name).bind fun
    | (some err, parent) => .ok (err, parent, fs)
    | (none, parent) => (makeDir fs (some parent) mode stack).bind (insertNew parent name stack)

end DirectoryOps
