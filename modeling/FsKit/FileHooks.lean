import Mathlib.Tactic
import FsKit.InodeRecords

/-! The calls that a mounted volume gets from the vnode layer (`file.c`, `dir.c`). A volume is
the file system together with the inodes that are loaded, each under the number it was asked for.
The layer itself is reduced to what these calls see of it: `get_vnode` finds the loaded inode or
reads it in, and `myfs_remove_vnode` comes after the call that took the last name away. -/
namespace FileHooks

open BlockBitmap InodeTable DataStreamBlocks DirectoryOps
open InodeRecords (myfsReadVnode)

def EISDIR : ℤ := 21
def ENOTDIR : ℤ := 20
def ENOTEMPTY : ℤ := 39

def mySIfmt : ℤ := 0o170000
def mySIumsk : ℤ := 0o7777

/-- `MY_S_ISDIR`. -/
def mySIsdir (mode : ℤ) : Prop := Int.land mode mySIfmt = mySIfdir

instance (mode : ℤ) : Decidable (mySIsdir mode) := inferInstanceAs (Decidable (_ = _))

/-- Room for two `myfs_dirent` structures of 16 bytes and three letters, rounded up to 16. -/
def mkdirBufsize : ℤ := (2 * 16 + 1 + 2 + 15) / 16 * 16

structure Volume where
  fs : Myfs
  loaded : ℤ → Option Inode

/-- `mi` is what the loaded inode `ia` has become. -/
def Volume.keep (v : Volume) (ia : ℤ) (mi : Inode) : Volume :=
  { v with loaded := Function.update v.loaded ia (some mi) }

/-- `CHECK_INODE` on a loaded inode. -/
def checkInode (mi : Inode) : Except Halt Unit :=
  if mi.data.size < 0 then .error .myfsDie else .ok ()

/-- `get_vnode`: the inode under the number, read in if it is not there. -/
def getVnode (v : Volume) (vnid : ℤ) : Except Halt (Inode × Volume) :=
  match v.loaded vnid with
  | some mi => .ok (mi, v)
  | none => (myfsReadVnode v.fs vnid).map fun mi => (mi, v.keep vnid mi)

/-- The end of `myfs_unlink` and `myfs_rmdir`: the name goes, the inode is removed later. -/
def deleteName (v : Volume) (ia : ℤ) (dir : Inode) (name : Name) : Except Halt (ℤ × Volume) :=
  (dirDelete v.fs dir name).map fun (ret, dir, fs) => (ret, Volume.keep { v with fs := fs } ia dir)

/-- The first half of both calls: the name is looked up and its inode is got. -/
def getNamed (v : Volume) (ia : ℤ) (dir : Inode) (name : Name)
    (act : Volume → Inode → Inode → Except Halt (ℤ × Volume)) : Except Halt (ℤ × Volume) :=
  (checkInode dir).bind fun _ =>
    (dirLookup v.fs dir name).bind fun (ret, vnid, dir) =>
      let v := v.keep ia dir
      if ret ≠ 0 then .ok (ret, v) else (getVnode v vnid).bind fun (mi, v) => act v dir mi

def myfsUnlink (v : Volume) (ia : ℤ) (dir : Inode) (name : Name) : Except Halt (ℤ × Volume) :=
  getNamed v ia dir name fun v dir mi =>
    if mySIsdir mi.mode then .ok (EISDIR, v) else deleteName v ia dir name

def myfsRmdir (v : Volume) (ia : ℤ) (dir : Inode) (name : Name) : Except Halt (ℤ × Volume) :=
  getNamed v ia dir name fun v dir mi =>
    if ¬mySIsdir mi.mode then .ok (ENOTDIR, v)
    else if mkdirBufsize < mi.data.size then .ok (ENOTEMPTY, v)
    else deleteName v ia dir name

/-- The fields of `struct my_stat` that can be set. -/
structure MyStat where
  mode : ℤ
  uid : ℤ
  gid : ℤ
  size : ℤ
  crtime : ℤ
  mtime : ℤ

def WSTAT_MODE : BitVec 64 := 0x0001
def WSTAT_UID : BitVec 64 := 0x0002
def WSTAT_GID : BitVec 64 := 0x0004
def WSTAT_SIZE : BitVec 64 := 0x0008
def WSTAT_MTIME : BitVec 64 := 0x0020
def WSTAT_CRTIME : BitVec 64 := 0x0040

/-- The size part of `myfs_wstat`; the time is set although the call may have failed. -/
def wstatSize (fs : Myfs) (mi : Inode) (st : MyStat) (mask : BitVec 64) :
    Except Halt (ℤ × Inode × Myfs) :=
  if mask &&& WSTAT_SIZE = 0 then .ok (0, mi, fs)
  else if mySIsdir mi.mode then .ok (EISDIR, mi, fs)
  else (myfsSetFileSize fs mi st.size).map fun (err, mi, fs) =>
    (err, { mi with lastModifiedTime := fs.now }, fs)

/-- The fields that are set before the size. -/
def wstatOwner (mi : Inode) (st : MyStat) (mask : BitVec 64) : Inode :=
  { mi with
    mode := if mask &&& WSTAT_MODE = 0 then mi.mode
      else Int.lor (Int.land mi.mode mySIfmt) (Int.land st.mode mySIumsk)
    uid := if mask &&& WSTAT_UID = 0 then mi.uid else st.uid
    gid := if mask &&& WSTAT_GID = 0 then mi.gid else st.gid }

/-- The fields that are set behind the size. -/
def wstatTimes (mi : Inode) (st : MyStat) (mask : BitVec 64) : Inode :=
  { mi with
    createTime := if mask &&& WSTAT_CRTIME = 0 then mi.createTime else st.crtime
    lastModifiedTime := if mask &&& WSTAT_MTIME = 0 then mi.lastModifiedTime else st.mtime }

def myfsWstat (fs : Myfs) (mi : Inode) (st : MyStat) (mask : BitVec 64) :
    Except Halt (ℤ × Inode × Myfs) :=
  (checkInode mi).bind fun _ =>
    if mask = 0 then .ok (0, mi, fs)
    else
      (wstatSize fs (wstatOwner mi st mask) st mask).bind fun (err, mi, fs) =>
        if err ≠ 0 then .ok (err, mi, fs)
        else
          let mi := wstatTimes mi st mask
          (updateInode fs mi).map fun fs => (0, mi, fs)

def myfsWrite (fs : Myfs) (mi : Inode) (pos : ℤ) (buf : ℕ → UInt8) (len : ℕ) :
    Except Halt (ℤ × ℕ × Inode × Myfs) :=
  (checkInode mi).bind fun _ => myfsWriteDataStream fs mi pos buf len

def myfsRemoveVnode (fs : Myfs) (mi : Inode) : Except Halt (ℤ × Myfs) :=
  (checkInode mi).map fun _ =>
    let (_, mi, fs) := myfsFreeDataStream fs mi
    (0, (myfsFreeInode fs mi.inodeNum).2)

/-- The inode that `myfs_create` gives to the vnode layer. -/
def createdInode (fs : Myfs) (mode : ℤ) : Option Inode :=
  match makeFile fs mode with
  | .ok (_, mi, _) => mi
  | .error _ => none

inductive Event where
  | create (dir : ℤ) (name : Name) (mode : ℤ) (stack : ℕ → UInt8)
  | mkdir (dir : ℤ) (name : Name) (mode : ℤ) (stack : ℕ → UInt8)
  | write (ia : ℤ) (pos : ℤ) (buf : ℕ → UInt8) (len : ℕ)
  | wstat (ia : ℤ) (st : MyStat) (mask : BitVec 64)
  | unlink (dir : ℤ) (name : Name)
  | rmdir (dir : ℤ) (name : Name)
  | readVnode (ia : ℤ)
  | releaseVnode (ia : ℤ)
  | removeVnode (ia : ℤ)
  | clock (now : ℤ)

/-- The volume with the new file under its number. -/
def Volume.enter (v : Volume) (mi : Option Inode) : Volume :=
  match mi with
  | some mi => v.keep mi.inodeNum mi
  | none => v

def Volume.drop (v : Volume) (ia : ℤ) : Volume :=
  { v with loaded := Function.update v.loaded ia none }

/-- What a call does: its result and the volume after it. Calls are made on loaded inodes only. -/
def callOn (v : Volume) (ia : ℤ) (act : Inode → Except Halt (ℤ × Volume)) :
    Except Halt (ℤ × Volume) :=
  match v.loaded ia with
  | some mi => act mi
  | none => .error .wildPointer

def call (v : Volume) : Event → Except Halt (ℤ × Volume)
  | .create dir name mode stack => callOn v dir fun parent =>
      (myfsCreate v.fs parent name mode stack).map fun (ret, parent, fs) =>
        let v' := Volume.keep { v with fs := fs } dir parent
        (ret, if ret = 0 then v'.enter (createdInode v.fs mode) else v')
  | .mkdir dir name mode stack => callOn v dir fun parent =>
      (myfsMkdir v.fs parent name mode stack).map fun (ret, parent, fs) =>
        (ret, Volume.keep { v with fs := fs } dir parent)
  | .write ia pos buf len => callOn v ia fun mi =>
      (myfsWrite v.fs mi pos buf len).map fun (ret, _, mi, fs) =>
        (ret, Volume.keep { v with fs := fs } ia mi)
  | .wstat ia st mask => callOn v ia fun mi =>
      (myfsWstat v.fs mi st mask).map fun (ret, mi, fs) =>
        (ret, Volume.keep { v with fs := fs } ia mi)
  | .unlink dir name => callOn v dir fun parent => myfsUnlink v dir parent name
  | .rmdir dir name => callOn v dir fun parent => myfsRmdir v dir parent name
  | .readVnode ia => (getVnode v ia).map fun (_, v) => (0, v)
  | .releaseVnode ia => callOn v ia fun mi => (checkInode mi).map fun _ => (0, v.drop ia)
  | .removeVnode ia => callOn v ia fun mi =>
      (myfsRemoveVnode v.fs mi).map fun (ret, fs) => (ret, Volume.drop { v with fs := fs } ia)
  | .clock now => .ok (0, { v with fs := { v.fs with now := now } })

def next (v : Volume) (e : Event) : Volume :=
  match call v e with
  | .ok (_, v') => v'
  | .error _ => v

end FileHooks
