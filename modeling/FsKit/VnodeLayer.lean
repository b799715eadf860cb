import Mathlib.Tactic
import FsKit.LinkedList
import FsKit.MachineIntegers
import FsKit.SkipListSet

/-! The vnode layer (`kernel.c`). Vnodes and name spaces are numbered, vnode `i` is `vns[i]`,
and data pointers are numbers. The links of all vnodes are kept together, as are the ends
and counts of the three lists. Calls run one after another, so the lock and the waiting for
a busy vnode are left out. The hooks of the file systems are logged; what `read_vnode`
answers and what `RandomLevelSL` returns come with the call that needs them. -/
namespace VnodeLayer

open LinkedList MachineIntegers SkipListSet

def ENOENT : ℤ := 2
def ENOMEM : ℤ := 12

inductive ListName where
  | free
  | used
  | locked
  deriving DecidableEq, Repr

/-- `rcnt` is the exact number of references; the code has an `int`, see `Vnode.intRcnt`. -/
structure Vnode where
  vnid : ℤ
  ns : Option ℕ
  mounted : Option ℕ
  remove : Bool
  busy : Bool
  inlist : ListName
  rcnt : ℤ
  data : ℕ
  deriving DecidableEq, Repr

/-- The count of the references as the code reads it, after any number of increments and
decrements of its `int`. -/
def Vnode.intRcnt (v : Vnode) : ℤ := toInt32 v.rcnt

structure Nspace where
  nsid : ℕ
  shutdown : Bool
  vnodes : Ends ℕ

structure VnList where
  ends : Ends ℕ
  num : ℤ

/-- What can be seen from outside: the hooks that are called, with the ids of the vnode,
and what the calls of the layer do for their callers. -/
inductive Obs where
  | readVnode (nsid : ℕ) (vnid : ℤ) (r : Bool) (err : ℤ) (data : ℕ)
  | releaseVnode (nsid : ℕ) (vnid : ℤ) (data : ℕ) (r : Bool)
  | removeVnode (nsid : ℕ) (vnid : ℤ) (data : ℕ) (r : Bool)
  | created (nsid : ℕ) (vnid : ℤ) (data : ℕ)
  | got (nsid : ℕ) (vnid : ℤ) (data : ℕ)
  | referenced (nsid : ℕ) (vnid : ℤ)
  | putting (nsid : ℕ) (vnid : ℤ)
  | marked (nsid : ℕ) (vnid : ℤ) (remove : Bool)
  deriving DecidableEq, Repr

structure Layer where
  vnnum : ℕ
  usdvnnum : ℕ
  vns : ℕ → Vnode
  list : Links ℕ
  nspace : Links ℕ
  lists : ListName → VnList
  skiplist : SkipList ℕ
  nns : ℕ
  nstab : ℕ → Option ℕ
  spaces : ℕ → Nspace
  log : List Obs

inductive Halt where
  | nullPointer
  | waitsForever
  deriving DecidableEq, Repr

def invalidVnid : ℤ := 0

def freshVnode : Vnode := ⟨invalidVnid, none, none, false, false, .free, 0, 0⟩

/-- The tables of `init_vnode_layer`, beside name spaces that are there already. -/
def initVnodeLayer (memsize : ℕ) (nstab : ℕ → Option ℕ) (spaces : ℕ → Nspace) : Layer :=
  let vnnum := memsize / 2 ^ 15
  { vnnum := vnnum
    usdvnnum := vnnum / 4
    vns := fun _ => freshVnode
    nspace := ⟨fun _ => none, fun _ => none⟩
    list := ⟨fun i => if i = vnnum - 1 then none else some (i + 1),
      fun i => if i = 0 then none else some (i - 1)⟩
    lists := fun
      | .free => ⟨⟨some 0, some (vnnum - 1)⟩, vnnum⟩
      | .used => ⟨⟨none, none⟩, 0⟩
      | .locked => ⟨⟨none, none⟩, 0⟩
    skiplist := newSL 0
    nns := memsize / 2 ^ 17
    nstab := nstab
    spaces := spaces
    log := [] }

def nsidtons (s : Layer) (nsid : ℕ) : Option ℕ :=
  match s.nstab (nsid % s.nns) with
  | none => none
  | some ns => if (s.spaces ns).nsid ≠ nsid ∨ (s.spaces ns).shutdown then none else some ns

def compareVnode (vnidA : ℤ) (nsidA : ℕ) (vnidB : ℤ) (nsidB : ℕ) : ℤ :=
  if vnidB < vnidA then 1
  else if vnidA < vnidB then -1
  else if nsidB < nsidA then 1
  else if nsidA < nsidB then -1
  else 0

/-- `vn->ns->nsid`; the vnodes that are compared have a name space. -/
def nsidOf (s : Layer) (vn : ℕ) : ℕ := ((s.vns vn).ns.map fun ns => (s.spaces ns).nsid).getD 0

/-- `compare_vnode` with a vnode of these ids as the second one. -/
def compareWith (s : Layer) (nsid : ℕ) (vnid : ℤ) (vn : ℕ) : ℤ :=
  compareVnode (s.vns vn).vnid (nsidOf s vn) vnid nsid

def lookupVnode (s : Layer) (nsid : ℕ) (vnid : ℤ) : Option ℕ :=
  searchSL s.skiplist (compareWith s nsid vnid)

def setVnode (s : Layer) (vn : ℕ) (f : Vnode → Vnode) : Layer :=
  { s with vns := Function.update s.vns vn (f (s.vns vn)) }

def setSpaceVnodes (s : Layer) (ns : ℕ) (e : Ends ℕ) : Layer :=
  { s with spaces := Function.update s.spaces ns { s.spaces ns with vnodes := e } }

def record (s : Layer) (o : Obs) : Layer := { s with log := s.log ++ [o] }

def moveVnode (s : Layer) (vn : ℕ) (list : ListName) : Layer :=
  let src := (s.vns vn).inlist
  let (links, ends) := unlink s.list (s.lists src).ends vn
  let lists := Function.update s.lists src ⟨ends, (s.lists src).num - 1⟩
  let s := setVnode s vn fun v => { v with inlist := list }
  let (links, ends) := pushBack links (lists list).ends vn
  { s with list := links, lists := Function.update lists list ⟨ends, (lists list).num + 1⟩ }

def stealVnode (s : Layer) (list : ListName) : Option ℕ × Layer :=
  match (s.lists list).ends.head with
  | none => (none, s)
  | some vn => (some vn, moveVnode s vn .locked)

/-- Enters a vnode into the skip list and in front of the list of its name space. -/
def sortVnode (s : Layer) (vn : ℕ) (random : ℕ) : Except Halt (ℤ × Layer) :=
  match (s.vns vn).ns with
  | none => .error .nullPointer
  | some ns =>
    let (ok, skiplist) := insertSL s.skiplist vn
      (compareWith s (s.spaces ns).nsid (s.vns vn).vnid) random
    if ok = 0 then .ok (ENOMEM, { s with skiplist := skiplist })
    else
      let (links, ends) := pushFront s.nspace (s.spaces ns).vnodes vn
      .ok (0, setSpaceVnodes { s with skiplist := skiplist, nspace := links } ns ends)

def clearVnode (s : Layer) (vn : ℕ) : Except Halt Layer :=
  match (s.vns vn).ns with
  | none => .error .nullPointer
  | some ns =>
    let skiplist := (deleteSL s.skiplist (compareWith s (s.spaces ns).nsid (s.vns vn).vnid)).2
    let (links, ends) := unlink s.nspace (s.spaces ns).vnodes vn
    let links := (links.setNext vn none).setPrev vn none
    let s := setSpaceVnodes { s with skiplist := skiplist, nspace := links } ns ends
    .ok (setVnode s vn fun v => { v with
      vnid := invalidVnid, ns := none, remove := false, data := 0, rcnt := 0, busy := false
      mounted := none })

/-- An error of `release_vnode` is only printed; here the hook succeeds. -/
def flushVnode (s : Layer) (vn : ℕ) (r : Bool) : Except Halt Layer :=
  match (s.vns vn).ns with
  | none => .error .nullPointer
  | some ns =>
    let s := setVnode s vn fun v => { v with busy := true }
    let s := record s (.releaseVnode (s.spaces ns).nsid (s.vns vn).vnid (s.vns vn).data r)
    clearVnode (setVnode s vn fun v => { v with busy := false }) vn

def incVnode (s : Layer) (vn : ℕ) : Layer :=
  record (setVnode s vn fun v => { v with rcnt := v.rcnt + 1 })
    (.referenced (nsidOf s vn) (s.vns vn).vnid)

/-- The last reference of a vnode is gone and the vnode is to be removed. -/
def disposeRemoved (s : Layer) (vn : ℕ) (r : Bool) : Except Halt Layer :=
  match (s.vns vn).ns with
  | none => .error .nullPointer
  | some ns =>
    let s := setVnode s vn fun v => { v with busy := true }
    let s := moveVnode s vn .locked
    let s := record s (.removeVnode (s.spaces ns).nsid (s.vns vn).vnid (s.vns vn).data r)
    (clearVnode s vn).map fun s => moveVnode s vn .free

/-- The last reference of a vnode is gone; it is kept, and the list of those kept is cut. -/
def keepUsed (s : Layer) (vn : ℕ) (r : Bool) : Except Halt Layer :=
  let s := moveVnode s vn .used
  if (s.usdvnnum : ℤ) < (s.lists .used).num then
    match stealVnode s .used with
    | (none, _) => .error .nullPointer
    | (some ovn, s) => (flushVnode s ovn r).map fun s => moveVnode s ovn .free
  else .ok s

def decVnode (s : Layer) (vn : ℕ) (r : Bool) : Except Halt Layer :=
  let s := setVnode s vn fun v => { v with rcnt := v.rcnt - 1 }
  if (s.vns vn).intRcnt = 0 then
    if (s.vns vn).remove then disposeRemoved s vn r else keepUsed s vn r
  else .ok s

def putVnode (s : Layer) (nsid : ℕ) (vnid : ℤ) : Except Halt (ℤ × Layer) :=
  match lookupVnode s nsid vnid with
  | none => .ok (ENOENT, s)
  | some vn => (decVnode (record s (.putting nsid vnid)) vn true).map fun s => (0, s)

/-- `new_vnode` from the point where it has a vnode. -/
def enterNew (s : Layer) (vn : ℕ) (nsid : ℕ) (vnid : ℤ) (data random : ℕ) :
    Except Halt (ℤ × Layer) :=
  match nsidtons s nsid with
  | none => .ok (ENOENT, setVnode s vn fun v => { v with ns := none })
  | some ns =>
    let s := setVnode s vn fun v => { v with ns := some ns, vnid := vnid, data := data, rcnt := 1 }
    (sortVnode s vn random).map fun (err, s) =>
      if err = 0 then (0, record s (.created nsid vnid data)) else (err, s)

/-- The panic of a table with nothing to steal is only printed. -/
def newVnode (s : Layer) (nsid : ℕ) (vnid : ℤ) (data random : ℕ) : Except Halt (ℤ × Layer) :=
  match stealVnode s .free with
  | (some vn, s) => enterNew s vn nsid vnid data random
  | (none, s) =>
    match stealVnode s .used with
    | (none, s) => .ok (ENOMEM, s)
    | (some vn, s) => (flushVnode s vn true).bind fun s => enterNew s vn nsid vnid data random

/-- `remove_vnode` and `unremove_vnode` differ in the value they set. -/
def markVnode (remove : Bool) (s : Layer) (nsid : ℕ) (vnid : ℤ) : ℤ × Layer :=
  match lookupVnode s nsid vnid with
  | none => (ENOENT, s)
  | some vn =>
    if (s.vns vn).intRcnt = 0 then (ENOENT, s)
    else (0, record (setVnode s vn fun v => { v with remove := remove }) (.marked nsid vnid remove))

def removeVnode : Layer → ℕ → ℤ → ℤ × Layer := markVnode true

def unremoveVnode : Layer → ℕ → ℤ → ℤ × Layer := markVnode false

/-- The loop of `load_vnode`. After a flush the free list holds a vnode, so the loop has at
most two rounds. -/
def findOrSteal (s : Layer) (nsid : ℕ) (vnid : ℤ) (r : Bool) : ℕ → Except Halt (ℕ × Layer)
  | 0 => .error .waitsForever
  | fuel + 1 =>
    match lookupVnode s nsid vnid with
    | some vn => if (s.vns vn).busy then .error .waitsForever else .ok (vn, s)
    | none =>
      match stealVnode s .free with
      | (some vn, s) => .ok (vn, s)
      | (none, s) =>
        match stealVnode s .used with
        | (none, _) => .error .nullPointer
        | (some vn, s) =>
          (flushVnode s vn r).bind fun s => findOrSteal (moveVnode s vn .free) nsid vnid r fuel

/-- `err` and `data` are what the hook `read_vnode` answers if it is called. -/
def readIn (s : Layer) (vn ns : ℕ) (vnid : ℤ) (r : Bool) (err : ℤ) (data random : ℕ) :
    Except Halt (ℤ × Layer) :=
  let s := setVnode s vn fun v => { v with ns := some ns, vnid := vnid, busy := true }
  (sortVnode s vn random).bind fun (e, s) =>
    if e ≠ 0 then (clearVnode s vn).map fun s => (e, moveVnode s vn .free)
    else
      let s := moveVnode s vn .locked
      let s := record s (.readVnode (s.spaces ns).nsid vnid r err data)
      let s := setVnode s vn fun v => { v with data := data, busy := false }
      if err ≠ 0 then (clearVnode s vn).map fun s => (err, moveVnode s vn .free)
      else .ok (0, setVnode s vn fun v => { v with rcnt := 1 })

def loadVnode (s : Layer) (nsid : ℕ) (vnid : ℤ) (r : Bool) (err : ℤ) (data random : ℕ) :
    Except Halt (ℤ × ℕ × Layer) :=
  (findOrSteal s nsid vnid r 2).bind fun (vn, s) =>
    if (s.vns vn).ns = none then
      match nsidtons s nsid with
      | none => .ok (ENOENT, vn, moveVnode s vn .free)
      | some ns => (readIn s vn ns vnid r err data random).map fun (e, s) => (e, vn, s)
    else
      let s := setVnode s vn fun v => { v with rcnt := v.rcnt + 1 }
      .ok (0, vn, if (s.vns vn).intRcnt = 1 then moveVnode s vn .locked else s)

/-- Returns the error, the data pointer and the tables. -/
def getVnode (s : Layer) (nsid : ℕ) (vnid : ℤ) (err : ℤ) (data random : ℕ) :
    Except Halt (ℤ × ℕ × Layer) :=
  (loadVnode s nsid vnid true err data random).map fun (e, vn, s) =>
    if e ≠ 0 then (e, 0, s)
    else (0, (s.vns vn).data, record s (.got nsid vnid (s.vns vn).data))

inductive Event where
  | new (nsid : ℕ) (vnid : ℤ) (data random : ℕ)
  | get (nsid : ℕ) (vnid : ℤ) (err : ℤ) (data random : ℕ)
  | put (nsid : ℕ) (vnid : ℤ)
  | remove (nsid : ℕ) (vnid : ℤ)
  | unremove (nsid : ℕ) (vnid : ℤ)
  | inc (vn : ℕ)
  deriving DecidableEq, Repr

def exec (s : Layer) : Event → Except Halt Layer
  | .new nsid vnid data random => (newVnode s nsid vnid data random).map Prod.snd
  | .get nsid vnid err data random => (getVnode s nsid vnid err data random).map fun r => r.2.2
  | .put nsid vnid => (putVnode s nsid vnid).map Prod.snd
  | .remove nsid vnid => .ok (removeVnode s nsid vnid).2
  | .unremove nsid vnid => .ok (unremoveVnode s nsid vnid).2
  | .inc vn => .ok (incVnode s vn)

/-- A call that does not return leaves the tables as they were. -/
def next (s : Layer) (e : Event) : Layer :=
  match exec s e with
  | .ok s' => s'
  | .error _ => s

end VnodeLayer
