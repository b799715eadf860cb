import Mathlib.Tactic
import FsKit.PathCalls

/-! Opening files and directories (`kernel.c`). Success and failure share one integer: a
descriptor, or the negated error. The calls are followed over every answer of the hooks, of the
allocator and of the descriptor table. -/
namespace OpenCalls

open FallibleRuns SkipListSet VnodeRegistry VnodeTable VnodeCounts PathWalk PathCalls
open VnodeLayer hiding incVnode decVnode
open DescriptorTable (EMFILE FD_FILE FD_DIR Files Ofile Mirrors)

/-- From the system's headers. -/
def O_CREAT : BitVec 32 := 0x40

/-- The outcome of a `create` hook on a name space: its error and the id, and the tables. -/
structure Created where
  err : ℤ
  vnid : ℤ
  layer : Layer

/-- A `create` hook that returns 0 holds one reference to a vnode under the id it reports. -/
def Created.Refers (c : Created) (s : Layer) (nsid : ℕ) : Prop :=
  if c.err = 0 then
    ∃ vn < c.layer.vnnum, lookupVnode c.layer nsid c.vnid = some vn ∧
      Change s c.layer (Pi.single vn 1)
  else Change s c.layer 0

structure Creation where
  run : Layer → ℕ → Created
  refers : ∀ s nsid, Sound s → nsidtons s nsid ≠ none → (run s nsid).Refers s nsid

/-- The answers that a call gets: from the hook that opens or creates, from `calloc`, which is
the number of the open file, and on the way back from the hooks that close and unlink. -/
structure Answers where
  reply : Reply
  creation : Creation
  memory : Option ℕ
  close : Effect
  freeCookie : Option Effect
  unlink : Effect

/-- The hack for Linux. -/
def negated (err : ℤ) : ℤ := if 0 < err then -err else err

/-- Calls the `create` hook of the file system that `dvn` belongs to. -/
def callCreate (k : Kernel) (dvn : ℕ) (creation : Creation) : Except Stop (ℤ × ℤ × Kernel) :=
  match (k.layer.vns dvn).ns with
  | none => .error .nullPointer
  | some ns =>
    if (k.fsystem (k.space ns).fs).ops .create then
      let made := creation.run k.layer (k.layer.spaces ns).nsid
      .ok (made.err, made.vnid, { k with layer := made.layer })
    else .ok (EINVAL, 0, k)

/-- The vnode that a `create` hook has made. -/
def lookupCreated (k : Kernel) (dvn : ℕ) (vnid : ℤ) : Except Stop (ℕ × Kernel) :=
  (lock k).bind fun k =>
    match lookupVnode k.layer (nsidOf k.layer dvn) vnid with
    | none => .error .nullPointer
    | some vn => .ok (vn, unlock k)

/-- The label `error3`: the hooks that close the file and free the cookie. -/
def closeCookie (k : Kernel) (a : Answers) : Kernel :=
  let k := { k with layer := a.close.run k.layer }
  match a.freeCookie with
  | none => k
  | some free => { k with layer := free.run k.layer }

/-- The label `errorC` calls `unlink` of the file system of the file on the directory. -/
def callUnlink (k : Kernel) (vn dvn : ℕ) (unlink : Effect) : Except Stop Kernel :=
  match (k.layer.vns vn).ns, (k.layer.vns dvn).ns with
  | some ns, some _ =>
    if (k.fsystem (k.space ns).fs).ops .unlink then .ok { k with layer := unlink.run k.layer }
    else .error .nullPointer
  | _, _ => .error .nullPointer

/-- The tables with a new open file, before it has a descriptor. -/
def madeOfile (files : Files) (f type vn : ℕ) : Files :=
  { files with ofile := Function.update files.ofile f ⟨type, vn, 0, 0⟩ }

/-- The end of both calls: an open file is made and gets a descriptor, or the call leaves
through its labels. -/
def finishOpen (k : Kernel) (a : Answers) (kernel : Bool) (type vn : ℕ) (coe : BitVec 32)
    (leave : Kernel → ℤ → Returned) : Returned :=
  match a.memory with
  | none => leave (closeCookie k a) ENOMEM
  | some f =>
    let files := madeOfile (k.files kernel) f type vn
    let (nfd, files) := DescriptorTable.newFd files (-1) (some f) (-1) coe
    let k := { k with files := Function.update k.files kernel files }
    if nfd < 0 then leave (closeCookie k a) EMFILE else .ok (nfd, k)

/-- A path that is to be opened as it is: `leave` is what the call makes of its errors. -/
def openPath (op : Op) (type : ℕ) (leave : ℤ → ℤ) (k : Kernel) (kernel : Bool) (fd : ℤ)
    (path : Option Path) (coe : BitVec 32) (a : Answers) : Returned :=
  (getFileFd k kernel fd path true).bind fun (res, k) =>
    match res with
    | .error err => .ok (leave err, k)
    | .ok vn =>
      (callOp k vn op a.reply).bind fun (err, k) =>
        let error2 (k : Kernel) (err : ℤ) : Returned :=
          (PathWalk.decVnode k vn false).map fun k => (leave err, k)
        if err ≠ 0 then error2 k err else finishOpen k a kernel type vn coe error2

def sysOpendir : Kernel → Bool → ℤ → Option Path → BitVec 32 → Answers → Returned :=
  openPath .opendir FD_DIR negated

/-- Without `O_CREAT`. The errors are returned as they are. -/
def openFile : Kernel → Bool → ℤ → Option Path → BitVec 32 → Answers → Returned :=
  openPath .open FD_FILE id

/-- With `O_CREAT`. The directory is dropped once the file is made; `errorC` uses it again and
runs into `errorB`, which drops it again. -/
def createFile (k : Kernel) (kernel : Bool) (fd : ℤ) (path : Option Path) (coe : BitVec 32)
    (a : Answers) : Returned :=
  (getDirFd k kernel fd path).bind fun (res, k) =>
    match res with
    | .error err => .ok (negated err, k)
    | .ok dvn =>
      (callCreate k dvn a.creation).bind fun (err, vnid, k) =>
        let errorB (k : Kernel) (err : ℤ) : Returned :=
          (PathWalk.decVnode k dvn false).map fun k => (negated err, k)
        if err ≠ 0 then errorB k err
        else
          (lookupCreated k dvn vnid).bind fun (vn, k) =>
          (PathWalk.decVnode k dvn false).bind fun k =>
            finishOpen k a kernel FD_FILE vn coe fun k err =>
              (callUnlink k vn dvn a.unlink).bind fun k =>
              (PathWalk.decVnode k vn false).bind fun k => errorB k err

def sysOpen (k : Kernel) (kernel : Bool) (fd : ℤ) (path : Option Path) (omode coe : BitVec 32)
    (a : Answers) : Returned :=
  if omode &&& O_CREAT ≠ 0 then createFile k kernel fd path coe a
  else openFile k kernel fd path coe a

inductive OpenCall where
  | open (kernel : Bool) (fd : ℤ) (path : Option Path) (omode coe : BitVec 32)
  | opendir (kernel : Bool) (fd : ℤ) (path : Option Path) (coe : BitVec 32)

def OpenCall.run (k : Kernel) (a : Answers) : OpenCall → Returned
  | .open kernel fd path omode coe => sysOpen k kernel fd path omode coe a
  | .opendir kernel fd path coe => sysOpendir k kernel fd path coe a

/-- Slot `i` of the table, which was empty, holds the open file `f`. -/
structure Opened (k₀ k : Kernel) (kernel : Bool) (i f : ℕ) (file : Ofile) : Prop where
  inside : i < (k₀.files kernel).table.num
  empty : (k₀.files kernel).table.fds i = none
  slots : (k.files kernel).table.fds = Function.update (k₀.files kernel).table.fds i (some f)
  file : (k.files kernel).ofile = Function.update (k₀.files kernel).ofile f file
  other : k.files (!kernel) = k₀.files (!kernel)

/-- The tables and the reference counts are as before. -/
structure Refused (k₀ k : Kernel) : Prop where
  files : k.files = k₀.files
  counts : ∀ w, (k.layer.vns w).rcnt = (k₀.layer.vns w).rcnt

/-- The value that is returned tells what has happened. -/
structure Reported (k₀ : Kernel) (kernel : Bool) (type : ℕ) (resolved : ℕ → Prop)
    (memory : Option ℕ) (r : ℤ × Kernel) : Prop where
  opened : 0 ≤ r.1 → ∃ i f vn : ℕ, r.1 = i ∧ memory = some f ∧ resolved vn ∧
    Opened k₀ r.2 kernel i f ⟨type, vn, 1, 1⟩
  refused : r.1 < 0 → Refused k₀ r.2

def OpenCall.kernel : OpenCall → Bool
  | .open kernel .. => kernel
  | .opendir kernel .. => kernel

def OpenCall.type : OpenCall → ℕ
  | .open .. => FD_FILE
  | .opendir .. => FD_DIR

/-- The path leads to `vn`, or `vn` is the file that is created under it. -/
def OpenCall.Resolves (k : Kernel) (a : Answers) (vn : ℕ) : OpenCall → Prop
  | .opendir kernel fd path _ => ∃ k₁, getFileFd k kernel fd path true = .ok (.ok vn, k₁)
  | .open kernel fd path omode _ =>
    if omode &&& O_CREAT ≠ 0 then
      ∃ dvn k₁ vnid k₂, getDirFd k kernel fd path = .ok (.ok dvn, k₁) ∧
        callCreate k₁ dvn a.creation = .ok (0, vnid, k₂) ∧
        lookupVnode k₂.layer (nsidOf k₂.layer dvn) vnid = some vn
    else ∃ k₁, getFileFd k kernel fd path true = .ok (.ok vn, k₁)

/-- What keeps a call from returning: a table without a vnode left, or a null pointer where a
directory is looked up. -/
def OpenCall.Crash (e : Stop) : OpenCall → Prop
  | .opendir .. => e = .outOfVnodes
  | .open _ _ path omode _ =>
    e = .outOfVnodes ∨ e = .nullPointer ∧ omode &&& O_CREAT ≠ 0 ∧ path = none

/-- The call returns the descriptor of the file that was opened, or a negative error and
everything is as before; or it crashes. -/
def NamesOpened (k : Kernel) (a : Answers) (c : OpenCall) : Prop :=
  Ends c.Crash (Reported k c.kernel c.type (c.Resolves k a) a.memory) (c.run k a)

section Labels
variable {k₀ k : Kernel} {held : List ℕ} {kernel : Bool} {type vn f : ℕ} {coe : BitVec 32}
  {resolved : ℕ → Prop} {memory : Option ℕ} {err : ℤ} {a : Answers}
  {leave : Kernel → ℤ → Returned}

theorem negated_neg (h : err ≠ 0) : negated err < 0 := by
  unfold negated
  split
  · omega
  · omega

theorem Holding.files_eq (h : Holding k₀ k held) : k.files = k₀.files := by
  rw [h.same]

theorem Holding.refused (h : Holding k₀ k []) : Refused k₀ k :=
  ⟨Holding.files_eq h, h.refs.rcnt_eq⟩

/-- A failure that is reported as one. -/
theorem reported_of_neg (h : Holding k₀ k []) (herr : err < 0) :
    Reported k₀ kernel type resolved memory (err, k) :=
  ⟨fun h' => absurd herr (not_lt.2 h'), fun _ => Holding.refused h⟩

/-- A failure that is reported as a descriptor. -/
theorem not_reported (herr : 0 ≤ err) (h : (k.files kernel).table = (k₀.files kernel).table) :
    ¬Reported k₀ kernel type resolved memory (err, k) := by
  rintro ⟨hopened, -⟩
  obtain ⟨i, f, vn, -, -, -, ho⟩ := hopened herr
  have hslots := congrFun ho.slots i
  dsimp only at hslots
  rw [h, ho.empty, Function.update_self] at hslots
  cases hslots

theorem closeCookie_holding (h : Holding k₀ k held) (a : Answers) :
    Holding k₀ (closeCookie k a) held := by
  have hclose := h.neutral a.close k.walks
  unfold closeCookie
  split
  · exact hclose
  · rename_i free _
    exact hclose.neutral free _

/-- A new open file gets the first free descriptor, or the table is full. -/
theorem newFd_madeOfile {files : Files} (hm : Mirrors files.table) (f type vn : ℕ)
    (coe : BitVec 32) :
    (∃ i < files.table.num, files.table.fds i = none ∧ ∃ files',
      DescriptorTable.newFd (madeOfile files f type vn) (-1) (some f) (-1) coe = ((i : ℤ), files') ∧
      files'.table.fds = Function.update files.table.fds i (some f) ∧
      files'.ofile = Function.update files.ofile f ⟨type, vn, 1, 1⟩) ∨
    ((∀ i < files.table.num, files.table.fds i ≠ none) ∧
      DescriptorTable.newFd (madeOfile files f type vn) (-1) (some f) (-1) coe =
        (EMFILE, madeOfile files f type vn)) := by
  have hmade : Mirrors (madeOfile files f type vn).table := hm
  rcases DescriptorTable.newFd_searching hmade (show (-1 : ℤ) < 0 by decide)
    (show DescriptorTable.source (madeOfile files f type vn).table (some f) (-1) = some f from rfl)
    coe with ⟨i, hi, hfree, -, hnew⟩ | hfull
  · refine .inl ⟨i, hi, hfree, _, hnew, rfl, ?_⟩
    unfold DescriptorTable.retain DescriptorTable.addRcnt DescriptorTable.addOcnt madeOfile
    simp
  · exact .inr hfull

/-- Some descriptor is free. -/
def HasSlot (t : DescriptorTable.FdArray) : Prop := ∃ i < t.num, t.fds i = none

theorem reported_iff_neg (h : Holding k₀ k []) :
    Reported k₀ kernel type resolved memory (err, k) ↔ err < 0 := by
  constructor
  · intro hr
    by_contra hpos
    refine not_reported (not_lt.1 hpos) ?_ hr
    rw [Holding.files_eq h]
  · exact reported_of_neg h

/-- With memory, the end of the calls returns the descriptor, or the error of `new_fd` as if it
were one. -/
theorem finishOpen_iff {S : Stop → Prop} (h : Holding k₀ k held)
    (hm : Mirrors (k₀.files kernel).table) (hmem : a.memory = some f) (hvn : resolved vn) :
    Ends S (Reported k₀ kernel type resolved a.memory)
      (finishOpen k a kernel type vn coe leave) ↔ HasSlot (k₀.files kernel).table := by
  have hfiles := Holding.files_eq h
  unfold finishOpen
  rw [hmem]
  dsimp only
  rw [hfiles]
  rcases newFd_madeOfile hm f type vn coe with ⟨i, hi, hfree, files', hnew, hslots, hfile⟩ |
    ⟨hfull, hnew⟩
  · rw [hnew]
    dsimp only
    rw [if_neg (by omega)]
    refine iff_of_true ⟨fun _ => ⟨i, f, vn, rfl, rfl, hvn, hi, hfree, ?_, ?_, ?_⟩, fun hneg => ?_⟩
      ⟨i, hi, hfree⟩
    · dsimp only
      rw [Function.update_self]
      exact hslots
    · dsimp only
      rw [Function.update_self]
      exact hfile
    · exact Function.update_of_ne (by simp) _ _
    · dsimp only at hneg
      omega
  · rw [hnew]
    dsimp only
    rw [if_neg (by decide)]
    refine iff_of_false (not_reported (by decide) ?_) fun ⟨i, hi, hfree⟩ => hfull i hi hfree
    dsimp only
    rw [Function.update_self]
    rfl

end Labels

section Paths
variable {S : Stop → Prop} {k : Kernel} {kernel : Bool} {fd : ℤ} {path : Option Path}
  {coe : BitVec 32} {a : Answers} {op : Op} {type : ℕ} {leave : ℤ → ℤ}

/-- Every exit of the calls on a path that is there. -/
theorem openPath_iff (hS : S .outOfVnodes) (hk : Ready k) (hm : Mirrors (k.files kernel).table) :
    Ends S (Reported k kernel type
      (fun vn => ∃ k₁, getFileFd k kernel fd path true = .ok (.ok vn, k₁)) a.memory)
      (openPath op type leave k kernel fd path coe a) ↔
    (∀ err k₁, getFileFd k kernel fd path true = .ok (.error err, k₁) → leave err < 0) ∧
    ∀ vn k₁ err k₂, getFileFd k kernel fd path true = .ok (.ok vn, k₁) →
      callOp k₁ vn op a.reply = .ok (err, k₂) →
      if err ≠ 0 then leave err < 0
      else if a.memory = none then leave ENOMEM < 0
      else HasSlot (k.files kernel).table := by
  have hpath := getFileFd_ends hS hk.holding hk hk.few_nil kernel fd path true
  unfold openPath
  rcases hfile : getFileFd k kernel fd path true with e | ⟨err | vn, k₁⟩
  · rw [hfile] at hpath
    exact iff_of_true hpath ⟨fun _ _ h => (nomatch h), fun _ _ _ _ h => (nomatch h)⟩
  · rw [hfile] at hpath
    refine (reported_iff_neg hpath.2).trans ⟨fun hneg => ⟨?_, fun _ _ _ _ h => (nomatch h)⟩,
      fun h => h.1 err k₁ rfl⟩
    rintro _ _ ⟨⟩
    exact hneg
  · rw [hfile] at hpath
    have hop := callOp_ends (S := fun _ => False) hpath List.mem_cons_self op a.reply
    rcases hcall : callOp k₁ vn op a.reply with e | ⟨err, k₂⟩
    · rw [hcall] at hop
      exact hop.elim
    rw [hcall] at hop
    have hleave : ∀ (k₃ : Kernel) (e : ℤ), Holding k k₃ [vn] →
        (Ends S (Reported k kernel type
          (fun vn => ∃ k₁, getFileFd k kernel fd path true = .ok (.ok vn, k₁)) a.memory)
          ((PathWalk.decVnode k₃ vn false).map fun k => (leave e, k)) ↔ leave e < 0) := by
      intro k₃ e h₃
      obtain ⟨k₄, hdec, h₄⟩ := h₃.decVnode hk hk.few_nil.lt false
      rw [hdec]
      exact reported_iff_neg h₄
    rw [hfile] at hleave
    -- the hook has answered `err`
    refine Iff.trans (b := if err ≠ 0 then leave err < 0
      else if a.memory = none then leave ENOMEM < 0 else HasSlot (k.files kernel).table) ?_
      ⟨fun h => ⟨fun _ _ h => (nomatch h), ?_⟩, fun h => h.2 vn k₁ err k₂ rfl hcall⟩
    swap
    · rintro _ _ _ _ ⟨⟩ hcall'
      rw [hcall] at hcall'
      cases hcall'
      exact h
    change Ends S _ ((callOp k₁ vn op a.reply).bind _) ↔ _
    rw [hcall]
    change Ends S _ (if err ≠ 0 then _ else _) ↔ _
    split
    · exact hleave k₂ err hop
    cases hmem : a.memory with
    | none =>
      rw [if_pos rfl]
      unfold finishOpen
      rw [hmem]
      rw [hmem] at hleave
      exact hleave _ ENOMEM (closeCookie_holding hop a)
    | some f =>
      rw [if_neg (Option.some_ne_none f)]
      rw [← hmem]
      exact finishOpen_iff hop hm hmem ⟨k₁, rfl⟩

end Paths

section Creation
variable {S : Stop → Prop} {k₀ k : Kernel} {held : List ℕ} {kernel : Bool} {fd : ℤ}
  {path : Option Path} {coe : BitVec 32} {a : Answers} {vn dvn : ℕ} {resolved : ℕ → Prop}
  {memory : Option ℕ}

/-- A `create` hook fails, or the call has a reference to the file as well. -/
theorem callCreate_cases (h : Holding k₀ k (dvn :: held)) (creation : Creation) :
    (∃ err vnid k', callCreate k dvn creation = .ok (err, vnid, k') ∧ err ≠ 0 ∧
      Holding k₀ k' (dvn :: held)) ∨
    (∃ vnid vn k', callCreate k dvn creation = .ok (0, vnid, k') ∧
      lookupVnode k'.layer (nsidOf k'.layer dvn) vnid = some vn ∧
      Holding k₀ k' (vn :: dvn :: held)) := by
  have hlive : Live k.layer dvn := h.refs.live_held List.mem_cons_self
  obtain ⟨ns, hns, hreg⟩ := h.registered hlive
  unfold callCreate
  rw [hns]
  dsimp only
  split
  swap
  · exact .inl ⟨EINVAL, 0, k, rfl, by decide, h⟩
  have hrefers := creation.refers k.layer (k.layer.spaces ns).nsid h.refs.sound
    (by rw [hreg]; exact Option.some_ne_none ns)
  generalize creation.run k.layer (k.layer.spaces ns).nsid = made at hrefers
  unfold Created.Refers at hrefers
  by_cases herr : made.err = 0
  · rw [if_pos herr] at hrefers
    obtain ⟨vn, hin, hlookup, hc⟩ := hrefers
    have h' : Holding k₀ { k with layer := made.layer } (vn :: dvn :: held) :=
      h.change hc (h.refs.take hin hc) k.walks
    refine .inr ⟨made.vnid, vn, _, by rw [herr], ?_, h'⟩
    have hlive' : Live made.layer dvn := h'.refs.live_held (by simp)
    have hnsid : nsidOf made.layer dvn = (k.layer.spaces ns).nsid := by
      unfold nsidOf
      rw [(hc.kept dvn hlive.pos hlive'.pos).1, hns]
      exact (hc.spaces.ids ns).1
    change lookupVnode made.layer (nsidOf made.layer dvn) made.vnid = some vn
    rw [hnsid]
    exact hlookup
  · rw [if_neg herr] at hrefers
    exact .inl ⟨made.err, made.vnid, _, rfl, herr,
      h.change hrefers (h.refs.neutral hrefers) k.walks⟩

theorem lookupCreated_eq (h : k.vnlock = false) {vnid : ℤ}
    (hl : lookupVnode k.layer (nsidOf k.layer dvn) vnid = some vn) :
    lookupCreated k dvn vnid = .ok (vn, k) := by
  unfold lookupCreated
  rw [lock_eq h]
  dsimp only [Except.bind]
  rw [hl]
  dsimp only
  have hunlock := unlock_eq h k.layer
  dsimp only at hunlock
  rw [hunlock]

/-- Dropping a vnode takes one from its count, also when nobody holds it. -/
theorem decVnode_rcnt (h : k.vnlock = false) (hs : Sound k.layer) (hfit : FitsInt k.layer)
    (hin : vn < k.layer.vnnum) (r : Bool) :
    ∃ k', PathWalk.decVnode k vn r = .ok k' ∧
      (k'.layer.vns vn).rcnt = (k.layer.vns vn).rcnt - 1 := by
  have hnonneg := (hs.placed vn hin).rcnt
  have hless := hfit vn hin
  by_cases hone : (k.layer.vns vn).rcnt = 1
  · obtain ⟨s, hdec, hc⟩ := decVnode_eq h hs (⟨hin, by omega⟩ : Live k.layer vn) (fun _ => hone) r
    refine ⟨_, hdec, ?_⟩
    have hrcnt := hc.rcnt vn
    rw [Pi.single_eq_same] at hrcnt
    exact hrcnt
  · unfold PathWalk.decVnode
    rw [lock_eq h]
    dsimp only [Except.bind]
    unfold VnodeLayer.decVnode
    rw [if_neg]
    · refine ⟨_, rfl, ?_⟩
      simp [PathWalk.unlock, setVnode, VnodeLayer.record]
    · simp only [setVnode, VnodeLayer.record, Function.update_self, Vnode.intRcnt,
        MachineIntegers.toInt32_eq_zero]
      omega

/-- Out of memory, the directory is dropped twice. -/
theorem createFile_drops_twice (h : Holding k₀ k [vn]) (h₀ : Ready k₀) (hin : dvn < k₀.layer.vnnum)
    (unlink : Effect) (hS : ∀ e, S e → e ≠ .nullPointer) :
    ¬Ends S (Reported k₀ kernel FD_FILE resolved memory)
      ((callUnlink k vn dvn unlink).bind fun k =>
        (PathWalk.decVnode k vn false).bind fun k =>
        (PathWalk.decVnode k dvn false).map fun k => (negated ENOMEM, k)) := by
  intro hends
  rcases hcall : callUnlink k vn dvn unlink with e | k₁
  · rw [hcall] at hends
    refine hS e hends ?_
    unfold callUnlink at hcall
    split at hcall
    · split at hcall
      · cases hcall
      · cases hcall
        rfl
    · cases hcall
      rfl
  · have h₁ : Holding k₀ k₁ [vn] := by
      unfold callUnlink at hcall
      split at hcall
      · split at hcall
        · cases hcall
          exact h.neutral unlink k.walks
        · cases hcall
      · cases hcall
    obtain ⟨k₂, hdec, h₂⟩ := h₁.decVnode h₀ h₀.few_nil.lt false
    have hin₂ : dvn < k₂.layer.vnnum := by
      rw [h₂.refs.vnnum]
      exact hin
    have hready := h₂.ready h₀
    obtain ⟨k₃, hdec', hrcnt⟩ := decVnode_rcnt hready.unlocked hready.sound hready.counts hin₂ false
    rw [hcall] at hends
    change Ends S _ ((PathWalk.decVnode k₁ vn false).bind _) at hends
    rw [hdec] at hends
    change Ends S _ ((PathWalk.decVnode k₂ dvn false).map _) at hends
    rw [hdec'] at hends
    have hsame := (hends.refused (show negated ENOMEM < 0 by decide)).counts dvn
    dsimp only at hsame
    rw [hrcnt, h₂.refs.rcnt_eq] at hsame
    omega

/-- Every exit of the call that creates. -/
theorem createFile_iff (hS : S .outOfVnodes) (hnull : path = none → S .nullPointer)
    (hsome : path ≠ none → ∀ e, S e → e ≠ .nullPointer) (hk : Ready k)
    (hm : Mirrors (k.files kernel).table) :
    Ends S (Reported k kernel FD_FILE
      (fun vn => ∃ dvn k₁ vnid k₂, getDirFd k kernel fd path = .ok (.ok dvn, k₁) ∧
        callCreate k₁ dvn a.creation = .ok (0, vnid, k₂) ∧
        lookupVnode k₂.layer (nsidOf k₂.layer dvn) vnid = some vn) a.memory)
      (createFile k kernel fd path coe a) ↔
    ∀ dvn k₁ vnid k₂, getDirFd k kernel fd path = .ok (.ok dvn, k₁) →
      callCreate k₁ dvn a.creation = .ok (0, vnid, k₂) →
      a.memory ≠ none ∧ HasSlot (k.files kernel).table := by
  have hpath := getDirFd_ends hS hnull hk.holding hk hk.few_nil kernel fd
  unfold createFile
  rcases hdir : getDirFd k kernel fd path with e | ⟨err | dvn, k₁⟩
  · rw [hdir] at hpath
    exact iff_of_true hpath fun _ _ _ _ h => (nomatch h)
  · rw [hdir] at hpath
    exact iff_of_true (reported_of_neg hpath.2 (negated_neg hpath.1)) fun _ _ _ _ h => (nomatch h)
  rw [hdir] at hpath
  have hthere : path ≠ none := by
    rintro rfl
    cases hdir
  have hlive : Live k₁.layer dvn := hpath.refs.live_held List.mem_cons_self
  have hin : dvn < k.layer.vnnum := by
    rw [← hpath.refs.vnnum]
    exact hlive.inside
  change Ends S _ ((callCreate k₁ dvn a.creation).bind _) ↔ _
  rcases callCreate_cases hpath a.creation with ⟨err, vnid, k₂, hcreate, herr, h₂⟩ |
    ⟨vnid, vn, k₂, hcreate, hlookup, h₂⟩
  · rw [hcreate]
    refine iff_of_true ?_ ?_
    · change Ends S _ (if err ≠ 0 then _ else _)
      rw [if_pos herr]
      exact dec_then h₂ hk hk.few_nil.lt fun k' h' => reported_of_neg h' (negated_neg herr)
    · rintro _ _ _ _ ⟨⟩ hcreate'
      rw [hcreate] at hcreate'
      cases hcreate'
      exact absurd rfl herr
  -- the file is made: what follows depends on the memory and on the table
  refine Iff.trans (b := a.memory ≠ none ∧ HasSlot (k.files kernel).table) ?_
    ⟨fun h => ?_, fun h => h dvn k₁ vnid k₂ rfl hcreate⟩
  swap
  · rintro _ _ _ _ - -
    exact h
  obtain ⟨k₃, hdec, h₃⟩ := (h₂.perm (List.Perm.swap dvn vn [])).decVnode hk (hk.few_one vn).lt false
  rw [hcreate]
  change Ends S _ ((lookupCreated k₂ dvn vnid).bind _) ↔ _
  rw [lookupCreated_eq (h₂.usable hk).unlocked hlookup]
  change Ends S _ ((PathWalk.decVnode k₂ dvn false).bind _) ↔ _
  rw [hdec]
  dsimp only [Except.bind]
  cases hmem : a.memory with
  | none =>
    refine iff_of_false ?_ fun h => h.1 rfl
    unfold finishOpen
    rw [hmem]
    exact createFile_drops_twice (closeCookie_holding h₃ a) hk hin a.unlink (hsome hthere)
  | some f =>
    rw [and_iff_right (Option.some_ne_none f), ← hmem]
    exact finishOpen_iff h₃ hm hmem ⟨dvn, k₁, vnid, k₂, rfl, hcreate, hlookup⟩

end Creation

/-- A call gets by without the slips of the code: a lookup or an `open` hook that fails gives a
negative error, memory does not run out behind a hook that has opened or created a file, and the
table is not full then. -/
def OpenCall.Clear (k : Kernel) (a : Answers) : OpenCall → Prop
  | .opendir kernel fd path _ => ∀ vn k₁ k₂, getFileFd k kernel fd path true = .ok (.ok vn, k₁) →
      callOp k₁ vn .opendir a.reply = .ok (0, k₂) → a.memory ≠ none →
      HasSlot (k.files kernel).table
  | .open kernel fd path omode _ =>
    if omode &&& O_CREAT ≠ 0 then
      ∀ dvn k₁ vnid k₂, getDirFd k kernel fd path = .ok (.ok dvn, k₁) →
        callCreate k₁ dvn a.creation = .ok (0, vnid, k₂) →
        a.memory ≠ none ∧ HasSlot (k.files kernel).table
    else
      (∀ err k₁, getFileFd k kernel fd path true = .ok (.error err, k₁) → err < 0) ∧
      ∀ vn k₁ err k₂, getFileFd k kernel fd path true = .ok (.ok vn, k₁) →
        callOp k₁ vn .open a.reply = .ok (err, k₂) →
        err < 0 ∨ err = 0 ∧ a.memory ≠ none ∧ HasSlot (k.files kernel).table

section Descriptors
variable {k : Kernel} {kernel : Bool} {fd : ℤ} {path : Option Path} {omode coe : BitVec 32}

theorem opendir_iff (hk : Ready k) (hm : Mirrors (k.files kernel).table) (a : Answers) :
    NamesOpened k a (.opendir kernel fd path coe) ↔
      OpenCall.Clear k a (.opendir kernel fd path coe) := by
  have hpath := getFileFd_ends (S := fun e => e = .outOfVnodes) rfl hk.holding hk hk.few_nil
    kernel fd path true
  refine (openPath_iff (S := fun e => e = .outOfVnodes) rfl hk hm).trans ?_
  constructor
  · intro h vn k₁ k₂ hfile hcall hmem
    have hslot := h.2 vn k₁ 0 k₂ hfile hcall
    rw [if_neg (not_not_intro rfl), if_neg hmem] at hslot
    exact hslot
  · intro h
    refine ⟨fun err k₁ hfile => ?_, fun vn k₁ err k₂ hfile hcall => ?_⟩
    · rw [hfile] at hpath
      exact negated_neg hpath.1
    · split
      · rename_i herr
        exact negated_neg herr
      · rename_i herr
        obtain rfl := not_not.1 herr
        split
        · decide
        · rename_i hmem
          exact h vn k₁ k₂ hfile hcall hmem

theorem open_iff (hk : Ready k) (hm : Mirrors (k.files kernel).table) (a : Answers) :
    NamesOpened k a (.open kernel fd path omode coe) ↔
      OpenCall.Clear k a (.open kernel fd path omode coe) := by
  unfold NamesOpened OpenCall.Clear OpenCall.run sysOpen OpenCall.Resolves OpenCall.Crash
  dsimp only
  by_cases hcreat : omode &&& O_CREAT ≠ 0
  · rw [if_pos hcreat]
    simp only [if_pos hcreat]
    refine createFile_iff (.inl rfl) (fun hnull => .inr ⟨rfl, hcreat, hnull⟩) ?_ hk hm
    rintro hthere e (rfl | ⟨-, -, hnull⟩)
    · decide
    · exact absurd hnull hthere
  · rw [if_neg hcreat]
    simp only [if_neg hcreat]
    refine (openPath_iff (.inl rfl) hk hm).trans (and_congr_right fun _ => ?_)
    refine forall_congr' fun vn => forall_congr' fun k₁ => forall_congr' fun err =>
      forall_congr' fun k₂ => imp_congr_right fun _ => imp_congr_right fun _ => ?_
    unfold id
    by_cases herr : err = 0
    · subst herr
      rw [if_neg (not_not_intro rfl)]
      by_cases hmem : a.memory = none
      · rw [if_pos hmem]
        exact iff_of_false (by decide) (by rintro (h | ⟨-, h, -⟩); exacts [by omega, h hmem])
      · rw [if_neg hmem]
        exact ⟨fun h => .inr ⟨rfl, hmem, h⟩, by rintro (h | ⟨-, -, h⟩); exacts [by omega, h]⟩
    · rw [if_pos herr]
      exact ⟨.inl, by rintro (h | ⟨h, -⟩); exacts [h, absurd h herr]⟩

end Descriptors

/-- What both calls return names what they have done exactly if the call is clear of the three
slips. -/
theorem names_opened_iff {k : Kernel} (hk : Ready k) (hm : ∀ kernel, Mirrors (k.files kernel).table)
    (a : Answers) (c : OpenCall) : NamesOpened k a c ↔ c.Clear k a := by
  cases c with
  | «open» kernel fd path omode coe => exact open_iff hk (hm kernel) a
  | opendir kernel fd path coe => exact opendir_iff hk (hm kernel) a

/-- A `create` hook that makes the file `vnid` with `new_vnode`. -/
def newFile (vnid : ℤ) : Creation where
  run s nsid :=
    match lookupVnode s nsid vnid, newVnode s nsid vnid 0 0 with
    | none, .ok (err, s') => ⟨err, vnid, s'⟩
    | _, _ => ⟨EINVAL, vnid, s⟩
  refers s nsid hs hns := by
    obtain ⟨p, hp⟩ := Option.ne_none_iff_exists'.1 hns
    have hfails : Created.Refers ⟨EINVAL, vnid, s⟩ s nsid := by
      unfold Created.Refers
      rw [if_neg (show EINVAL ≠ 0 by decide)]
      exact .refl hs
    rcases hlookup : lookupVnode s nsid vnid with _ | old
    swap
    · exact hfails
    have hfresh : ∀ w, Registered s w → idOf s w ≠ (nsid, vnid) := by
      intro w hw hid
      rw [Sound.lookup hs hw hid] at hlookup
      cases hlookup
    rcases newVnode_change hs hp hfresh 0 (Nat.zero_le _) with ⟨s', vn, hnew, hin, -, hvn, hc⟩ |
      ⟨hnew, -⟩
    · rw [hnew]
      unfold Created.Refers
      dsimp only
      rw [if_pos rfl]
      exact ⟨vn, by rw [hc.vnnum]; exact hin, hvn, hc⟩
    · rw [hnew]
      unfold Created.Refers
      rw [if_neg (show ENOMEM ≠ 0 by decide)]
      exact .refl hs

/-- Hooks that do what they are asked for, and memory for an open file. -/
def willing : Answers := ⟨⟨idle, 0⟩, newFile 5, some 7, idle, none, idle⟩

/-- `open("/f", O_RDWR | O_CREAT)` returns descriptor 0. -/
theorem names_opened_created :
    ((OpenCall.open true (-1) (some [47, 102]) 0x42 0).run (mountedKernel selfAnswers)
      willing).toOption.map Prod.fst = some 0 ∧
    NamesOpened (mountedKernel selfAnswers) willing (.open true (-1) (some [47, 102]) 0x42 0) :=
  ⟨by decide +kernel, (names_opened_iff (mountedKernel_ready _)
    (fun _ => DescriptorTable.mirrors_newFds 4) _ _).2 fun _ _ _ _ _ _ =>
      ⟨Option.some_ne_none 7, 0, by decide, rfl⟩⟩

/-- A descriptor that is returned for a slot that is empty. -/
theorem not_named {k : Kernel} {a : Answers} {c : OpenCall} {i : ℕ}
    (h : (c.run k a).toOption.map (fun r => (r.1, (r.2.files c.kernel).table.fds i)) =
      some ((i : ℤ), none)) : ¬NamesOpened k a c := by
  intro hnames
  unfold NamesOpened at hnames
  rcases hrun : c.run k a with e | ⟨r, k'⟩
  · rw [hrun] at h
    cases h
  · rw [hrun] at h hnames
    obtain ⟨hr, hempty⟩ := Prod.mk.inj (Option.some.inj h)
    dsimp only at hr hempty
    obtain ⟨j, f, vn, hj, -, -, ho⟩ := hnames.opened (by dsimp only; omega)
    obtain rfl : i = j := by
      dsimp only at hj
      omega
    have hslots := congrFun ho.slots i
    rw [hempty, Function.update_self] at hslots
    cases hslots

/-- A kernel whose descriptor tables have one slot. -/
def oneSlot : Kernel :=
  { mountedKernel selfAnswers with
    files := fun _ => ⟨DescriptorTable.newFds 1, fun _ => ⟨0, 0, 0, 0⟩, []⟩ }

/-- The slot has been taken by `opendir("/")`. -/
def noSlot : Kernel :=
  (((OpenCall.opendir true (-1) (some [47]) 0).run oneSlot willing).toOption.map Prod.snd).getD
    oneSlot

/-- `open("/f", O_RDWR)` returns descriptor 2, the error of the lookup; with the table full
`opendir` returns descriptor 24. -/
theorem errno_as_descriptor :
    Ready (mountedKernel []) ∧
    ¬NamesOpened (mountedKernel []) willing (.open true (-1) (some [47, 102]) 2 0) ∧
    (noSlot.files true).table.fds 0 = some 7 ∧
    ¬NamesOpened noSlot willing (.opendir true (-1) none 0) :=
  ⟨mountedKernel_ready _, not_named (i := 2) (by decide +kernel), by decide +kernel,
    not_named (i := 24) (by decide +kernel)⟩

end OpenCalls
