import Mathlib.Tactic
import FsKit.FallibleRuns
import FsKit.DescriptorTable
import FsKit.VnodeCounts

/-! Path resolution (`kernel.c`). A path is the bytes before its end, a null pointer is `none`.
The hooks of the file systems answer as they like: what the `walk` hooks are going to answer
is part of the state. A hook may work on the vnode tables, but it leaves the reference counts
alone; a `walk` that reports an id has taken one reference through `get_vnode`. -/
namespace PathWalk

open MachineIntegers
open FallibleRuns SkipListSet VnodeRegistry VnodeTable VnodeCounts
open VnodeLayer hiding incVnode decVnode
open DescriptorTable (Files FD_ALL EBADF)

def EINVAL : ℤ := 22
def EXDEV : ℤ := 18
def ENAMETOOLONG : ℤ := 36
def ELOOP : ℤ := 40

def FILE_NAME_LENGTH : ℕ := 256
/-- From the system's headers. -/
def MAXPATHLEN : ℕ := 4096
def MAX_SYM_LINKS : ℕ := 16

abbrev Path := List UInt8

def slash : UInt8 := 47
def dot : UInt8 := 46

/-- What a hook does to the tables of the vnode layer. -/
structure Effect where
  run : Layer → Layer
  neutral : ∀ s, Sound s → Change s (run s) 0

/-- What a `walk` hook reports of a component that is not a link, or not to be followed. The
id comes with what reading its vnode takes. -/
inductive Answer where
  | fails (err : { e : ℤ // e ≠ 0 })
  | found (vnid err : ℤ) (data : ℕ) (random : Fin (maxLevel + 1))

/-- A call of a `walk` hook. A link has a text for a caller who asks for it. -/
structure WalkCall where
  effect : Effect
  link : Option Path
  answer : Answer

/-- A call of another hook. -/
structure Reply where
  effect : Effect
  err : ℤ

/-- The hooks that a file system may leave out. -/
inductive Op where
  | access
  | symlink
  | readlink
  | mkdir
  | link
  | unlink
  | rmdir
  | rename
  | rstat
  | wstat
  | opendir
  | create
  | open
  deriving DecidableEq, Repr

structure Fsystem where
  fsid : ℕ
  name : Path
  fixed : Bool
  rcnt : ℤ
  ops : Op → Bool

/-- What the kernel keeps of a name space beside its vnodes. -/
structure Space where
  fs : ℕ
  root : Option ℕ
  mount : Option ℕ
  dev : ℤ
  ino : ℤ
  prev : Option ℕ
  next : Option ℕ

structure Kernel where
  layer : Layer
  vnlock : Bool
  rootvn : ℕ
  cwd : ℕ
  space : ℕ → Space
  nshead : Option ℕ
  nxnsid : ℕ
  fsystem : ℕ → Fsystem
  fstab : List (Option ℕ)
  files : Bool → Files
  walks : ℕ → WalkCall

/-- Why a call does not return. -/
inductive Stop where
  | nullPointer
  | outOfVnodes
  | lockedTwice
  | layer (h : VnodeLayer.Halt)
  | unfinished
  deriving DecidableEq, Repr

/-- The semaphore dies when it is taken twice. -/
def lock (k : Kernel) : Except Stop Kernel :=
  if k.vnlock then .error .lockedTwice else .ok { k with vnlock := true }

def unlock (k : Kernel) : Kernel := { k with vnlock := false }

def incVnode (k : Kernel) (vn : ℕ) : Except Stop Kernel :=
  (lock k).map fun k => unlock { k with layer := VnodeLayer.incVnode k.layer vn }

def decVnode (k : Kernel) (vn : ℕ) (r : Bool) : Except Stop Kernel :=
  (lock k).bind fun k =>
    let o := Obs.putting (nsidOf k.layer vn) (k.layer.vns vn).vnid
    match VnodeLayer.decVnode (record k.layer o) vn r with
    | .error h => .error (.layer h)
    | .ok s => .ok (unlock { k with layer := s })

def isMountVnode (k : Kernel) (mount : ℕ) : Except Stop (Option ℕ × Kernel) :=
  (lock k).bind fun k =>
    match (k.layer.vns mount).mounted with
    | none => .ok (none, unlock k)
    | some ns =>
      match (k.space ns).root with
      | none => .error .nullPointer
      | some root =>
        .ok (some root, unlock { k with layer := VnodeLayer.incVnode k.layer root })

def isRoot (k : Kernel) (root : ℕ) : Except Stop (Option ℕ × Kernel) :=
  match (k.layer.vns root).ns with
  | none => .error .nullPointer
  | some ns =>
    if (k.space ns).root = some root then
      match (k.space ns).mount with
      | none => .ok (none, k)
      | some mount => (incVnode k mount).map fun k => (some mount, k)
    else .ok (none, k)

inductive Walked where
  | fails (err : ℤ)
  | link (text : Path)
  | found (vnid : ℤ)

/-- What a `walk` hook of name space `ns` reports, after it has read the vnode in. -/
def report (k : Kernel) (ns : ℕ) : Answer → Except Stop (Walked × Kernel)
  | .fails err => .ok (.fails err, k)
  | .found vnid err data random =>
    match getVnode k.layer (k.layer.spaces ns).nsid vnid err data random with
    | .error _ => .error .outOfVnodes
    | .ok (e, _, s) => .ok (if e ≠ 0 then .fails e else .found vnid, { k with layer := s })

/-- The `walk` hook of the file system that `bvn` belongs to. -/
def callWalk (k : Kernel) (bvn : ℕ) (follow : Bool) : Except Stop (Walked × Kernel) :=
  match (k.layer.vns bvn).ns with
  | none => .error .nullPointer
  | some ns =>
    let call := k.walks 0
    let k := { k with layer := call.effect.run k.layer, walks := fun i => k.walks (i + 1) }
    match call.link, follow with
    | some text, true => .ok (.link text, k)
    | _, _ => report k ns call.answer

/-- The rest of a round that has found a vnode: the old one is dropped, and a mount point
stands for the root of what is mounted there. -/
def enter (k : Kernel) (bvn : ℕ) (vnid : ℤ) : Except Stop (ℕ × Kernel) :=
  match lookupVnode k.layer (nsidOf k.layer bvn) vnid with
  | none => .error .nullPointer
  | some vn =>
    (decVnode k bvn false).bind fun k =>
    (isMountVnode k vn).bind fun (root, k) =>
      match root with
      | none => .ok (vn, k)
      | some root => (decVnode k vn false).map fun k => (root, k)

/-- Two dots at the root of a name space lead to where it is mounted. -/
def leaveRoot (k : Kernel) (bvn : ℕ) (component : Path) : Except Stop (ℕ × Kernel) :=
  if component = [dot, dot] then
    (isRoot k bvn).bind fun (mount, k) =>
      match mount with
      | none => .ok (bvn, k)
      | some mount => (decVnode k bvn false).map fun k => (mount, k)
  else .ok (bvn, k)

abbrev Resolved := Except Stop (Except ℤ ℕ × Kernel)

/-- The loop of `parse_path` up to a link that is to be followed. Every round takes at least
one byte off the path. -/
def parseLoop (eatsymlink : Bool) (atLink : Kernel → ℕ → Path → Path → Resolved) :
    ℕ → Kernel → ℕ → Path → Resolved
  | _, k, bvn, [] => .ok (.ok bvn, k)
  | 0, _, _, _ :: _ => .error .unfinished
  | fuel + 1, k, bvn, c :: cs =>
    let component := c :: cs.takeWhile (· ≠ slash)
    let np := (cs.dropWhile (· ≠ slash)).dropWhile (· = slash)
    (leaveRoot k bvn component).bind fun (bvn, k) =>
    (callWalk k bvn (eatsymlink || np ≠ [])).bind fun (walked, k) =>
      match walked with
      | .fails err => (decVnode k bvn false).map fun k => (.error err, k)
      | .link text => atLink k bvn text np
      | .found vnid =>
        (enter k bvn vnid).bind fun (bvn, k) => parseLoop eatsymlink atLink fuel k bvn np

def catPaths (a b : Path) : Path := a ++ slash :: b

/-- `parse_path` when so many links may still be followed, for hooks whose answers are in the
state. For any hook, its rounds are taken one by one in `PathRounds`, which come to the same
answers (`PathRounds.parsePath_answers`). -/
def parsePath (eatsymlink : Bool) : ℕ → Kernel → ℕ → Path → Resolved
  | 0, k, bvn, p =>
    parseLoop eatsymlink (fun k vn _ _ => (decVnode k vn false).map fun k => (.error ELOOP, k))
      p.length k bvn p
  | links + 1, k, bvn, p =>
    parseLoop eatsymlink (fun k vn newpath np =>
      let p := catPaths newpath np
      if p.head? = some slash then
        (decVnode k vn false).bind fun k =>
        (incVnode k k.rootvn).bind fun k =>
          parsePath eatsymlink links k k.rootvn (p.dropWhile (· = slash))
      else parsePath eatsymlink links k vn p) p.length k bvn p

/-- `put_fd`; an open file that is freed drops its vnode. -/
def putFd (k : Kernel) (kernel : Bool) (f : ℕ) : Except Stop Kernel :=
  let files := k.files kernel
  let k := { k with files := Function.update k.files kernel (DescriptorTable.putFd files f) }
  if (DescriptorTable.addRcnt files f (-1)).1 = 1 then decVnode k (files.ofile f).vn false
  else .ok k

def parsePathFd (k : Kernel) (kernel : Bool) (fd : ℤ) (path : Option Path) (eatsymlink : Bool) :
    Resolved :=
  let parse (k : Kernel) (bvn : ℕ) (path : Option Path) : Resolved := match path with
    | none => .ok (.ok bvn, k)
    | some p => parsePath eatsymlink MAX_SYM_LINKS k bvn p
  if path.bind List.head? = some slash then
    (incVnode k k.rootvn).bind fun k => parse k k.rootvn (path.map (·.dropWhile (· = slash)))
  else if 0 ≤ fd then
    match DescriptorTable.getFd (k.files kernel) fd FD_ALL with
    | (none, _) => .ok (.error EBADF, k)
    | (some f, files) =>
      let bvn := (files.ofile f).vn
      let k := { k with files := Function.update k.files kernel files }
      (incVnode k bvn).bind fun k => (putFd k kernel f).bind fun k => parse k bvn path
  else (incVnode k k.cwd).bind fun k => parse k k.cwd path

/-- The copy of a path that the calls work on. Its length is an `int`: paths are shorter than
2 GB. -/
def newPath : Option Path → Except ℤ (Option Path)
  | none => .ok none
  | some path =>
    if path = [] then .error ENOENT
    else if MAXPATHLEN ≤ path.length then .error ENAMETOOLONG
    else if (path.splitOn slash).any fun c => FILE_NAME_LENGTH ≤ c.length then
      .error ENAMETOOLONG
    else .ok (some (if path.getLast? = some slash then path ++ [dot] else path))

def getFileFd (k : Kernel) (kernel : Bool) (fd : ℤ) (path : Option Path) (eatsymlink : Bool) :
    Resolved :=
  match newPath path with
  | .error err => .ok (.error err, k)
  | .ok p => parsePathFd k kernel fd p eatsymlink

/-- The directory of a path. The code also returns the file name, the bytes after the last
slash; the calls only hand it to a hook, so it is left out (`PathSplitting.getDirFd` has it). -/
def getDirFd (k : Kernel) (kernel : Bool) (fd : ℤ) (path : Option Path) : Resolved :=
  match newPath path with
  | .error err => .ok (.error err, k)
  | .ok none => .error .nullPointer
  | .ok (some p) =>
    let dir := (p.reverse.dropWhile (· ≠ slash)).reverse
    parsePathFd k kernel fd (some (dir ++ [dot])) true

/-- Calls a hook of the file system that `vn` belongs to. -/
def callOp (k : Kernel) (vn : ℕ) (op : Op) (reply : Reply) : Except Stop (ℤ × Kernel) :=
  match (k.layer.vns vn).ns with
  | none => .error .nullPointer
  | some ns =>
    if (k.fsystem (k.space ns).fs).ops op then
      .ok (reply.err, { k with layer := reply.effect.run k.layer })
    else .ok (EINVAL, k)

/-- The tables are sound and nobody has the lock, and what the kernel keeps pointers to is
referenced. The current directory is there: `io->cwd` is set before the first call. -/
structure Usable (k : Kernel) : Prop where
  sound : Sound k.layer
  unlocked : k.vnlock = false
  rootvn : Live k.layer k.rootvn
  cwd : Live k.layer k.cwd
  roots : ∀ v ns, (k.layer.vns v).mounted = some ns → v < k.layer.vnnum →
    Live k.layer v ∧ ∃ root, (k.space ns).root = some root ∧ Live k.layer root
  tops : ∀ ns, nsidtons k.layer (k.layer.spaces ns).nsid = some ns → ∀ root,
    (k.space ns).root = some root → Live k.layer root
  mounts : ∀ ns, nsidtons k.layer (k.layer.spaces ns).nsid = some ns → ∀ mount,
    (k.space ns).mount = some mount → Live k.layer mount ∧ (k.layer.vns mount).ns ≠ some ns
  first : ∀ ns, nsidtons k.layer (k.layer.spaces ns).nsid = some ns →
    (k.space ns).mount = none → ∀ root, (k.space ns).root = some root → root = k.rootvn
  files : ∀ kernel i f, i < (k.files kernel).table.num → (k.files kernel).table.fds i = some f →
    Live k.layer ((k.files kernel).ofile f).vn ∧ 0 < ((k.files kernel).ofile f).rcnt ∧
      ((k.files kernel).ofile f).rcnt < 2 ^ 32

/-- What holds between the calls. -/
structure Ready (k : Kernel) : Prop extends Usable k where
  counts : FitsInt k.layer

/-- There is room for more references beside those that the call has. -/
def Few (k₀ : Kernel) (held : List ℕ) : Prop :=
  ∀ w < k₀.layer.vnnum, (k₀.layer.vns w).rcnt + held.count w < 2 ^ 31 + 2 ^ 30

section Few
variable {k₀ : Kernel} {held : List ℕ} {vn : ℕ}

theorem Ready.few (h : Ready k₀) (hlen : held.length < 2 ^ 30) : Few k₀ held := by
  intro w hw
  have hless := h.counts w hw
  have hcount : held.count w ≤ held.length := List.count_le_length
  omega

theorem Ready.few_nil (h : Ready k₀) : Few k₀ [] := h.few (by simp)

theorem Ready.few_one (h : Ready k₀) (vn : ℕ) : Few k₀ [vn] := h.few (by simp)

theorem Few.lt (h : Few k₀ held) : Unwrapped k₀.layer held := by
  intro w hw
  have hless := h w hw
  omega

theorem Few.cons (h : Few k₀ held) : Unwrapped k₀.layer (vn :: held) := by
  intro w hw
  have hless := h w hw
  have hcount : (vn :: held).count w ≤ held.count w + 1 := by
    rw [List.count_cons]
    split <;> omega
  omega

end Few

/-- A call that started in the state `k₀` holds references to the vnodes of the list. -/
structure Holding (k₀ k : Kernel) (held : List ℕ) : Prop where
  same : k = { k₀ with layer := k.layer, walks := k.walks }
  spaces : SameSpaces k₀.layer k.layer
  refs : Refs k₀.layer k.layer held

section References
variable {k₀ k k' : Kernel} {held held' : List ℕ} {vn bvn : ℕ}

theorem Ready.holding (h : Ready k) : Holding k k [] :=
  ⟨rfl, ⟨rfl, rfl, fun _ => ⟨rfl, rfl⟩⟩, .of_vns h.sound h.sound rfl rfl⟩

theorem Holding.perm (h : Holding k₀ k held) (hp : held.Perm held') : Holding k₀ k held' :=
  ⟨h.same, h.spaces, h.refs.perm hp⟩

theorem Holding.change (h : Holding k₀ k held) {s : Layer} {d : ℕ → ℤ} (hc : Change k.layer s d)
    (hr : Refs k₀.layer s held') (walks : ℕ → WalkCall) :
    Holding k₀ { k with layer := s, walks := walks } held' := by
  refine ⟨?_, ⟨?_, ?_, fun p => ?_⟩, hr⟩
  · have hsame := h.same
    generalize k.layer = l, k.walks = ws at hsame
    subst hsame
    rfl
  · exact hc.spaces.nns.trans h.spaces.nns
  · exact hc.spaces.nstab.trans h.spaces.nstab
  · exact ⟨(hc.spaces.ids p).1.trans (h.spaces.ids p).1,
      (hc.spaces.ids p).2.trans (h.spaces.ids p).2⟩

theorem Holding.neutral (h : Holding k₀ k held) (e : Effect) (walks : ℕ → WalkCall) :
    Holding k₀ { k with layer := e.run k.layer, walks := walks } held :=
  h.change (e.neutral k.layer h.refs.sound) (h.refs.neutral (e.neutral k.layer h.refs.sound)) walks

/-- What holds between the calls also holds while a call has references. -/
theorem Holding.usable (h : Holding k₀ k held) (h₀ : Ready k₀) : Usable k where
  sound := h.refs.sound
  unlocked := by
    rw [h.same]
    exact h₀.unlocked
  rootvn := by
    rw [h.same]
    exact h.refs.live h₀.rootvn
  cwd := by
    rw [h.same]
    exact h.refs.live h₀.cwd
  roots := by
    intro v ns hm hv
    obtain ⟨hlive, root, hroot, hrlive⟩ := h₀.roots v ns (h.refs.mounted v ns hm)
      (by rw [← h.refs.vnnum]; exact hv)
    refine ⟨h.refs.live hlive, root, ?_, h.refs.live hrlive⟩
    rw [h.same]
    exact hroot
  tops := by
    intro ns hns root hroot
    rw [(h.spaces.ids ns).1, h.spaces.nsidtons] at hns
    rw [h.same] at hroot
    exact h.refs.live (h₀.tops ns hns root hroot)
  mounts := by
    intro ns hns mount hm
    rw [(h.spaces.ids ns).1, h.spaces.nsidtons] at hns
    rw [h.same] at hm
    obtain ⟨hlive, hne⟩ := h₀.mounts ns hns mount hm
    refine ⟨h.refs.live hlive, ?_⟩
    rw [(h.refs.kept mount hlive.pos).1]
    exact hne
  first := by
    intro ns hns hm
    rw [(h.spaces.ids ns).1, h.spaces.nsidtons] at hns
    rw [h.same] at hm ⊢
    exact h₀.first ns hns hm
  files := by
    rw [h.same]
    intro kernel i f hi hf
    obtain ⟨hlive, hcount⟩ := h₀.files kernel i f hi hf
    exact ⟨h.refs.live hlive, hcount⟩

theorem Holding.ready (h : Holding k₀ k []) (h₀ : Ready k₀) : Ready k := by
  refine ⟨h.usable h₀, fun v hv => ?_⟩
  rw [h.refs.rcnt_eq]
  exact h₀.counts v (by rw [← h.refs.vnnum]; exact hv)

/-- The answers that are to come do not matter. -/
theorem Ready.withWalks (h : Ready k) (walks : ℕ → WalkCall) : Ready { k with walks := walks } :=
  ⟨⟨h.sound, h.unlocked, h.rootvn, h.cwd, h.roots, h.tops, h.mounts, h.first, h.files⟩, h.counts⟩

theorem lock_eq (h : k.vnlock = false) : lock k = .ok { k with vnlock := true } := by
  unfold lock
  rw [h]
  rfl

/-- A change of the tables that is made under the lock. -/
theorem unlock_eq (h : k.vnlock = false) (s : Layer) :
    unlock { { k with vnlock := true } with layer := s } = { k with layer := s } := by
  unfold unlock
  cases k
  simp_all

theorem incVnode_eq (h : k.vnlock = false) (vn : ℕ) :
    incVnode k vn = .ok { k with layer := VnodeLayer.incVnode k.layer vn } := by
  unfold incVnode
  rw [lock_eq h]
  dsimp only [Except.map]
  rw [unlock_eq h]

/-- A reference that somebody has is dropped. -/
theorem decVnode_eq (h : k.vnlock = false) (hs : Sound k.layer) (hvn : Live k.layer vn)
    (hseen : LastSeen (k.layer.vns vn)) (r : Bool) :
    ∃ s, decVnode k vn r = .ok { k with layer := s } ∧ Change k.layer s (Pi.single vn (-1)) := by
  obtain ⟨s, hdec, hc⟩ := decVnode_change hs hvn.inside hvn.pos hseen
    (o := .putting (nsidOf k.layer vn) (k.layer.vns vn).vnid) rfl r
  refine ⟨s, ?_, hc⟩
  unfold decVnode
  rw [lock_eq h]
  dsimp only [Except.bind]
  rw [hdec]
  dsimp only
  rw [unlock_eq h]

theorem Holding.inc (h : Holding k₀ k held) (hvn : Live k.layer vn) :
    Holding k₀ { k with layer := VnodeLayer.incVnode k.layer vn } (vn :: held) := by
  have hc := incVnode_change h.refs.sound hvn.inside hvn.pos
  exact h.change hc (h.refs.take (by rw [hc.vnnum]; exact hvn.inside) hc) k.walks

theorem Holding.incVnode (h : Holding k₀ k held) (h₀ : Ready k₀) (hvn : Live k.layer vn) :
    ∃ k', incVnode k vn = .ok k' ∧ Holding k₀ k' (vn :: held) :=
  ⟨_, incVnode_eq (h.usable h₀).unlocked vn, h.inc hvn⟩

theorem Holding.decVnode (h : Holding k₀ k (vn :: held)) (h₀ : Ready k₀)
    (hun : Unwrapped k₀.layer held) (r : Bool) :
    ∃ k', decVnode k vn r = .ok k' ∧ Holding k₀ k' held := by
  obtain ⟨s, hdec, hc⟩ := decVnode_eq (h.usable h₀).unlocked h.refs.sound
    (h.refs.live_held List.mem_cons_self) (h.refs.lastSeen hun) r
  exact ⟨_, hdec, h.change hc (h.refs.drop hc) k.walks⟩

end References

/-- How the resolution of a path ends: with an error and no reference, or with one reference
to the vnode that it found. -/
def Outcome (k₀ : Kernel) (held : List ℕ) (r : Except ℤ ℕ × Kernel) : Prop :=
  match r.1 with
  | .error err => err ≠ 0 ∧ Holding k₀ r.2 held
  | .ok vn => Holding k₀ r.2 (vn :: held)

section Resolution
variable {S : Stop → Prop} {k₀ k : Kernel} {held : List ℕ} {vn bvn : ℕ}

theorem Holding.registered (h : Holding k₀ k held) (hvn : Live k.layer vn) :
    ∃ ns, (k.layer.vns vn).ns = some ns ∧
      nsidtons k.layer (k.layer.spaces ns).nsid = some ns :=
  h.refs.sound.registry.live vn (Sound.registered h.refs.sound hvn.inside hvn.pos)

theorem dec_then {β : Type*} {f : Kernel → β} {R : β → Prop} (h : Holding k₀ k (vn :: held))
    (h₀ : Ready k₀) (hun : Unwrapped k₀.layer held) (hf : ∀ k', Holding k₀ k' held → R (f k')) :
    Ends S R ((decVnode k vn false).map f) := by
  obtain ⟨k', hdec, h'⟩ := h.decVnode h₀ hun false
  rw [hdec]
  exact hf k' h'

theorem dec_bind {β : Type*} {f : Kernel → Except Stop β} {R : β → Prop}
    (h : Holding k₀ k (vn :: held)) (h₀ : Ready k₀) (hun : Unwrapped k₀.layer held)
    (hf : ∀ k', Holding k₀ k' held → Ends S R (f k')) :
    Ends S R ((decVnode k vn false).bind f) := by
  obtain ⟨k', hdec, h'⟩ := h.decVnode h₀ hun false
  rw [hdec]
  exact hf k' h'

theorem isMountVnode_ends (h : Holding k₀ k held) (h₀ : Ready k₀) (hvn : vn ∈ held) :
    Ends S (fun r => match r.1 with
      | none => Holding k₀ r.2 held
      | some root => Holding k₀ r.2 (root :: held)) (isMountVnode k vn) := by
  unfold isMountVnode
  rw [lock_eq (h.usable h₀).unlocked]
  dsimp only [Except.bind]
  cases hm : (k.layer.vns vn).mounted with
  | none =>
    have := unlock_eq (h.usable h₀).unlocked k.layer
    dsimp only at this ⊢
    rw [this]
    exact h
  | some ns =>
    obtain ⟨_, root, hroot, hlive⟩ :=
      (h.usable h₀).roots vn ns hm (h.refs.live_held hvn).inside
    dsimp only
    rw [hroot]
    dsimp only
    rw [unlock_eq (h.usable h₀).unlocked]
    exact h.inc hlive

theorem isRoot_ends (h : Holding k₀ k held) (h₀ : Ready k₀) (hvn : Live k.layer vn) :
    Ends S (fun r => match r.1 with
      | none => Holding k₀ r.2 held
      | some mount => Holding k₀ r.2 (mount :: held)) (isRoot k vn) := by
  obtain ⟨ns, hns, hlive⟩ := h.registered hvn
  unfold isRoot
  rw [hns]
  dsimp only
  split
  · cases hm : (k.space ns).mount with
    | none => exact h
    | some mount =>
      obtain ⟨k', hinc, h'⟩ := h.incVnode h₀ ((h.usable h₀).mounts ns hlive mount hm).1
      dsimp only
      rw [hinc]
      exact h'
  · exact h

theorem leaveRoot_ends (h : Holding k₀ k (bvn :: held)) (h₀ : Ready k₀) (hfew : Few k₀ held)
    (component : Path) :
    Ends S (fun r => Holding k₀ r.2 (r.1 :: held)) (leaveRoot k bvn component) := by
  unfold leaveRoot
  split
  · refine (isRoot_ends h h₀ (h.refs.live_held List.mem_cons_self)).bind fun r hr => ?_
    obtain ⟨mount, k₁⟩ := r
    cases mount with
    | none => exact hr
    | some mount =>
      exact dec_then (hr.perm (List.Perm.swap bvn mount held)) h₀ hfew.cons fun k' h' => h'
  · exact h

/-- What a call of a `walk` hook leaves: a new reference to the vnode it reports. -/
def WalkOutcome (k₀ : Kernel) (bvn : ℕ) (held : List ℕ) (r : Walked × Kernel) : Prop :=
  match r.1 with
  | .fails err => err ≠ 0 ∧ Holding k₀ r.2 (bvn :: held)
  | .link _ => Holding k₀ r.2 (bvn :: held)
  | .found vnid => ∃ vn, lookupVnode r.2.layer (nsidOf r.2.layer bvn) vnid = some vn ∧
      Holding k₀ r.2 (vn :: bvn :: held)

theorem report_ends (hS : S .outOfVnodes) (h : Holding k₀ k (bvn :: held)) {ns : ℕ}
    (hns : (k.layer.vns bvn).ns = some ns) (answer : Answer) :
    Ends S (WalkOutcome k₀ bvn held) (report k ns answer) := by
  have hlive : Live k.layer bvn := h.refs.live_held List.mem_cons_self
  cases answer with
  | fails err => exact ⟨err.2, h⟩
  | found vnid err data random =>
    rw [report]
    rcases getVnode_change h.refs.sound (k.layer.spaces ns).nsid vnid err data
      (Nat.lt_succ_iff.mp random.2) with ⟨d, s, vn, hget, hin, hlookup, hc⟩ |
      ⟨e, d, s, he, hget, hc⟩ | ⟨hget, _⟩
    · rw [hget]
      have h₁ : Holding k₀ { k with layer := s } (vn :: bvn :: held) :=
        h.change hc (h.refs.take hin hc) k.walks
      refine ⟨vn, ?_, h₁⟩
      have hlive₁ : Live s bvn := h₁.refs.live_held (by simp)
      have hnsid : nsidOf s bvn = (k.layer.spaces ns).nsid := by
        unfold nsidOf
        rw [(hc.kept bvn hlive.pos hlive₁.pos).1, hns]
        exact (hc.spaces.ids ns).1
      change lookupVnode s (nsidOf s bvn) vnid = some vn
      rw [hnsid]
      exact hlookup
    · rw [hget]
      dsimp only
      rw [if_pos he]
      exact ⟨he, h.change hc (h.refs.neutral hc) k.walks⟩
    · rw [hget]
      exact hS

theorem callWalk_ends (hS : S .outOfVnodes) (h : Holding k₀ k (bvn :: held)) (follow : Bool) :
    Ends S (WalkOutcome k₀ bvn held) (callWalk k bvn follow) := by
  have hlive : Live k.layer bvn := h.refs.live_held List.mem_cons_self
  obtain ⟨ns, hns, _⟩ := h.registered hlive
  unfold callWalk
  rw [hns]
  dsimp only
  have h₁ := h.neutral (k.walks 0).effect fun i => k.walks (i + 1)
  have hc := (k.walks 0).effect.neutral k.layer h.refs.sound
  have hns₁ : (((k.walks 0).effect.run k.layer).vns bvn).ns = some ns := by
    rw [(hc.kept bvn hlive.pos (h₁.refs.live_held List.mem_cons_self).pos).1]
    exact hns
  split
  · exact h₁
  · exact report_ends hS h₁ hns₁ _

theorem enter_ends (h : Holding k₀ k (vn :: bvn :: held)) (h₀ : Ready k₀) (hfew : Few k₀ held)
    {vnid : ℤ}
    (hlookup : lookupVnode k.layer (nsidOf k.layer bvn) vnid = some vn) :
    Ends S (fun r => Holding k₀ r.2 (r.1 :: held)) (enter k bvn vnid) := by
  unfold enter
  rw [hlookup]
  dsimp only
  refine dec_bind (h.perm (List.Perm.swap bvn vn held)) h₀ hfew.cons fun k₁ h₁ => ?_
  refine (isMountVnode_ends h₁ h₀ List.mem_cons_self).bind fun r hr => ?_
  obtain ⟨root, k₂⟩ := r
  cases root with
  | none => exact hr
  | some root =>
    exact dec_then (hr.perm (List.Perm.swap vn root held)) h₀ hfew.cons fun k' h' => h'

/-- The rounds of the loop, given what happens at a link. -/
theorem parseLoop_ends (hS : S .outOfVnodes) (h₀ : Ready k₀) (hfew : Few k₀ held)
    {eatsymlink : Bool}
    {atLink : Kernel → ℕ → Path → Path → Resolved}
    (hlink : ∀ k vn newpath np, Holding k₀ k (vn :: held) →
      Ends S (Outcome k₀ held) (atLink k vn newpath np))
    {fuel : ℕ} {p : Path} (hlen : p.length ≤ fuel) (h : Holding k₀ k (bvn :: held)) :
    Ends S (Outcome k₀ held) (parseLoop eatsymlink atLink fuel k bvn p) := by
  induction fuel generalizing k bvn p with
  | zero =>
    cases p with
    | nil => exact h
    | cons c cs => simp at hlen
  | succ fuel ih =>
    cases p with
    | nil => exact h
    | cons c cs =>
      rw [parseLoop]
      dsimp only
      refine (leaveRoot_ends h h₀ hfew _).bind fun r hr => ?_
      obtain ⟨bvn₁, k₁⟩ := r
      refine (callWalk_ends hS hr _).bind fun r hr => ?_
      obtain ⟨walked, k₂⟩ := r
      cases walked with
      | fails err => exact dec_then hr.2 h₀ hfew.lt fun k' h' => ⟨hr.1, h'⟩
      | link text => exact hlink k₂ bvn₁ text _ hr
      | found vnid =>
        obtain ⟨vn, hlookup, hheld⟩ := hr
        refine (enter_ends hheld h₀ hfew hlookup).bind fun r hr => ih ?_ hr
        have h₁ := ((cs.dropWhile_suffix (· ≠ slash)).length_le)
        have h₂ := ((cs.dropWhile (· ≠ slash)).dropWhile_suffix (· = slash)).length_le
        simp only [List.length_cons] at hlen
        omega

theorem parsePath_ends (hS : S .outOfVnodes) (h₀ : Ready k₀) (hfew : Few k₀ held)
    (eatsymlink : Bool) (links : ℕ) (p : Path) (h : Holding k₀ k (bvn :: held)) :
    Ends S (Outcome k₀ held) (parsePath eatsymlink links k bvn p) := by
  induction links generalizing k bvn p with
  | zero =>
    refine parseLoop_ends hS h₀ hfew (fun k vn _ _ hk => ?_) le_rfl h
    exact dec_then hk h₀ hfew.lt fun k' h' => ⟨by decide, h'⟩
  | succ links ih =>
    refine parseLoop_ends hS h₀ hfew (fun k vn newpath np hk => ?_) le_rfl h
    dsimp only
    split
    · refine dec_bind hk h₀ hfew.lt fun k₁ h₁ => ?_
      obtain ⟨k₂, hinc, h₂⟩ := h₁.incVnode h₀ (h₁.usable h₀).rootvn
      have hroot₂ : k₂.rootvn = k₁.rootvn := by rw [h₂.same, h₁.same]
      rw [hinc]
      dsimp only [Except.bind]
      rw [hroot₂]
      exact ih _ h₂
    · exact ih _ hk

end Resolution

section Descriptors
variable {S : Stop → Prop} {k₀ k : Kernel} {held : List ℕ} {vn : ℕ} {kernel : Bool} {fd : ℤ}

/-- What `get_fd` takes, `put_fd` gives back. -/
theorem putFd_getFd {s s' : Files} {type f : ℕ} (h : DescriptorTable.getFd s fd type = (some f, s'))
    (hcount : ∀ i < s.table.num, s.table.fds i = some f →
      0 < (s.ofile f).rcnt ∧ (s.ofile f).rcnt < 2 ^ 32) :
    (∃ i < s.table.num, s.table.fds i = some f) ∧ (s'.ofile f).vn = (s.ofile f).vn ∧
      (DescriptorTable.addRcnt s' f (-1)).1 ≠ 1 ∧ DescriptorTable.putFd s' f = s := by
  unfold DescriptorTable.getFd at h
  split at h
  swap
  · simp at h
  rename_i hfd
  cases hslot : s.table.fds fd.toNat with
  | none =>
    rw [hslot] at h
    simp at h
  | some g =>
    rw [hslot] at h
    dsimp only at h
    split at h
    swap
    · simp at h
    simp only [Prod.mk.injEq, Option.some.injEq] at h
    obtain ⟨rfl, rfl⟩ := h
    have hin : fd.toNat < s.table.num := by omega
    obtain ⟨hpos, hlt⟩ := hcount fd.toNat hin hslot
    have hnot : (DescriptorTable.addRcnt (DescriptorTable.addRcnt s g 1).2 g (-1)).1 ≠ 1 := by
      simp only [DescriptorTable.addRcnt, Function.update_self, ne_eq,
        MachineIntegers.toInt32_eq_one]
      omega
    refine ⟨⟨fd.toNat, hin, hslot⟩, by simp [DescriptorTable.addRcnt], hnot, ?_⟩
    unfold DescriptorTable.putFd
    dsimp only
    rw [if_neg hnot]
    simp [DescriptorTable.addRcnt]

theorem incVnode_files (h : k.vnlock = false) (files : Bool → Files) (vn : ℕ) :
    incVnode { k with files := files } vn =
      .ok { k with files := files, layer := VnodeLayer.incVnode k.layer vn } := by
  unfold incVnode lock
  simp [h, Except.map, unlock]

theorem parsePathFd_ends (hS : S .outOfVnodes) (h : Holding k₀ k held) (h₀ : Ready k₀)
    (hfew : Few k₀ held) (kernel : Bool) (fd : ℤ) (path : Option Path) (eatsymlink : Bool) :
    Ends S (Outcome k₀ held) (parsePathFd k kernel fd path eatsymlink) := by
  have hparse : ∀ k bvn (path : Option Path), Holding k₀ k (bvn :: held) →
      Ends S (Outcome k₀ held) (match path with
        | none => .ok (.ok bvn, k)
        | some p => parsePath eatsymlink MAX_SYM_LINKS k bvn p) := by
    intro k bvn path hk
    cases path with
    | none => exact hk
    | some p => exact parsePath_ends hS h₀ hfew eatsymlink MAX_SYM_LINKS p hk
  unfold parsePathFd
  dsimp only
  split
  · obtain ⟨k₁, hinc, h₁⟩ := h.incVnode h₀ (h.usable h₀).rootvn
    have hroot₁ : k₁.rootvn = k.rootvn := by rw [h₁.same, h.same]
    rw [hinc]
    dsimp only [Except.bind]
    rw [hroot₁]
    exact hparse k₁ _ _ h₁
  split
  · have hopen := (h.usable h₀).files kernel
    rcases hget : DescriptorTable.getFd (k.files kernel) fd FD_ALL with ⟨_ | f, files⟩
    · exact ⟨by decide, h⟩
    · obtain ⟨⟨i, hi, hslot⟩, hvn, hnot, hput⟩ := putFd_getFd hget
        fun i hi hslot => (hopen i f hi hslot).2
      have hlive : Live k.layer (files.ofile f).vn := by
        rw [hvn]
        exact (hopen i f hi hslot).1
      dsimp only
      rw [incVnode_files (h.usable h₀).unlocked]
      dsimp only [Except.bind]
      unfold putFd
      simp only [Function.update_self, hnot, if_false, hput, Function.update_idem,
        Function.update_eq_self]
      exact hparse _ _ _ (h.inc hlive)
  · obtain ⟨k₁, hinc, h₁⟩ := h.incVnode h₀ (h.usable h₀).cwd
    have hcwd₁ : k₁.cwd = k.cwd := by rw [h₁.same, h.same]
    rw [hinc]
    dsimp only [Except.bind]
    rw [hcwd₁]
    exact hparse k₁ _ _ h₁

theorem newPath_error {path : Option Path} {err : ℤ} (h : newPath path = .error err) : err ≠ 0 := by
  unfold newPath at h
  cases path with
  | none => cases h
  | some p =>
    dsimp only at h
    split at h
    · cases h
      decide
    split at h
    · cases h
      decide
    split at h
    · cases h
      decide
    · cases h

theorem newPath_none {path : Option Path} (h : newPath path = .ok none) : path = none := by
  cases path with
  | none => rfl
  | some p =>
    unfold newPath at h
    dsimp only at h
    split at h
    · cases h
    split at h
    · cases h
    split at h <;> cases h

theorem getFileFd_ends (hS : S .outOfVnodes) (h : Holding k₀ k held) (h₀ : Ready k₀)
    (hfew : Few k₀ held) (kernel : Bool) (fd : ℤ) (path : Option Path) (eatsymlink : Bool) :
    Ends S (Outcome k₀ held) (getFileFd k kernel fd path eatsymlink) := by
  unfold getFileFd
  cases hp : newPath path with
  | error err => exact ⟨newPath_error hp, h⟩
  | ok p => exact parsePathFd_ends hS h h₀ hfew kernel fd p eatsymlink

theorem getDirFd_ends (hS : S .outOfVnodes) {path : Option Path}
    (hnull : path = none → S .nullPointer) (h : Holding k₀ k held) (h₀ : Ready k₀)
    (hfew : Few k₀ held) (kernel : Bool) (fd : ℤ) :
    Ends S (Outcome k₀ held) (getDirFd k kernel fd path) := by
  unfold getDirFd
  cases hp : newPath path with
  | error err => exact ⟨newPath_error hp, h⟩
  | ok p =>
    cases p with
    | none => exact hnull (newPath_none hp)
    | some p => exact parsePathFd_ends hS h h₀ hfew kernel fd _ true

theorem callOp_ends (h : Holding k₀ k held) (hvn : vn ∈ held) (op : Op) (reply : Reply) :
    Ends S (fun r => Holding k₀ r.2 held) (callOp k vn op reply) := by
  obtain ⟨ns, hns, _⟩ := h.registered (h.refs.live_held hvn)
  unfold callOp
  rw [hns]
  dsimp only
  split
  · exact h.neutral reply.effect k.walks
  · exact h

end Descriptors

/-- A hook that does nothing to the tables. -/
def idle : Effect := ⟨id, fun _ h => .refl h⟩

def freshSpaces : ℕ → Nspace
  | 0 => ⟨1, false, none, none⟩
  | _ => ⟨2, false, none, none⟩

/-- Two name spaces: the second one is mounted on vnode 1, a directory of the first. Its root
is vnode 2; vnode 0 is the root of everything and the current directory. -/
def mountedLayer : Layer :=
  setVnode (TransitionTrace.runTrace VnodeLayer.next
    (initVnodeLayer (2 ^ 18) (fun | 1 => some 0 | _ => some 1) freshSpaces)
    [.new 1 1 10 0, .new 1 2 11 0, .new 2 1 12 0, .inc 0]) 1
    fun v => { v with mounted := some 1 }

def mountedKernel (answers : List Answer) : Kernel where
  layer := mountedLayer
  vnlock := false
  rootvn := 0
  cwd := 0
  space
    | 0 => ⟨0, some 0, none, -1, -1, some 1, none⟩
    | _ => ⟨1, some 2, some 1, 8, 3, none, some 0⟩
  nshead := some 1
  nxnsid := 3
  fsystem
    | 0 => ⟨1, [114], true, 2, fun _ => true⟩
    | _ => ⟨2, [109], true, 2, fun _ => true⟩
  fstab := [some 1, some 0]
  files _ := ⟨DescriptorTable.newFds 4, fun _ => ⟨0, 0, 0, 0⟩, []⟩
  walks i := ⟨idle, none, answers.getD i (.fails ⟨ENOENT, by decide⟩)⟩

theorem mountedLayer_sound : Sound mountedLayer := by
  have hempty : ∀ p, (freshSpaces p).vnodes = ⟨none, none⟩ := by
    intro p
    cases p <;> rfl
  have hinit :=
    init_sound (show 2 ^ 17 ≤ 2 ^ 18 by norm_num) (fun | 1 => some 0 | _ => some 1) hempty
  have h₁ := next_sound hinit (e := .new 1 1 10 0) (by decide +kernel) trivial
  have h₂ := next_sound h₁ (e := .new 1 2 11 0) (by decide +kernel) trivial
  have h₃ := next_sound h₂ (e := .new 2 1 12 0) (by decide +kernel) trivial
  have h₄ := next_sound h₃ (e := .inc 0) (by decide +kernel) trivial
  exact Sound.setMounted h₄ (by decide +kernel) (some 1)

theorem mountedLayer_live {v : ℕ} (h : v < 3) : Live mountedLayer v := by
  have hall : ∀ v < 3, v < mountedLayer.vnnum ∧ 0 < (mountedLayer.vns v).rcnt := by decide +kernel
  exact ⟨(hall v h).1, (hall v h).2⟩

theorem mountedLayer_fitsInt : FitsInt mountedLayer := by
  unfold FitsInt
  decide +kernel

theorem mountedKernel_ready (answers : List Answer) : Ready (mountedKernel answers) where
  counts := mountedLayer_fitsInt
  sound := mountedLayer_sound
  unlocked := rfl
  rootvn := mountedLayer_live (Nat.succ_pos 2)
  cwd := mountedLayer_live (Nat.succ_pos 2)
  roots := by
    have hone : ∀ v < mountedLayer.vnnum, ∀ ns, (mountedLayer.vns v).mounted = some ns →
        v = 1 ∧ ns = 1 := by
      have hall : ∀ v < mountedLayer.vnnum,
          (mountedLayer.vns v).mounted = if v = 1 then some 1 else none := by
        decide +kernel
      intro v hv ns hm
      rw [hall v hv] at hm
      split at hm
      · rename_i h
        cases hm
        exact ⟨h, rfl⟩
      · cases hm
    intro v ns hm hv
    change (mountedLayer.vns v).mounted = some ns at hm
    obtain ⟨rfl, rfl⟩ := hone v hv ns hm
    exact ⟨mountedLayer_live (by decide), 2, rfl, mountedLayer_live (by decide)⟩
  tops := by
    intro ns _ root hroot
    cases ns with
    | zero =>
      cases hroot
      exact mountedLayer_live (by decide)
    | succ ns =>
      cases hroot
      exact mountedLayer_live (by decide)
  mounts := by
    intro ns _ mount hm
    cases ns with
    | zero => cases hm
    | succ ns =>
      cases hm
      refine ⟨mountedLayer_live (by decide), ?_⟩
      have hns : (mountedLayer.vns 1).ns = some 0 := by decide +kernel
      change (mountedLayer.vns 1).ns ≠ _
      rw [hns]
      simp
  first := by
    intro ns _ hm
    cases ns with
    | zero =>
      intro root hroot
      cases hroot
      rfl
    | succ ns => cases hm
  files := by
    intro kernel i f _ hf
    cases hf

end PathWalk
