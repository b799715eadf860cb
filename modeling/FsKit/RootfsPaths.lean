import Mathlib.Tactic
import FsKit.HeldDirectories
import FsKit.NamedTrees

/-! What the memory based file system is for: a map from paths to files (`rootfs.c`). Every call on
the vnodes is a call on this map, whatever calls were made before. -/
namespace RootfsPaths

open FallibleRuns NamedTrees RootfsTree TransitionTrace
open BlockBitmap hiding next
open HeldDirectories hiding next Allowed Grown
open RootfsRenames hiding Moved
open MachineIntegers (toInt64)
open MountCalls (ENOTDIR EBUSY)

section Map

inductive Content where
  | dir (perms : Mode)
  | link (text : Name)

structure File where
  id : ℤ
  content : Content

/-- A path is read from the file up to the root, whose path is the empty one. Ids are given out in
turn. -/
structure Files where
  lastId : ℤ
  file : List Name → Option File

namespace Files
variable (fs : Files)

def IsDir (p : List Name) : Prop := ∃ id perms, fs.file p = some ⟨id, .dir perms⟩

def Empty (p : List Name) : Prop := ∀ name, fs.file (name :: p) = none

open scoped Classical in
noncomputable def create (dir : List Name) (name : Name) (content : Content) : ℤ × Files :=
  if ¬fs.IsDir dir then (ENOTDIR, fs)
  else if name = dot ∨ name = dotdot then (EEXIST, fs)
  else if fs.file (name :: dir) ≠ none then (EEXIST, fs)
  else (0, ⟨fs.lastId + 1,
    Function.update fs.file (name :: dir) (some ⟨fs.lastId + 1, content⟩)⟩)

def erase (p : List Name) : Files := { fs with file := Function.update fs.file p none }

open scoped Classical in
noncomputable def remove (dir : List Name) (name : Name) (isdir : Bool) : ℤ × Files :=
  if ¬fs.IsDir dir then (ENOTDIR, fs)
  else if name = dotdot ∨ name = dot then (EINVAL, fs)
  else match (fs.file (name :: dir)).map File.content with
    | none => (ENOENT, fs)
    | some (.link _) => if isdir then (ENOTDIR, fs) else (0, fs.erase (name :: dir))
    | some (.dir _) =>
      if ¬isdir then (EISDIR, fs)
      else if ¬fs.Empty (name :: dir) then (ENOTEMPTY, fs)
      else (0, fs.erase (name :: dir))

open scoped Classical in
/-- A file moves with all that is below it. It does not move to where it is, or below that. -/
noncomputable def rename (old : List Name) (oldname : Name) (new : List Name) (newname : Name) :
    ℤ × Files :=
  if ¬fs.IsDir old ∨ ¬fs.IsDir new then (ENOTDIR, fs)
  else if oldname = dot ∨ oldname = dotdot then (EPERM, fs)
  else if fs.file (oldname :: old) = none then (ENOENT, fs)
  else if newname = dot ∨ newname = dotdot then (EPERM, fs)
  else if oldname :: old = newname :: new then (0, fs)
  else if oldname :: old <:+ new then (EINVAL, fs)
  else if fs.IsDir (newname :: new) ∧ ¬fs.Empty (newname :: new) then (ENOTEMPTY, fs)
  else (0, ⟨fs.lastId, graft (fs.erase (newname :: new)).file (oldname :: old) (newname :: new)⟩)

/-- Nothing but the root. -/
def initial : Files := ⟨1, Function.update (fun _ => none) [] (some ⟨1, .dir 0o777⟩)⟩

end Files

inductive Request where
  | mkdir (dir : List Name) (name : Name) (perms : Mode)
  | symlink (dir : List Name) (name text : Name)
  | unlink (dir : List Name) (name : Name)
  | rmdir (dir : List Name) (name : Name)
  | rename (old : List Name) (oldname : Name) (new : List Name) (newname : Name)

namespace Files
variable (fs : Files)

noncomputable def serve : Request → ℤ × Files
  | .mkdir dir name perms => fs.create dir name (.dir (perms &&& ~~~sIfmt))
  | .symlink dir name text => fs.create dir name (.link text)
  | .unlink dir name => fs.remove dir name false
  | .rmdir dir name => fs.remove dir name true
  | .rename old oldname new newname => fs.rename old oldname new newname

noncomputable def serveAll (fs : Files) : List Request → List ℤ × Files
  | [] => ([], fs)
  | req :: reqs =>
    let r := serveAll (fs.serve req).2 reqs
    ((fs.serve req).1 :: r.1, r.2)

end Files

end Map

section View
variable (ns : Nspace)

def nameOf (n : ℕ) : Name := (ns.node n).name.getD []

def tree : NamedTree ℕ Name := ⟨ns.live, ns.root, parentOf ns, nameOf ns⟩

def fileOf (v : Vnode) : File :=
  ⟨v.vnid, if sIsdir v.mode then .dir (v.mode &&& ~~~sIfmt) else .link (v.symlink.getD [])⟩

/-- The map that the vnodes stand for. -/
noncomputable def view : Files :=
  ⟨ns.nxvnid, fun p => (find (tree ns) p).map fun n => fileOf (ns.node n)⟩

/-- A call on vnodes as a request on the paths that lead to them. -/
noncomputable def request : Call → Request
  | .mkdir dir name perms _ => .mkdir (pathOf (tree ns) dir) name perms
  | .symlink dir name text _ => .symlink (pathOf (tree ns) dir) name text
  | .unlink dir name => .unlink (pathOf (tree ns) dir) name
  | .rmdir dir name => .rmdir (pathOf (tree ns) dir) name
  | .rename olddir oldname newdir newname _ =>
    .rename (pathOf (tree ns) olddir) oldname (pathOf (tree ns) newdir) newname

/-- What the tree does not say about its nodes: none of them is marked as removed, they are
directories and links, and the root is a directory that is its own parent. -/
structure Filed : Prop where
  unmarked : ∀ n ∈ ns.live, (ns.node n).removed = false
  kinds : ∀ n ∈ ns.live, sIsdir (ns.node n).mode ∨
    (ns.node n).mode = sIflnk ∧ (ns.node n).symlink ≠ none
  root : sIsdir (ns.node ns.root).mode
  top : parentOf ns ns.root = ns.root

end View

section Trees
variable {ns : Nspace} {kids : ℕ → List ℕ} {d c n : ℕ} {p q : List Name} {name : Name}

theorem wellFormed (h : Sound ns kids) : WellFormed (tree ns) := by
  refine ⟨h.root, fun n hn => ?_, fun n hn m hm hne hme hparent hname => ?_⟩
  · have hreach := h.tree.reaches n hn
    induction hreach with
    | here => exact ⟨[], .root⟩
    | @up n _ ih =>
      by_cases hroot : n = ns.root
      · exact ⟨[], at_nil.mpr hroot⟩
      · obtain ⟨p, hp⟩ := ih (h.closed n hn hroot)
        exact ⟨_, .child hp hn hroot⟩
  · have hkn := (h.mem_parent hn hne).1
    have hkm := (h.mem_parent hm hme).1
    rw [show parentOf ns n = parentOf ns m from hparent] at hkn
    refine h.tree.name_inj hkn hkm ?_
    obtain ⟨s, hs⟩ := Option.ne_none_iff_exists'.mp (h.tree.named _ n hkn)
    obtain ⟨s', hs'⟩ := Option.ne_none_iff_exists'.mp (h.tree.named _ m hkm)
    have hsame : nameOf ns n = nameOf ns m := hname
    unfold nameOf at hsame
    rw [hs, hs'] at hsame ⊢
    exact congrArg some hsame

/-- The search in a directory finds what the path of the directory finds with the name. -/
theorem lookup_eq (h : Sound ns kids) (hd : At (tree ns) p d) (name : Name) :
    lookup ns d name = .ok (find (tree ns) (name :: p)) := by
  have hw := wellFormed h
  have hlive : d ∈ ns.live := hd.mem hw
  obtain ⟨o, ho⟩ := lookup_returns h hlive name
  rw [ho]
  refine congrArg Except.ok (Option.ext fun c => ?_)
  have hleft : o = some c ↔ lookup ns d name = .ok (some c) := by
    rw [ho]
    exact ⟨congrArg _, Except.ok.inj⟩
  rw [hleft, lookup_eq_some h hlive, find_eq_some hw, at_cons]
  constructor
  · rintro ⟨hc, hname⟩
    have hpar := h.tree.parent d c hc
    have hmem := (h.tree.member c).mp ⟨d, hc⟩
    refine ⟨?_, ?_, hmem.1, hmem.2⟩
    · exact (show (tree ns).parent c = d from hpar) ▸ hd
    · exact congrArg (Option.getD · []) hname
  · rintro ⟨hup, hname, hmem, hne⟩
    have hpar : parentOf ns c = d := hup.unique hw hd
    have hkid := (h.mem_parent hmem hne).1
    rw [hpar] at hkid
    refine ⟨hkid, ?_⟩
    obtain ⟨s, hs⟩ := Option.ne_none_iff_exists'.mp (h.tree.named d c hkid)
    have hname' : nameOf ns c = name := hname
    unfold nameOf at hname'
    rw [hs] at hname' ⊢
    exact congrArg some hname'

theorem head_eq_none_iff (h : Sound ns kids) (hd : At (tree ns) p d) :
    ns.head d = none ↔ ∀ name, find (tree ns) (name :: p) = none := by
  have hw := wellFormed h
  have hlive : d ∈ ns.live := hd.mem hw
  constructor
  · intro hnone name
    rw [find_eq_none hw]
    intro c hc
    have hfind := (find_eq_some hw).mpr hc
    have hlook := lookup_eq h hd name
    rw [hfind, lookup_eq_some h hlive, (h.isList hlive).eq_nil hnone] at hlook
    exact List.not_mem_nil hlook.1
  · intro hnone
    by_contra hne
    obtain ⟨c, hc⟩ := Option.ne_none_iff_exists'.mp hne
    have hmem : c ∈ kids d := by
      refine List.mem_of_head? ?_
      rw [← (h.isList hlive).head]
      exact hc
    have hin := (h.tree.member c).mp ⟨d, hmem⟩
    have hpar : (tree ns).parent c = d := h.tree.parent d c hmem
    have hat : At (tree ns) (nameOf ns c :: p) c := At.child (hpar ▸ hd) hin.1 hin.2
    exact (find_eq_none hw).mp (hnone _) c hat

/-- What lies below a directory has a longer path. -/
theorem below_iff (hd : At (tree ns) p d) (hw : WellFormed (tree ns)) :
    ∀ {q n}, At (tree ns) q n → (Below ns d n ↔ p <:+ q ∧ p ≠ q) := by
  intro q
  induction q with
  | nil =>
    intro n hn
    constructor
    · intro hb
      exact absurd (at_nil.mp hn) hb.ne_root
    · rintro ⟨hs, hne⟩
      exact absurd (List.suffix_nil.mp hs) hne
  | cons a q ih =>
    intro n hn
    obtain ⟨hup, -, -, hroot⟩ := at_cons.mp hn
    have hup' : At (tree ns) q (parentOf ns n) := hup
    constructor
    · intro hb
      have hs : p <:+ q := by
        cases hb with
        | child _ hpar =>
          rw [hpar] at hup'
          exact hup'.path_unique hd ▸ List.suffix_refl p
        | up _ hup => exact ((ih hup').mp hup).1
      refine ⟨List.suffix_cons_iff.mpr (.inr hs), ?_⟩
      rintro rfl
      exact absurd hs.length_le (by simp)
    · rintro ⟨hs, hne⟩
      have hs := (List.suffix_cons_iff.mp hs).resolve_left hne
      by_cases heq : p = q
      · subst heq
        exact .child hroot (hup'.unique hw hd)
      · exact .up hroot ((ih hup').mpr ⟨hs, heq⟩)

end Trees

section Reading
variable {ns : Nspace} {kids : ℕ → List ℕ} {d n : ℕ} {p : List Name} {name : Name} {m perms : Mode}

theorem view_file (hw : WellFormed (tree ns)) (hd : At (tree ns) p d) :
    (view ns).file p = some (fileOf (ns.node d)) :=
  congrArg (Option.map _) ((find_eq_some hw).mpr hd)

theorem view_file_eq_none : (view ns).file p = none ↔ find (tree ns) p = none :=
  Option.map_eq_none_iff

theorem isDir_iff (hw : WellFormed (tree ns)) (hd : At (tree ns) p d) :
    (view ns).IsDir p ↔ sIsdir (ns.node d).mode := by
  unfold Files.IsDir
  rw [view_file hw hd]
  constructor
  · rintro ⟨id, perms, he⟩
    by_contra hdir
    unfold fileOf at he
    rw [if_neg hdir] at he
    cases he
  · intro hdir
    unfold fileOf
    rw [if_pos hdir]
    exact ⟨_, _, rfl⟩

theorem empty_iff (h : Sound ns kids) (hd : At (tree ns) p d) :
    (view ns).Empty p ↔ ns.head d = none := by
  rw [head_eq_none_iff h hd]
  exact forall_congr' fun name => view_file_eq_none

theorem fileOf_dir {v : Vnode} (h : sIsdir v.mode) :
    (fileOf v).content = .dir (v.mode &&& ~~~sIfmt) := if_pos h

theorem fileOf_link {v : Vnode} (h : ¬sIsdir v.mode) :
    (fileOf v).content = .link (v.symlink.getD []) := if_neg h

theorem mkdir_mode (perms : Mode) : sIsdir ((perms &&& ~~~sIfmt) ||| sIfdir) ∧
    ((perms &&& ~~~sIfmt) ||| sIfdir) &&& ~~~sIfmt = perms &&& ~~~sIfmt := by
  have hoff : ~~~sIfmt &&& sIfmt = 0 := by decide
  have hin : sIfdir &&& sIfmt = sIfdir := by decide
  have hout : sIfdir &&& ~~~sIfmt = 0 := by decide
  constructor
  · unfold sIsdir
    rw [BitVec.and_comm, BitVec.and_or_distrib_left, BitVec.and_comm, BitVec.and_assoc, hoff,
      BitVec.and_comm sIfmt, hin]
    simp
  · rw [BitVec.and_comm, BitVec.and_or_distrib_left, BitVec.and_comm, BitVec.and_assoc,
      BitVec.and_self, BitVec.and_comm _ sIfdir, hout]
    simp

theorem not_sIsdir_link : ¬sIsdir sIflnk := by decide

theorem dir_bit (h : sIsdir m) : m &&& sIfdir ≠ 0 := by
  have hin : sIfmt &&& sIfdir = sIfdir := by decide
  unfold sIsdir at h
  rw [← hin, ← BitVec.and_assoc, h]
  decide

theorem link_bit : sIflnk &&& sIfdir = 0 := by decide

end Reading

section Edits
variable {ns ns' : Nspace} {kids kids' : ℕ → List ℕ} {vn d : ℕ} {p q o : List Name}
  {name newname : Name} {v : Vnode}

/-- What makes a vnode a file of the map. -/
def Proper (v : Vnode) : Prop :=
  v.removed = false ∧ (sIsdir v.mode ∨ v.mode = sIflnk ∧ v.symlink ≠ none)

theorem Filed.edit (h : Filed ns) (hroot : ns'.root = ns.root) (hne : vn ≠ ns.root)
    (hlive : ∀ n ∈ ns'.live, n ∈ ns.live ∨ n = vn) (hnode : ∀ n, n ≠ vn → ns'.node n = ns.node n)
    (hvn : vn ∈ ns'.live → Proper (ns'.node vn)) : Filed ns' := by
  have hproper : ∀ n ∈ ns'.live, Proper (ns'.node n) := by
    intro n hn
    by_cases he : n = vn
    · subst he
      exact hvn hn
    · have hold := (hlive n hn).resolve_right he
      rw [hnode n he]
      exact ⟨h.unmarked n hold, h.kinds n hold⟩
  refine ⟨fun n hn => (hproper n hn).1, fun n hn => (hproper n hn).2, ?_, ?_⟩
  · rw [hroot, hnode _ hne.symm]
    exact h.root
  · unfold parentOf
    rw [hroot, hnode _ hne.symm]
    exact h.top

/-- A new vnode in the directory. -/
structure Made (ns ns' : Nspace) (vn d : ℕ) (name : Name) (v : Vnode) : Prop where
  fresh : vn ∉ ns.live
  root : ns'.root = ns.root
  live : ns'.live = insert vn ns.live
  lastId : ns'.nxvnid = ns.nxvnid + 1
  node : ns'.node = Function.update ns.node vn v
  vnode : v.name = some name ∧ v.parent = d

theorem Made.grown (h : Made ns ns' vn d name v) : Grown (tree ns) (tree ns') vn d name := by
  have hold : ∀ n ∈ ns.live, ns'.node n = ns.node n := by
    intro n hn
    have hne : n ≠ vn := fun he => h.fresh (he ▸ hn)
    rw [h.node]
    exact Function.update_of_ne hne _ _
  have hnew : ns'.node vn = v := by
    rw [h.node]
    exact Function.update_self ..
  refine ⟨⟨h.root, fun n hn => ?_, fun n hn => ?_⟩, ?_, h.fresh, ?_, ?_⟩
  · exact congrArg Vnode.parent (hold n hn)
  · exact congrArg (fun v => v.name.getD []) (hold n hn)
  · change (ns'.live : Set ℕ) = insert vn (ns.live : Set ℕ)
    rw [h.live, Finset.coe_insert]
  · exact (congrArg Vnode.parent hnew).trans h.vnode.2
  · change (ns'.node vn).name.getD [] = name
    rw [hnew, h.vnode.1]
    rfl

theorem Made.view (h : Made ns ns' vn d name v) (hs : Sound ns kids) (hs' : Sound ns' kids')
    (hd : At (tree ns) p d) (hfree : find (tree ns) (name :: p) = none) :
    view ns' = ⟨(view ns).lastId + 1,
      Function.update (view ns).file (name :: p) (some (fileOf v))⟩ := by
  have hw := wellFormed hs
  have hfind := h.grown.find hw (wellFormed hs') hd hfree
  unfold RootfsPaths.view
  rw [h.lastId, hfind, h.node]
  refine congrArg (Files.mk _) (funext fun q => ?_)
  by_cases hq : q = name :: p
  · subst hq
    simp only [Function.update_self, Option.map_some]
  · rw [Function.update_of_ne hq, Function.update_of_ne hq]
    refine Option.map_congr fun n hn => ?_
    have hmem : n ∈ ns.live := ((find_eq_some hw).mp hn).mem hw
    have hne : n ≠ vn := fun he => h.fresh (he ▸ hmem)
    rw [Function.update_of_ne hne]

theorem Made.filed (h : Made ns ns' vn d name v) (hf : Filed ns) (hs : Sound ns kids)
    (hv : Proper v) : Filed ns' := by
  have hne : vn ≠ ns.root := fun he => h.fresh (he ▸ hs.root)
  refine hf.edit h.root hne (fun n hn => ?_) (fun n hn => ?_) fun _ => ?_
  · rw [h.live] at hn
    exact (Finset.mem_insert.mp hn).symm
  · rw [h.node]
    exact Function.update_of_ne hn _ _
  · rw [h.node, Function.update_self]
    exact hv

/-- A vnode without children has left its directory. -/
structure Dropped (ns ns' : Nspace) (vn : ℕ) : Prop where
  root : ns'.root = ns.root
  live : ns'.live = ns.live.erase vn
  lastId : ns'.nxvnid = ns.nxvnid
  node : ∀ n, n ≠ vn → ns'.node n = ns.node n

theorem Dropped.shrunk (h : Dropped ns ns' vn) (hs : Sound ns kids) (hvn : vn ≠ ns.root)
    (hleaf : kids vn = []) : Shrunk (tree ns) (tree ns') vn := by
  have hold : ∀ n ∈ ns'.live, ns'.node n = ns.node n := by
    intro n hn
    rw [h.live] at hn
    exact h.node n (Finset.ne_of_mem_erase hn)
  refine ⟨⟨h.root, fun n hn => ?_, fun n hn => ?_⟩, ?_, fun n hn hne he => ?_, hvn⟩
  · exact congrArg Vnode.parent (hold n hn)
  · exact congrArg (fun v => v.name.getD []) (hold n hn)
  · change (ns'.live : Set ℕ) = (ns.live : Set ℕ) \ {vn}
    rw [h.live, Finset.coe_erase]
  · have hmem := (hs.mem_parent hn hne).1
    rw [show parentOf ns n = vn from he, hleaf] at hmem
    exact List.not_mem_nil hmem

theorem Dropped.view (h : Dropped ns ns' vn) (hs : Sound ns kids) (hs' : Sound ns' kids')
    (hvn : At (tree ns) (name :: p) vn) (hleaf : kids vn = []) :
    view ns' = (view ns).erase (name :: p) := by
  have hw := wellFormed hs
  have hne : vn ≠ ns.root := (at_cons.mp hvn).2.2.2
  have hfind := (h.shrunk hs hne hleaf).find hw (wellFormed hs') hvn
  unfold RootfsPaths.view Files.erase
  rw [h.lastId, hfind]
  refine congrArg (Files.mk _) (funext fun q => ?_)
  by_cases hq : q = name :: p
  · subst hq
    simp only [Function.update_self, Option.map_none]
  · rw [Function.update_of_ne hq]
    dsimp only
    rw [Function.update_of_ne hq]
    refine Option.map_congr fun n hn => ?_
    have hat := (find_eq_some hw).mp hn
    rw [h.node n fun he => hq (hat.path_unique (he ▸ hvn))]

theorem Dropped.filed (h : Dropped ns ns' vn) (hf : Filed ns) (hne : vn ≠ ns.root) : Filed ns' := by
  refine hf.edit h.root hne (fun n hn => ?_) h.node fun hn => ?_
  · rw [h.live] at hn
    exact .inl (Finset.mem_of_mem_erase hn)
  · rw [h.live] at hn
    exact absurd hn (Finset.notMem_erase vn ns.live)

/-- A vnode has got another name in another directory. -/
structure Renamed (ns ns' : Nspace) (vn d : ℕ) (newname : Name) : Prop where
  root : ns'.root = ns.root
  live : ns'.live = ns.live
  lastId : ns'.nxvnid = ns.nxvnid
  node : ns'.node =
    Function.update ns.node vn { ns.node vn with parent := d, name := some newname }

theorem Renamed.moved (h : Renamed ns ns' vn d newname) (hne : vn ≠ ns.root) :
    Moved (tree ns) (tree ns') vn d newname := by
  have hold : ∀ n, n ≠ vn → ns'.node n = ns.node n := by
    intro n hn
    rw [h.node]
    exact Function.update_of_ne hn _ _
  have hnew : ns'.node vn = { ns.node vn with parent := d, name := some newname } := by
    rw [h.node]
    exact Function.update_self ..
  refine ⟨⟨h.root, fun n hn => ?_, fun n hn => ?_⟩, ?_, ?_, ?_, hne⟩
  · exact congrArg Vnode.parent (hold n hn)
  · exact congrArg (fun v => v.name.getD []) (hold n hn)
  · exact congrArg (fun s : Finset ℕ => (s : Set ℕ)) h.live
  · exact congrArg Vnode.parent hnew
  · change (ns'.node vn).name.getD [] = newname
    rw [hnew]
    rfl

theorem graft_map {γ δ : Type} (f : List Name → Option γ) (g : γ → δ) (o o' p : List Name) :
    (graft f o o' p).map g = graft (fun p => (f p).map g) o o' p := by
  unfold graft
  split
  · rfl
  split <;> rfl

theorem Renamed.view (h : Renamed ns ns' vn d newname) (hs : Sound ns kids) (hs' : Sound ns' kids')
    (hvn : At (tree ns) (name :: p) vn) (hd : At (tree ns) q d) (hout : ¬name :: p <:+ q)
    (hfree : find (tree ns) (newname :: q) = none) :
    view ns' = ⟨(view ns).lastId, graft (view ns).file (name :: p) (newname :: q)⟩ := by
  have hfind := (h.moved (at_cons.mp hvn).2.2.2).find (wellFormed hs) (wellFormed hs') hvn hd hout
    hfree
  have hfile : (fun n => fileOf (ns'.node n)) = fun n => fileOf (ns.node n) := by
    funext n
    rw [h.node]
    by_cases hn : n = vn
    · subst hn
      rw [Function.update_self]
      rfl
    · rw [Function.update_of_ne hn]
  unfold RootfsPaths.view
  rw [h.lastId, hfind, hfile]
  exact congrArg (Files.mk _) (funext fun q => graft_map _ _ _ _ _)

theorem Renamed.filed (h : Renamed ns ns' vn d newname) (hf : Filed ns) (hvn : vn ∈ ns.live)
    (hne : vn ≠ ns.root) : Filed ns' := by
  refine hf.edit h.root hne (fun n hn => .inl (h.live ▸ hn)) (fun n hn => ?_) fun _ => ?_
  · rw [h.node]
    exact Function.update_of_ne hn _ _
  · rw [h.node, Function.update_self]
    exact ⟨hf.unmarked vn hvn, hf.kinds vn hvn⟩

end Edits

section Calls
variable {ns : Nspace} {kids : ℕ → List ℕ} {dir olddir newdir vn : ℕ} {p q : List Name}
  {name oldname newname : Name}

/-- The sorted search finds what the other one finds. -/
theorem findSorted_eq (h : Sound ns kids) (hd : dir ∈ ns.live) (name : Name) :
    findSorted ns name ns.live.card (ns.head dir) = lookup ns dir name := by
  have hlist := h.isList hd
  unfold lookup
  rw [show ns.head dir = _ from hlist.head,
    findSorted_linked hlist.linked (h.tree.named dir) (h.tree.sorted dir) (h.length_le hd),
    findName_linked hlist.linked (h.tree.named dir) (h.length_le hd)]

open scoped Classical in
theorem createCheck_eq (h : Sound ns kids) (hf : Filed ns) (hd : At (tree ns) p dir) (name : Name) :
    createCheck ns dir name = .ok (if ¬(view ns).IsDir p then ENOTDIR
      else if name = dot ∨ name = dotdot then EEXIST
      else if (view ns).file (name :: p) ≠ none then EEXIST else 0) := by
  have hw := wellFormed h
  have hlive : dir ∈ ns.live := hd.mem hw
  unfold createCheck
  rw [isDir_iff hw hd]
  split
  · rfl
  rw [hf.unmarked dir hlive, if_neg (by decide)]
  split
  · rfl
  rw [findSorted_eq h hlive, lookup_eq h hd]
  cases hfind : find (tree ns) (name :: p) with
  | none =>
    rw [if_neg (not_not.mpr (view_file_eq_none.mpr hfind))]
    rfl
  | some c =>
    have hne : (view ns).file (name :: p) ≠ none := fun hnone => by
      rw [view_file_eq_none.mp hnone] at hfind
      cases hfind
    rw [if_pos hne]
    rfl

/-- A new vnode is made, or nothing is done. -/
theorem doCreate_made (h : Sound ns kids) (hf : Filed ns) (hd : At (tree ns) p dir) (mode : Mode)
    (hvn : vn ∉ ns.live) (hroom : createCheck ns dir name = .ok 0 → ns.nxvnid < maxVnid) :
    ∃ err ns', doCreate ns dir name mode vn = .ok (err, ns') ∧
      ((err ≠ 0 ∧ ns' = ns ∧ ∀ content, (view ns).create p name content = (err, view ns)) ∨
        err = 0 ∧ Made ns ns' vn dir name ⟨some name, false, ns.nxvnid + 1, dir, mode, none⟩ ∧
          find (tree ns) (name :: p) = none ∧ ∀ content, (view ns).create p name content =
            (0, ⟨(view ns).lastId + 1, Function.update (view ns).file (name :: p)
              (some ⟨(view ns).lastId + 1, content⟩)⟩)) := by
  classical
  have hcheck := createCheck_eq h hf hd name
  obtain ⟨⟨err, ns'⟩, hcall, -⟩ := h.doCreate mode (hd.mem (wellFormed h)) hvn hroom
  refine ⟨err, ns', hcall, ?_⟩
  unfold doCreate at hcall
  unfold Files.create
  by_cases hdir : (view ns).IsDir p
  swap
  · rw [if_pos hdir] at hcheck
    rw [hcheck] at hcall
    cases hcall
    exact .inl ⟨by decide, rfl, fun _ => if_pos hdir⟩
  rw [if_neg (not_not.mpr hdir)] at hcheck
  by_cases hdot : name = dot ∨ name = dotdot
  · rw [if_pos hdot] at hcheck
    rw [hcheck] at hcall
    cases hcall
    exact .inl ⟨by decide, rfl, fun _ => by rw [if_neg (not_not.mpr hdir), if_pos hdot]⟩
  rw [if_neg hdot] at hcheck
  by_cases hfree : (view ns).file (name :: p) = none
  swap
  · rw [if_pos hfree] at hcheck
    rw [hcheck] at hcall
    cases hcall
    refine .inl ⟨by decide, rfl, fun _ => ?_⟩
    rw [if_neg (not_not.mpr hdir), if_neg hdot, if_pos hfree]
  rw [if_neg (not_not.mpr hfree)] at hcheck
  have hid : toInt64 (ns.nxvnid + 1) = ns.nxvnid + 1 := by
    have := h.counter _ h.root
    exact toInt64_succ (by omega) (hroom hcheck)
  rw [hcheck, hid] at hcall
  obtain ⟨ns₁, hlink, hr⟩ := map_ok hcall
  cases hr
  obtain ⟨hnode, hlive, -⟩ := linkIn_frame hlink
  have hframe : ns₁.root = ns.root ∧ ns₁.nxvnid = ns.nxvnid + 1 := by
    obtain ⟨-, -, rfl⟩ := map_ok hlink
    exact ⟨rfl, rfl⟩
  refine .inr ⟨rfl, ⟨hvn, hframe.1, ?_, hframe.2, hnode, rfl, rfl⟩, view_file_eq_none.mp hfree,
    fun _ => ?_⟩
  · exact congrArg (insert vn) hlive
  · rw [if_neg (not_not.mpr hdir), if_neg hdot, if_neg (not_not.mpr hfree)]

/-- The request has the answer of the call, and leads to the map behind it. -/
def Serves (ns : Nspace) (req : Request) (r : ℤ × Nspace) : Prop :=
  (view ns).serve req = (r.1, view r.2)

/-- A rename is refused when the new directory lies below the old one. The call is right about that
if what it moves is the new directory, or above it. -/
def Judged (ns : Nspace) : Call → Prop
  | .rename olddir oldname newdir _ _ => ∀ vn, Names ns olddir oldname vn →
    Below ns olddir newdir → newdir = vn ∨ Below ns vn newdir
  | _ => True

theorem mkdir_serves (h : Sound ns kids) (hf : Filed ns) (hd : At (tree ns) p dir) (perms : Mode)
    (hvn : vn ∉ ns.live) (hroom : createCheck ns dir name = .ok 0 → ns.nxvnid < maxVnid)
    {r : ℤ × Nspace} (hcall : rootfsMkdir ns dir name perms vn = .ok r) (hs : Kept r.2) :
    Serves ns (.mkdir p name perms) r ∧ Filed r.2 := by
  obtain ⟨kids', hs⟩ := hs
  obtain ⟨err, ns', hcreate, hmade⟩ := doCreate_made h hf hd ((perms &&& ~~~sIfmt) ||| sIfdir)
    hvn hroom
  unfold rootfsMkdir at hcall
  rw [hcreate] at hcall
  cases hcall
  rcases hmade with ⟨-, rfl, hview⟩ | ⟨rfl, hmade, hfree, hview⟩
  · exact ⟨hview _, hf⟩
  · obtain ⟨hdir, hperms⟩ := mkdir_mode perms
    refine ⟨(hview _).trans ?_, hmade.filed hf h ⟨rfl, .inl hdir⟩⟩
    rw [hmade.view h hs hd hfree]
    unfold fileOf
    dsimp only
    rw [if_pos hdir, hperms]
    rfl

theorem symlink_serves (h : Sound ns kids) (hf : Filed ns) (hd : At (tree ns) p dir) (text : Name)
    (hvn : vn ∉ ns.live) (hroom : createCheck ns dir name = .ok 0 → ns.nxvnid < maxVnid)
    {r : ℤ × Nspace} (hcall : rootfsSymlink ns dir name text vn = .ok r) (hs : Kept r.2) :
    Serves ns (.symlink p name text) r ∧ Filed r.2 := by
  obtain ⟨kids', hs⟩ := hs
  obtain ⟨err, ns', hcreate, hmade⟩ := doCreate_made h hf hd sIflnk hvn hroom
  unfold rootfsSymlink at hcall
  rw [hcreate] at hcall
  rcases hmade with ⟨herr, rfl, hview⟩ | ⟨rfl, hmade, hfree, hview⟩
  · dsimp only [Except.map] at hcall
    rw [if_pos herr] at hcall
    cases hcall
    exact ⟨hview _, hf⟩
  · dsimp only [Except.map] at hcall
    rw [if_neg (by decide)] at hcall
    cases hcall
    -- the text is put into the vnode that was made
    have hlink : Made ns (setNode ns' vn { ns'.node vn with symlink := some text }) vn dir name
        ⟨some name, false, ns.nxvnid + 1, dir, sIflnk, some text⟩ := by
      refine ⟨hvn, hmade.root, hmade.live, hmade.lastId, ?_, rfl, rfl⟩
      unfold setNode
      dsimp only
      rw [hmade.node, Function.update_self, Function.update_idem]
    refine ⟨(hview _).trans ?_, hlink.filed hf h ⟨rfl, .inr ⟨rfl, Option.some_ne_none text⟩⟩⟩
    rw [hlink.view h hs hd hfree]
    unfold fileOf
    dsimp only
    rw [if_neg not_sIsdir_link]
    rfl

theorem dropped_marked (ns : Nspace) (vn : ℕ) (v : Vnode) :
    Dropped ns (setNode (dropVnode ns vn) vn v) vn :=
  ⟨rfl, rfl, rfl, fun _ hn => Function.update_of_ne hn _ _⟩

theorem doUnlink_serves (h : Sound ns kids) (hf : Filed ns) (hd : At (tree ns) p dir)
    (name : Name) (isdir : Bool) {r : ℤ × Nspace} (hcall : doUnlink ns dir name isdir = .ok r)
    (hs : Kept r.2) : (view ns).remove p name isdir = (r.1, view r.2) ∧ Filed r.2 := by
  have hw := wellFormed h
  have hlook := lookup_eq h hd name
  obtain ⟨kids', hs⟩ := hs
  unfold lookup at hlook
  unfold doUnlink at hcall
  unfold Files.remove
  rw [isDir_iff hw hd]
  split at hcall
  · next hdir =>
    cases hcall
    exact ⟨if_pos hdir, hf⟩
  next hdir =>
  rw [if_neg hdir]
  split at hcall
  · next hdot =>
    cases hcall
    exact ⟨if_pos hdot, hf⟩
  next hdot =>
  rw [if_neg hdot]
  rw [hlook] at hcall
  cases hfind : find (tree ns) (name :: p) with
  | none =>
    rw [hfind] at hcall
    cases hcall
    rw [view_file_eq_none.mpr hfind]
    exact ⟨rfl, hf⟩
  | some vn =>
    have hat := (find_eq_some hw).mp hfind
    have hne : vn ≠ ns.root := (at_cons.mp hat).2.2.2
    rw [hfind] at hcall
    dsimp only [Except.map] at hcall
    rw [if_neg hne] at hcall
    rw [view_file hw hat]
    unfold fileOf
    rcases hf.kinds vn (hat.mem hw) with hvdir | ⟨hlink, -⟩
    · have hbit := dir_bit hvdir
      rw [if_neg fun hc => hbit hc.2] at hcall
      simp only [if_pos hvdir, Option.map_some]
      cases isdir with
      | false =>
        rw [if_pos ⟨by decide, hbit⟩] at hcall
        cases hcall
        exact ⟨if_pos (by decide), hf⟩
      | true =>
        rw [if_neg fun hc => hc.1 rfl] at hcall
        rw [if_neg (by decide), empty_iff h hat]
        split at hcall
        · next hfull =>
          cases hcall
          exact ⟨if_pos hfull.2, hf⟩
        · next hempty =>
          cases hcall
          have hdrop := dropped_marked ns vn { ns.node vn with removed := true }
          rw [if_neg fun hc => hempty ⟨hvdir, hc⟩]
          exact ⟨congrArg _ (hdrop.view h hs hat (h.leaf hempty)).symm, hdrop.filed hf hne⟩
    · have hvdir : ¬sIsdir (ns.node vn).mode := hlink ▸ not_sIsdir_link
      have hbit : (ns.node vn).mode &&& sIfdir = 0 := hlink ▸ link_bit
      simp only [if_neg hvdir, Option.map_some]
      cases isdir with
      | true =>
        rw [if_pos ⟨rfl, hbit⟩] at hcall
        cases hcall
        exact ⟨if_pos rfl, hf⟩
      | false =>
        rw [if_neg fun hc => absurd hc.1 (by decide), if_neg fun hc => hc.2 hbit,
          if_neg fun hc => hvdir hc.1] at hcall
        cases hcall
        have hdrop := dropped_marked ns vn { ns.node vn with removed := true }
        have hleaf : kids vn = [] := h.leaf fun hc => hvdir hc.1
        rw [if_neg (by decide)]
        exact ⟨congrArg _ (hdrop.view h hs hat hleaf).symm, hdrop.filed hf hne⟩

open scoped Classical in
/-- What the checks of a rename come to, in terms of the paths. -/
theorem renameCheck_view (h : Sound ns kids) (hold : At (tree ns) p olddir)
    (hnew : At (tree ns) q newdir) (oldname newname : Name) :
    renameCheck ns olddir oldname newdir newname = .ok (
      if ¬(view ns).IsDir p ∨ ¬(view ns).IsDir q then .fail ENOTDIR
      else if oldname = dot ∨ oldname = dotdot then .fail EPERM
      else match find (tree ns) (oldname :: p) with
        | none => .fail ENOENT
        | some vn =>
          if newname = dot ∨ newname = dotdot then .fail EPERM
          else if oldname :: p = newname :: q then .same
          else if p <:+ q ∧ p ≠ q then .fail EINVAL
          else .move vn (find (tree ns) (newname :: q))) := by
  have hw := wellFormed h
  have hlook := lookup_eq h hold oldname
  have hlook' := lookup_eq h hnew newname
  have hlive : newdir ∈ ns.live := hnew.mem hw
  obtain ⟨k, hk, hsteps⟩ := (h.tree.reaches newdir hlive).steps_lt hlive h.closed
  obtain ⟨below, hbelow⟩ := isBelow_of_steps olddir k hk.le hsteps
  have hiff := (isBelow_iff hbelow).trans (below_iff hold hw hnew)
  unfold lookup at hlook hlook'
  unfold renameCheck
  rw [isDir_iff hw hold, isDir_iff hw hnew, hlook, hlook', hbelow]
  split
  · rfl
  split
  · rfl
  dsimp only [Except.bind]
  cases hfind : find (tree ns) (oldname :: p) with
  | none => rfl
  | some vn =>
    have hat := (find_eq_some hw).mp hfind
    dsimp only
    split
    · rfl
    have hsame : find (tree ns) (newname :: q) = some vn ↔ oldname :: p = newname :: q := by
      rw [find_eq_some hw]
      constructor
      · intro hn
        exact hat.path_unique hn
      · intro he
        exact he ▸ hat
    by_cases he : oldname :: p = newname :: q
    · rw [if_pos he, if_pos (hsame.mpr he)]
    · rw [if_neg he, if_neg fun hc => he (hsame.mp hc)]
      cases below with
      | true => rw [if_pos (hiff.mp rfl)]; rfl
      | false =>
        have hnot : ¬(p <:+ q ∧ p ≠ q) := fun hc => by
          have := hiff.mpr hc
          cases this
        rw [if_neg hnot]
        rfl

theorem moveNode_renamed {r : ℤ × Nspace} (h : moveNode ns vn newdir newname = .ok r) :
    r.1 = 0 ∧ Renamed ns r.2 vn newdir newname := by
  obtain ⟨ns₁, hlink, rfl⟩ := map_ok h
  obtain ⟨-, -, rfl⟩ := map_ok hlink
  exact ⟨rfl, rfl, rfl, rfl, rfl⟩

/-- The old name does not matter. -/
theorem Renamed.of_setNode {ns ns' : Nspace} {old : Option Name}
    (h : Renamed (setNode ns vn { ns.node vn with name := old }) ns' vn newdir newname) :
    Renamed ns ns' vn newdir newname := by
  refine ⟨h.root, h.live, h.lastId, ?_⟩
  have hnode := h.node
  unfold setNode at hnode
  dsimp only at hnode
  rw [Function.update_self, Function.update_idem] at hnode
  exact hnode

/-- To drop a vnode and to touch the name of another is the same in both orders. -/
theorem dropVnode_setNode (ns : Nspace) {w : ℕ} (hne : w ≠ vn) (old : Option Name) :
    dropVnode (setNode ns vn { ns.node vn with name := old }) w =
      setNode (dropVnode ns w) vn { (dropVnode ns w).node vn with name := old } := by
  have hnode : (setNode ns vn { ns.node vn with name := old }).node w = ns.node w :=
    Function.update_of_ne hne _ _
  unfold dropVnode linkOut
  dsimp only
  rw [hnode]
  rfl

theorem not_suffix_of_apart (h : ¬(p <:+ q ∧ p ≠ q)) (name : Name) : ¬name :: p <:+ q := by
  intro hs
  refine h ⟨(List.suffix_cons name p).trans hs, ?_⟩
  rintro rfl
  exact absurd hs.length_le (by simp)

/-- A rename that has passed its checks. -/
theorem move_serves (h : Sound ns kids) (hf : Filed ns) (hvn : At (tree ns) (oldname :: p) vn)
    (hnew : At (tree ns) q newdir) (hne : oldname :: p ≠ newname :: q)
    (hout : ¬oldname :: p <:+ q) (moved : Bool)
    (hintact : ∀ w, find (tree ns) (newname :: q) = some w →
      ¬(sIsdir (ns.node w).mode ∧ ns.head w ≠ none ∧ Longer ns vn newname ∧ moved))
    {r : ℤ × Nspace} (hs : Kept r.2)
    (hcall : (match find (tree ns) (newname :: q) with
      | none => moveNode (reallocName ns vn newname moved) vn newdir newname
      | some nvn =>
        if nvn = (reallocName ns vn newname moved).root then
          .ok (EBUSY, reallocName ns vn newname moved)
        else if sIsdir ((reallocName ns vn newname moved).node nvn).mode ∧
            (reallocName ns vn newname moved).head nvn ≠ none then
          .ok (ENOTEMPTY, reallocName ns vn newname moved)
        else moveNode (dropVnode (reallocName ns vn newname moved) nvn) vn newdir newname) =
      .ok r) :
    Filed r.2 ∧ ((view ns).IsDir (newname :: q) ∧ ¬(view ns).Empty (newname :: q) ∧
        r.1 = ENOTEMPTY ∧ view r.2 = view ns ∨
      ¬((view ns).IsDir (newname :: q) ∧ ¬(view ns).Empty (newname :: q)) ∧ r.1 = 0 ∧
        view r.2 = ⟨(view ns).lastId, graft ((view ns).erase (newname :: q)).file (oldname :: p)
          (newname :: q)⟩) := by
  have hw := wellFormed h
  have hroot : vn ≠ ns.root := (at_cons.mp hvn).2.2.2
  obtain ⟨kids', hs⟩ := hs
  obtain ⟨old, hold⟩ := reallocName_eq ns vn newname moved
  cases hfind : find (tree ns) (newname :: q) with
  | none =>
    rw [hfind, hold] at hcall
    obtain ⟨herr, hren⟩ := moveNode_renamed hcall
    have hren := hren.of_setNode
    have hnofile := view_file_eq_none.mpr hfind
    refine ⟨hren.filed hf (hvn.mem hw) hroot, .inr ⟨?_, herr, ?_⟩⟩
    · rintro ⟨⟨id, perms, he⟩, -⟩
      rw [hnofile] at he
      cases he
    · have hsame : ((view ns).erase (newname :: q)).file = (view ns).file := by
        unfold Files.erase
        dsimp only
        rw [← hnofile, Function.update_eq_self]
      rw [hsame]
      exact hren.view h hs hvn hnew hout hfind
  | some w =>
    have hat := (find_eq_some hw).mp hfind
    have hwroot : w ≠ ns.root := (at_cons.mp hat).2.2.2
    have hwv : w ≠ vn := by
      rintro rfl
      exact hne (hvn.path_unique hat)
    have hnode : (reallocName ns vn newname moved).node w = ns.node w := by
      rw [hold]
      exact Function.update_of_ne hwv _ _
    have hkeep : (reallocName ns vn newname moved).root = ns.root ∧
        (reallocName ns vn newname moved).head = ns.head := by
      rw [hold]
      exact ⟨rfl, rfl⟩
    rw [hfind] at hcall
    dsimp only at hcall
    rw [hnode, hkeep.1, hkeep.2, if_neg hwroot] at hcall
    rw [isDir_iff hw hat, empty_iff h hat]
    split at hcall
    · next hfull =>
      have hsame : reallocName ns vn newname moved = ns :=
        if_neg fun hc => hintact w hfind ⟨hfull.1, hfull.2, hc⟩
      rw [hsame] at hcall
      cases hcall
      exact ⟨hf, .inl ⟨hfull.1, hfull.2, rfl, rfl⟩⟩
    · next hempty =>
      have hleaf := h.leaf hempty
      have hmem : w ∈ kids (parentOf ns w) := (h.mem_parent (hat.mem hw) hwroot).1
      have hdropped : Dropped ns (dropVnode ns w) w := ⟨rfl, rfl, rfl, fun _ _ => rfl⟩
      have hs₁ := h.dropVnode hmem hleaf
      have hshrunk := hdropped.shrunk h hwroot hleaf
      rw [hold, dropVnode_setNode ns hwv] at hcall
      obtain ⟨herr, hren⟩ := moveNode_renamed hcall
      have hren := hren.of_setNode
      have hwnew : newdir ≠ w := by
        rintro rfl
        exact absurd (congrArg List.length (hnew.path_unique hat)) (by simp)
      have hvn₁ : At (tree (dropVnode ns w)) (oldname :: p) vn :=
        hshrunk.at_iff.mpr ⟨hvn, hwv.symm⟩
      have hnew₁ : At (tree (dropVnode ns w)) q newdir := hshrunk.at_iff.mpr ⟨hnew, hwnew⟩
      have hfree : find (tree (dropVnode ns w)) (newname :: q) = none := by
        rw [find_eq_none (wellFormed hs₁)]
        intro n hn
        obtain ⟨hn, hnw⟩ := hshrunk.at_iff.mp hn
        exact hnw (hn.unique hw hat)
      have hf₁ := hdropped.filed hf hwroot
      refine ⟨hren.filed hf₁ (hvn₁.mem (wellFormed hs₁)) hroot, .inr ⟨?_, herr, ?_⟩⟩
      · exact fun hc => hempty ⟨hc.1, hc.2⟩
      · rw [hren.view hs₁ hs hvn₁ hnew₁ hout hfree, hdropped.view h hs₁ hat hleaf]
        rfl

theorem rename_serves (h : Sound ns kids) (hf : Filed ns) (hold : At (tree ns) p olddir)
    (hnew : At (tree ns) q newdir) (moved : Bool)
    (hintact : ¬LosesName ns (renameCheck ns olddir oldname newdir newname) newname moved)
    {r : ℤ × Nspace} (hcall : rootfsRename ns olddir oldname newdir newname moved = .ok r)
    (hs : Kept r.2) :
    (Judged ns (.rename olddir oldname newdir newname moved) →
      (view ns).rename p oldname q newname = (r.1, view r.2)) ∧ Filed r.2 := by
  classical
  have hw := wellFormed h
  have hcheck := renameCheck_view h hold hnew oldname newname
  unfold rootfsRename at hcall
  unfold Files.rename
  by_cases hdirs : ¬(view ns).IsDir p ∨ ¬(view ns).IsDir q
  · rw [hcheck, if_pos hdirs] at hcall
    cases hcall
    exact ⟨fun _ => if_pos hdirs, hf⟩
  rw [if_neg hdirs] at hcheck ⊢
  by_cases hdot : oldname = dot ∨ oldname = dotdot
  · rw [hcheck, if_pos hdot] at hcall
    cases hcall
    exact ⟨fun _ => if_pos hdot, hf⟩
  rw [if_neg hdot] at hcheck ⊢
  cases hfind : find (tree ns) (oldname :: p) with
  | none =>
    rw [hfind] at hcheck
    rw [hcheck] at hcall
    cases hcall
    exact ⟨fun _ => if_pos (view_file_eq_none.mpr hfind), hf⟩
  | some vn =>
    have hvn := (find_eq_some hw).mp hfind
    have hsome : (view ns).file (oldname :: p) ≠ none := fun hnone => by
      rw [view_file_eq_none.mp hnone] at hfind
      cases hfind
    rw [if_neg hsome]
    rw [hfind] at hcheck
    dsimp only at hcheck
    by_cases hdot' : newname = dot ∨ newname = dotdot
    · rw [hcheck, if_pos hdot'] at hcall
      cases hcall
      exact ⟨fun _ => if_pos hdot', hf⟩
    rw [if_neg hdot'] at hcheck ⊢
    by_cases hsame : oldname :: p = newname :: q
    · rw [hcheck, if_pos hsame] at hcall
      cases hcall
      exact ⟨fun _ => if_pos hsame, hf⟩
    rw [if_neg hsame] at hcheck ⊢
    by_cases hbelow : p <:+ q ∧ p ≠ q
    · rw [hcheck, if_pos hbelow] at hcall
      cases hcall
      refine ⟨fun hjudged => if_pos ?_, hf⟩
      have hnames : Names ns olddir oldname vn := by
        rw [not_or] at hdot
        exact ⟨hdot.1, hdot.2, by rw [lookup_eq h hold, hfind]⟩
      rcases hjudged vn hnames ((below_iff hold hw hnew).mpr hbelow) with rfl | hunder
      · exact hnew.path_unique hvn ▸ List.suffix_refl _
      · exact ((below_iff hvn hw hnew).mp hunder).1
    rw [if_neg hbelow] at hcheck
    have hout := not_suffix_of_apart hbelow oldname
    rw [if_neg hout]
    rw [hcheck] at hcall hintact
    obtain ⟨hfiled, hres⟩ := move_serves h hf hvn hnew hsame hout moved
      (fun w hfw hc => hintact (by rw [hfw]; exact hc)) hs hcall
    refine ⟨fun _ => ?_, hfiled⟩
    rcases hres with ⟨hdir, hfull, herr, hview⟩ | ⟨hnot, herr, hview⟩
    · rw [if_pos ⟨hdir, hfull⟩, herr, hview]
    · rw [if_neg hnot, herr, hview]

/-- A call has an answer, and it is the answer to the request. -/
theorem call_serves (h : Sound ns kids) (hf : Filed ns) {e : Call} (hallowed : Allowed ns e)
    (hintact : Intact ns e) : ∃ r, call ns e = .ok r ∧ Kept r.2 ∧ Filed r.2 ∧
      (Judged ns e → Serves ns (request ns e) r) := by
  obtain ⟨r, hcall, hs⟩ := h.call hallowed hintact
  have hw := wellFormed h
  refine ⟨r, hcall, hs, ?_⟩
  cases e with
  | mkdir dir name perms vn =>
    obtain ⟨hserves, hfiled⟩ :=
      mkdir_serves h hf (at_pathOf hw hallowed.1) perms hallowed.2 hintact hcall hs
    exact ⟨hfiled, fun _ => hserves⟩
  | symlink dir name text vn =>
    obtain ⟨hserves, hfiled⟩ :=
      symlink_serves h hf (at_pathOf hw hallowed.1) text hallowed.2 hintact hcall hs
    exact ⟨hfiled, fun _ => hserves⟩
  | unlink dir name =>
    obtain ⟨hserves, hfiled⟩ := doUnlink_serves h hf (at_pathOf hw hallowed) name false hcall hs
    exact ⟨hfiled, fun _ => hserves⟩
  | rmdir dir name =>
    obtain ⟨hserves, hfiled⟩ := doUnlink_serves h hf (at_pathOf hw hallowed) name true hcall hs
    exact ⟨hfiled, fun _ => hserves⟩
  | rename olddir oldname newdir newname moved =>
    exact (rename_serves h hf (at_pathOf hw hallowed.1) (at_pathOf hw hallowed.2) moved hintact
      hcall hs).symm

end Calls

section Walks

/-- What a name in a directory leads to. -/
inductive Target where
  | file (p : List Name)
  | text (t : Name)

open scoped Classical in
/-- The directory above the root is the root. -/
noncomputable def Files.walk (fs : Files) (dir : List Name) (name : Name) (eat : Bool) :
    Except ℤ Target :=
  if ¬fs.IsDir dir then .error ENOTDIR
  else if name = dot then .ok (.file dir)
  else if name = dotdot then .ok (.file dir.tail)
  else match (fs.file (name :: dir)).map File.content with
    | none => .error ENOENT
    | some (.dir _) => .ok (.file (name :: dir))
    | some (.link text) => .ok (if eat then .text text else .file (name :: dir))

/-- What `rootfs_walk` comes to for a target: the id that `get_vnode` is asked for, the text that
`new_path` has to copy, or the error of the one that fails. -/
def Leads (ns : Nspace) (getErr : ℤ → ℤ) (pathErr : ℤ) (target : Except ℤ Target)
    (r : ℤ × Option Walked) : Prop :=
  match target with
  | .error err => err ≠ 0 ∧ r = (err, none)
  | .ok (.file p) => ∃ n, At (tree ns) p n ∧ r =
      if getErr (ns.node n).vnid ≠ 0 then (getErr (ns.node n).vnid, none)
      else (0, some (.vnode (ns.node n).vnid))
  | .ok (.text t) => r = if pathErr ≠ 0 then (pathErr, none) else (0, some (.newpath (some t)))

variable {ns : Nspace} {kids : ℕ → List ℕ} {base n : ℕ} {p : List Name}

theorem parent_at (hf : Filed ns) (h : At (tree ns) p n) :
    At (tree ns) p.tail (parentOf ns n) := by
  cases p with
  | nil =>
    obtain rfl : n = ns.root := at_nil.mp h
    rw [hf.top]
    exact h
  | cons a p => exact (at_cons.mp h).1

theorem link_mode : sIslnk sIflnk := by decide

theorem dir_not_link {m : Mode} (h : sIsdir m) : ¬sIslnk m := by
  intro hl
  have he : sIfdir = sIflnk := h.symm.trans hl
  exact absurd he (by decide)

/-- A walk from a directory of the tree leads where the map says. -/
theorem rootfsWalk_leads (h : Sound ns kids) (hf : Filed ns) (hb : At (tree ns) p base)
    (getErr : ℤ → ℤ) (pathErr : ℤ) (name : Name) (eat : Bool) :
    ∃ r, rootfsWalk ns getErr pathErr base name eat = .ok r ∧
      Leads ns getErr pathErr ((view ns).walk p name eat) r := by
  have hw := wellFormed h
  have hlook := lookup_eq h hb name
  unfold lookup at hlook
  unfold rootfsWalk Files.walk
  simp only [isDir_iff hw hb, hf.unmarked base (hb.mem hw), hlook, if_false, Bool.false_eq_true]
  split
  · exact ⟨_, rfl, by decide, rfl⟩
  split
  · exact ⟨_, rfl, base, hb, rfl⟩
  split
  · exact ⟨_, rfl, _, parent_at hf hb, rfl⟩
  cases hfind : find (tree ns) (name :: p) with
  | none =>
    rw [view_file_eq_none.mpr hfind]
    exact ⟨_, rfl, by decide, rfl⟩
  | some vn =>
    have hat := (find_eq_some hw).mp hfind
    refine ⟨_, rfl, ?_⟩
    rw [view_file hw hat, Option.map_some]
    rcases hf.kinds vn (hat.mem hw) with hdir | ⟨hlink, htext⟩
    · have hnot : ¬(sIslnk (ns.node vn).mode ∧ eat = true) := fun hc => dir_not_link hdir hc.1
      rw [fileOf_dir hdir]
      dsimp only
      rw [if_neg hnot]
      exact ⟨vn, hat, rfl⟩
    · have hmode : sIslnk (ns.node vn).mode := hlink ▸ link_mode
      obtain ⟨t, ht⟩ := Option.ne_none_iff_exists'.mp htext
      rw [fileOf_link (hlink ▸ not_sIsdir_link), ht]
      cases eat with
      | false =>
        have hnot : ¬(sIslnk (ns.node vn).mode ∧ false = true) := fun hc => by cases hc.2
        dsimp only
        rw [if_neg hnot]
        exact ⟨vn, hat, rfl⟩
      | true =>
        have hboth : sIslnk (ns.node vn).mode ∧ true = true := ⟨hmode, rfl⟩
        dsimp only
        rw [if_pos hboth, ht]
        rfl

/-- What is put into the buffer, and the length of the text. -/
def rootfsReadlink (ns : Nspace) (node bufsize : ℕ) : Except Stop (ℤ × Option (Name × ℕ)) :=
  if ¬sIslnk (ns.node node).mode then .ok (EINVAL, none)
  else match (ns.node node).symlink with
    | none => .error .badPointer
    | some s => .ok (0, some (s.take bufsize, s.length))

def Files.readlink (fs : Files) (p : List Name) (bufsize : ℕ) : ℤ × Option (Name × ℕ) :=
  match (fs.file p).map File.content with
  | some (.link text) => (0, some (text.take bufsize, text.length))
  | _ => (EINVAL, none)

theorem rootfsReadlink_eq (h : Sound ns kids) (hf : Filed ns) (hn : At (tree ns) p n)
    (bufsize : ℕ) : rootfsReadlink ns n bufsize = .ok ((view ns).readlink p bufsize) := by
  have hw := wellFormed h
  unfold rootfsReadlink Files.readlink
  rw [view_file hw hn, Option.map_some]
  rcases hf.kinds n (hn.mem hw) with hdir | ⟨hlink, htext⟩
  · rw [fileOf_dir hdir, if_pos (dir_not_link hdir)]
  · have hmode : sIslnk (ns.node n).mode := hlink ▸ link_mode
    obtain ⟨t, ht⟩ := Option.ne_none_iff_exists'.mp htext
    rw [fileOf_link (hlink ▸ not_sIsdir_link), if_neg (not_not.mpr hmode), ht]
    rfl

end Walks

section Runs

/-- The requests that a run of calls stands for. -/
noncomputable def requests (ns : Nspace) : List Call → List Request
  | [] => []
  | e :: es => request ns e :: requests (next ns e) es

def answers (ns : Nspace) : List Call → List (Except Stop ℤ)
  | [] => []
  | e :: es => (call ns e).map Prod.fst :: answers (next ns e) es

theorem mounted_node (mem : Nspace) (root : ℕ) :
    (mounted mem root).node root = ⟨none, false, 1, root, sIfdir ||| 0o777, none⟩ :=
  Function.update_self ..

theorem mounted_filed (mem : Nspace) (root : ℕ) : Filed (mounted mem root) := by
  have hnode := mounted_node mem root
  have hlive : ∀ n ∈ (mounted mem root).live, n = root := fun n hn => Finset.mem_singleton.mp hn
  have hmode : sIsdir (sIfdir ||| 0o777) := by decide
  have hroot : sIsdir ((mounted mem root).node root).mode := by
    rw [hnode]
    exact hmode
  refine ⟨fun n hn => ?_, fun n hn => ?_, hroot, ?_⟩
  · rw [hlive n hn, hnode]
  · rw [hlive n hn]
    exact .inl hroot
  · exact congrArg Vnode.parent hnode

/-- A new file system has nothing but its root. -/
theorem mounted_view (mem : Nspace) (root : ℕ) : view (mounted mem root) = Files.initial := by
  have hfind : find (tree (mounted mem root)) = Function.update (fun _ => none) [] (some root) := by
    refine find_eq (wellFormed (mounted_sound mem root)) fun p n => ?_
    cases p with
    | nil =>
      rw [Function.update_self, Option.some_inj, at_nil]
      exact eq_comm
    | cons a p =>
      rw [Function.update_of_ne (List.cons_ne_nil a p), at_cons]
      refine ⟨fun hc => absurd hc (by simp), ?_⟩
      rintro ⟨-, -, hmem, hne⟩
      exact absurd (Finset.mem_singleton.mp hmem) hne
  have hmode : sIsdir (sIfdir ||| 0o777) := by decide
  have hperms : (sIfdir ||| 0o777) &&& ~~~sIfmt = 0o777 := by decide
  unfold view Files.initial
  rw [hfind]
  refine congrArg (Files.mk _) (funext fun p => ?_)
  cases p with
  | nil =>
    rw [Function.update_self, Function.update_self]
    refine congrArg some ?_
    dsimp only
    rw [mounted_node]
    unfold fileOf
    rw [if_pos hmode, hperms]
  | cons a p =>
    rw [Function.update_of_ne (List.cons_ne_nil a p), Function.update_of_ne (List.cons_ne_nil a p)]
    rfl

/-- The invariant of the runs. -/
def Mapped (ns : Nspace) : Prop := Kept ns ∧ Filed ns

theorem next_mapped (ns : Nspace) (e : Call) (h : Mapped ns)
    (hc : Allowed ns e ∧ Intact ns e) : Mapped (next ns e) := by
  obtain ⟨⟨kids, h⟩, hf⟩ := h
  obtain ⟨r, hcall, hk, hf', -⟩ := call_serves h hf hc.1 hc.2
  unfold next
  rw [hcall]
  exact ⟨hk, hf'⟩

theorem mounted_mapped (mem : Nspace) (root : ℕ) : Mapped (mounted mem root) :=
  ⟨⟨_, mounted_sound mem root⟩, mounted_filed mem root⟩

/-- The answers of a run are those to its requests, and it leads to the map behind them. -/
theorem run_serves (calls : List Call) : ∀ {ns : Nspace}, Mapped ns →
    EveryStep next Allowed ns calls → EveryStep next Intact ns calls →
    EveryStep next Judged ns calls →
    answers ns calls = ((view ns).serveAll (requests ns calls)).1.map .ok ∧
      view (runTrace next ns calls) =
        ((view ns).serveAll (requests ns calls)).2 := by
  induction calls with
  | nil =>
    intro ns _ _ _ _
    exact ⟨rfl, rfl⟩
  | cons e es ih =>
    intro ns hm hallowed hintact hjudged
    have hm' := next_mapped ns e hm ⟨hallowed.1, hintact.1⟩
    obtain ⟨⟨kids, h⟩, hf⟩ := hm
    obtain ⟨r, hcall, -, -, hserves⟩ := call_serves h hf hallowed.1 hintact.1
    have hserve : (view ns).serve (request ns e) = (r.1, view r.2) := hserves hjudged.1
    have hnext : next ns e = r.2 := by
      unfold next
      rw [hcall]
    obtain ⟨hanswers, hview⟩ := ih hm' hallowed.2 hintact.2 hjudged.2
    unfold answers requests Files.serveAll
    rw [runTrace_cons, hcall, hserve]
    rw [hnext] at hanswers hview ⊢
    exact ⟨by rw [List.map_cons, ← hanswers]; rfl, hview⟩

/-- From the mount on, calls on live directories are requests on a map from paths to files: they
have the same answers, and the vnodes stand for the same map. -/
theorem rootfs_is_path_map (mem : Nspace) (root : ℕ) (calls : List Call)
    (hallowed : EveryStep next Allowed (mounted mem root) calls)
    (hintact : EveryStep next Intact (mounted mem root) calls)
    (hjudged : EveryStep next Judged (mounted mem root) calls) :
    answers (mounted mem root) calls =
        (Files.initial.serveAll (requests (mounted mem root) calls)).1.map .ok ∧
      view (runTrace next (mounted mem root) calls) =
        (Files.initial.serveAll (requests (mounted mem root) calls)).2 := by
  have h := run_serves calls (mounted_mapped mem root) hallowed hintact hjudged
  rwa [mounted_view] at h

/-- Calls with which a directory replaces a link and its old directory is removed. -/
def someCalls : List Call := [.mkdir 0 (longName.take 1) 0o755 1,
  .mkdir 1 (longName.take 3) 0o755 2, .symlink 0 (longName.take 2) dot 3,
  .rename 1 (longName.take 3) 0 (longName.take 2) true, .rmdir 0 (longName.take 1)]

/-- What they leave. -/
def someSpace : Nspace := runTrace next (mounted noNodes 0) someCalls

theorem someCalls_allowed :
    EveryStep next Allowed (mounted noNodes 0) someCalls := by
  decide +kernel

theorem someCalls_intact : EveryStep next Intact (mounted noNodes 0) someCalls :=
  ⟨fun _ => by decide +kernel, fun _ => by decide +kernel, fun _ => by decide +kernel,
    by unfold Intact; decide +kernel, trivial, trivial⟩

theorem someCalls_judged : EveryStep next Judged (mounted noNodes 0) someCalls := by
  refine ⟨trivial, trivial, trivial, fun vn _ hb => ?_, trivial, trivial⟩
  exact absurd (by decide +kernel) hb.ne_root

theorem rootfs_is_path_map_someCalls :
    answers (mounted noNodes 0) someCalls =
        (Files.initial.serveAll (requests (mounted noNodes 0) someCalls)).1.map .ok ∧
      view someSpace = (Files.initial.serveAll (requests (mounted noNodes 0) someCalls)).2 :=
  rootfs_is_path_map noNodes 0 someCalls someCalls_allowed someCalls_intact someCalls_judged

end Runs

end RootfsPaths
