import Mathlib.Tactic
import FsKit.LinkedList
import FsKit.MakeAndMount
import FsKit.MountCalls
import FsKit.TransitionTrace

/-! The memory based file system at the top of the name space (`rootfs.c`). Its vnodes are nodes
of a heap, the children of a directory are a doubly linked list that is kept in the order of the
names, and `rootfs_rename` moves a node between two such lists. Node addresses are natural
numbers; the ones that `malloc` gives out are arguments of the calls. -/
namespace RootfsTree

open BlockBitmap LinkedList TransitionTrace
open MachineIntegers
open MountCalls (EBUSY ENOTDIR)

def EISDIR : ℤ := 21
def ENOTEMPTY : ℤ := 39

abbrev Name := List (Fin 256)

abbrev Mode := BitVec 32

def dot : Name := [46]
def dotdot : Name := [46, 46]

def sIfmt : Mode := 0o170000
def sIflnk : Mode := 0o120000
def sIfdir : Mode := 0o40000

def sIsdir (m : Mode) : Prop := m &&& sIfmt = sIfdir

instance (m : Mode) : Decidable (sIsdir m) := inferInstanceAs (Decidable (m &&& sIfmt = sIfdir))

/-- `name` is `none` when the pointer does not lead to a string: the null pointer of the root, or
storage that was given back. -/
structure Vnode where
  name : Option Name
  removed : Bool
  vnid : ℤ
  parent : ℕ
  mode : Mode
  symlink : Option Name

/-- `live` holds the nodes that were put into the skip list and not yet given to
`remove_vnode`. -/
structure Nspace where
  root : ℕ
  nxvnid : ℤ
  node : ℕ → Vnode
  links : Links ℕ
  head : ℕ → Option ℕ
  live : Finset ℕ

/-- What keeps a call from returning: a walk without end, or a name that is not there. -/
inductive Stop where
  | endless
  | badPointer
  deriving DecidableEq, Repr

section Walks
variable (ns : Nspace) (name : Name)

/-- The loop of `do_unlink` and `rootfs_rename` over a child list. The first number bounds the
rounds: a list of live nodes is never longer than there are live nodes. -/
def findName : ℕ → Option ℕ → Except Stop (Option ℕ)
  | _, none => .ok none
  | 0, some _ => .error .endless
  | fuel + 1, some vn =>
    match (ns.node vn).name with
    | none => .error .badPointer
    | some s => if s = name then .ok (some vn) else findName fuel (ns.links.next vn)

/-- The loop of `do_create`, which stops behind the place of the name. -/
def findSorted : ℕ → Option ℕ → Except Stop (Option ℕ)
  | _, none => .ok none
  | 0, some _ => .error .endless
  | fuel + 1, some vn =>
    match (ns.node vn).name with
    | none => .error .badPointer
    | some s =>
      if name < s then .ok none
      else if name = s then .ok (some vn)
      else findSorted fuel (ns.links.next vn)

/-- The neighbours `pvn` and `nvn` of a new node with the given name. -/
def insertPoint : ℕ → Option ℕ → Option ℕ → Except Stop (Option ℕ × Option ℕ)
  | _, pvn, none => .ok (pvn, none)
  | 0, _, some _ => .error .endless
  | fuel + 1, pvn, some nvn =>
    match (ns.node nvn).name with
    | none => .error .badPointer
    | some s =>
      if s < name then insertPoint fuel (some nvn) (ns.links.next nvn) else .ok (pvn, some nvn)

/-- The walk from `newdir` to the root that looks for `olddir`. -/
def isBelow (olddir : ℕ) : ℕ → ℕ → Except Stop Bool
  | 0, avn => if avn = ns.root then .ok false else .error .endless
  | fuel + 1, avn =>
    if avn = ns.root then .ok false
    else if (ns.node avn).parent = olddir then .ok true
    else isBelow olddir fuel (ns.node avn).parent

end Walks

section Calls
variable (ns : Nspace)

def setNode (n : ℕ) (v : Vnode) : Nspace := { ns with node := Function.update ns.node n v }

/-- Puts `vn` at its place in the child list of `dir`. -/
def linkIn (dir : ℕ) (name : Name) (vn : ℕ) : Except Stop Nspace :=
  (insertPoint ns name ns.live.card none (ns.head dir)).map fun (pvn, nvn) =>
    let r := putBetween ns.links (ns.head dir) pvn nvn vn
    { ns with links := r.1, head := Function.update ns.head dir r.2 }

/-- Takes `vn` out of the child list of its parent. -/
def linkOut (vn : ℕ) : Nspace :=
  let p := (ns.node vn).parent
  let r := takeOut ns.links (ns.head p) vn
  { ns with links := r.1, head := Function.update ns.head p r.2 }

def createCheck (dir : ℕ) (name : Name) : Except Stop ℤ :=
  if ¬sIsdir (ns.node dir).mode then .ok ENOTDIR
  else if (ns.node dir).removed then .ok ENOENT
  else if name = dot ∨ name = dotdot then .ok EEXIST
  else (findSorted ns name ns.live.card (ns.head dir)).map fun
    | some _ => EEXIST
    | none => 0

/-- The new node is the one at address `vn`. -/
def doCreate (dir : ℕ) (name : Name) (mode : Mode) (vn : ℕ) : Except Stop (ℤ × Nspace) :=
  (createCheck ns dir name).bind fun err =>
    if err ≠ 0 then .ok (err, ns)
    else
      let vnid := toInt64 (ns.nxvnid + 1)
      let ns := setNode { ns with nxvnid := vnid } vn ⟨some name, false, vnid, dir, mode, none⟩
      (linkIn ns dir name vn).map fun ns =>
        (0, { ns with head := Function.update ns.head vn none, live := insert vn ns.live })

def rootfsMkdir (dir : ℕ) (name : Name) (perms : Mode) (vn : ℕ) : Except Stop (ℤ × Nspace) :=
  doCreate ns dir name ((perms &&& ~~~sIfmt) ||| sIfdir) vn

def rootfsSymlink (dir : ℕ) (name path : Name) (vn : ℕ) : Except Stop (ℤ × Nspace) :=
  (doCreate ns dir name sIflnk vn).map fun (err, ns) =>
    if err ≠ 0 then (err, ns) else (0, setNode ns vn { ns.node vn with symlink := some path })

/-- `get_vnode`, `remove_vnode`, the unlinking and `put_vnode`, which succeed. -/
def dropVnode (vn : ℕ) : Nspace :=
  let ns := linkOut { ns with live := ns.live.erase vn } vn
  { ns with links := (ns.links.setNext vn none).setPrev vn none }

def doUnlink (dir : ℕ) (name : Name) (isdir : Bool) : Except Stop (ℤ × Nspace) :=
  if ¬sIsdir (ns.node dir).mode then .ok (ENOTDIR, ns)
  else if name = dotdot ∨ name = dot then .ok (EINVAL, ns)
  else (findName ns name ns.live.card (ns.head dir)).map fun
    | none => (ENOENT, ns)
    | some vn =>
      let v := ns.node vn
      if isdir ∧ v.mode &&& sIfdir = 0 then (ENOTDIR, ns)
      else if ¬isdir ∧ v.mode &&& sIfdir ≠ 0 then (EISDIR, ns)
      else if vn = ns.root then (EBUSY, ns)
      else if sIsdir v.mode ∧ ns.head vn ≠ none then (ENOTEMPTY, ns)
      else (0, setNode (dropVnode ns vn) vn { v with removed := true })

/-- What `rootfs_rename` has found out before it changes anything. -/
inductive Rename where
  | fail (err : ℤ)
  | same
  | move (vn : ℕ) (nvn : Option ℕ)

def renameCheck (olddir : ℕ) (oldname : Name) (newdir : ℕ) (newname : Name) :
    Except Stop Rename :=
  if ¬sIsdir (ns.node olddir).mode ∨ ¬sIsdir (ns.node newdir).mode then .ok (.fail ENOTDIR)
  else if oldname = dot ∨ oldname = dotdot then .ok (.fail EPERM)
  else (findName ns oldname ns.live.card (ns.head olddir)).bind fun
    | none => .ok (.fail ENOENT)
    | some vn =>
      if newname = dot ∨ newname = dotdot then .ok (.fail EPERM)
      else (findName ns newname ns.live.card (ns.head newdir)).bind fun nvn =>
        if nvn = some vn then .ok .same
        else (isBelow ns olddir ns.live.card newdir).map fun
          | true => .fail EINVAL
          | false => .move vn nvn

/-- `strlen (newname) > strlen (vn->name)`. -/
def Longer (vn : ℕ) (newname : Name) : Prop :=
  ((ns.node vn).name.elim 0 List.length) < newname.length

instance (vn : ℕ) (newname : Name) : Decidable (Longer ns vn newname) :=
  inferInstanceAs (Decidable (_ < _))

/-- The `realloc` of the name. When it moves the string, `vn->name` is still the old pointer. -/
def reallocName (vn : ℕ) (newname : Name) (moved : Bool) : Nspace :=
  if Longer ns vn newname ∧ moved then setNode ns vn { ns.node vn with name := none } else ns

def moveNode (vn newdir : ℕ) (newname : Name) : Except Stop (ℤ × Nspace) :=
  (linkIn (linkOut ns vn) newdir newname vn).map fun ns =>
    (0, setNode ns vn { ns.node vn with parent := newdir, name := some newname })

/-- `moved` says whether a `realloc` of the name moves it to other storage. -/
def rootfsRename (olddir : ℕ) (oldname : Name) (newdir : ℕ) (newname : Name) (moved : Bool) :
    Except Stop (ℤ × Nspace) :=
  (renameCheck ns olddir oldname newdir newname).bind fun
    | .fail err => .ok (err, ns)
    | .same => .ok (0, ns)
    | .move vn nvn =>
      let ns := reallocName ns vn newname moved
      match nvn with
      | none => moveNode ns vn newdir newname
      | some nvn =>
        if nvn = ns.root then .ok (EBUSY, ns)
        else if sIsdir (ns.node nvn).mode ∧ ns.head nvn ≠ none then .ok (ENOTEMPTY, ns)
        else moveNode (dropVnode ns nvn) vn newdir newname

/-- The root node is the one at address `root`. -/
def rootfsMount (device parms : Option Name) (len : ℕ) (root : ℕ) : ℤ × Nspace :=
  if device.isSome ∨ parms.isSome ∨ len ≠ 0 then (EINVAL, ns)
  else (0, {
    root := root
    nxvnid := 1
    node := Function.update ns.node root ⟨none, false, 1, root, sIfdir ||| 0o777, none⟩
    links := (ns.links.setPrev root none).setNext root none
    head := Function.update ns.head root none
    live := {root} })

inductive Call where
  | mkdir (dir : ℕ) (name : Name) (perms : Mode) (vn : ℕ)
  | symlink (dir : ℕ) (name path : Name) (vn : ℕ)
  | unlink (dir : ℕ) (name : Name)
  | rmdir (dir : ℕ) (name : Name)
  | rename (olddir : ℕ) (oldname : Name) (newdir : ℕ) (newname : Name) (moved : Bool)

def call : Call → Except Stop (ℤ × Nspace)
  | .mkdir dir name perms vn => rootfsMkdir ns dir name perms vn
  | .symlink dir name path vn => rootfsSymlink ns dir name path vn
  | .unlink dir name => doUnlink ns dir name false
  | .rmdir dir name => doUnlink ns dir name true
  | .rename olddir oldname newdir newname moved =>
    rootfsRename ns olddir oldname newdir newname moved

def next (e : Call) : Nspace :=
  match call ns e with
  | .ok r => r.2
  | .error _ => ns

/-- The directories are live, and `malloc` gives out no storage that is in use. -/
def Allowed : Call → Prop
  | .mkdir dir _ _ vn => dir ∈ ns.live ∧ vn ∉ ns.live
  | .symlink dir _ _ vn => dir ∈ ns.live ∧ vn ∉ ns.live
  | .unlink dir _ => dir ∈ ns.live
  | .rmdir dir _ => dir ∈ ns.live
  | .rename olddir _ newdir _ _ => olddir ∈ ns.live ∧ newdir ∈ ns.live

instance : DecidablePred (Allowed ns)
  | .mkdir _ _ _ _ => inferInstanceAs (Decidable (_ ∧ _))
  | .symlink _ _ _ _ => inferInstanceAs (Decidable (_ ∧ _))
  | .unlink _ _ => inferInstanceAs (Decidable (_ ∈ _))
  | .rmdir _ _ => inferInstanceAs (Decidable (_ ∈ _))
  | .rename _ _ _ _ _ => inferInstanceAs (Decidable (_ ∧ _))

/-- The largest value of a `vnode_id`. -/
def maxVnid : ℤ := 2 ^ 63 - 1

/-- The storage of a name is given back and the call fails behind that: the target of the rename
is a directory with children, and `realloc` moves the name for the longer new one. -/
def LosesName (r : Except Stop Rename) (newname : Name) (moved : Bool) : Prop :=
  match r with
  | .ok (.move vn (some nvn)) =>
    sIsdir (ns.node nvn).mode ∧ ns.head nvn ≠ none ∧ Longer ns vn newname ∧ moved
  | _ => False

instance (r : Except Stop Rename) (newname : Name) (moved : Bool) :
    Decidable (LosesName ns r newname moved) := by
  unfold LosesName
  split <;> infer_instance

/-- A new node finds a vnid, and no rename loses the name of a node. -/
def Intact : Call → Prop
  | .mkdir dir name _ _ => createCheck ns dir name = .ok 0 → ns.nxvnid < maxVnid
  | .symlink dir name _ _ => createCheck ns dir name = .ok 0 → ns.nxvnid < maxVnid
  | .unlink _ _ => True
  | .rmdir _ _ => True
  | .rename olddir oldname newdir newname moved =>
    ¬LosesName ns (renameCheck ns olddir oldname newdir newname) newname moved

end Calls

section Trees
variable {ns ns' : Nspace} {kids : ℕ → List ℕ}

inductive Reaches (parent : ℕ → ℕ) (root : ℕ) : ℕ → Prop where
  | here : Reaches parent root root
  | up {n : ℕ} : Reaches parent root (parent n) → Reaches parent root n

def parentOf (ns : Nspace) (n : ℕ) : ℕ := (ns.node n).parent

/-- The heads of the child lists, of the live nodes only. -/
def headOf (ns : Nspace) (d : ℕ) : Option ℕ := if d ∈ ns.live then ns.head d else none

def Before (ns : Nspace) (a b : ℕ) : Prop :=
  ∃ s t, (ns.node a).name = some s ∧ (ns.node b).name = some t ∧ s < t

/-- The live nodes form a tree, in which `kids d` are the nodes in the child list of `d`. -/
structure IsTree (ns : Nspace) (kids : ℕ → List ℕ) : Prop where
  lists : HeadFamily ns.links (headOf ns) kids
  member : ∀ n, (∃ d, n ∈ kids d) ↔ n ∈ ns.live ∧ n ≠ ns.root
  parent : ∀ d, ∀ c ∈ kids d, parentOf ns c = d
  named : ∀ d, ∀ c ∈ kids d, (ns.node c).name ≠ none
  sorted : ∀ d, (kids d).Pairwise (Before ns)
  reaches : ∀ n ∈ ns.live, Reaches (parentOf ns) ns.root n
  vnids : Set.InjOn (fun n => (ns.node n).vnid) ns.live

def Tree (ns : Nspace) : Prop := ∃ kids, IsTree ns kids

/-- What holds next to `IsTree` between two calls. -/
structure Sound (ns : Nspace) (kids : ℕ → List ℕ) : Prop where
  tree : IsTree ns kids
  root : ns.root ∈ ns.live
  dirs : ∀ d, kids d ≠ [] → d ∈ ns.live ∧ sIsdir (ns.node d).mode
  counter : ∀ n ∈ ns.live, 0 < (ns.node n).vnid ∧ (ns.node n).vnid ≤ ns.nxvnid

theorem Sound.isList (h : Sound ns kids) {d : ℕ} (hd : d ∈ ns.live) :
    IsList ns.links ⟨ns.head d, (kids d).getLast?⟩ (kids d) := by
  have := h.tree.lists.isList d
  rwa [headOf, if_pos hd] at this

theorem Sound.live (h : Sound ns kids) {d c : ℕ} (hc : c ∈ kids d) : c ∈ ns.live :=
  ((h.tree.member c).1 ⟨d, hc⟩).1

theorem Sound.length_le (h : Sound ns kids) {d : ℕ} (hd : d ∈ ns.live) :
    (kids d).length ≤ ns.live.card := by
  rw [← List.toFinset_card_of_nodup (h.isList hd).nodup]
  exact Finset.card_le_card fun c hc => h.live (List.mem_toFinset.mp hc)

/-- A live node other than the root is in the list of its parent, which is live. -/
theorem Sound.mem_parent (h : Sound ns kids) {n : ℕ} (hn : n ∈ ns.live) (hne : n ≠ ns.root) :
    n ∈ kids (parentOf ns n) ∧ parentOf ns n ∈ ns.live := by
  obtain ⟨d, hd⟩ := (h.tree.member n).2 ⟨hn, hne⟩
  rw [h.tree.parent d n hd]
  exact ⟨hd, (h.dirs d (List.ne_nil_of_mem hd)).1⟩

/-- Two nodes of one list with the same name are the same. -/
theorem IsTree.name_inj (h : IsTree ns kids) {d a b : ℕ} (ha : a ∈ kids d) (hb : b ∈ kids d)
    (hname : (ns.node a).name = (ns.node b).name) : a = b := by
  have hnodup : ((kids d).map fun c => (ns.node c).name).Nodup := by
    refine List.pairwise_map.mpr ((h.sorted d).imp ?_)
    rintro x y ⟨s, t, hs, ht, hlt⟩ he
    rw [hs, ht, Option.some.injEq] at he
    exact hlt.ne he
  exact List.inj_on_of_nodup_map hnodup ha hb hname

end Trees

section Walking
variable {ns : Nspace} {name : Name}

theorem findName_linked {p : Option ℕ} {xs : List ℕ} (h : Linked ns.links p xs none)
    (hnamed : ∀ x ∈ xs, (ns.node x).name ≠ none) {fuel : ℕ} (hfuel : xs.length ≤ fuel) :
    findName ns name fuel xs.head? =
      .ok (xs.find? fun x => decide ((ns.node x).name = some name)) := by
  induction xs generalizing p fuel with
  | nil => simp only [List.head?_nil, findName, List.find?_nil]
  | cons x xs ih =>
    obtain ⟨fuel, rfl⟩ := Nat.exists_eq_add_one.mpr (Nat.lt_of_lt_of_le (Nat.succ_pos _) hfuel)
    obtain ⟨s, hs⟩ := Option.ne_none_iff_exists'.mp (hnamed x List.mem_cons_self)
    obtain ⟨_, hnext, hrest⟩ := h
    rw [Option.or_none] at hnext
    simp only [List.head?_cons, findName, hs, List.find?_cons, Option.some.injEq]
    by_cases hsn : s = name
    · simp only [hsn, if_true, decide_true]
    · simp only [hsn, if_false, decide_false]
      rw [hnext]
      exact ih hrest (fun y hy => hnamed y (List.mem_cons_of_mem _ hy))
        (Nat.le_of_succ_le_succ hfuel)

/-- In a sorted list the shorter walk finds the same. -/
theorem findSorted_linked {p : Option ℕ} {xs : List ℕ} (h : Linked ns.links p xs none)
    (hnamed : ∀ x ∈ xs, (ns.node x).name ≠ none) (hsort : xs.Pairwise (Before ns)) {fuel : ℕ}
    (hfuel : xs.length ≤ fuel) :
    findSorted ns name fuel xs.head? =
      .ok (xs.find? fun x => decide ((ns.node x).name = some name)) := by
  induction xs generalizing p fuel with
  | nil => simp only [List.head?_nil, findSorted, List.find?_nil]
  | cons x xs ih =>
    obtain ⟨fuel, rfl⟩ := Nat.exists_eq_add_one.mpr (Nat.lt_of_lt_of_le (Nat.succ_pos _) hfuel)
    obtain ⟨s, hs⟩ := Option.ne_none_iff_exists'.mp (hnamed x List.mem_cons_self)
    obtain ⟨hfirst, hsort⟩ := List.pairwise_cons.mp hsort
    obtain ⟨_, hnext, hrest⟩ := h
    rw [Option.or_none] at hnext
    simp only [List.head?_cons, findSorted, hs]
    by_cases hlt : name < s
    · -- every later name is behind `s`
      rw [if_pos hlt]
      symm
      rw [Except.ok.injEq, List.find?_eq_none]
      intro y hy
      rw [decide_eq_true_eq]
      rcases List.mem_cons.mp hy with rfl | hy
      · rw [hs, Option.some.injEq]
        exact hlt.ne'
      · obtain ⟨s', t, hs', ht, hst⟩ := hfirst y hy
        rw [hs, Option.some.injEq] at hs'
        rw [ht, Option.some.injEq]
        exact (hlt.trans (hs' ▸ hst)).ne'
    · rw [if_neg hlt]
      by_cases hsn : name = s
      · simp only [hsn, if_true, List.find?_cons, hs, decide_true]
      · rw [if_neg hsn, hnext]
        simp only [List.find?_cons, hs, Option.some.injEq, Ne.symm hsn, decide_false]
        exact ih hrest (fun y hy => hnamed y (List.mem_cons_of_mem _ hy)) hsort
          (Nat.le_of_succ_le_succ hfuel)

/-- The walk to the place of a name ends where the smaller names end. -/
theorem insertPoint_linked {p : Option ℕ} {xs : List ℕ} (h : Linked ns.links p xs none)
    (hnamed : ∀ x ∈ xs, (ns.node x).name ≠ none) (pvn : Option ℕ) {fuel : ℕ}
    (hfuel : xs.length ≤ fuel) :
    ∃ as bs, xs = as ++ bs ∧
      insertPoint ns name fuel pvn xs.head? = .ok (as.getLast?.or pvn, bs.head?) ∧
      (∀ a ∈ as, ∃ s, (ns.node a).name = some s ∧ s < name) ∧
      ∀ b, bs.head? = some b → ∃ s, (ns.node b).name = some s ∧ name ≤ s := by
  induction xs generalizing p pvn fuel with
  | nil =>
    exact ⟨[], [], rfl, by simp [insertPoint], by simp, by simp⟩
  | cons x xs ih =>
    obtain ⟨fuel, rfl⟩ := Nat.exists_eq_add_one.mpr (Nat.lt_of_lt_of_le (Nat.succ_pos _) hfuel)
    obtain ⟨s, hs⟩ := Option.ne_none_iff_exists'.mp (hnamed x List.mem_cons_self)
    obtain ⟨_, hnext, hrest⟩ := h
    rw [Option.or_none] at hnext
    simp only [List.head?_cons, insertPoint, hs]
    by_cases hlt : s < name
    · obtain ⟨as, bs, hsplit, hpoint, has, hbs⟩ := ih hrest
        (fun y hy => hnamed y (List.mem_cons_of_mem _ hy)) (some x) (Nat.le_of_succ_le_succ hfuel)
      refine ⟨x :: as, bs, by rw [hsplit]; rfl, ?_, ?_, hbs⟩
      · rw [if_pos hlt, hnext, hpoint]
        rw [List.getLast?_cons]
        cases as.getLast? <;> rfl
      · rintro a ha
        rcases List.mem_cons.mp ha with rfl | ha
        · exact ⟨s, hs, hlt⟩
        · exact has a ha
    · refine ⟨[], x :: xs, rfl, ?_, by simp, ?_⟩
      · rw [if_neg hlt]
        rfl
      · rintro b hb
        obtain rfl : x = b := by simpa using hb
        exact ⟨s, hs, not_lt.mp hlt⟩

end Walking

section Linking
variable {ns : Nspace} {kids : ℕ → List ℕ} {vn : ℕ}

theorem headOf_update {dir : ℕ} (hdir : dir ∈ ns.live) (links : Links ℕ) (v : Option ℕ) :
    headOf { ns with links := links, head := Function.update ns.head dir v } =
      Function.update (headOf ns) dir v := by
  funext d
  unfold headOf
  dsimp only
  by_cases hd : d = dir
  · subst hd
    rw [Function.update_self, Function.update_self, if_pos hdir]
  · rw [Function.update_of_ne hd, Function.update_of_ne hd]

/-- What `linkIn` does to the lists: the new node stands behind the smaller names. -/
theorem linkIn_spec {dir : ℕ} {name : Name} (hf : HeadFamily ns.links (headOf ns) kids)
    (hdir : dir ∈ ns.live) (hnamed : ∀ x ∈ kids dir, (ns.node x).name ≠ none)
    (hlen : (kids dir).length ≤ ns.live.card) (hout : ∀ d, vn ∉ kids d) :
    ∃ as bs links v, kids dir = as ++ bs ∧
      linkIn ns dir name vn =
        .ok { ns with links := links, head := Function.update ns.head dir v } ∧
      HeadFamily links (Function.update (headOf ns) dir v)
        (Function.update kids dir (as ++ vn :: bs)) ∧
      (∀ a ∈ as, ∃ s, (ns.node a).name = some s ∧ s < name) ∧
      ∀ b, bs.head? = some b → ∃ s, (ns.node b).name = some s ∧ name ≤ s := by
  have hlist := hf.isList dir
  have hhead : ns.head dir = (kids dir).head? := by
    rw [← hlist.head, headOf, if_pos hdir]
  obtain ⟨as, bs, hsplit, hpoint, has, hbs⟩ := insertPoint_linked hlist.linked hnamed none hlen
  rw [Option.or_none] at hpoint
  refine ⟨as, bs, (putBetween ns.links (ns.head dir) as.getLast? bs.head? vn).1,
    (putBetween ns.links (ns.head dir) as.getLast? bs.head? vn).2, hsplit, ?_, ?_, has, hbs⟩
  · unfold linkIn
    rw [hhead, hpoint]
    rfl
  · have := hf.putBetween hsplit hout
    rwa [headOf, if_pos hdir] at this

theorem linkOut_spec (ns : Nspace) {p : ℕ} (hf : HeadFamily ns.links (headOf ns) kids)
    (hp : p ∈ ns.live)
    (hparent : parentOf ns vn = p) (hmem : vn ∈ kids p) :
    HeadFamily (linkOut ns vn).links (headOf (linkOut ns vn))
      (Function.update kids p ((kids p).erase vn)) := by
  have := hf.takeOut hmem
  unfold linkOut
  rw [show (ns.node vn).parent = p from hparent, headOf_update hp]
  rwa [headOf, if_pos hp] at this

/-- A node without children leaves the tree. -/
theorem dropVnode_spec {p : ℕ} (hf : HeadFamily ns.links (headOf ns) kids) (hp : p ∈ ns.live)
    (hparent : parentOf ns vn = p) (hmem : vn ∈ kids p) (hleaf : kids vn = []) :
    HeadFamily (dropVnode ns vn).links (headOf (dropVnode ns vn))
      (Function.update kids p ((kids p).erase vn)) := by
  have hne : p ≠ vn := by
    rintro rfl
    rw [hleaf] at hmem
    exact List.not_mem_nil hmem
  have hhead : headOf { ns with live := ns.live.erase vn } = headOf ns := by
    funext d
    unfold headOf
    by_cases hd : d = vn
    · subst hd
      have := (hf.isList d).head
      rw [hleaf, headOf] at this
      rw [if_neg (Finset.notMem_erase d ns.live)]
      exact this.symm
    · simp only [Finset.mem_erase, ne_eq, hd, not_false_eq_true, true_and]
  have hlinked := linkOut_spec { ns with live := ns.live.erase vn } (by rw [hhead]; exact hf)
    (Finset.mem_erase.mpr ⟨hne, hp⟩) hparent hmem
  refine hlinked.congr fun d x hx => ?_
  have hxv : x ≠ vn := by
    rintro rfl
    by_cases hd : d = p
    · subst hd
      rw [Function.update_self] at hx
      exact (hf.isList d).nodup.not_mem_erase hx
    · rw [Function.update_of_ne hd] at hx
      exact hd (hf.apart hx hmem)
  unfold dropVnode
  simp only [Links.setPrev_next, Links.setNext_next, Links.setPrev_prev, Links.setNext_prev, hxv,
    if_false, and_self]

end Linking

section Ancestors
variable {parent : ℕ → ℕ} {root n : ℕ}

theorem Reaches.steps (h : Reaches parent root n) : ∃ k, parent^[k] n = root := by
  induction h with
  | here => exact ⟨0, rfl⟩
  | up _ ih =>
    obtain ⟨k, hk⟩ := ih
    exact ⟨k + 1, hk⟩

/-- The walk to the root passes through each node of a set it stays in at most once. -/
theorem Reaches.steps_lt {s : Finset ℕ} (h : Reaches parent root n) (hn : n ∈ s)
    (hclosed : ∀ m ∈ s, m ≠ root → parent m ∈ s) : ∃ k < s.card, parent^[k] n = root := by
  classical
  have hex := h.steps
  have hmin : ∀ j < Nat.find hex, parent^[j] n ≠ root := fun j hj => Nat.find_min hex hj
  have hin : ∀ j ≤ Nat.find hex, parent^[j] n ∈ s := by
    intro j
    induction j with
    | zero => exact fun _ => hn
    | succ j ih =>
      intro hj
      rw [Function.iterate_succ_apply']
      exact hclosed _ (ih (by omega)) (hmin j (by omega))
  refine ⟨Nat.find hex, ?_, Nat.find_spec hex⟩
  have hinj : Set.InjOn (fun j => parent^[j] n) (Finset.range (Nat.find hex + 1)) := by
    have hlt : ∀ i j, i < j → j ≤ Nat.find hex → parent^[i] n ≠ parent^[j] n := by
      -- a node met twice would give a shorter way to the root
      intro i j hij hj he
      refine hmin (Nat.find hex - j + i) (by omega) ?_
      rw [Function.iterate_add_apply, he, ← Function.iterate_add_apply,
        show Nat.find hex - j + j = Nat.find hex by omega]
      exact Nat.find_spec hex
    intro i hi j hj he
    simp only [Finset.coe_range, Set.mem_Iio] at hi hj
    rcases lt_trichotomy i j with hij | hij | hij
    · exact absurd he (hlt i j hij (by omega))
    · exact hij
    · exact absurd he.symm (hlt j i hij (by omega))
  have hcard := Finset.card_le_card_of_injOn _ (s := Finset.range (Nat.find hex + 1)) (t := s)
    (fun j hj => hin j (by simp only [Finset.coe_range, Set.mem_Iio] at hj; omega)) hinj
  rw [Finset.card_range] at hcard
  omega

/-- Only the parents on the way matter. -/
theorem Reaches.congr {parent' : ℕ → ℕ} {s : Finset ℕ} (h : Reaches parent root n) (hn : n ∈ s)
    (hclosed : ∀ m ∈ s, m ≠ root → parent m ∈ s) (hsame : ∀ m ∈ s, parent' m = parent m) :
    Reaches parent' root n := by
  induction h with
  | here => exact .here
  | @up m _ ih =>
    by_cases hm : m = root
    · rw [hm]
      exact .here
    · refine .up ?_
      rw [hsame m hn]
      exact ih (hclosed m hn hm)

/-- The way from `n` to the root does not pass through `x`. -/
inductive Avoids (parent : ℕ → ℕ) (root x : ℕ) : ℕ → Prop where
  | here : root ≠ x → Avoids parent root x root
  | up {n : ℕ} : n ≠ x → Avoids parent root x (parent n) → Avoids parent root x n

/-- A node that avoids `x` still reaches the root when `x` gets another parent. -/
theorem Avoids.reaches {x d : ℕ} (h : Avoids parent root x n) :
    Reaches (Function.update parent x d) root n := by
  induction h with
  | here => exact .here
  | up hne _ ih =>
    refine .up ?_
    rwa [Function.update_of_ne hne]

theorem Reaches.move {x d : ℕ} (h : Reaches parent root n) (hd : Avoids parent root x d) :
    Reaches (Function.update parent x d) root n := by
  induction h with
  | here => exact .here
  | @up m _ ih =>
    refine .up ?_
    by_cases hm : m = x
    · rw [hm, Function.update_self]
      exact hd.reaches
    · rwa [Function.update_of_ne hm]

end Ancestors

section Climbing
variable {ns : Nspace} {olddir : ℕ}

theorem isBelow_of_steps (olddir k : ℕ) : ∀ {fuel n : ℕ}, k ≤ fuel → (parentOf ns)^[k] n = ns.root →
    ∃ b, isBelow ns olddir fuel n = .ok b := by
  induction k with
  | zero =>
    rintro fuel n _ rfl
    cases fuel <;> exact ⟨false, if_pos rfl⟩
  | succ k ih =>
    intro fuel n hle hk
    obtain ⟨fuel, rfl⟩ := Nat.exists_eq_add_one.mpr (Nat.lt_of_lt_of_le (Nat.succ_pos k) hle)
    unfold isBelow
    split
    · exact ⟨false, rfl⟩
    · split
      · exact ⟨true, rfl⟩
      · exact ih (Nat.le_of_succ_le_succ hle) hk

/-- When the walk does not meet the parent of `x`, it does not pass through `x`. -/
theorem avoids_of_isBelow {x : ℕ} (hx : ns.root ≠ x) (hparent : parentOf ns x = olddir) :
    ∀ {fuel n : ℕ}, isBelow ns olddir fuel n = .ok false → Avoids (parentOf ns) ns.root x n := by
  intro fuel
  induction fuel with
  | zero =>
    intro n h
    unfold isBelow at h
    split at h
    · rename_i hroot
      rw [hroot]
      exact .here hx
    · cases h
  | succ fuel ih =>
    intro n h
    unfold isBelow at h
    split at h
    · rename_i hroot
      rw [hroot]
      exact .here hx
    · split at h
      · cases h
      · rename_i hne
        refine .up ?_ (ih h)
        rintro rfl
        exact hne hparent

end Climbing

section Lists
variable {ns : Nspace} {kids : ℕ → List ℕ} {vn : ℕ}

theorem mem_insert_kids (vn : ℕ) {dir : ℕ} {as bs : List ℕ} (hsplit : kids dir = as ++ bs)
    (c d : ℕ) :
    c ∈ Function.update kids dir (as ++ vn :: bs) d ↔ (c = vn ∧ d = dir) ∨ c ∈ kids d := by
  by_cases hd : d = dir
  · subst hd
    rw [Function.update_self, hsplit]
    simp only [List.mem_append, List.mem_cons, and_true]
    tauto
  · rw [Function.update_of_ne hd]
    simp only [hd, and_false, false_or]

theorem IsTree.mem_erase_kids (h : IsTree ns kids) {p : ℕ} (hmem : vn ∈ kids p) (c d : ℕ) :
    c ∈ Function.update kids p ((kids p).erase vn) d ↔ c ≠ vn ∧ c ∈ kids d := by
  by_cases hd : d = p
  · subst hd
    rw [Function.update_self]
    exact (h.lists.isList d).nodup.mem_erase_iff
  · rw [Function.update_of_ne hd]
    refine ⟨fun hc => ⟨?_, hc⟩, fun hc => hc.2⟩
    rintro rfl
    exact hd (h.lists.apart hc hmem)

theorem pairwise_erase {R : ℕ → ℕ → Prop} (hsort : ∀ d, (kids d).Pairwise R) (p d : ℕ) :
    (Function.update kids p ((kids p).erase vn) d).Pairwise R := by
  by_cases hd : d = p
  · subst hd
    rw [Function.update_self]
    exact (hsort d).sublist List.erase_sublist
  · rw [Function.update_of_ne hd]
    exact hsort d

/-- A name that is not in the list yet gets its place in the order. -/
theorem pairwise_insert {as bs : List ℕ} {name : Name} (hsort : (as ++ bs).Pairwise (Before ns))
    (hvn : (ns.node vn).name = some name)
    (has : ∀ a ∈ as, ∃ s, (ns.node a).name = some s ∧ s < name)
    (hbs : ∀ b, bs.head? = some b → ∃ s, (ns.node b).name = some s ∧ name ≤ s)
    (hfresh : ∀ b ∈ bs, (ns.node b).name ≠ some name) :
    (as ++ vn :: bs).Pairwise (Before ns) := by
  obtain ⟨hsas, hsbs, hcross⟩ := List.pairwise_append.mp hsort
  have hbehind : ∀ b ∈ bs, Before ns vn b := by
    cases bs with
    | nil => simp
    | cons b bs =>
      obtain ⟨s, hs, hle⟩ := hbs b rfl
      have hlt : name < s := lt_of_le_of_ne hle fun he =>
        hfresh b List.mem_cons_self (by rw [hs, he])
      intro c hc
      rcases List.mem_cons.mp hc with rfl | hc
      · exact ⟨name, s, hvn, hs, hlt⟩
      · obtain ⟨s', t, hs', ht, hst⟩ := (List.pairwise_cons.mp hsbs).1 c hc
        rw [hs, Option.some.injEq] at hs'
        exact ⟨name, t, hvn, ht, hlt.trans (hs' ▸ hst)⟩
  refine List.pairwise_append.mpr ⟨hsas, List.pairwise_cons.mpr ⟨hbehind, hsbs⟩,
    fun a ha b hb => ?_⟩
  rcases List.mem_cons.mp hb with rfl | hb
  · obtain ⟨s, hs, hlt⟩ := has a ha
    exact ⟨s, name, hs, hvn, hlt⟩
  · exact hcross a ha b hb

theorem before_congr {ns' : Nspace} {xs : List ℕ} (h : xs.Pairwise (Before ns))
    (hsame : ∀ x ∈ xs, (ns'.node x).name = (ns.node x).name) : xs.Pairwise (Before ns') := by
  refine h.imp_of_mem fun {a b} ha hb hab => ?_
  unfold Before
  rw [hsame a ha, hsame b hb]
  exact hab

/-- The child that a walk over the list of `dir` finds. -/
theorem Sound.findName_spec (h : Sound ns kids) {dir : ℕ} (hdir : dir ∈ ns.live) (name : Name) :
    ∃ o, findName ns name ns.live.card (ns.head dir) = .ok o ∧
      (∀ vn, o = some vn → vn ∈ kids dir ∧ (ns.node vn).name = some name) ∧
      (o = none → ∀ c ∈ kids dir, (ns.node c).name ≠ some name) := by
  have hlist := h.isList hdir
  refine ⟨(kids dir).find? fun x => decide ((ns.node x).name = some name), ?_, fun vn hvn => ?_,
    fun hnone c hc => ?_⟩
  · rw [show ns.head dir = _ from hlist.head]
    exact findName_linked hlist.linked (h.tree.named dir) (h.length_le hdir)
  · exact ⟨List.mem_of_find?_eq_some hvn, by simpa using List.find?_some hvn⟩
  · simpa using List.find?_eq_none.mp hnone c hc

theorem Sound.createCheck_spec (h : Sound ns kids) {dir : ℕ} (hdir : dir ∈ ns.live) (name : Name) :
    ∃ err, createCheck ns dir name = .ok err ∧
      (err = 0 → sIsdir (ns.node dir).mode ∧ ∀ c ∈ kids dir, (ns.node c).name ≠ some name) := by
  unfold createCheck
  split
  · exact ⟨ENOTDIR, rfl, fun h0 => absurd h0 (by decide)⟩
  rename_i hisdir
  split
  · exact ⟨ENOENT, rfl, fun h0 => absurd h0 (by decide)⟩
  split
  · exact ⟨EEXIST, rfl, fun h0 => absurd h0 (by decide)⟩
  have hlist := h.isList hdir
  rw [show ns.head dir = _ from hlist.head,
    findSorted_linked hlist.linked (h.tree.named dir) (h.tree.sorted dir) (h.length_le hdir)]
  cases hfind : (kids dir).find? fun x => decide ((ns.node x).name = some name) with
  | some c => exact ⟨EEXIST, rfl, fun h0 => absurd h0 (by decide)⟩
  | none =>
    refine ⟨0, rfl, fun _ => ⟨not_not.mp hisdir, fun c hc => ?_⟩⟩
    simpa using List.find?_eq_none.mp hfind c hc

end Lists

section Steps
variable {ns : Nspace} {kids : ℕ → List ℕ} {vn : ℕ}

theorem Sound.closed (h : Sound ns kids) : ∀ m ∈ ns.live, m ≠ ns.root → parentOf ns m ∈ ns.live :=
  fun _ hm hne => (h.mem_parent hm hne).2

/-- Node data that the tree does not depend on may change. -/
theorem Sound.setNode (h : Sound ns kids) {v : Vnode}
    (hv : vn ∈ ns.live → v.name = (ns.node vn).name ∧ v.vnid = (ns.node vn).vnid ∧
      v.parent = (ns.node vn).parent ∧ v.mode = (ns.node vn).mode) :
    Sound (setNode ns vn v) kids := by
  have hsame : ∀ n ∈ ns.live, ((RootfsTree.setNode ns vn v).node n).name = (ns.node n).name ∧
      ((RootfsTree.setNode ns vn v).node n).vnid = (ns.node n).vnid ∧
      ((RootfsTree.setNode ns vn v).node n).parent = (ns.node n).parent ∧
      ((RootfsTree.setNode ns vn v).node n).mode = (ns.node n).mode := by
    intro n hn
    unfold RootfsTree.setNode
    by_cases hne : n = vn
    · subst hne
      simpa only [Function.update_self] using hv hn
    · simp only [Function.update_of_ne hne, and_self]
  have hkid : ∀ {d c}, c ∈ kids d → c ∈ ns.live := h.live
  refine ⟨⟨h.tree.lists, h.tree.member, fun d c hc => ?_, fun d c hc => ?_, fun d => ?_,
    fun n hn => ?_, fun a ha b hb he => ?_⟩, h.root, fun d hd => ?_, fun n hn => ?_⟩
  · exact (hsame c (hkid hc)).2.2.1.trans (h.tree.parent d c hc)
  · rw [(hsame c (hkid hc)).1]
    exact h.tree.named d c hc
  · exact before_congr (h.tree.sorted d) fun x hx => (hsame x (hkid hx)).1
  · exact (h.tree.reaches n hn).congr hn h.closed fun m hm => (hsame m hm).2.2.1
  · refine h.tree.vnids ha hb ?_
    dsimp only at he ⊢
    rwa [(hsame a ha).2.1, (hsame b hb).2.1] at he
  · obtain ⟨hlive, hdir⟩ := h.dirs d hd
    refine ⟨hlive, ?_⟩
    rw [(hsame d hlive).2.2.2]
    exact hdir
  · rw [(hsame n hn).2.1]
    exact h.counter n hn

/-- A node without children leaves its list. -/
theorem Sound.dropVnode (h : Sound ns kids) {p : ℕ} (hmem : vn ∈ kids p) (hleaf : kids vn = []) :
    Sound (dropVnode ns vn) (Function.update kids p ((kids p).erase vn)) := by
  have hparent := h.tree.parent p vn hmem
  have hp := (h.dirs p (List.ne_nil_of_mem hmem)).1
  have hmem' := h.tree.mem_erase_kids hmem
  have hroot : ns.root ≠ vn := fun he => ((h.tree.member vn).1 ⟨p, hmem⟩).2 he.symm
  have hin : ∀ {n}, n ∈ (RootfsTree.dropVnode ns vn).live ↔ n ≠ vn ∧ n ∈ ns.live := Finset.mem_erase
  refine ⟨⟨dropVnode_spec h.tree.lists hp hparent hmem hleaf, fun n => ?_, fun d c hc => ?_,
    fun d c hc => ?_, pairwise_erase h.tree.sorted p, fun n hn => ?_, ?_⟩, ?_, fun d hd => ?_,
    fun n hn => ?_⟩
  · simp only [hmem', hin, exists_and_left, h.tree.member n, and_assoc]
    rfl
  · exact h.tree.parent d c ((hmem' c d).1 hc).2
  · exact h.tree.named d c ((hmem' c d).1 hc).2
  · exact h.tree.reaches n (hin.1 hn).2
  · exact h.tree.vnids.mono fun n hn => (hin.1 hn).2
  · exact hin.2 ⟨hroot, h.root⟩
  · obtain ⟨c, hc⟩ := List.exists_mem_of_ne_nil _ hd
    have hcd := ((hmem' c d).1 hc).2
    obtain ⟨hlive, hdir⟩ := h.dirs d (List.ne_nil_of_mem hcd)
    refine ⟨hin.2 ⟨?_, hlive⟩, hdir⟩
    rintro rfl
    rw [hleaf] at hcd
    exact List.not_mem_nil hcd
  · exact h.counter n (hin.1 hn).2

theorem toInt64_succ {x : ℤ} (h₀ : 0 ≤ x) (h : x < maxVnid) : toInt64 (x + 1) = x + 1 := by
  unfold maxVnid at h
  unfold toInt64
  rw [Int.bmod_eq_of_le] <;> omega

/-- The tree without the node `vn`, which is live but in no list. -/
structure Detached (ns : Nspace) (vn : ℕ) (kids : ℕ → List ℕ) : Prop where
  root : ns.root ∈ ns.live
  live : vn ∈ ns.live ∧ vn ≠ ns.root
  member : ∀ n, (∃ d, n ∈ kids d) ↔ n ∈ ns.live ∧ n ≠ ns.root ∧ n ≠ vn
  parent : ∀ d, ∀ c ∈ kids d, parentOf ns c = d
  named : ∀ d, ∀ c ∈ kids d, (ns.node c).name ≠ none
  sorted : ∀ d, (kids d).Pairwise (Before ns)
  reaches : ∀ n ∈ ns.live, Reaches (parentOf ns) ns.root n
  vnids : Set.InjOn (fun n => (ns.node n).vnid) ns.live
  dirs : ∀ d, kids d ≠ [] → d ∈ ns.live ∧ sIsdir (ns.node d).mode
  counter : ∀ n ∈ ns.live, 0 < (ns.node n).vnid ∧ (ns.node n).vnid ≤ ns.nxvnid

/-- The node gets its place in the list of its parent. -/
theorem Detached.attach (h : Detached ns vn kids) {dir : ℕ} {name : Name} {as bs : List ℕ}
    (hname : (ns.node vn).name = some name) (hparent : parentOf ns vn = dir)
    (hsplit : kids dir = as ++ bs) (hdir : dir ∈ ns.live ∧ sIsdir (ns.node dir).mode)
    (hlists : HeadFamily ns.links (headOf ns) (Function.update kids dir (as ++ vn :: bs)))
    (has : ∀ a ∈ as, ∃ s, (ns.node a).name = some s ∧ s < name)
    (hbs : ∀ b, bs.head? = some b → ∃ s, (ns.node b).name = some s ∧ name ≤ s)
    (hfresh : ∀ c ∈ kids dir, (ns.node c).name ≠ some name) :
    Sound ns (Function.update kids dir (as ++ vn :: bs)) := by
  have hmem := mem_insert_kids vn hsplit
  refine ⟨⟨hlists, fun n => ?_, fun d c hc => ?_, fun d c hc => ?_, fun d => ?_, h.reaches,
    h.vnids⟩, h.root, fun d hd => ?_, h.counter⟩
  · simp only [hmem, exists_or, exists_and_left, exists_eq, and_true, h.member n]
    by_cases hn : n = vn
    · subst hn
      simp only [true_or, true_iff]
      exact h.live
    · simp only [hn, false_or, ne_eq, not_false_eq_true, and_true]
  · rcases (hmem c d).1 hc with ⟨rfl, rfl⟩ | hc
    · exact hparent
    · exact h.parent d c hc
  · rcases (hmem c d).1 hc with ⟨rfl, rfl⟩ | hc
    · rw [hname]
      exact Option.some_ne_none name
    · exact h.named d c hc
  · by_cases hd : d = dir
    · rw [hd, Function.update_self]
      refine pairwise_insert (hsplit ▸ h.sorted _) hname has hbs fun b hb => hfresh b ?_
      rw [hsplit]
      exact List.mem_append_right as hb
    · rw [Function.update_of_ne hd]
      exact h.sorted d
  · by_cases hdp : d = dir
    · rw [hdp]
      exact hdir
    · rw [Function.update_of_ne hdp] at hd
      exact h.dirs d hd

/-- A node that was not live gets the next vnid and a live parent. -/
theorem Sound.plant {ns' : Nspace} (h : Sound ns kids) (hvn : vn ∉ ns.live)
    (hlive : ns'.live = insert vn ns.live) (hroot : ns'.root = ns.root)
    (hnode : ∀ n ∈ ns.live, ns'.node n = ns.node n) (hnx : ns'.nxvnid = ns.nxvnid + 1)
    (hid : (ns'.node vn).vnid = ns.nxvnid + 1) (hparent : parentOf ns' vn ∈ ns.live) :
    Detached ns' vn kids := by
  have hne : ∀ {n}, n ∈ ns.live → n ≠ vn := fun hn he => hvn (he ▸ hn)
  have hin : ∀ {n}, n ∈ ns'.live ↔ n = vn ∨ n ∈ ns.live := by
    intro n
    rw [hlive]
    exact Finset.mem_insert
  have hsame : ∀ n ∈ ns.live, parentOf ns' n = parentOf ns n := fun n hn => by
    unfold parentOf
    rw [hnode n hn]
  have hold : ∀ n ∈ ns.live, Reaches (parentOf ns') ns'.root n := fun n hn => by
    rw [hroot]
    exact (h.tree.reaches n hn).congr hn h.closed hsame
  refine ⟨?_, ?_, fun n => ?_, fun d c hc => ?_, fun d c hc => ?_, fun d => ?_, fun n hn => ?_, ?_,
    fun d hd => ?_, fun n hn => ?_⟩
  · rw [hroot]
    exact hin.2 (.inr h.root)
  · refine ⟨hin.2 (.inl rfl), ?_⟩
    rw [hroot]
    exact (hne h.root).symm
  · rw [h.tree.member n, hin, hroot]
    constructor
    · rintro ⟨hn, hr⟩
      exact ⟨.inr hn, hr, hne hn⟩
    · rintro ⟨hn, hr, hv⟩
      exact ⟨hn.resolve_left hv, hr⟩
  · rw [hsame c (h.live hc)]
    exact h.tree.parent d c hc
  · rw [hnode c (h.live hc)]
    exact h.tree.named d c hc
  · exact before_congr (h.tree.sorted d) fun x hx => by rw [hnode x (h.live hx)]
  · rcases hin.1 hn with rfl | hn
    · exact .up (hold _ hparent)
    · exact hold n hn
  · -- the new vnid is above all others
    have hlt : ∀ n ∈ ns.live, (ns'.node n).vnid ≠ (ns'.node vn).vnid := fun n hn he => by
      have := (h.counter n hn).2
      rw [hnode n hn, hid] at he
      omega
    intro a ha b hb he
    rcases hin.1 ha with rfl | ha
    · rcases hin.1 hb with rfl | hb
      · rfl
      · exact absurd he.symm (hlt b hb)
    · rcases hin.1 hb with rfl | hb
      · exact absurd he (hlt a ha)
      · refine h.tree.vnids ha hb ?_
        dsimp only at he ⊢
        rwa [hnode a ha, hnode b hb] at he
  · obtain ⟨hd, hdir⟩ := h.dirs d hd
    rw [hnode d hd]
    exact ⟨hin.2 (.inr hd), hdir⟩
  · rw [hnx]
    rcases hin.1 hn with rfl | hn
    · have := h.counter _ h.root
      omega
    · have := h.counter n hn
      rw [hnode n hn]
      omega

/-- A new node takes its place among the children of `dir`. -/
theorem Sound.doCreate (h : Sound ns kids) {dir : ℕ} {name : Name} (mode : Mode)
    (hdir : dir ∈ ns.live) (hvn : vn ∉ ns.live)
    (hroom : createCheck ns dir name = .ok 0 → ns.nxvnid < maxVnid) :
    ∃ r, doCreate ns dir name mode vn = .ok r ∧ ∃ kids', Sound r.2 kids' := by
  obtain ⟨err, hcheck, hok⟩ := h.createCheck_spec hdir name
  unfold RootfsTree.doCreate
  rw [hcheck]
  dsimp only [Except.bind]
  by_cases herr : err = 0
  swap
  · rw [if_pos herr]
    exact ⟨_, rfl, kids, h⟩
  subst herr
  obtain ⟨hisdir, hfresh⟩ := hok rfl
  have hnx : 0 ≤ ns.nxvnid := by
    have := h.counter _ h.root
    omega
  rw [if_neg (by decide), toInt64_succ hnx (hroom hcheck)]
  have hne : ∀ {n}, n ∈ ns.live → n ≠ vn := fun hn he => hvn (he ▸ hn)
  generalize hns₁ : RootfsTree.setNode { ns with nxvnid := ns.nxvnid + 1 } vn
    ⟨some name, false, ns.nxvnid + 1, dir, mode, none⟩ = ns₁
  have hlive : ns₁.live = ns.live := by rw [← hns₁]; rfl
  have hroot : ns₁.root = ns.root := by rw [← hns₁]; rfl
  have hnext : ns₁.nxvnid = ns.nxvnid + 1 := by rw [← hns₁]; rfl
  have hnode : ∀ n ∈ ns.live, ns₁.node n = ns.node n := fun n hn => by
    rw [← hns₁]
    exact Function.update_of_ne (hne hn) _ _
  have hnew : ns₁.node vn = ⟨some name, false, ns.nxvnid + 1, dir, mode, none⟩ := by
    rw [← hns₁]
    exact Function.update_self ..
  have hlists : HeadFamily ns₁.links (headOf ns₁) kids := by
    rw [← hns₁]
    exact h.tree.lists
  obtain ⟨as, bs, links, v, hsplit, hlink, hlists', has, hbs⟩ := linkIn_spec hlists
    (by rw [hlive]; exact hdir)
    (fun x hx => by rw [hnode x (h.live hx)]; exact h.tree.named dir x hx)
    (by rw [hlive]; exact h.length_le hdir) fun d hm => hvn (h.live hm)
  rw [hlink]
  refine ⟨_, rfl, Function.update kids dir (as ++ vn :: bs), ?_⟩
  have hhead : headOf { ns₁ with
      links := links
      head := Function.update (Function.update ns₁.head dir v) vn none
      live := insert vn ns₁.live } = Function.update (headOf ns₁) dir v := by
    rw [← headOf_update (hlive.symm ▸ hdir) links v]
    funext d
    unfold headOf
    by_cases hd : d = vn
    · subst hd
      rw [if_pos (Finset.mem_insert_self _ _), if_neg (by rwa [hlive])]
      exact Function.update_self ..
    · simp only [Finset.mem_insert, hd, false_or, Function.update_of_ne hd]
  have hdet : Detached { ns₁ with
      links := links
      head := Function.update (Function.update ns₁.head dir v) vn none
      live := insert vn ns₁.live } vn kids :=
    h.plant hvn (by rw [← hlive]) hroot hnode hnext (by rw [hnew])
      (by unfold parentOf; rw [hnew]; exact hdir)
  refine hdet.attach (by rw [hnew]) (by unfold parentOf; rw [hnew]) hsplit ⟨?_, ?_⟩ ?_ has hbs ?_
  · rw [hlive]
    exact Finset.mem_insert_of_mem hdir
  · rw [hnode dir hdir]
    exact hisdir
  · rw [hhead]
    exact hlists'
  · intro c hc
    rw [hnode c (h.live hc)]
    exact hfresh c hc

/-- A node that is taken out of its list gets another parent that is not below it. -/
theorem Sound.detach {ns' : Nspace} (h : Sound ns kids) {p newdir : ℕ} (hmem : vn ∈ kids p)
    (havoid : Avoids (parentOf ns) ns.root vn newdir) (hlive : ns'.live = ns.live)
    (hroot : ns'.root = ns.root) (hnx : ns'.nxvnid = ns.nxvnid)
    (hnode : ∀ n, n ≠ vn → ns'.node n = ns.node n)
    (hvn : parentOf ns' vn = newdir ∧ (ns'.node vn).vnid = (ns.node vn).vnid ∧
      (ns'.node vn).mode = (ns.node vn).mode) :
    Detached ns' vn (Function.update kids p ((kids p).erase vn)) := by
  have hmem' := h.tree.mem_erase_kids hmem
  have hparent : parentOf ns' = Function.update (parentOf ns) vn newdir := by
    funext n
    by_cases hn : n = vn
    · rw [hn, Function.update_self]
      exact hvn.1
    · rw [Function.update_of_ne hn]
      unfold parentOf
      rw [hnode n hn]
  have hid : ∀ n, (ns'.node n).vnid = (ns.node n).vnid ∧ (ns'.node n).mode = (ns.node n).mode := by
    intro n
    by_cases hn : n = vn
    · rw [hn]
      exact hvn.2
    · rw [hnode n hn]
      exact ⟨rfl, rfl⟩
  refine ⟨?_, ?_, fun n => ?_, fun d c hc => ?_, fun d c hc => ?_, fun d => ?_, fun n hn => ?_, ?_,
    fun d hd => ?_, fun n hn => ?_⟩
  · rw [hroot, hlive]
    exact h.root
  · rw [hroot, hlive]
    exact (h.tree.member vn).1 ⟨p, hmem⟩
  · simp only [hmem', exists_and_left, h.tree.member n, hlive, hroot]
    tauto
  · obtain ⟨hne, hc⟩ := (hmem' c d).1 hc
    rw [hparent, Function.update_of_ne hne]
    exact h.tree.parent d c hc
  · obtain ⟨hne, hc⟩ := (hmem' c d).1 hc
    rw [hnode c hne]
    exact h.tree.named d c hc
  · refine before_congr (pairwise_erase h.tree.sorted p d) fun x hx => ?_
    rw [hnode x ((hmem' x d).1 hx).1]
  · rw [hparent, hroot]
    rw [hlive] at hn
    exact (h.tree.reaches n hn).move havoid
  · simp only [hid, hlive]
    exact h.tree.vnids
  · obtain ⟨c, hc⟩ := List.exists_mem_of_ne_nil _ hd
    rw [hlive, (hid d).2]
    exact h.dirs d (List.ne_nil_of_mem ((hmem' c d).1 hc).2)
  · rw [(hid n).1, hnx]
    exact h.counter n (hlive ▸ hn)

/-- The move of `vn` to `newdir`, whatever is left of its old name. -/
theorem Sound.moveNode (h : Sound ns kids) {olddir newdir : ℕ} {newname : Name}
    (hmem : vn ∈ kids olddir) (hdir : newdir ∈ ns.live) (hisdir : sIsdir (ns.node newdir).mode)
    (havoid : Avoids (parentOf ns) ns.root vn newdir)
    (hfresh : ∀ c ∈ kids newdir, c ≠ vn → (ns.node c).name ≠ some newname) (old : Option Name) :
    ∃ r, moveNode (RootfsTree.setNode ns vn { ns.node vn with name := old }) vn newdir newname =
      .ok r ∧ ∃ kids', Sound r.2 kids' := by
  have hmem' := h.tree.mem_erase_kids hmem
  have holddir := (h.dirs olddir (List.ne_nil_of_mem hmem)).1
  generalize hns₁ : RootfsTree.setNode ns vn { ns.node vn with name := old } = ns₁
  have hself : ns₁.node vn = { ns.node vn with name := old } := by
    rw [← hns₁]
    exact Function.update_self ..
  have hnode₁ : ∀ n, n ≠ vn → ns₁.node n = ns.node n := fun n hn => by
    rw [← hns₁]
    exact Function.update_of_ne hn _ _
  have hlists : HeadFamily (linkOut ns₁ vn).links (headOf (linkOut ns₁ vn))
      (Function.update kids olddir ((kids olddir).erase vn)) := by
    refine linkOut_spec ns₁ ?_ ?_ ?_ hmem
    · rw [← hns₁]
      exact h.tree.lists
    · rw [← hns₁]
      exact holddir
    · unfold parentOf
      rw [hself]
      exact h.tree.parent olddir vn hmem
  have hlive : (linkOut ns₁ vn).live = ns.live := by rw [← hns₁]; rfl
  have hroot : (linkOut ns₁ vn).root = ns.root := by rw [← hns₁]; rfl
  have hnx : (linkOut ns₁ vn).nxvnid = ns.nxvnid := by rw [← hns₁]; rfl
  have hnode : ∀ n, n ≠ vn → (linkOut ns₁ vn).node n = ns.node n := hnode₁
  have hlen : (Function.update kids olddir ((kids olddir).erase vn) newdir).length ≤
      (linkOut ns₁ vn).live.card := by
    rw [hlive]
    refine le_trans ?_ (h.length_le hdir)
    by_cases hd : newdir = olddir
    · rw [hd, Function.update_self]
      exact List.length_erase_le
    · rw [Function.update_of_ne hd]
  obtain ⟨as, bs, links, v, hsplit, hlink, hlists', has, hbs⟩ := linkIn_spec hlists
    (by rw [hlive]; exact hdir)
    (fun c hc => by
      obtain ⟨hne, hc⟩ := (hmem' c newdir).1 hc
      rw [hnode c hne]
      exact h.tree.named newdir c hc)
    hlen fun d hc => ((hmem' vn d).1 hc).1 rfl
  unfold RootfsTree.moveNode
  rw [hlink]
  refine ⟨_, rfl, Function.update (Function.update kids olddir ((kids olddir).erase vn)) newdir
    (as ++ vn :: bs), ?_⟩
  have hself₂ : (linkOut ns₁ vn).node vn = { ns.node vn with name := old } := hself
  generalize linkOut ns₁ vn = ns₂ at hlists hlive hroot hnx hnode hlists' has hbs hself₂ ⊢
  dsimp only [Except.map]
  generalize hns₃ : RootfsTree.setNode { ns₂ with
    links := links
    head := Function.update ns₂.head newdir v } vn
      { ns₂.node vn with parent := newdir, name := some newname } = ns₃
  have hself₃ : ns₃.node vn = { ns.node vn with parent := newdir, name := some newname } := by
    rw [← hns₃]
    refine (Function.update_self ..).trans ?_
    rw [hself₂]
  have hnode₃ : ∀ n, n ≠ vn → ns₃.node n = ns.node n := fun n hn => by
    rw [← hns₃]
    exact (Function.update_of_ne hn _ _).trans (hnode n hn)
  have hnode₂ : ∀ c ∈ as ++ bs, ns₃.node c = ns₂.node c := fun c hc => by
    have hne := ((hmem' c newdir).1 (hsplit ▸ hc)).1
    rw [hnode₃ c hne, hnode c hne]
  have hlive₃ : ns₃.live = ns.live := by rw [← hns₃, ← hlive]; rfl
  have hhead : headOf ns₃ = Function.update (headOf ns₂) newdir v := by
    rw [← hns₃]
    exact headOf_update (by rw [hlive]; exact hdir) links v
  have hdet := h.detach hmem havoid hlive₃ (by rw [← hns₃, ← hroot]; rfl)
    (by rw [← hns₃, ← hnx]; rfl) hnode₃ (by unfold parentOf; rw [hself₃]; exact ⟨rfl, rfl, rfl⟩)
  have hname : (ns₃.node vn).name = some newname := by rw [hself₃]
  refine hdet.attach hname (by unfold parentOf; rw [hself₃]) hsplit ⟨?_, ?_⟩ ?_ ?_ ?_ ?_
  · rw [hlive₃]
    exact hdir
  · by_cases hd : newdir = vn
    · rw [hd, hself₃]
      exact hd ▸ hisdir
    · rw [hnode₃ newdir hd]
      exact hisdir
  · rw [hhead, ← hns₃]
    exact hlists'
  · intro a ha
    rw [hnode₂ a (List.mem_append_left bs ha)]
    exact has a ha
  · intro b hb
    rw [hnode₂ b (List.mem_append_right as (List.mem_of_head? hb))]
    exact hbs b hb
  · intro c hc
    obtain ⟨hne, hc⟩ := (hmem' c newdir).1 hc
    rw [hnode₃ c hne]
    exact hfresh c hc hne

/-- What the code takes for an empty node has no children. -/
theorem Sound.leaf (h : Sound ns kids) (hempty : ¬(sIsdir (ns.node vn).mode ∧ ns.head vn ≠ none)) :
    kids vn = [] := by
  by_contra hne
  obtain ⟨hlive, hdir⟩ := h.dirs vn hne
  refine hempty ⟨hdir, fun hnone => hne ?_⟩
  exact (h.isList hlive).eq_nil hnone

theorem Sound.doUnlink (h : Sound ns kids) {dir : ℕ} (hdir : dir ∈ ns.live) (name : Name)
    (isdir : Bool) : ∃ r, doUnlink ns dir name isdir = .ok r ∧ ∃ kids', Sound r.2 kids' := by
  obtain ⟨o, hfind, hfound, _⟩ := h.findName_spec hdir name
  unfold RootfsTree.doUnlink
  split
  · exact ⟨_, rfl, kids, h⟩
  split
  · exact ⟨_, rfl, kids, h⟩
  rw [hfind]
  cases o with
  | none => exact ⟨_, rfl, kids, h⟩
  | some vn =>
    obtain ⟨hmem, _⟩ := hfound vn rfl
    refine ⟨_, rfl, ?_⟩
    dsimp only
    split
    · exact ⟨kids, h⟩
    split
    · exact ⟨kids, h⟩
    split
    · exact ⟨kids, h⟩
    split
    · exact ⟨kids, h⟩
    rename_i hempty
    refine ⟨_, (h.dropVnode hmem (h.leaf hempty)).setNode fun hlive => ?_⟩
    exact absurd hlive (Finset.notMem_erase vn ns.live)

/-- What `rootfs_rename` knows when it starts to move. -/
theorem Sound.renameCheck_spec (h : Sound ns kids) {olddir newdir : ℕ} (hold : olddir ∈ ns.live)
    (hnew : newdir ∈ ns.live) (oldname newname : Name) :
    ∃ r, renameCheck ns olddir oldname newdir newname = .ok r ∧ ∀ vn nvn, r = .move vn nvn →
      vn ∈ kids olddir ∧ sIsdir (ns.node newdir).mode ∧
      Avoids (parentOf ns) ns.root vn newdir ∧
      (nvn = none → ∀ c ∈ kids newdir, (ns.node c).name ≠ some newname) ∧
      ∀ w, nvn = some w → w ∈ kids newdir ∧ (ns.node w).name = some newname ∧ w ≠ vn := by
  obtain ⟨o, hfind, hfound, _⟩ := h.findName_spec hold oldname
  obtain ⟨o', hfind', hfound', hnone⟩ := h.findName_spec hnew newname
  obtain ⟨k, hk, hsteps⟩ := (h.tree.reaches newdir hnew).steps_lt hnew h.closed
  obtain ⟨below, hbelow⟩ := isBelow_of_steps olddir k hk.le hsteps
  unfold renameCheck
  split
  · exact ⟨_, rfl, fun vn nvn he => by cases he⟩
  rename_i hdirs
  split
  · exact ⟨_, rfl, fun vn nvn he => by cases he⟩
  rw [hfind]
  cases o with
  | none => exact ⟨_, rfl, fun vn nvn he => by cases he⟩
  | some x =>
    obtain ⟨hmem, _⟩ := hfound x rfl
    dsimp only [Except.bind]
    split
    · exact ⟨_, rfl, fun vn nvn he => by cases he⟩
    rw [hfind']
    dsimp only
    split
    · exact ⟨_, rfl, fun vn nvn he => by cases he⟩
    rename_i hne
    rw [hbelow]
    cases below with
    | true => exact ⟨_, rfl, fun vn nvn he => by cases he⟩
    | false =>
      refine ⟨_, rfl, ?_⟩
      rintro vn nvn he
      cases he
      refine ⟨hmem, not_not.mp (not_or.mp hdirs).2, ?_, hnone, fun w hw => ?_⟩
      · exact avoids_of_isBelow (fun he => ((h.tree.member x).1 ⟨olddir, hmem⟩).2 he.symm)
          (h.tree.parent olddir x hmem) hbelow
      · obtain ⟨hw', hname⟩ := hfound' w hw
        refine ⟨hw', hname, ?_⟩
        rintro rfl
        exact hne hw

theorem reallocName_eq (ns : Nspace) (vn : ℕ) (newname : Name) (moved : Bool) :
    ∃ old, reallocName ns vn newname moved =
      RootfsTree.setNode ns vn { ns.node vn with name := old } := by
  unfold reallocName
  split
  · exact ⟨none, rfl⟩
  · refine ⟨(ns.node vn).name, ?_⟩
    unfold RootfsTree.setNode
    rw [Function.update_eq_self]

theorem Sound.rootfsRename (h : Sound ns kids) {olddir newdir : ℕ} (hold : olddir ∈ ns.live)
    (hnew : newdir ∈ ns.live) (oldname newname : Name) (moved : Bool)
    (hintact : ¬LosesName ns (renameCheck ns olddir oldname newdir newname) newname moved) :
    ∃ r, rootfsRename ns olddir oldname newdir newname moved = .ok r ∧
      ∃ kids', Sound r.2 kids' := by
  obtain ⟨plan, hcheck, hplan⟩ := h.renameCheck_spec hold hnew oldname newname
  unfold RootfsTree.rootfsRename
  rw [hcheck] at hintact ⊢
  dsimp only [Except.bind]
  cases plan with
  | fail err => exact ⟨_, rfl, kids, h⟩
  | same => exact ⟨_, rfl, kids, h⟩
  | move vn nvn =>
    obtain ⟨hmem, hisdir, havoid, hfresh, htarget⟩ := hplan vn nvn rfl
    obtain ⟨old, hname⟩ := reallocName_eq ns vn newname moved
    cases nvn with
    | none =>
      dsimp only
      rw [hname]
      exact h.moveNode hmem hnew hisdir havoid (fun c hc _ => hfresh rfl c hc) old
    | some w =>
      obtain ⟨hw, hwname, hne⟩ := htarget w rfl
      have hnode : (reallocName ns vn newname moved).node w = ns.node w := by
        rw [hname]
        exact Function.update_of_ne hne _ _
      have hroot : (reallocName ns vn newname moved).root = ns.root := by rw [hname]; rfl
      have hhead : (reallocName ns vn newname moved).head = ns.head := by rw [hname]; rfl
      dsimp only
      rw [hnode, hroot, hhead, if_neg ((h.tree.member w).1 ⟨newdir, hw⟩).2]
      split
      · rename_i hfull
        have hkeep : reallocName ns vn newname moved = ns :=
          if_neg fun hc => hintact ⟨hfull.1, hfull.2, hc⟩
        rw [hkeep]
        exact ⟨_, rfl, kids, h⟩
      · rename_i hempty
        have hleaf := h.leaf hempty
        have hdrop := h.dropVnode hw hleaf
        have hmem' := h.tree.mem_erase_kids hw
        have heq : RootfsTree.dropVnode (reallocName ns vn newname moved) w =
            RootfsTree.setNode (RootfsTree.dropVnode ns w) vn
              { (RootfsTree.dropVnode ns w).node vn with name := old } := by
          unfold RootfsTree.dropVnode linkOut
          dsimp only
          rw [hnode, hname]
          rfl
        rw [heq]
        refine hdrop.moveNode ((hmem' vn olddir).2 ⟨hne.symm, hmem⟩) ?_ hisdir havoid
          (fun c hc _ hcname => ?_) old
        · refine Finset.mem_erase.mpr ⟨?_, hnew⟩
          rintro rfl
          rw [hleaf] at hw
          exact List.not_mem_nil hw
        · obtain ⟨hcw, hc⟩ := (hmem' c newdir).1 hc
          exact hcw (h.tree.name_inj hc hw (hcname.trans hwname.symm))

theorem Sound.call (h : Sound ns kids) {e : Call} (hallowed : Allowed ns e)
    (hintact : Intact ns e) :
    ∃ r, call ns e = .ok r ∧ ∃ kids', Sound r.2 kids' := by
  cases e with
  | mkdir dir name perms vn => exact h.doCreate _ hallowed.1 hallowed.2 hintact
  | symlink dir name path vn =>
    obtain ⟨⟨err, ns'⟩, hcall, kids', h'⟩ := h.doCreate sIflnk hallowed.1 hallowed.2 hintact
    unfold RootfsTree.call rootfsSymlink
    dsimp only
    rw [hcall]
    refine ⟨_, rfl, kids', ?_⟩
    dsimp only
    split
    · exact h'
    · exact h'.setNode fun _ => ⟨rfl, rfl, rfl, rfl⟩
  | unlink dir name => exact h.doUnlink hallowed name false
  | rmdir dir name => exact h.doUnlink hallowed name true
  | rename olddir oldname newdir newname moved =>
    exact h.rootfsRename hallowed.1 hallowed.2 oldname newname moved hintact

end Steps

section Runs

/-- The name space right after `rootfs_mount`; `mem` is what was in memory before. -/
def mounted (mem : Nspace) (root : ℕ) : Nspace := (rootfsMount mem none none 0 root).2

theorem mounted_sound (mem : Nspace) (root : ℕ) : Sound (mounted mem root) fun _ => [] := by
  have hlive : ∀ {n}, n ∈ (mounted mem root).live ↔ n = root := Finset.mem_singleton
  have hnode : (mounted mem root).node root = ⟨none, false, 1, root, sIfdir ||| 0o777, none⟩ :=
    Function.update_self ..
  refine ⟨⟨⟨fun d => ?_, fun h => absurd h List.not_mem_nil⟩, fun n => ?_, fun d c hc => ?_,
    fun d c hc => ?_, fun d => List.Pairwise.nil, fun n hn => ?_, ?_⟩, hlive.2 rfl,
    fun d hd => absurd rfl hd, fun n hn => ?_⟩
  · have hhead : headOf (mounted mem root) d = none := by
      unfold headOf
      split
      · rename_i hd
        rw [hlive.1 hd]
        exact Function.update_self ..
      · rfl
    exact ⟨List.nodup_nil, hhead, rfl, trivial⟩
  · simp only [List.not_mem_nil, exists_const, false_iff, not_and, not_not]
    exact fun hn => hlive.1 hn
  · exact absurd hc List.not_mem_nil
  · exact absurd hc List.not_mem_nil
  · rw [hlive.1 hn]
    exact .here
  · intro a ha b hb _
    rw [hlive.1 ha, hlive.1 hb]
  · rw [hlive.1 hn, hnode]
    exact ⟨Int.one_pos, le_refl 1⟩

/-- The invariant of the runs. -/
def Kept (ns : Nspace) : Prop := ∃ kids, Sound ns kids

theorem next_kept (ns : Nspace) (e : Call) (h : Kept ns) (hc : Allowed ns e ∧ Intact ns e) :
    Kept (next ns e) := by
  obtain ⟨kids, h⟩ := h
  obtain ⟨r, hcall, hsound⟩ := h.call hc.1 hc.2
  unfold next
  rw [hcall]
  exact hsound

/-- From the mount on, a run of calls on live directories leaves a tree after every call and no
call gets stuck, as long as the vnids last and no failing rename loses the name of its node. -/
theorem rootfs_stays_tree (mem : Nspace) (root : ℕ) (calls : List Call)
    (hallowed : EveryStep next Allowed (mounted mem root) calls)
    (hintact : EveryStep next Intact (mounted mem root) calls) :
    EveryState next Tree (mounted mem root) calls ∧
      EveryStep next (fun ns e => ∃ r, call ns e = .ok r) (mounted mem root) calls := by
  have hstart : Kept (mounted mem root) := ⟨_, mounted_sound mem root⟩
  have hboth := hallowed.and hintact
  constructor
  · refine (everyState_of_step next_kept hstart hboth).mono ?_
    rintro ns ⟨kids, h⟩
    exact ⟨kids, h.tree⟩
  · refine everyStep_of_inv next_kept ?_ hstart hboth
    rintro ns e ⟨kids, h⟩ hc
    obtain ⟨r, hcall, _⟩ := h.call hc.1 hc.2
    exact ⟨r, hcall⟩

/-- The names `a`, `b` and so on, for the examples. -/
def letter (k : ℕ) : Name := [Fin.ofNat 256 (97 + k)]

/-- Memory before the mount, for the examples. -/
def noNodes : Nspace :=
  ⟨0, 0, fun _ => ⟨none, false, 0, 0, 0, none⟩, ⟨fun _ => none, fun _ => none⟩, fun _ => none, ∅⟩

theorem rootfs_stays_tree_replace :
    EveryState next Tree (mounted noNodes 0) [.mkdir 0 [97] 0o755 1, .mkdir 1 [120] 0o755 2,
        .symlink 0 [98, 98] [47] 3, .rename 1 [120] 0 [98, 98] true, .rmdir 0 [97]] ∧
      EveryStep next (fun ns e => ∃ r, call ns e = .ok r) (mounted noNodes 0)
        [.mkdir 0 [97] 0o755 1, .mkdir 1 [120] 0o755 2, .symlink 0 [98, 98] [47] 3,
          .rename 1 [120] 0 [98, 98] true, .rmdir 0 [97]] :=
  rootfs_stays_tree noNodes 0 _ (by decide +kernel)
    ⟨fun _ => by decide +kernel, fun _ => by decide +kernel, fun _ => by decide +kernel,
      by unfold Intact; decide +kernel, trivial, trivial⟩

def longName : Name := List.replicate 60 98

/-- The target of the rename is a directory with a child and a long name, and `realloc` moves the
name `a` before the call finds that out. -/
theorem failed_rename_loses_name :
    EveryStep next Allowed (mounted noNodes 0) [.mkdir 0 [97] 0o755 1, .mkdir 0 longName 0o755 2,
      .mkdir 2 [99] 0o755 3, .rename 0 [97] 0 longName true] ∧
    ¬EveryState next Tree (mounted noNodes 0) [.mkdir 0 [97] 0o755 1, .mkdir 0 longName 0o755 2,
      .mkdir 2 [99] 0o755 3, .rename 0 [97] 0 longName true] := by
  refine ⟨by decide +kernel, fun h => ?_⟩
  obtain ⟨kids, htree⟩ := h.last
  obtain ⟨d, hd⟩ := (htree.member 1).2 (by decide +kernel)
  exact htree.named d 1 hd (by decide +kernel)

end Runs


end RootfsTree
