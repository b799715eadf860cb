import Mathlib.Tactic
import FsKit.RootfsRenames

/-! Directories that are held open when they leave the tree (`rootfs.c`). The memory of such a
node stays until the last reference to it is given back, and calls may still be made on it. -/
namespace HeldDirectories

open BlockBitmap FallibleRuns LinkedList RootfsTree RootfsRenames TransitionTrace
open MountCalls (ENOTDIR)

section Walk

def sIslnk (m : Mode) : Prop := m &&& sIfmt = sIflnk

instance (m : Mode) : Decidable (sIslnk m) := inferInstanceAs (Decidable (m &&& sIfmt = sIflnk))

/-- What a walk leads to: a node, entered by its id, or the path in a symbolic link. -/
inductive Walked where
  | vnode (vnid : ℤ)
  | newpath (path : Option Name)
  deriving DecidableEq, Repr

/-- `getErr` is what `get_vnode` returns for an id, `pathErr` what `new_path` returns; `eat` says
whether the kernel wants the path of a symbolic link. -/
def rootfsWalk (ns : Nspace) (getErr : ℤ → ℤ) (pathErr : ℤ) (base : ℕ) (file : Name) (eat : Bool) :
    Except Stop (ℤ × Option Walked) :=
  let enter := fun vnid => if getErr vnid ≠ 0 then (getErr vnid, none) else (0, some (.vnode vnid))
  if ¬sIsdir (ns.node base).mode then .ok (ENOTDIR, none)
  else if (ns.node base).removed then .ok (ENOENT, none)
  else if file = dot then .ok (enter (ns.node base).vnid)
  else if file = dotdot then .ok (enter (ns.node (ns.node base).parent).vnid)
  else (findName ns file ns.live.card (ns.head base)).map fun
    | none => (ENOENT, none)
    | some vn =>
      if sIslnk (ns.node vn).mode ∧ eat then
        if pathErr ≠ 0 then (pathErr, none) else (0, some (.newpath (ns.node vn).symlink))
      else enter (ns.node vn).vnid

end Walk

section States

/-- The name space, and the nodes that have left it and are still in memory. -/
structure State where
  ns : Nspace
  gone : Finset ℕ

/-- The last event is the return of the last reference to a node that has left the tree. -/
inductive Event where
  | call (e : Call)
  | free (n : ℕ)

def next (s : State) : Event → State
  | .call e =>
    let ns := RootfsTree.next s.ns e
    { ns := ns, gone := s.gone ∪ (s.ns.live \ ns.live) }
  | .free n => { s with gone := s.gone.erase n }

def dirsOf : Call → List ℕ
  | .mkdir dir _ _ _ => [dir]
  | .symlink dir _ _ _ => [dir]
  | .unlink dir _ => [dir]
  | .rmdir dir _ => [dir]
  | .rename olddir _ newdir _ _ => [olddir, newdir]

/-- The address that `malloc` has for a new node. -/
def freshOf : Call → Option ℕ
  | .mkdir _ _ _ vn => some vn
  | .symlink _ _ _ vn => some vn
  | _ => none

/-- The directories are in memory, and `malloc` gives out no storage that is in use. -/
def Allowed (s : State) : Event → Prop
  | .call e => (∀ d ∈ dirsOf e, d ∈ s.ns.live ∨ d ∈ s.gone) ∧
      ∀ vn ∈ freshOf e, vn ∉ s.ns.live ∧ vn ∉ s.gone
  | .free _ => True

instance (s : State) : DecidablePred (Allowed s)
  | .call _ => inferInstanceAs (Decidable (_ ∧ _))
  | .free _ => .isTrue trivial

/-- A rename that passes its checks stays inside the tree and replaces no directory. -/
def RenamesInside (ns : Nspace) (olddir : ℕ) (oldname : Name) (newdir : ℕ) (newname : Name) :
    Prop :=
  ∀ vn nvn, renameCheck ns olddir oldname newdir newname = .ok (.move vn nvn) →
    newdir ∈ ns.live ∧ ∀ w, nvn = some w → ¬(sIsdir (ns.node w).mode ∧ ns.head w = none)

/-- The calls keep a well-formed tree, and no rename takes a directory out of it. -/
def Orderly (s : State) : Event → Prop
  | .call e => Intact s.ns e ∧
      match e with
      | .rename olddir oldname newdir newname _ =>
        RenamesInside s.ns olddir oldname newdir newname
      | _ => True
  | .free _ => True

/-- `c` stands in the child list of `d`. -/
inductive Listed (ns : Nspace) (d : ℕ) : ℕ → Prop where
  | head {c : ℕ} : ns.head d = some c → Listed ns d c
  | next {c c' : ℕ} : Listed ns d c → ns.links.next c = some c' → Listed ns d c'

def InTree (ns : Nspace) (n : ℕ) : Prop := Relation.ReflTransGen (Listed ns) ns.root n

/-- The directory is marked and empty, and nothing can be made or found in it. -/
structure Shut (ns : Nspace) (d : ℕ) : Prop where
  removed : (ns.node d).removed = true
  childless : ∀ c, ¬Listed ns d c
  create : ∀ name mode vn, doCreate ns d name mode vn = .ok (ENOENT, ns)
  walk : ∀ getErr pathErr file eat, rootfsWalk ns getErr pathErr d file eat = .ok (ENOENT, none)

/-- Every directory that the root does not lead to is shut. -/
def Closed (s : State) : Prop :=
  ∀ d, d ∈ s.ns.live ∨ d ∈ s.gone → sIsdir (s.ns.node d).mode → ¬InTree s.ns d → Shut s.ns d

/-- The invariant of the runs. -/
structure Marked (s : State) : Prop where
  tree : Kept s.ns
  apart : Disjoint s.ns.live s.gone
  marked : ∀ d ∈ s.gone, sIsdir (s.ns.node d).mode →
    (s.ns.node d).removed = true ∧ s.ns.head d = none

end States

section Reachability
variable {ns : Nspace} {kids : ℕ → List ℕ} {d c n : ℕ}

theorem listed_of_mem {xs : List ℕ} {e : Option ℕ} (h : IsList ns.links ⟨ns.head d, e⟩ xs)
    (hc : c ∈ xs) : Listed ns d c := by
  obtain ⟨as, bs, rfl⟩ := List.append_of_mem hc
  induction as using List.reverseRecOn generalizing c bs with
  | nil => exact .head h.head
  | append_singleton as p ih =>
    have hsplit : as ++ [p] ++ c :: bs = as ++ p :: (c :: bs) := by simp
    rw [hsplit] at h
    refine .next (ih (c :: bs) h (by simp)) ?_
    rw [h.neighbours.2]
    rfl

theorem mem_of_listed {xs : List ℕ} {e : Option ℕ} (h : IsList ns.links ⟨ns.head d, e⟩ xs)
    (hc : Listed ns d c) : c ∈ xs := by
  induction hc with
  | head hhead =>
    have hfirst : ns.head d = xs.head? := h.head
    rw [hfirst] at hhead
    exact List.mem_of_head? hhead
  | next _ hnext ih =>
    obtain ⟨as, bs, rfl⟩ := List.append_of_mem ih
    rw [h.neighbours.2] at hnext
    exact List.mem_append_right _ (List.mem_cons_of_mem _ (List.mem_of_head? hnext))

/-- The root leads to the live nodes. -/
theorem inTree_iff (h : Sound ns kids) : InTree ns n ↔ n ∈ ns.live := by
  constructor
  · intro hn
    induction hn with
    | refl => exact h.root
    | tail _ hlisted ih => exact h.live (mem_of_listed (h.isList ih) hlisted)
  · intro hn
    have hreach := h.tree.reaches n hn
    induction hreach with
    | here => exact .refl
    | @up n _ ih =>
      by_cases hroot : n = ns.root
      · rw [hroot]
        exact .refl
      · obtain ⟨hmem, hlive⟩ := h.mem_parent hn hroot
        exact (ih hlive).tail (listed_of_mem (h.isList hlive) hmem)

theorem shut_of_marked (hdir : sIsdir (ns.node d).mode) (hremoved : (ns.node d).removed = true)
    (hempty : ns.head d = none) : Shut ns d := by
  refine ⟨hremoved, fun c hc => ?_, fun name mode vn => ?_, fun getErr pathErr file eat => ?_⟩
  · induction hc with
    | head hhead =>
      rw [hempty] at hhead
      cases hhead
    | next _ _ ih => exact ih
  · unfold doCreate createCheck
    rw [if_neg (not_not.mpr hdir), if_pos hremoved]
    rfl
  · unfold rootfsWalk
    dsimp only
    rw [if_neg (not_not.mpr hdir), if_pos hremoved]

theorem Marked.closed {s : State} (h : Marked s) : Closed s := by
  obtain ⟨⟨kids, hsound⟩, _, hmarked⟩ := h
  intro d hd hdir hout
  rw [inTree_iff hsound] at hout
  obtain ⟨hremoved, hempty⟩ := hmarked d (hd.resolve_left hout) hdir
  exact shut_of_marked hdir hremoved hempty

end Reachability

section Frames
variable {ns ns' : Nspace} {kids : ℕ → List ℕ} {dir vn : ℕ} {name : Name} {fresh : Option ℕ}

/-- Outside the tree and the new node nothing changes, and a directory that leaves the tree is
marked and empty. -/
structure Frame (ns ns' : Nspace) (fresh : Option ℕ) : Prop where
  outside : ∀ n, n ∉ ns.live → fresh ≠ some n → ns'.node n = ns.node n ∧ ns'.head n = ns.head n
  live : ∀ n ∈ ns'.live, n ∈ ns.live ∨ fresh = some n
  dropped : ∀ n ∈ ns.live, n ∉ ns'.live → sIsdir (ns'.node n).mode →
    (ns'.node n).removed = true ∧ ns'.head n = none

theorem Frame.refl (ns : Nspace) (fresh : Option ℕ) : Frame ns ns fresh :=
  ⟨fun _ _ _ => ⟨rfl, rfl⟩, fun _ hn => Or.inl hn, fun _ hn hout => absurd hn hout⟩

theorem linkIn_frame (h : linkIn ns dir name vn = .ok ns') :
    ns'.node = ns.node ∧ ns'.live = ns.live ∧ ∃ v, ns'.head = Function.update ns.head dir v := by
  obtain ⟨p, _, rfl⟩ := map_ok h
  exact ⟨rfl, rfl, _, rfl⟩

/-- A new node is all that changes outside the tree. -/
structure Grown (ns ns' : Nspace) (vn : ℕ) : Prop where
  outside : ∀ n, n ∉ ns.live → n ≠ vn → ns'.node n = ns.node n ∧ ns'.head n = ns.head n
  live : ∀ n ∈ ns'.live, n ∈ ns.live ∨ n = vn
  kept : ∀ n ∈ ns.live, n ∈ ns'.live

theorem Grown.frame (h : Grown ns ns' vn) : Frame ns ns' (some vn) := by
  refine ⟨fun n hn hne => h.outside n hn fun he => hne (congrArg some he.symm), fun n hn => ?_,
    fun n hn hgone => absurd (h.kept n hn) hgone⟩
  exact (h.live n hn).imp_right fun he => congrArg some he.symm

theorem doCreate_grown {mode : Mode} {r : ℤ × Nspace} (hdir : dir ∈ ns.live)
    (h : doCreate ns dir name mode vn = .ok r) : Grown ns r.2 vn := by
  obtain ⟨err, _, h⟩ := bind_ok h
  split at h
  · cases h
    exact ⟨fun _ _ _ => ⟨rfl, rfl⟩, fun _ hn => Or.inl hn, fun _ hn => hn⟩
  obtain ⟨ns', hlink, rfl⟩ := map_ok h
  obtain ⟨hnode, hlive, v, hhead⟩ := linkIn_frame hlink
  dsimp only
  refine ⟨fun n hn hne => ?_, fun n hn => ?_, fun n hn => ?_⟩
  · have hndir : n ≠ dir := by
      rintro rfl
      exact hn hdir
    refine ⟨(congrFun hnode n).trans (Function.update_of_ne hne _ _), ?_⟩
    refine Eq.trans (Function.update_of_ne hne _ _) ((congrFun hhead n).trans ?_)
    exact Function.update_of_ne hndir _ _
  · rcases Finset.mem_insert.mp hn with he | hn
    · exact Or.inr he
    · exact Or.inl (hlive ▸ hn)
  · refine Finset.mem_insert_of_mem ?_
    rw [hlive]
    exact hn

theorem symlink_grown {path : Name} {r : ℤ × Nspace} (hdir : dir ∈ ns.live)
    (h : rootfsSymlink ns dir name path vn = .ok r) : Grown ns r.2 vn := by
  obtain ⟨⟨err, ns'⟩, hcreate, rfl⟩ := map_ok h
  have hgrown := doCreate_grown hdir hcreate
  dsimp only at hgrown ⊢
  split
  · exact hgrown
  refine ⟨fun n hn hne => ?_, hgrown.live, hgrown.kept⟩
  have hsym : (setNode ns' vn { ns'.node vn with symlink := some path }).node n = ns'.node n :=
    Function.update_of_ne hne _ _
  rw [hsym]
  exact hgrown.outside n hn hne

theorem Sound.child_ne (h : Sound ns kids) (hmem : vn ∈ kids dir) (hdir : dir ∈ ns.live) :
    vn ≠ dir := by
  rintro rfl
  have hroot := ((h.tree.member vn).mp ⟨vn, hmem⟩).2
  exact Below.irrefl (h.tree.reaches vn hdir) (.child hroot (h.tree.parent vn vn hmem))

/-- What is changed when `vn` leaves the list of its parent. -/
theorem dropVnode_frame (ns : Nspace) (vn : ℕ) : (dropVnode ns vn).node = ns.node ∧
    (dropVnode ns vn).live = ns.live.erase vn ∧
    ∃ v, (dropVnode ns vn).head = Function.update ns.head (parentOf ns vn) v :=
  ⟨rfl, rfl, _, rfl⟩

theorem doUnlink_frame {isdir : Bool} {r : ℤ × Nspace} (h : Sound ns kids) (hdir : dir ∈ ns.live)
    (hcall : doUnlink ns dir name isdir = .ok r) : Frame ns r.2 none := by
  unfold doUnlink at hcall
  split at hcall
  · cases hcall
    exact .refl ns none
  split at hcall
  · cases hcall
    exact .refl ns none
  obtain ⟨_ | vn, hfind, rfl⟩ := map_ok hcall
  · exact .refl ns none
  obtain ⟨hmem, _⟩ := (lookup_eq_some h hdir).mp hfind
  dsimp only
  split
  · exact .refl ns none
  split
  · exact .refl ns none
  split
  · exact .refl ns none
  split
  · exact .refl ns none
  rename_i hempty
  obtain ⟨hnode, hlive, v, hhead⟩ := dropVnode_frame ns vn
  rw [show parentOf ns vn = dir from h.tree.parent dir vn hmem] at hhead
  have hne := Sound.child_ne h hmem hdir
  refine ⟨fun n hn _ => ?_, fun n hn => Or.inl (Finset.mem_of_mem_erase hn),
    fun n hn hout hisdir => ?_⟩
  · have hnvn : n ≠ vn := by
      rintro rfl
      exact hn (h.live hmem)
    have hndir : n ≠ dir := by
      rintro rfl
      exact hn hdir
    refine ⟨Function.update_of_ne hnvn _ _, ?_⟩
    exact (congrFun hhead n).trans (Function.update_of_ne hndir _ _)
  · have hnvn : n = vn := by
      by_contra hnvn
      exact hout (Finset.mem_erase.mpr ⟨hnvn, hn⟩)
    subst hnvn
    have hself : (setNode (dropVnode ns n) n { ns.node n with removed := true }).node n =
        { ns.node n with removed := true } := Function.update_self ..
    rw [hself] at hisdir ⊢
    refine ⟨rfl, (congrFun hhead n).trans ?_⟩
    rw [Function.update_of_ne hne]
    by_contra hfull
    exact hempty ⟨hisdir, hfull⟩

/-- What is changed when `vn` moves. -/
theorem moveNode_frame {newdir : ℕ} {newname : Name} {r : ℤ × Nspace}
    (h : moveNode ns vn newdir newname = .ok r) : r.2.live = ns.live ∧
      (∀ n, n ≠ vn → r.2.node n = ns.node n) ∧
      ∀ n, n ≠ parentOf ns vn → n ≠ newdir → r.2.head n = ns.head n := by
  obtain ⟨ns', hlink, rfl⟩ := map_ok h
  obtain ⟨hnode, hlive, v, hhead⟩ := linkIn_frame hlink
  refine ⟨hlive, fun n hn => ?_, fun n hn hn' => ?_⟩
  · refine Eq.trans (Function.update_of_ne hn _ _) ?_
    rw [hnode]
    rfl
  · refine (congrFun hhead n).trans ?_
    rw [Function.update_of_ne hn']
    exact Function.update_of_ne hn _ _

/-- Edits of live nodes, of which only one leaves the tree that is no directory. -/
theorem frame_of_edits (hlive : ∀ n ∈ ns'.live, n ∈ ns.live)
    (hsame : ∀ n, n ∉ ns.live → ns'.node n = ns.node n ∧ ns'.head n = ns.head n)
    (hdrop : ∀ n ∈ ns.live, n ∉ ns'.live → ¬sIsdir (ns'.node n).mode) : Frame ns ns' none :=
  ⟨fun n hn _ => hsame n hn, fun n hn => Or.inl (hlive n hn),
    fun n hn hout hdir => absurd hdir (hdrop n hn hout)⟩

theorem reallocName_frame (ns : Nspace) (vn : ℕ) (newname : Name) (moved : Bool) :
    (reallocName ns vn newname moved).live = ns.live ∧
    (reallocName ns vn newname moved).head = ns.head ∧
    parentOf (reallocName ns vn newname moved) = parentOf ns ∧
    ∀ n, n ≠ vn → (reallocName ns vn newname moved).node n = ns.node n := by
  obtain ⟨old, hname⟩ := reallocName_eq ns vn newname moved
  rw [hname]
  refine ⟨rfl, rfl, funext fun n => ?_, fun n hn => Function.update_of_ne hn _ _⟩
  by_cases hn : n = vn
  · subst hn
    have hself : (setNode ns n { ns.node n with name := old }).node n =
        { ns.node n with name := old } := Function.update_self ..
    unfold parentOf
    rw [hself]
  · exact congrArg Vnode.parent (Function.update_of_ne hn _ ns.node)

theorem rename_frame {olddir newdir : ℕ} {oldname newname : Name} {moved : Bool}
    {r : ℤ × Nspace} (h : Sound ns kids) (hold : olddir ∈ ns.live)
    (hinside : RenamesInside ns olddir oldname newdir newname)
    (hcall : rootfsRename ns olddir oldname newdir newname moved = .ok r) :
    Frame ns r.2 none := by
  obtain ⟨plan, hcheck, hcall⟩ := bind_ok hcall
  cases plan with
  | fail err =>
    cases hcall
    exact .refl ns none
  | same =>
    cases hcall
    exact .refl ns none
  | move vn nvn =>
    obtain ⟨hnew, htarget⟩ := hinside vn nvn hcheck
    obtain ⟨hvn, _, _, hfind, hne, _⟩ := check_replaces hcheck
    obtain ⟨hmem, hpar, _⟩ := hvn.child h hold
    obtain ⟨hlive₁, hhead₁, hpar₁, hnode₁⟩ := reallocName_frame ns vn newname moved
    have hout : ∀ n, n ∉ ns.live → n ≠ vn ∧ n ≠ olddir ∧ n ≠ newdir := by
      intro n hn
      refine ⟨?_, ?_, ?_⟩
      · rintro rfl
        exact hn (h.live hmem)
      · rintro rfl
        exact hn hold
      · rintro rfl
        exact hn hnew
    dsimp only at hcall
    generalize reallocName ns vn newname moved = ns₁ at hcall hlive₁ hhead₁ hpar₁ hnode₁
    -- Whatever fails behind the `realloc` has changed one live node.
    have hrealloc : Frame ns ns₁ none := by
      refine frame_of_edits (fun n hn => hlive₁ ▸ hn) (fun n hn => ?_) fun n hn hgone => ?_
      · exact ⟨hnode₁ n (hout n hn).1, congrFun hhead₁ n⟩
      · exact absurd (hlive₁ ▸ hn) hgone
    cases nvn with
    | none =>
      obtain ⟨hlive, hnode, hhead⟩ := moveNode_frame hcall
      rw [hpar₁, hpar] at hhead
      refine frame_of_edits (fun n hn => ?_) (fun n hn => ?_) fun n hn hgone => ?_
      · rw [hlive, hlive₁] at hn
        exact hn
      · obtain ⟨hn₁, hn₂, hn₃⟩ := hout n hn
        rw [hnode n hn₁, hhead n hn₂ hn₃, hnode₁ n hn₁, hhead₁]
        exact ⟨rfl, rfl⟩
      · rw [hlive, hlive₁] at hgone
        exact absurd hn hgone
    | some w =>
      have hwvn : w ≠ vn := fun he => hne (congrArg some he)
      obtain ⟨hwmem, _⟩ := (lookup_eq_some h hnew).mp hfind
      dsimp only at hcall
      split at hcall
      · cases hcall
        exact hrealloc
      split at hcall
      · cases hcall
        exact hrealloc
      rename_i hempty
      obtain ⟨hlive, hnode, hhead⟩ := moveNode_frame hcall
      obtain ⟨hnode₂, hlive₂, v, hhead₂⟩ := dropVnode_frame ns₁ w
      rw [hpar₁, h.tree.parent newdir w hwmem] at hhead₂
      have hpar₂ : parentOf (dropVnode ns₁ w) vn = olddir := by
        unfold parentOf
        rw [hnode₂]
        exact (congrFun hpar₁ vn).trans hpar
      rw [hpar₂] at hhead
      refine frame_of_edits (fun n hn => ?_) (fun n hn => ?_) fun n hn hgone => ?_
      · rw [hlive, hlive₂, hlive₁] at hn
        exact Finset.mem_of_mem_erase hn
      · obtain ⟨hn₁, hn₂, hn₃⟩ := hout n hn
        rw [hnode n hn₁, hhead n hn₂ hn₃, hnode₂, hhead₂, Function.update_of_ne hn₃,
          hnode₁ n hn₁, hhead₁]
        exact ⟨rfl, rfl⟩
      · have hnw : n = w := by
          by_contra hnw
          rw [hlive, hlive₂, hlive₁] at hgone
          exact hgone (Finset.mem_erase.mpr ⟨hnw, hn⟩)
        subst hnw
        intro hdir
        rw [hnode n hwvn, hnode₂, hnode₁ n hwvn] at hdir
        rw [hnode₁ n hwvn, hhead₁] at hempty
        apply htarget n rfl ⟨hdir, ?_⟩
        by_contra hfull
        exact hempty ⟨hdir, hfull⟩

end Frames

section Runs
variable {s : State} {e : Call}

/-- A call that fails leaves the name space alone, and so does one that gets stuck. -/
theorem next_eq_of_stuck {ns : Nspace} (h : ∀ r, call ns e = .ok r → r.2 = ns) :
    RootfsTree.next ns e = ns := by
  unfold RootfsTree.next
  cases hcall : call ns e with
  | error _ => rfl
  | ok r => exact h r hcall

theorem create_on_gone {ns : Nspace} {d vn : ℕ} {name : Name} {mode : Mode} {r : ℤ × Nspace}
    (hd : sIsdir (ns.node d).mode → (ns.node d).removed = true)
    (h : doCreate ns d name mode vn = .ok r) : r.1 ≠ 0 ∧ r.2 = ns := by
  have hcheck : createCheck ns d name = .ok ENOTDIR ∨ createCheck ns d name = .ok ENOENT := by
    unfold createCheck
    split
    · exact Or.inl rfl
    · rename_i hdir
      rw [if_pos (hd (not_not.mp hdir))]
      exact Or.inr rfl
  unfold doCreate at h
  rcases hcheck with hcheck | hcheck
  all_goals
    rw [hcheck] at h
    cases h
    refine ⟨?_, rfl⟩
    dsimp only
    decide

@[simp] theorem findName_none (ns : Nspace) (name : Name) (fuel : ℕ) :
    findName ns name fuel none = .ok none := by
  cases fuel <;> rfl

theorem unlink_on_gone {ns : Nspace} {d : ℕ} {name : Name} {isdir : Bool} {r : ℤ × Nspace}
    (hd : sIsdir (ns.node d).mode → ns.head d = none)
    (h : doUnlink ns d name isdir = .ok r) : r.2 = ns := by
  unfold doUnlink at h
  split at h
  · cases h
    rfl
  rename_i hdir
  split at h
  · cases h
    rfl
  rw [hd (not_not.mp hdir), findName_none] at h
  cases h
  rfl

/-- Nothing is moved out of an empty directory. -/
theorem rename_on_gone {ns : Nspace} {olddir newdir : ℕ} {oldname newname : Name} {moved : Bool}
    {r : ℤ × Nspace}
    (hmove : ∀ vn nvn, renameCheck ns olddir oldname newdir newname ≠ .ok (.move vn nvn))
    (h : rootfsRename ns olddir oldname newdir newname moved = .ok r) : r.2 = ns := by
  obtain ⟨plan, hcheck, h⟩ := bind_ok h
  cases plan with
  | fail err =>
    cases h
    rfl
  | same =>
    cases h
    rfl
  | move vn nvn => exact absurd hcheck (hmove vn nvn)

theorem Marked.of_frame {ns' : Nspace} {fresh : Option ℕ} (h : Marked s) (hkept : Kept ns')
    (hf : Frame s.ns ns' fresh)
    (hfresh : ∀ vn, fresh = some vn → vn ∉ s.ns.live ∧ vn ∉ s.gone) :
    Marked { ns := ns', gone := s.gone ∪ (s.ns.live \ ns'.live) } := by
  refine ⟨hkept, ?_, fun d hd hdir => ?_⟩
  · rw [Finset.disjoint_left]
    intro n hn hgone
    rcases Finset.mem_union.mp hgone with hgone | hgone
    · rcases hf.live n hn with hlive | hnew
      · exact Finset.disjoint_left.mp h.apart hlive hgone
      · exact (hfresh n hnew).2 hgone
    · exact (Finset.mem_sdiff.mp hgone).2 hn
  · rcases Finset.mem_union.mp hd with hd | hd
    · have hout : d ∉ s.ns.live := fun hlive => Finset.disjoint_left.mp h.apart hlive hd
      obtain ⟨hnode, hhead⟩ := hf.outside d hout fun he => (hfresh d he).2 hd
      dsimp only at hdir ⊢
      rw [hnode] at hdir ⊢
      rw [hhead]
      exact h.marked d hd hdir
    · obtain ⟨hlive, hout⟩ := Finset.mem_sdiff.mp hd
      exact hf.dropped d hlive hout hdir

theorem call_frame {ns : Nspace} {kids : ℕ → List ℕ} {r : ℤ × Nspace} (h : Sound ns kids)
    (hlive : ∀ d ∈ dirsOf e, d ∈ ns.live) (ho : Orderly ⟨ns, ∅⟩ (.call e))
    (hcall : call ns e = .ok r) : Frame ns r.2 (freshOf e) := by
  cases e with
  | mkdir dir name perms vn => exact (doCreate_grown (hlive dir (by simp [dirsOf])) hcall).frame
  | symlink dir name path vn => exact (symlink_grown (hlive dir (by simp [dirsOf])) hcall).frame
  | unlink dir name => exact doUnlink_frame h (hlive dir (by simp [dirsOf])) hcall
  | rmdir dir name => exact doUnlink_frame h (hlive dir (by simp [dirsOf])) hcall
  | rename olddir oldname newdir newname moved =>
    exact rename_frame h (hlive olddir (by simp [dirsOf])) ho.2 hcall

theorem allowed_of_live {ns : Nspace} (hlive : ∀ d ∈ dirsOf e, d ∈ ns.live)
    (hfresh : ∀ vn, freshOf e = some vn → vn ∉ ns.live) : RootfsTree.Allowed ns e := by
  cases e with
  | mkdir dir name perms vn => exact ⟨hlive dir (by simp [dirsOf]), hfresh vn rfl⟩
  | symlink dir name path vn => exact ⟨hlive dir (by simp [dirsOf]), hfresh vn rfl⟩
  | unlink dir name => exact hlive dir (by simp [dirsOf])
  | rmdir dir name => exact hlive dir (by simp [dirsOf])
  | rename olddir oldname newdir newname moved =>
    exact ⟨hlive olddir (by simp [dirsOf]), hlive newdir (by simp [dirsOf])⟩

theorem check_isdir {ns : Nspace} {olddir newdir vn : ℕ} {oldname newname : Name} {nvn : Option ℕ}
    (h : renameCheck ns olddir oldname newdir newname = .ok (.move vn nvn)) :
    sIsdir (ns.node olddir).mode := by
  unfold renameCheck at h
  split at h
  · cases h
  · rename_i hdirs
    exact not_not.mp (not_or.mp hdirs).1

/-- A call on a directory that has left the tree changes nothing. -/
theorem call_on_gone {d : ℕ} {r : ℤ × Nspace} (h : Marked s) (ho : Orderly s (.call e))
    (hmem : d ∈ dirsOf e) (hd : d ∈ s.gone) (hcall : call s.ns e = .ok r) : r.2 = s.ns := by
  have hmarked := h.marked d hd
  cases e with
  | mkdir dir name perms vn =>
    obtain rfl := List.mem_singleton.mp hmem
    exact (create_on_gone (fun hdir => (hmarked hdir).1) hcall).2
  | symlink dir name path vn =>
    obtain rfl := List.mem_singleton.mp hmem
    obtain ⟨⟨err, ns'⟩, hcreate, rfl⟩ := map_ok hcall
    obtain ⟨herr, hsame⟩ := create_on_gone (fun hdir => (hmarked hdir).1) hcreate
    dsimp only at herr hsame ⊢
    rw [if_pos herr]
    exact hsame
  | unlink dir name =>
    obtain rfl := List.mem_singleton.mp hmem
    exact unlink_on_gone (fun hdir => (hmarked hdir).2) hcall
  | rmdir dir name =>
    obtain rfl := List.mem_singleton.mp hmem
    exact unlink_on_gone (fun hdir => (hmarked hdir).2) hcall
  | rename olddir oldname newdir newname moved =>
    refine rename_on_gone (fun vn nvn hcheck => ?_) hcall
    have hout : d ∉ s.ns.live := fun hlive => Finset.disjoint_left.mp h.apart hlive hd
    obtain ⟨hnew, _⟩ := ho.2 vn nvn hcheck
    obtain ⟨⟨_, _, hfind⟩, _⟩ := check_replaces hcheck
    rcases List.mem_cons.mp hmem with rfl | hmem
    · have hempty := (hmarked (check_isdir hcheck)).2
      rw [lookup, hempty, findName_none] at hfind
      cases hfind
    · obtain rfl := List.mem_singleton.mp hmem
      exact hout hnew

theorem Marked.next (h : Marked s) (ev : Event) (ha : Allowed s ev) (ho : Orderly s ev) :
    Marked (next s ev) := by
  cases ev with
  | free n =>
    refine ⟨h.tree, h.apart.mono_right (Finset.erase_subset n s.gone), fun d hd hdir => ?_⟩
    exact h.marked d (Finset.mem_of_mem_erase hd) hdir
  | call e =>
    obtain ⟨hdirs, hfresh⟩ := ha
    by_cases hlive : ∀ d ∈ dirsOf e, d ∈ s.ns.live
    · obtain ⟨kids, hsound⟩ := h.tree
      have hallowed := allowed_of_live hlive fun vn hvn => (hfresh vn hvn).1
      obtain ⟨r, hcall, hkept⟩ := hsound.call hallowed ho.1
      have hnext : RootfsTree.next s.ns e = r.2 := by
        unfold RootfsTree.next
        rw [hcall]
      simp only [HeldDirectories.next, hnext]
      exact h.of_frame hkept (call_frame hsound hlive ho hcall) hfresh
    · push Not at hlive
      obtain ⟨d, hmem, hout⟩ := hlive
      have hgone := (hdirs d hmem).resolve_left hout
      have hnext := next_eq_of_stuck fun r hcall => call_on_gone h ho hmem hgone hcall
      simpa [HeldDirectories.next, hnext] using h

/-- Right after the mount. -/
def start (mem : Nspace) (root : ℕ) : State := ⟨mounted mem root, ∅⟩

theorem start_marked (mem : Nspace) (root : ℕ) : Marked (start mem root) := by
  refine ⟨⟨_, mounted_sound mem root⟩, Finset.disjoint_empty_right _, fun d hd => ?_⟩
  exact absurd hd (Finset.notMem_empty d)

/-- In a run whose renames take no directory out of the tree, every directory that is not in the
tree any more is shut, also when it is still in use. -/
theorem held_directories_closed (mem : Nspace) (root : ℕ) (events : List Event)
    (hallowed : EveryStep next Allowed (start mem root) events)
    (horderly : EveryStep next Orderly (start mem root) events) :
    EveryState next Closed (start mem root) events := by
  have hboth := hallowed.and horderly
  refine (everyState_of_step ?_ (start_marked mem root) hboth).mono fun s hs => hs.closed
  intro s ev hs hok
  exact hs.next ev hok.1 hok.2

/-- The directory `b` is removed while it is open, and then `a` takes its name. -/
theorem removed_directory_closed :
    EveryState next Closed (start noNodes 0) [.call (.mkdir 0 [97] 0o755 1),
      .call (.mkdir 0 [98] 0o755 2), .call (.rmdir 0 [98]), .call (.mkdir 2 [99] 0o755 3),
      .call (.rename 0 [97] 0 [98] false)] := by
  refine held_directories_closed noNodes 0 _ (by decide +kernel)
    ⟨⟨fun _ => by decide +kernel, trivial⟩, ⟨fun _ => by decide +kernel, trivial⟩,
      ⟨trivial, trivial⟩, ⟨fun _ => by decide +kernel, trivial⟩, ⟨?_, ?_⟩, trivial⟩
  · unfold Intact
    decide +kernel
  · intro vn nvn hcheck
    cases hcheck
    exact ⟨by decide +kernel, fun w hw => by cases hw⟩

/-- The root has the directory `b`, which was `a` when it took the place of another `b`. -/
def replaced : Nspace :=
  RootfsTree.next (RootfsTree.next (RootfsTree.next (mounted noNodes 0)
    (.mkdir 0 (letter 0) 0o755 1)) (.mkdir 0 (letter 1) 0o755 2))
    (.rename 0 (letter 0) 0 (letter 1) false)

theorem replaced_kept : Kept replaced := by
  apply next_kept
  · apply mkdir_kept (mkdir_kept ⟨_, mounted_sound noNodes 0⟩ ?_ ?_)
    all_goals decide +kernel
  · refine ⟨by decide +kernel, ?_⟩
    unfold Intact
    decide +kernel

/-- The directory `b` is replaced while it is open, and is not marked. -/
theorem replaced_directory_open :
    EveryStep next Allowed (start noNodes 0) [.call (.mkdir 0 [97] 0o755 1),
      .call (.mkdir 0 [98] 0o755 2), .call (.rename 0 [97] 0 [98] false)] ∧
    ¬EveryState next Closed (start noNodes 0) [.call (.mkdir 0 [97] 0o755 1),
      .call (.mkdir 0 [98] 0o755 2), .call (.rename 0 [97] 0 [98] false)] := by
  refine ⟨by decide +kernel, ?_⟩
  rintro ⟨_, _, _, hclosed⟩
  obtain ⟨kids, hsound⟩ := replaced_kept
  have hshut : Shut replaced 2 := by
    apply hclosed 2 (by decide +kernel)
    · show sIsdir (replaced.node 2).mode
      decide +kernel
    · intro hin
      have hlive := (inTree_iff hsound).mp hin
      revert hlive
      decide +kernel
  have := hshut.removed
  revert this
  decide +kernel

end Runs

end HeldDirectories
