import Mathlib.Tactic
import FsKit.FallibleRuns
import FsKit.RootfsTree

/-! Renames in the memory based file system (`rootfs.c`): which of them are refused because
of where the new directory lies, and what a rename leaves behind that fails on its way. -/
namespace RootfsRenames

open BlockBitmap FallibleRuns RootfsTree
open MountCalls (EBUSY ENOTDIR)

section Ancestors
variable {ns : Nspace} {d n : ℕ}

/-- `n` lies below `d`. -/
inductive Below (ns : Nspace) (d : ℕ) : ℕ → Prop where
  | child {n : ℕ} : n ≠ ns.root → parentOf ns n = d → Below ns d n
  | up {n : ℕ} : n ≠ ns.root → Below ns d (parentOf ns n) → Below ns d n

theorem Below.ne_root (h : Below ns d n) : n ≠ ns.root := by
  cases h with
  | child hne _ => exact hne
  | up hne _ => exact hne

/-- What lies below a node lies below its parent. -/
theorem Below.parent (h : Below ns d n) (hd : d ≠ ns.root) : Below ns (parentOf ns d) n := by
  induction h with
  | child hne hpar =>
    apply Below.up hne
    rw [hpar]
    exact .child hd rfl
  | up hne _ ih => exact .up hne ih

theorem Below.irrefl (h : Reaches (parentOf ns) ns.root n) : ¬Below ns n n := by
  induction h with
  | here =>
    intro h
    exact h.ne_root rfl
  | @up n _ ih =>
    intro h
    cases h with
    | child hne hpar =>
      rw [hpar] at ih
      exact ih (.child hne hpar)
    | up hne hup => exact ih (hup.parent hne)

/-- The walk of the code finds out whether a directory lies below another. -/
theorem isBelow_iff {olddir : ℕ} {b : Bool} {fuel : ℕ} (h : isBelow ns olddir fuel n = .ok b) :
    b = true ↔ Below ns olddir n := by
  induction fuel generalizing n with
  | zero =>
    unfold isBelow at h
    split at h
    · rename_i hroot
      cases h
      exact ⟨fun hb => absurd hb (by decide), fun hb => absurd hroot hb.ne_root⟩
    · cases h
  | succ fuel ih =>
    unfold isBelow at h
    split at h
    · rename_i hroot
      cases h
      exact ⟨fun hb => absurd hb (by decide), fun hb => absurd hroot hb.ne_root⟩
    rename_i hroot
    split at h
    · rename_i hpar
      cases h
      exact ⟨fun _ => .child hroot hpar, fun _ => rfl⟩
    rename_i hpar
    rw [ih h]
    constructor
    · intro hup
      exact .up hroot hup
    · intro hb
      cases hb with
      | child _ hchild => exact absurd hchild hpar
      | up _ hup => exact hup

end Ancestors

section Names
variable {ns : Nspace} {kids : ℕ → List ℕ} {d c : ℕ} {name : Name}

/-- The search for a name in the child list of a directory. -/
def lookup (ns : Nspace) (d : ℕ) (name : Name) : Except Stop (Option ℕ) :=
  findName ns name ns.live.card (ns.head d)

/-- Under the name stands a child of the directory; the names `.` and `..` stand for the
directory itself and for its parent. -/
def Names (ns : Nspace) (d : ℕ) (name : Name) (c : ℕ) : Prop :=
  name ≠ dot ∧ name ≠ dotdot ∧ lookup ns d name = .ok (some c)

theorem lookup_eq_some (h : Sound ns kids) (hd : d ∈ ns.live) :
    lookup ns d name = .ok (some c) ↔ c ∈ kids d ∧ (ns.node c).name = some name := by
  obtain ⟨o, hfind, hfound, hnone⟩ := h.findName_spec hd name
  unfold lookup
  rw [hfind]
  constructor
  · intro hc
    cases hc
    exact hfound c rfl
  · rintro ⟨hc, hname⟩
    cases o with
    | none => exact absurd hname (hnone rfl c hc)
    | some x =>
      obtain ⟨hx, hxname⟩ := hfound x rfl
      rw [h.tree.name_inj hx hc (hxname.trans hname.symm)]

theorem lookup_returns (h : Sound ns kids) (hd : d ∈ ns.live) (name : Name) :
    ∃ o, lookup ns d name = .ok o := by
  obtain ⟨o, hfind, _⟩ := h.findName_spec hd name
  exact ⟨o, hfind⟩

/-- A node with a name is in the list of its parent. -/
theorem Names.child (h : Sound ns kids) (hd : d ∈ ns.live) (hn : Names ns d name c) :
    c ∈ kids d ∧ parentOf ns c = d ∧ c ≠ ns.root := by
  obtain ⟨hc, _⟩ := (lookup_eq_some h hd).mp hn.2.2
  exact ⟨hc, h.tree.parent d c hc, ((h.tree.member c).mp ⟨d, hc⟩).2⟩

end Names

section Moves
variable {ns : Nspace} {kids : ℕ → List ℕ} {olddir newdir vn : ℕ} {oldname newname : Name}

/-- The new name stands for `vn`, the old one does not any more, and no other node has changed. -/
structure Moved (ns ns' : Nspace) (olddir : ℕ) (oldname : Name) (newdir : ℕ) (newname : Name)
    (vn : ℕ) : Prop where
  named : lookup ns' newdir newname = .ok (some vn)
  unnamed : (newdir = olddir ∧ newname = oldname) ∨ lookup ns' olddir oldname ≠ .ok (some vn)
  others : ∀ n, n ≠ vn → (ns'.node n).parent = (ns.node n).parent ∧
    (ns'.node n).name = (ns.node n).name
  tree : Kept ns'

/-- A rename of `vn` returns `EINVAL` for a new directory that is `vn` or below it; every other
rename succeeds and moves it. -/
def RefusesDetaching (ns : Nspace) (r : Except Stop (ℤ × Nspace)) (olddir : ℕ) (oldname : Name)
    (newdir : ℕ) (newname : Name) (vn : ℕ) : Prop :=
  ∃ err ns', r = .ok (err, ns') ∧ (err = EINVAL ↔ newdir = vn ∨ Below ns vn newdir) ∧
    (err ≠ EINVAL → err = 0 ∧ Moved ns ns' olddir oldname newdir newname vn)

/-- The nodes other than the one that is moved stay as they are. -/
theorem moveNode_node {r : ℤ × Nspace} (h : moveNode ns vn newdir newname = .ok r) :
    r.1 = 0 ∧ r.2.root = ns.root ∧ r.2.live = ns.live ∧ ∃ v : Vnode, v.parent = newdir ∧
      v.name = some newname ∧ r.2.node = Function.update ns.node vn v := by
  unfold moveNode linkIn at h
  cases hpoint : insertPoint (linkOut ns vn) newname (linkOut ns vn).live.card none
      ((linkOut ns vn).head newdir) with
  | error e =>
    rw [hpoint] at h
    cases h
  | ok p =>
    rw [hpoint] at h
    cases h
    exact ⟨rfl, rfl, rfl, _, rfl, rfl, rfl⟩

/-- Where the check of the code has led to when the old name stands for `vn` and the new one for
nothing else. -/
theorem renameCheck_eq (h : Sound ns kids) (hold : olddir ∈ ns.live) (hnew : newdir ∈ ns.live)
    (hisdir : sIsdir (ns.node newdir).mode) (hvn : Names ns olddir oldname vn)
    (hlegal : newname ≠ dot ∧ newname ≠ dotdot) {nvn : Option ℕ}
    (htarget : lookup ns newdir newname = .ok nvn) :
    ∃ below : Bool, (below = true ↔ Below ns olddir newdir) ∧
      renameCheck ns olddir oldname newdir newname =
        .ok (if nvn = some vn then .same else if below then .fail EINVAL else .move vn nvn) := by
  obtain ⟨hdot, hdotdot, hfind⟩ := hvn
  obtain ⟨hmem, _⟩ := (lookup_eq_some h hold).mp hfind
  have holddir := (h.dirs olddir (List.ne_nil_of_mem hmem)).2
  obtain ⟨k, hk, hsteps⟩ := (h.tree.reaches newdir hnew).steps_lt hnew h.closed
  obtain ⟨below, hbelow⟩ := isBelow_of_steps olddir k hk.le hsteps
  refine ⟨below, isBelow_iff hbelow, ?_⟩
  unfold lookup at hfind htarget
  unfold renameCheck
  rw [if_neg (not_or.mpr ⟨not_not.mpr holddir, not_not.mpr hisdir⟩),
    if_neg (not_or.mpr ⟨hdot, hdotdot⟩), hfind]
  dsimp only [Except.bind]
  rw [if_neg (not_or.mpr hlegal), htarget]
  dsimp only
  split
  · rfl
  · rw [hbelow]
    cases below <;> rfl

theorem below_of_child (newdir : ℕ) (hn : parentOf ns vn = olddir) (hne : vn ≠ ns.root)
    (h : newdir = vn ∨ Below ns vn newdir) : Below ns olddir newdir := by
  rcases h with rfl | h
  · exact .child hne hn
  · rw [← hn]
    exact h.parent hne

/-- The directory of a node is neither the node nor below it. -/
theorem not_below_child (h : Sound ns kids) (hold : olddir ∈ ns.live)
    (hvn : Names ns olddir oldname vn) : ¬(olddir = vn ∨ Below ns vn olddir) := by
  obtain ⟨_, hpar, hne⟩ := hvn.child h hold
  intro hb
  exact Below.irrefl (h.tree.reaches olddir hold) (below_of_child olddir hpar hne hb)

/-- A move that goes through. -/
theorem moveNode_moved (h : Sound ns kids) (hold : olddir ∈ ns.live) (hnew : newdir ∈ ns.live)
    (hisdir : sIsdir (ns.node newdir).mode) (hvn : Names ns olddir oldname vn)
    (hbelow : ¬Below ns olddir newdir) (habsent : lookup ns newdir newname = .ok none)
    (moved : Bool) : ∃ ns', moveNode (reallocName ns vn newname moved) vn newdir newname =
      .ok (0, ns') ∧ Moved ns ns' olddir oldname newdir newname vn := by
  obtain ⟨hmem, hpar, hne⟩ := hvn.child h hold
  have havoid : Avoids (parentOf ns) ns.root vn newdir := by
    obtain ⟨k, hk, hsteps⟩ := (h.tree.reaches newdir hnew).steps_lt hnew h.closed
    obtain ⟨below, hwalk⟩ := isBelow_of_steps olddir k hk.le hsteps
    cases below with
    | false => exact avoids_of_isBelow hne.symm hpar hwalk
    | true => exact absurd ((isBelow_iff hwalk).mp rfl) hbelow
  have hfresh : ∀ c ∈ kids newdir, c ≠ vn → (ns.node c).name ≠ some newname := by
    intro c hc _ hname
    rw [(lookup_eq_some h hnew).mpr ⟨hc, hname⟩] at habsent
    cases habsent
  obtain ⟨old, hname⟩ := reallocName_eq ns vn newname moved
  obtain ⟨⟨err, ns'⟩, hmove, kids', h'⟩ := h.moveNode hmem hnew hisdir havoid hfresh old
  rw [hname]
  obtain ⟨herr, hroot, hlive, v, hvpar, hvname, hnode⟩ := moveNode_node hmove
  dsimp only at herr hroot hlive hnode h'
  subst herr
  have hself : ns'.node vn = v := by
    rw [hnode]
    exact Function.update_self ..
  have hvnlive : vn ∈ ns'.live := by
    rw [hlive]
    exact h.live hmem
  have hvnpar : parentOf ns' vn = newdir := by
    unfold parentOf
    rw [hself, hvpar]
  have hkid : vn ∈ kids' newdir := by
    have := (h'.mem_parent hvnlive (by rw [hroot]; exact hne)).1
    rwa [hvnpar] at this
  refine ⟨ns', hmove, ?_, ?_, ?_, kids', h'⟩
  · apply (lookup_eq_some h' (by rw [hlive]; exact hnew)).mpr
    exact ⟨hkid, by rw [hself, hvname]⟩
  · by_contra hboth
    simp only [not_or, not_not] at hboth
    obtain ⟨hmem', hname'⟩ := (lookup_eq_some h' (by rw [hlive]; exact hold)).mp hboth.2
    rw [hself, hvname, Option.some.injEq] at hname'
    exact hboth.1 ⟨hvnpar.symm.trans (h'.tree.parent olddir vn hmem'), hname'⟩
  · intro n hn
    have hother : (RootfsTree.setNode ns vn { ns.node vn with name := old }).node n = ns.node n :=
      Function.update_of_ne hn _ _
    rw [hnode, Function.update_of_ne hn, hother]
    exact ⟨rfl, rfl⟩

/-- A rename to an absent name does what it should exactly when the new directory does not lie
below the old one, or lies there at or below the node itself. -/
theorem rename_refuses_detaching_iff (h : Sound ns kids) (hold : olddir ∈ ns.live)
    (hnew : newdir ∈ ns.live) (hisdir : sIsdir (ns.node newdir).mode)
    (hvn : Names ns olddir oldname vn) (hlegal : newname ≠ dot ∧ newname ≠ dotdot)
    (habsent : ∀ w, lookup ns newdir newname = .ok (some w) → w = vn) (moved : Bool) :
    RefusesDetaching ns (rootfsRename ns olddir oldname newdir newname moved)
      olddir oldname newdir newname vn ↔
    (Below ns olddir newdir → newdir = vn ∨ Below ns vn newdir) := by
  obtain ⟨nvn, htarget⟩ := lookup_returns h hnew newname
  obtain ⟨below, hbelow, hcheck⟩ := renameCheck_eq h hold hnew hisdir hvn hlegal htarget
  obtain ⟨_, hpar, hne⟩ := hvn.child h hold
  have hdetach := below_of_child newdir hpar hne
  have hEINVAL : (0 : ℤ) ≠ EINVAL := by decide
  unfold RefusesDetaching rootfsRename
  rw [hcheck]
  cases nvn with
  | some w =>
    -- The new name stands for the node already, so it is the old one.
    obtain rfl := habsent w htarget
    obtain ⟨hmem, hname⟩ := (lookup_eq_some h hnew).mp htarget
    have hsame : newdir = olddir := by rw [← h.tree.parent newdir w hmem, hpar]
    subst hsame
    have hnot := not_below_child h hold hvn
    have hself := Below.irrefl (h.tree.reaches newdir hold)
    obtain ⟨_, holdname⟩ := (lookup_eq_some h hold).mp hvn.2.2
    rw [hname, Option.some.injEq] at holdname
    rw [if_pos rfl]
    constructor
    · intro _ hb
      exact absurd hb hself
    · intro _
      refine ⟨0, ns, rfl, ⟨fun he => absurd he hEINVAL, fun hb => absurd hb hnot⟩,
        fun _ => ⟨rfl, ?_⟩⟩
      exact ⟨htarget, Or.inl ⟨rfl, holdname⟩, fun n _ => ⟨rfl, rfl⟩, kids, h⟩
  | none =>
    rw [if_neg (by simp)]
    cases below with
    | true =>
      have hb : Below ns olddir newdir := hbelow.mp rfl
      rw [if_pos rfl]
      constructor
      · rintro ⟨err, ns', hr, hiff, _⟩ _
        cases hr
        exact hiff.mp rfl
      · intro hcond
        exact ⟨EINVAL, ns, rfl, ⟨fun _ => hcond hb, fun _ => rfl⟩, fun hne => absurd rfl hne⟩
    | false =>
      have hb : ¬Below ns olddir newdir := fun hb => by
        have := hbelow.mpr hb
        cases this
      obtain ⟨ns', hmove, hmoved⟩ := moveNode_moved h hold hnew hisdir hvn hb htarget moved
      rw [if_neg (by decide)]
      constructor
      · intro _ hb'
        exact absurd hb' hb
      · intro _
        refine ⟨0, ns', hmove, ⟨fun he => absurd he hEINVAL, fun hd => absurd (hdetach hd) hb⟩, ?_⟩
        exact fun _ => ⟨rfl, hmoved⟩

/-- The root has the directories `a` and `c`, and `a` has the directory `b`. -/
def threeDirs : Nspace :=
  next (next (next (mounted noNodes 0) (.mkdir 0 (letter 0) 0o755 1))
    (.mkdir 1 (letter 1) 0o755 2)) (.mkdir 0 (letter 2) 0o755 3)

theorem mkdir_kept {dir : ℕ} {name : Name} {perms : Mode} (h : Kept ns)
    (hallowed : dir ∈ ns.live ∧ vn ∉ ns.live) (hroom : ns.nxvnid < maxVnid) :
    Kept (next ns (.mkdir dir name perms vn)) :=
  next_kept _ _ h ⟨hallowed, fun _ => hroom⟩

theorem threeDirs_kept : Kept threeDirs := by
  apply mkdir_kept (mkdir_kept (mkdir_kept ⟨_, mounted_sound noNodes 0⟩ ?_ ?_) ?_ ?_)
  all_goals decide +kernel

theorem rename_to_root_moves :
    RefusesDetaching threeDirs (rootfsRename threeDirs 1 [98] 0 [120] true) 1 [98] 0 [120] 2 := by
  obtain ⟨kids, h⟩ := threeDirs_kept
  refine (rename_refuses_detaching_iff h (by decide +kernel) (by decide +kernel)
    (by decide +kernel) ⟨by decide, by decide, rfl⟩ (by decide) (fun w hw => ?_) true).mpr ?_
  · have hnone : lookup threeDirs 0 [120] = .ok none := rfl
    rw [hnone] at hw
    cases hw
  · intro hb
    exact absurd rfl hb.ne_root

/-- The directory `a` cannot move into `c`, which is not below it. -/
theorem rename_into_sibling_refused :
    Kept threeDirs ∧ Names threeDirs 0 [97] 1 ∧ lookup threeDirs 3 [120] = .ok none ∧
    ∀ moved, ¬RefusesDetaching threeDirs (rootfsRename threeDirs 0 [97] 3 [120] moved)
      0 [97] 3 [120] 1 := by
  refine ⟨threeDirs_kept, ⟨by decide, by decide, rfl⟩, rfl, ?_⟩
  rintro moved ⟨err, ns', hr, hiff, _⟩
  have herr : rootfsRename threeDirs 0 [97] 3 [120] moved = .ok (EINVAL, threeDirs) := rfl
  rw [herr] at hr
  cases hr
  rcases hiff.mp rfl with hvn | hb
  · exact absurd hvn (by decide)
  · cases hb with
    | child _ hpar => exact absurd hpar (by decide +kernel)
    | up _ hup =>
      exact absurd (show parentOf threeDirs 3 = threeDirs.root by decide +kernel) hup.ne_root

end Moves

section Failures
variable {ns : Nspace} {kids : ℕ → List ℕ} {olddir newdir vn w : ℕ} {oldname newname : Name}

/-- What the calls answer that can fail on the way. -/
structure Answers where
  reallocFails : Bool
  getErr : ℤ
  removeErr : ℤ

/-- The name space and the references to its nodes. -/
structure Counted where
  ns : Nspace
  refs : ℕ → ℕ

def Counted.getVnode (s : Counted) (n : ℕ) : Counted :=
  { s with refs := Function.update s.refs n (s.refs n + 1) }

def Counted.putVnode (s : Counted) (n : ℕ) : Counted :=
  { s with refs := Function.update s.refs n (s.refs n - 1) }

/-- `rootfs_rename` with its failures. A `realloc` that works takes the old string away. -/
def rootfsRenameWith (a : Answers) (s : Counted) (olddir : ℕ) (oldname : Name) (newdir : ℕ)
    (newname : Name) : Except Stop (ℤ × Counted) :=
  (renameCheck s.ns olddir oldname newdir newname).bind fun
    | .fail err => .ok (err, s)
    | .same => .ok (0, s)
    | .move vn nvn =>
      if Longer s.ns vn newname ∧ a.reallocFails then .ok (ENOMEM, s)
      else
        let s := { s with ns := reallocName s.ns vn newname true }
        match nvn with
        | none => (moveNode s.ns vn newdir newname).map fun (err, ns) => (err, { s with ns := ns })
        | some nvn =>
          if nvn = s.ns.root then .ok (EBUSY, s)
          else if sIsdir (s.ns.node nvn).mode ∧ s.ns.head nvn ≠ none then .ok (ENOTEMPTY, s)
          else if a.getErr ≠ 0 then .ok (a.getErr, s)
          else
            let s := s.getVnode nvn
            if a.removeErr ≠ 0 then .ok (a.removeErr, s)
            else
              let s := { s with ns := dropVnode s.ns nvn }.putVnode nvn
              (moveNode s.ns vn newdir newname).map fun (err, ns) => (err, { s with ns := ns })

theorem getVnode_putVnode (s : Counted) (n : ℕ) (ns : Nspace) :
    ({ s.getVnode n with ns := ns } : Counted).putVnode n = { s with ns := ns } := by
  unfold Counted.getVnode Counted.putVnode
  simp

/-- When nothing fails on the way, the call is the one of the tree model. -/
theorem rootfsRenameWith_succeeding (s : Counted) (olddir : ℕ) (oldname : Name) (newdir : ℕ)
    (newname : Name) : rootfsRenameWith ⟨false, 0, 0⟩ s olddir oldname newdir newname =
      (rootfsRename s.ns olddir oldname newdir newname true).map fun (err, ns) =>
        (err, { s with ns := ns }) := by
  unfold rootfsRenameWith rootfsRename
  cases renameCheck s.ns olddir oldname newdir newname with
  | error e => rfl
  | ok plan =>
    cases plan with
    | fail err => rfl
    | same => rfl
    | move vn nvn =>
      dsimp only [Except.bind]
      rw [if_neg (by simp)]
      cases nvn with
      | none => rfl
      | some nvn =>
        dsimp only
        split
        · rfl
        split
        · rfl
        rw [if_neg (by simp), if_neg (by simp)]
        rw [getVnode_putVnode { s with ns := reallocName s.ns vn newname true }]
        rfl

/-- Parents, names, lists and references are those of before. -/
structure Untouched (s s' : Counted) : Prop where
  parents : ∀ n, (s'.ns.node n).parent = (s.ns.node n).parent
  names : ∀ n, (s'.ns.node n).name = (s.ns.node n).name
  siblings : s'.ns.links = s.ns.links ∧ s'.ns.head = s.ns.head
  refs : s'.refs = s.refs

def FailsClean (s : Counted) (r : Except Stop (ℤ × Counted)) : Prop :=
  ∃ err s', r = .ok (err, s') ∧ (err ≠ 0 → Untouched s s')

theorem failsClean_iff {s s' : Counted} {err : ℤ} (herr : err ≠ 0) :
    FailsClean s (.ok (err, s')) ↔ Untouched s s' := by
  constructor
  · rintro ⟨_, _, hr, hu⟩
    cases hr
    exact hu herr
  · intro hu
    exact ⟨err, s', rfl, fun _ => hu⟩

/-- The rename of `vn` passes its checks and has the node `w` to replace. -/
structure Replaces (ns : Nspace) (olddir : ℕ) (oldname : Name) (newdir : ℕ) (newname : Name)
    (vn w : ℕ) : Prop where
  old : Names ns olddir oldname vn
  new : Names ns newdir newname w
  apart : w ≠ vn
  allowed : ¬Below ns olddir newdir

/-- A directory that is not empty cannot be replaced. -/
def Full (ns : Nspace) (w : ℕ) : Prop := sIsdir (ns.node w).mode ∧ ns.head w ≠ none

instance (ns : Nspace) (w : ℕ) : Decidable (Full ns w) := inferInstanceAs (Decidable (_ ∧ _))

/-- Behind the `realloc` of the name the call fails with the name given away, or it fails with
the reference to the target taken. -/
def FailsLate (a : Answers) (ns : Nspace) (newname : Name) (vn w : ℕ) : Prop :=
  ¬(Longer ns vn newname ∧ a.reallocFails) ∧
    (Longer ns vn newname ∧ (Full ns w ∨ a.getErr ≠ 0) ∨
      ¬Full ns w ∧ a.getErr = 0 ∧ a.removeErr ≠ 0)

theorem Replaces.check (h : Sound ns kids) (hold : olddir ∈ ns.live) (hnew : newdir ∈ ns.live)
    (hr : Replaces ns olddir oldname newdir newname vn w) :
    renameCheck ns olddir oldname newdir newname = .ok (.move vn (some w)) := by
  obtain ⟨hw, _⟩ := hr.new.child h hnew
  have hisdir := (h.dirs newdir (List.ne_nil_of_mem hw)).2
  obtain ⟨below, hbelow, hcheck⟩ :=
    renameCheck_eq h hold hnew hisdir hr.old ⟨hr.new.1, hr.new.2.1⟩ hr.new.2.2
  rw [hcheck, if_neg (by simpa using hr.apart)]
  cases below with
  | true => exact absurd (hbelow.mp rfl) hr.allowed
  | false => rfl

/-- The other way round: what the checks have seen. -/
theorem check_replaces {nvn : Option ℕ}
    (h : renameCheck ns olddir oldname newdir newname = .ok (.move vn nvn)) :
    Names ns olddir oldname vn ∧ newname ≠ dot ∧ newname ≠ dotdot ∧
      lookup ns newdir newname = .ok nvn ∧ nvn ≠ some vn ∧ ¬Below ns olddir newdir := by
  unfold renameCheck at h
  split at h
  · cases h
  split at h
  · cases h
  rename_i hold
  obtain ⟨_ | x, hfind, h⟩ := bind_ok h
  · cases h
  dsimp only at h
  split at h
  · cases h
  rename_i hnew
  obtain ⟨o, hfind', h⟩ := bind_ok h
  split at h
  · cases h
  rename_i hne
  obtain ⟨below, hbelow, h⟩ := map_ok h
  cases below with
  | true => cases h
  | false =>
    cases h
    obtain ⟨hd, hdd⟩ := not_or.mp hold
    obtain ⟨hd', hdd'⟩ := not_or.mp hnew
    refine ⟨⟨hd, hdd, hfind⟩, hd', hdd', hfind', hne, fun hb => ?_⟩
    have := (isBelow_iff hbelow).mpr hb
    cases this

theorem reallocName_of_short (moved : Bool) (h : ¬Longer ns vn newname) :
    reallocName ns vn newname moved = ns := if_neg fun hm => h hm.1

/-- The string that was given away is missed in a well-formed tree. -/
theorem reallocName_name (h : Longer ns vn newname) :
    ((reallocName ns vn newname true).node vn).name = none := by
  unfold reallocName
  rw [if_pos ⟨h, rfl⟩]
  have hself : (RootfsTree.setNode ns vn { ns.node vn with name := none }).node vn =
      { ns.node vn with name := none } := Function.update_self ..
  rw [hself]

theorem untouched_realloc_iff (s : Counted) (newname : Name) (hnamed : (s.ns.node vn).name ≠ none) :
    Untouched s { s with ns := reallocName s.ns vn newname true } ↔ ¬Longer s.ns vn newname := by
  constructor
  · intro hu hlonger
    apply hnamed
    rw [← hu.names vn]
    exact reallocName_name hlonger
  · intro hshort
    rw [reallocName_of_short true hshort]
    exact ⟨fun _ => rfl, fun _ => rfl, ⟨rfl, rfl⟩, rfl⟩

/-- The `realloc` of a name changes no other node, and neither the root nor the lists. -/
theorem reallocName_keeps (ns : Nspace) (newname : Name) (h : w ≠ vn) (moved : Bool) :
    (reallocName ns vn newname moved).node w = ns.node w ∧
    (reallocName ns vn newname moved).root = ns.root ∧
    (reallocName ns vn newname moved).head = ns.head := by
  obtain ⟨old, hname⟩ := reallocName_eq ns vn newname moved
  rw [hname]
  exact ⟨Function.update_of_ne h _ _, rfl, rfl⟩

/-- How a rename that has a node to replace goes on behind its checks. -/
theorem rename_replacing_eq (h : Sound ns kids) (hold : olddir ∈ ns.live) (hnew : newdir ∈ ns.live)
    (hr : Replaces ns olddir oldname newdir newname vn w) :
    rootfsRename ns olddir oldname newdir newname true =
      if Full ns w then .ok (ENOTEMPTY, reallocName ns vn newname true)
      else moveNode (dropVnode (reallocName ns vn newname true) w) vn newdir newname := by
  have hroot : w ≠ ns.root := (hr.new.child h hnew).2.2
  obtain ⟨hnode, hroot', hhead⟩ := reallocName_keeps ns newname hr.apart true
  unfold rootfsRename
  rw [hr.check h hold hnew]
  dsimp only [Except.bind]
  rw [hroot', if_neg hroot, hnode, hhead]
  rfl

theorem renameWith_replacing_eq (a : Answers) (s : Counted) (h : Sound s.ns kids)
    (hold : olddir ∈ s.ns.live) (hnew : newdir ∈ s.ns.live)
    (hr : Replaces s.ns olddir oldname newdir newname vn w) :
    rootfsRenameWith a s olddir oldname newdir newname =
      if Longer s.ns vn newname ∧ a.reallocFails then .ok (ENOMEM, s)
      else if Full s.ns w then .ok (ENOTEMPTY, { s with ns := reallocName s.ns vn newname true })
      else if a.getErr ≠ 0 then .ok (a.getErr, { s with ns := reallocName s.ns vn newname true })
      else if a.removeErr ≠ 0 then
        .ok (a.removeErr, Counted.getVnode { s with ns := reallocName s.ns vn newname true } w)
      else (moveNode (dropVnode (reallocName s.ns vn newname true) w) vn newdir newname).map
        fun (err, ns) => (err, { s with ns := ns }) := by
  have hroot : w ≠ s.ns.root := (hr.new.child h hnew).2.2
  obtain ⟨hnode, hroot', hhead⟩ := reallocName_keeps s.ns newname hr.apart true
  unfold rootfsRenameWith
  rw [hr.check h hold hnew]
  dsimp only [Except.bind]
  rw [hroot', if_neg hroot, hnode, hhead]
  rw [getVnode_putVnode { s with ns := reallocName s.ns vn newname true }]
  rfl

/-- The outcome of a rename that has a node to replace. -/
theorem rename_replacing_iff (a : Answers) (s : Counted) (h : Sound s.ns kids)
    (hold : olddir ∈ s.ns.live) (hnew : newdir ∈ s.ns.live)
    (hr : Replaces s.ns olddir oldname newdir newname vn w) :
    FailsClean s (rootfsRenameWith a s olddir oldname newdir newname) ↔
      ¬FailsLate a s.ns newname vn w := by
  obtain ⟨hmem, _⟩ := (lookup_eq_some h hold).mp hr.old.2.2
  have hrealloc := untouched_realloc_iff s newname (h.tree.named olddir vn hmem)
  rw [renameWith_replacing_eq a s h hold hnew hr]
  unfold FailsLate
  split
  · rename_i hmemory
    have hkeep : Untouched s s := ⟨fun _ => rfl, fun _ => rfl, ⟨rfl, rfl⟩, rfl⟩
    exact ⟨fun _ hlate => hlate.1 hmemory, fun _ => ⟨ENOMEM, s, rfl, fun _ => hkeep⟩⟩
  rename_i hmemory
  split
  · rename_i hfull
    rw [failsClean_iff (by decide), hrealloc]
    simp only [hmemory, hfull, not_false_eq_true, true_and, true_or, and_true, not_true_eq_false,
      false_and, or_false]
  rename_i hfull
  split
  · rename_i hget
    rw [failsClean_iff hget, hrealloc]
    simp [hmemory, hfull, hget]
  rename_i hget
  split
  · rename_i hremove
    rw [failsClean_iff hremove]
    constructor
    · intro hu _
      have href := congrFun hu.refs w
      simp [Counted.getVnode] at href
    · intro hnot
      exact absurd ⟨hmemory, Or.inr ⟨hfull, not_not.mp hget, hremove⟩⟩ hnot
  · rename_i hremove
    have hlose : ¬LosesName s.ns (renameCheck s.ns olddir oldname newdir newname) newname true := by
      rw [hr.check h hold hnew]
      intro hl
      exact hfull ⟨hl.1, hl.2.1⟩
    obtain ⟨r, hmove, _⟩ := h.rootfsRename hold hnew oldname newname true hlose
    rw [rename_replacing_eq h hold hnew hr, if_neg hfull] at hmove
    rw [hmove]
    constructor
    · rintro _ ⟨_, hlate⟩
      rcases hlate with ⟨_, hf | hg⟩ | ⟨_, _, hm⟩
      · exact hfull hf
      · exact hget hg
      · exact hremove hm
    · intro _
      refine ⟨0, { s with ns := r.2 }, ?_, fun hne => absurd rfl hne⟩
      rw [← (moveNode_node hmove).1]
      rfl

/-- A rename that fails leaves everything as it was exactly if it does not fail late. -/
theorem failed_rename_clean_iff (a : Answers) (s : Counted) (h : Sound s.ns kids)
    (hold : olddir ∈ s.ns.live) (hnew : newdir ∈ s.ns.live) (oldname newname : Name) :
    FailsClean s (rootfsRenameWith a s olddir oldname newdir newname) ↔
      ∀ vn w, Replaces s.ns olddir oldname newdir newname vn w →
        ¬FailsLate a s.ns newname vn w := by
  by_cases hsome : ∃ vn w, Replaces s.ns olddir oldname newdir newname vn w
  · obtain ⟨vn, w, hr⟩ := hsome
    rw [rename_replacing_iff a s h hold hnew hr]
    constructor
    · intro hnot vn' w' hr'
      have heq := (hr.check h hold hnew).symm.trans (hr'.check h hold hnew)
      cases heq
      exact hnot
    · intro hall
      exact hall vn w hr
  · refine ⟨fun _ vn w hr => absurd ⟨vn, w, hr⟩ hsome, fun _ => ?_⟩
    have hkeep : Untouched s s := ⟨fun _ => rfl, fun _ => rfl, ⟨rfl, rfl⟩, rfl⟩
    obtain ⟨plan, hcheck, hplan⟩ := h.renameCheck_spec hold hnew oldname newname
    unfold FailsClean rootfsRenameWith
    rw [hcheck]
    dsimp only [Except.bind]
    cases plan with
    | fail err => exact ⟨err, s, rfl, fun _ => hkeep⟩
    | same => exact ⟨0, s, rfl, fun _ => hkeep⟩
    | move vn nvn =>
      obtain ⟨hvn, hdot, hdotdot, hfind, hne, hbelow⟩ := check_replaces hcheck
      cases nvn with
      | none =>
        dsimp only
        split
        · exact ⟨ENOMEM, s, rfl, fun _ => hkeep⟩
        · obtain ⟨ns', hmove, _⟩ :=
            moveNode_moved h hold hnew (hplan vn none rfl).2.1 hvn hbelow hfind true
          rw [hmove]
          exact ⟨0, _, rfl, fun hne => absurd rfl hne⟩
      | some w =>
        refine absurd ⟨vn, w, hvn, ⟨hdot, hdotdot, hfind⟩, ?_, hbelow⟩ hsome
        intro he
        exact hne (congrArg some he)

/-- The root has the directories `a` and `bb`, and `bb` has the directory `c`. -/
def fullTarget : Nspace :=
  next (next (next (mounted noNodes 0) (.mkdir 0 (letter 0) 0o755 1))
    (.mkdir 0 (letter 1 ++ letter 1) 0o755 2)) (.mkdir 2 (letter 2) 0o755 3)

theorem fullTarget_kept : Kept fullTarget := by
  apply mkdir_kept (mkdir_kept (mkdir_kept ⟨_, mounted_sound noNodes 0⟩ ?_ ?_) ?_ ?_)
  all_goals decide +kernel

/-- A rename to a shorter name whose target cannot be loaded. -/
theorem failed_rename_clean_shorter : FailsClean ⟨fullTarget, fun _ => 1⟩
    (rootfsRenameWith ⟨false, ENOENT, 0⟩ ⟨fullTarget, fun _ => 1⟩ 0 [98, 98] 0 [97]) := by
  obtain ⟨kids, h⟩ := fullTarget_kept
  apply (failed_rename_clean_iff ⟨false, ENOENT, 0⟩ ⟨fullTarget, fun _ => 1⟩ h (by decide +kernel)
    (by decide +kernel) [98, 98] [97]).mpr
  rintro vn w hr ⟨_, ⟨hlonger, _⟩ | ⟨_, hget, _⟩⟩
  · have hfind : lookup fullTarget 0 [98, 98] = .ok (some 2) := rfl
    obtain rfl : 2 = vn := Option.some.inj (Except.ok.inj (hfind.symm.trans hr.old.2.2))
    exact absurd hlonger (by decide +kernel)
  · exact absurd hget (by decide)

/-- The directory `a` loses its name when it shall replace `bb`, which is not empty. -/
theorem rename_to_full_directory_loses_name : Kept fullTarget ∧
    ¬FailsClean ⟨fullTarget, fun _ => 1⟩
      (rootfsRenameWith ⟨false, 0, 0⟩ ⟨fullTarget, fun _ => 1⟩ 0 [97] 0 [98, 98]) := by
  refine ⟨fullTarget_kept, ?_⟩
  have heq : rootfsRenameWith ⟨false, 0, 0⟩ ⟨fullTarget, fun _ => 1⟩ 0 [97] 0 [98, 98] =
      .ok (ENOTEMPTY, ⟨reallocName fullTarget 1 [98, 98] true, fun _ => 1⟩) := rfl
  rw [heq, failsClean_iff (by decide)]
  intro hu
  exact absurd (hu.names 1) (by decide +kernel)

end Failures

end RootfsRenames
