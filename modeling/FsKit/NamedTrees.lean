import Mathlib.Tactic

/-! Trees whose nodes have a parent and a name. A node is found by its path, which is read from the
node up to the root: the first name of a path is the name of the node itself. -/
namespace NamedTrees

structure NamedTree (α β : Type*) where
  nodes : Set α
  root : α
  parent : α → α
  name : α → β

variable {α β : Type*} {t t' : NamedTree α β} {p q o : List β} {n m d vn : α} {a : β}

/-- The path leads to the node. -/
inductive At (t : NamedTree α β) : List β → α → Prop where
  | root : At t [] t.root
  | child {p : List β} {n : α} (up : At t p (t.parent n)) (mem : n ∈ t.nodes) (ne : n ≠ t.root) :
      At t (t.name n :: p) n

structure WellFormed (t : NamedTree α β) : Prop where
  root : t.root ∈ t.nodes
  found : ∀ n ∈ t.nodes, ∃ p, At t p n
  siblings : ∀ n ∈ t.nodes, ∀ m ∈ t.nodes, n ≠ t.root → m ≠ t.root →
    t.parent n = t.parent m → t.name n = t.name m → n = m

section Paths

theorem at_nil : At t [] n ↔ n = t.root := by
  constructor
  · intro h
    cases h
    rfl
  · rintro rfl
    exact .root

theorem at_cons : At t (a :: p) n ↔
    At t p (t.parent n) ∧ t.name n = a ∧ n ∈ t.nodes ∧ n ≠ t.root := by
  constructor
  · intro h
    cases h with
    | child up mem ne => exact ⟨up, rfl, mem, ne⟩
  · rintro ⟨up, rfl, mem, ne⟩
    exact .child up mem ne

theorem At.mem (h : At t p n) (hw : WellFormed t) : n ∈ t.nodes := by
  cases h with
  | root => exact hw.root
  | child up mem ne => exact mem

/-- A path leads to one node. -/
theorem At.unique (hw : WellFormed t) : ∀ {p : List β} {n m : α}, At t p n → At t p m → n = m := by
  intro p
  induction p with
  | nil =>
    intro n m hn hm
    exact (at_nil.mp hn).trans (at_nil.mp hm).symm
  | cons a p ih =>
    intro n m hn hm
    obtain ⟨hupn, hnamen, hmemn, hnen⟩ := at_cons.mp hn
    obtain ⟨hupm, hnamem, hmemm, hnem⟩ := at_cons.mp hm
    exact hw.siblings n hmemn m hmemm hnen hnem (ih hupn hupm) (hnamen.trans hnamem.symm)

/-- A node has one path. -/
theorem At.path_unique (h : At t p n) : ∀ {q : List β}, At t q n → p = q := by
  induction h with
  | root =>
    intro q hq
    cases hq with
    | root => rfl
    | child up mem ne => exact absurd rfl ne
  | child up mem ne ih =>
    intro q hq
    cases hq with
    | root => exact absurd rfl ne
    | child up' mem' ne' => rw [ih up']

/-- Where a longer path leads to a node, there are nodes on the way. -/
theorem At.suffix (h : At t p n) : ∀ {q : List β}, q <:+ p → ∃ m, At t q m := by
  induction h with
  | root =>
    intro q hq
    rw [List.suffix_nil] at hq
    exact ⟨t.root, hq ▸ .root⟩
  | child up mem ne ih =>
    intro q hq
    rcases List.suffix_cons_iff.mp hq with rfl | hq
    · exact ⟨_, .child up mem ne⟩
    · exact ih hq

end Paths

section Finding

open scoped Classical in
/-- The node that a path leads to. -/
noncomputable def find (t : NamedTree α β) (p : List β) : Option α :=
  if h : ∃ n, At t p n then some h.choose else none

open scoped Classical in
/-- The path that leads to a node. -/
noncomputable def pathOf (t : NamedTree α β) (n : α) : List β :=
  if h : ∃ p, At t p n then h.choose else []

theorem find_eq_some (hw : WellFormed t) : find t p = some n ↔ At t p n := by
  unfold find
  split
  · next h =>
    rw [Option.some_inj]
    constructor
    · rintro rfl
      exact h.choose_spec
    · intro hn
      exact h.choose_spec.unique hw hn
  · next h => exact ⟨fun hn => absurd hn (by simp), fun hn => absurd ⟨n, hn⟩ h⟩

theorem find_eq_none (hw : WellFormed t) : find t p = none ↔ ∀ n, ¬At t p n := by
  rw [Option.eq_none_iff_forall_ne_some]
  exact forall_congr' fun n => not_congr (find_eq_some hw)

theorem at_pathOf (hw : WellFormed t) (hn : n ∈ t.nodes) : At t (pathOf t n) n := by
  have h : ∃ p, At t p n := hw.found n hn
  unfold pathOf
  rw [dif_pos h]
  exact h.choose_spec

/-- What is found by every path is known when it is known where the nodes are. -/
theorem find_eq (hw : WellFormed t) {f : List β → Option α}
    (h : ∀ p n, f p = some n ↔ At t p n) : find t = f := by
  funext p
  refine Option.ext fun n => ?_
  rw [find_eq_some hw, h]

end Finding

section Changes

/-- The nodes of the first tree stand in the second one as before. -/
structure Agrees (t t' : NamedTree α β) (s : Set α) : Prop where
  root : t'.root = t.root
  parent : ∀ n ∈ s, t'.parent n = t.parent n
  name : ∀ n ∈ s, t'.name n = t.name n

/-- A new node below `d`. -/
structure Grown (t t' : NamedTree α β) (vn d : α) (a : β) : Prop where
  agrees : Agrees t t' t.nodes
  nodes : t'.nodes = insert vn t.nodes
  new : vn ∉ t.nodes
  parent : t'.parent vn = d
  name : t'.name vn = a

theorem Grown.at_iff (h : Grown t t' vn d a) (hw : WellFormed t) (hd : At t q d) :
    At t' p n ↔ At t p n ∨ (p = a :: q ∧ n = vn) := by
  have hold : ∀ {p n}, At t p n → At t' p n := by
    intro p n hn
    induction hn with
    | root => exact at_nil.mpr h.agrees.root.symm
    | child up mem ne ih =>
      exact at_cons.mpr ⟨(h.agrees.parent _ mem).symm ▸ ih, h.agrees.name _ mem,
        h.nodes ▸ .inr mem, h.agrees.root.symm ▸ ne⟩
  have hne : vn ≠ t.root := fun he => h.new (he ▸ hw.root)
  constructor
  · intro hn
    induction hn with
    | root => exact .inl (at_nil.mpr h.agrees.root)
    | @child p n up mem ne ih =>
      rw [h.nodes] at mem
      rw [h.agrees.root] at ne
      rcases mem with rfl | mem
      · -- the new node hangs below `d`, whose path is known
        rw [h.parent] at ih
        rcases ih with hup | ⟨-, rfl⟩
        · exact .inr ⟨by rw [h.name, hup.path_unique hd], rfl⟩
        · exact absurd (hd.mem hw) h.new
      · rw [h.agrees.parent n mem] at ih
        rcases ih with hup | ⟨-, he⟩
        · exact .inl (at_cons.mpr ⟨hup, (h.agrees.name n mem).symm, mem, ne⟩)
        · obtain ⟨r, hr⟩ := hw.found n mem
          cases hr with
          | root => exact absurd rfl ne
          | child up' mem' ne' => exact absurd (he ▸ up'.mem hw) h.new
  · rintro (hn | ⟨rfl, rfl⟩)
    · exact hold hn
    · exact at_cons.mpr ⟨h.parent.symm ▸ hold hd, h.name, h.nodes ▸ .inl rfl,
        h.agrees.root.symm ▸ hne⟩

/-- A node without children is gone. -/
structure Shrunk (t t' : NamedTree α β) (vn : α) : Prop where
  agrees : Agrees t t' t'.nodes
  nodes : t'.nodes = t.nodes \ {vn}
  leaf : ∀ n ∈ t.nodes, n ≠ t.root → t.parent n ≠ vn
  ne : vn ≠ t.root

theorem Shrunk.at_iff (h : Shrunk t t' vn) : At t' p n ↔ At t p n ∧ n ≠ vn := by
  constructor
  · intro hn
    induction hn with
    | root => exact ⟨at_nil.mpr h.agrees.root, h.agrees.root ▸ h.ne.symm⟩
    | @child p n up mem ne ih =>
      have hmem := mem
      rw [h.nodes] at hmem
      rw [h.agrees.parent n mem] at ih
      rw [h.agrees.root] at ne
      exact ⟨at_cons.mpr ⟨ih.1, (h.agrees.name n mem).symm, hmem.1, ne⟩, hmem.2⟩
  · rintro ⟨hn, hne⟩
    induction hn with
    | root => exact at_nil.mpr h.agrees.root.symm
    | @child p n up mem ne ih =>
      have hmem : n ∈ t'.nodes := h.nodes ▸ ⟨mem, hne⟩
      exact at_cons.mpr ⟨h.agrees.parent n hmem ▸ ih (h.leaf n mem ne), h.agrees.name n hmem, hmem,
        h.agrees.root.symm ▸ ne⟩

/-- The node hangs below `d` with another name. -/
structure Moved (t t' : NamedTree α β) (vn d : α) (a : β) : Prop where
  agrees : Agrees t t' {n | n ≠ vn}
  nodes : t'.nodes = t.nodes
  parent : t'.parent vn = d
  name : t'.name vn = a
  ne : vn ≠ t.root

variable [DecidableEq β]

/-- A path below `o` as a path below `o'`. -/
def relocate (o o' p : List β) : List β :=
  if o <:+ p then p.take (p.length - o.length) ++ o' else p

theorem relocate_append (o o' p : List β) : relocate o o' (p ++ o) = p ++ o' := by
  simp [relocate]

theorem relocate_of_not (h : ¬o <:+ p) (o' : List β) : relocate o o' p = p := if_neg h

theorem relocate_cons (o' : List β) (h : o ≠ a :: p) :
    relocate o o' (a :: p) = a :: relocate o o' p := by
  by_cases hs : o <:+ p
  · obtain ⟨s, rfl⟩ := hs
    rw [← List.cons_append, relocate_append, relocate_append, List.cons_append]
  · have hs' : ¬o <:+ a :: p := by
      rw [List.suffix_cons_iff]
      exact not_or.mpr ⟨h, hs⟩
    rw [relocate_of_not hs, relocate_of_not hs']

/-- What is below `o` is seen below `o'`. -/
def graft {γ : Type*} (f : List β → Option γ) (o o' p : List β) : Option γ :=
  if o' <:+ p then f (p.take (p.length - o'.length) ++ o) else if o <:+ p then none else f p

/-- The other nodes stay where they are, and the node takes with it what is below it. -/
theorem Moved.at_relocate (h : Moved t t' vn d a) (hw : WellFormed t) (ho : At t o vn)
    (hd : At t q d) (hout : ¬o <:+ q) (hn : At t p n) : At t' (relocate o (a :: q) p) n := by
  have hoff : ∀ {p n}, At t p n → ¬o <:+ p → At t' p n := by
    intro p n hn
    induction hn with
    | root => exact fun _ => at_nil.mpr h.agrees.root.symm
    | @child p n up mem ne ih =>
      intro hs
      rw [List.suffix_cons_iff, not_or] at hs
      have hne : n ≠ vn := by
        rintro rfl
        exact hs.1 (ho.path_unique (.child up mem ne))
      exact at_cons.mpr ⟨(h.agrees.parent n hne).symm ▸ ih hs.2, h.agrees.name n hne,
        h.nodes ▸ mem, h.agrees.root.symm ▸ ne⟩
  induction hn with
  | root =>
    have hs : ¬o <:+ [] := by
      rw [List.suffix_nil]
      rintro rfl
      exact h.ne (at_nil.mp ho)
    rw [relocate_of_not hs]
    exact at_nil.mpr h.agrees.root.symm
  | @child p n up mem ne ih =>
    have hroot : n ≠ t'.root := h.agrees.root.symm ▸ ne
    by_cases hvn : n = vn
    · subst hvn
      have hp : t.name n :: p = [] ++ o := (At.child up mem ne).path_unique ho
      rw [hp, relocate_append, List.nil_append]
      exact at_cons.mpr ⟨h.parent.symm ▸ hoff hd hout, h.name, h.nodes ▸ mem, hroot⟩
    · have hp : o ≠ t.name n :: p := by
        rintro rfl
        exact hvn ((At.child up mem ne).unique hw ho)
      rw [relocate_cons _ hp]
      exact at_cons.mpr ⟨(h.agrees.parent n hvn).symm ▸ ih, h.agrees.name n hvn, h.nodes ▸ mem,
        hroot⟩

/-- What is found by the paths after a node was added. -/
theorem Grown.find (h : Grown t t' vn d a) (hw : WellFormed t) (hw' : WellFormed t')
    (hd : At t q d) (hfree : NamedTrees.find t (a :: q) = none) :
    NamedTrees.find t' = Function.update (NamedTrees.find t) (a :: q) (some vn) := by
  refine find_eq hw' fun p n => ?_
  rw [h.at_iff hw hd]
  by_cases hp : p = a :: q
  · subst hp
    rw [Function.update_self, Option.some_inj]
    constructor
    · rintro rfl
      exact .inr ⟨rfl, rfl⟩
    · rintro (hn | ⟨-, rfl⟩)
      · exact absurd hn ((find_eq_none hw).mp hfree n)
      · rfl
  · rw [Function.update_of_ne hp, find_eq_some hw]
    exact ⟨.inl, fun hn => hn.resolve_right fun hn => hp hn.1⟩

/-- What is found by the paths after a node was taken away. -/
theorem Shrunk.find (h : Shrunk t t' vn) (hw : WellFormed t) (hw' : WellFormed t')
    (hvn : At t p vn) :
    NamedTrees.find t' = Function.update (NamedTrees.find t) p none := by
  refine find_eq hw' fun q n => ?_
  rw [h.at_iff]
  by_cases hq : q = p
  · subst hq
    rw [Function.update_self]
    exact ⟨fun hn => absurd hn (by simp), fun hn => absurd (hn.1.unique hw hvn) hn.2⟩
  · rw [Function.update_of_ne hq, find_eq_some hw]
    refine ⟨fun hn => ⟨hn, ?_⟩, And.left⟩
    rintro rfl
    exact hq (hn.path_unique hvn)

/-- What is found by the paths after a node was moved to a path that was free. -/
theorem Moved.find (h : Moved t t' vn d a) (hw : WellFormed t) (hw' : WellFormed t')
    (ho : At t o vn) (hd : At t q d) (hout : ¬o <:+ q)
    (hfree : NamedTrees.find t (a :: q) = none) :
    NamedTrees.find t' = graft (NamedTrees.find t) o (a :: q) := by
  have hat : ∀ p n, At t' p n ↔ ∃ r, At t r n ∧ relocate o (a :: q) r = p := by
    intro p n
    constructor
    · intro hn
      obtain ⟨r, hr⟩ := hw.found n (h.nodes ▸ hn.mem hw')
      exact ⟨r, hr, (h.at_relocate hw ho hd hout hr).path_unique hn⟩
    · rintro ⟨r, hr, rfl⟩
      exact h.at_relocate hw ho hd hout hr
  refine find_eq hw' fun p n => ?_
  rw [hat]
  unfold graft
  split
  · next hs =>
    -- below the new path there was nothing before
    obtain ⟨s, rfl⟩ := hs
    have htake : (s ++ a :: q).take ((s ++ a :: q).length - (a :: q).length) = s := by simp
    rw [htake, find_eq_some hw]
    constructor
    · intro hn
      exact ⟨s ++ o, hn, relocate_append o (a :: q) s⟩
    · rintro ⟨r, hr, he⟩
      by_cases hor : o <:+ r
      · obtain ⟨s', rfl⟩ := hor
        rw [relocate_append, List.append_cancel_right_eq] at he
        exact he ▸ hr
      · rw [relocate_of_not hor] at he
        obtain ⟨m, hm⟩ := hr.suffix (he ▸ List.suffix_append s (a :: q))
        exact absurd hm ((find_eq_none hw).mp hfree m)
  · next hs =>
    have hstay : ∀ r, relocate o (a :: q) r = p → ¬o <:+ r ∧ r = p := by
      intro r he
      by_cases hor : o <:+ r
      · obtain ⟨s', rfl⟩ := hor
        rw [relocate_append] at he
        exact absurd ⟨s', he⟩ hs
      · exact ⟨hor, (relocate_of_not hor _).symm.trans he⟩
    split
    · next hop =>
      refine ⟨fun hn => absurd hn (by simp), ?_⟩
      rintro ⟨r, hr, he⟩
      obtain ⟨hor, rfl⟩ := hstay r he
      exact absurd hop hor
    · next hop =>
      rw [find_eq_some hw]
      constructor
      · intro hn
        exact ⟨p, hn, relocate_of_not hop _⟩
      · rintro ⟨r, hr, he⟩
        exact (hstay r he).2 ▸ hr

end Changes

end NamedTrees
