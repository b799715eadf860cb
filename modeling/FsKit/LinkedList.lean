import Mathlib.Tactic

/-! Intrusive doubly linked lists. The links sit in the nodes, a list is given by its two
ends, and a node is in a list when the chain of links between the ends passes through it. -/
namespace LinkedList

structure Links (α : Type*) where
  next : α → Option α
  prev : α → Option α

structure Ends (α : Type*) where
  head : Option α
  tail : Option α
  deriving DecidableEq, Repr

section Chains
variable {α : Type*} {l l' : Links α} {e : Ends α}

/-- The nodes follow each other; the first points back to `p`, the last forward to `q`. -/
def Linked (l : Links α) (p : Option α) : List α → Option α → Prop
  | [], _ => True
  | x :: xs, q => l.prev x = p ∧ l.next x = xs.head?.or q ∧ Linked l (some x) xs q

structure IsList (l : Links α) (e : Ends α) (xs : List α) : Prop where
  nodup : xs.Nodup
  head : e.head = xs.head?
  tail : e.tail = xs.getLast?
  linked : Linked l none xs none

theorem Linked.congr {p q : Option α} {xs : List α} (h : Linked l p xs q)
    (hsame : ∀ x ∈ xs, l'.next x = l.next x ∧ l'.prev x = l.prev x) : Linked l' p xs q := by
  induction xs generalizing p with
  | nil => trivial
  | cons x xs ih =>
    obtain ⟨h₁, h₂, h₃⟩ := h
    obtain ⟨s₁, s₂⟩ := hsame x List.mem_cons_self
    refine ⟨by rw [s₂, h₁], by rw [s₁, h₂], ih h₃ ?_⟩
    intro y hy
    exact hsame y (List.mem_cons_of_mem x hy)

theorem linked_append {p q : Option α} {xs ys : List α} :
    Linked l p (xs ++ ys) q ↔
      Linked l p xs (ys.head?.or q) ∧ Linked l (xs.getLast?.or p) ys q := by
  induction xs generalizing p with
  | nil => simp [Linked]
  | cons x xs ih =>
    have hlast : (x :: xs).getLast?.or p = xs.getLast?.or (some x) := by
      cases xs <;> simp [List.getLast?_cons]
    rw [List.cons_append, Linked, Linked, ih, hlast, List.head?_append, Option.or_assoc]
    exact ⟨fun ⟨h₁, h₂, h₃, h₄⟩ => ⟨⟨h₁, h₂, h₃⟩, h₄⟩, fun ⟨⟨h₁, h₂, h₃⟩, h₄⟩ => ⟨h₁, h₂, h₃, h₄⟩⟩

theorem IsList.congr {xs : List α} (h : IsList l e xs)
    (hsame : ∀ x ∈ xs, l'.next x = l.next x ∧ l'.prev x = l.prev x) : IsList l' e xs :=
  ⟨h.nodup, h.head, h.tail, h.linked.congr hsame⟩

/-- The neighbours of a node in a list. -/
theorem IsList.neighbours {xs ys : List α} {x : α} (h : IsList l e (xs ++ x :: ys)) :
    l.prev x = xs.getLast? ∧ l.next x = ys.head? := by
  obtain ⟨_, h₁, h₂, _⟩ := linked_append.mp h.linked
  exact ⟨by rw [h₁, Option.or_none], by rw [h₂, Option.or_none]⟩

theorem IsList.nil : IsList l ⟨none, none⟩ ([] : List α) := ⟨List.nodup_nil, rfl, rfl, trivial⟩

theorem IsList.eq_nil {xs : List α} (h : IsList l e xs) (hnone : e.head = none) : xs = [] := by
  rw [h.head] at hnone
  exact List.head?_eq_none_iff.mp hnone

/-- Next and prev are inverse to each other inside a list. -/
theorem IsList.next_iff_prev {xs : List α} (h : IsList l e xs) {x y : α} (hx : x ∈ xs)
    (hy : y ∈ xs) : l.next x = some y ↔ l.prev y = some x := by
  obtain ⟨as, bs, rfl⟩ := List.append_of_mem hx
  obtain ⟨_, hnext⟩ := h.neighbours
  constructor
  · intro hxy
    rw [hnext] at hxy
    obtain ⟨cs, rfl⟩ : ∃ cs, bs = y :: cs := by
      cases bs with
      | nil => cases hxy
      | cons b cs => exact ⟨cs, by cases hxy; rfl⟩
    have h' : IsList l e ((as ++ [x]) ++ y :: cs) := by simpa using h
    rw [h'.neighbours.1]
    simp
  · intro hyx
    obtain ⟨cs, ds, hsplit⟩ := List.append_of_mem hy
    rw [hsplit] at h
    rw [h.neighbours.1] at hyx
    obtain ⟨cs', rfl⟩ : ∃ cs', cs = cs' ++ [x] := by
      have hne : cs ≠ [] := by rintro rfl; cases hyx
      rw [List.getLast?_eq_some_getLast hne, Option.some.injEq] at hyx
      exact ⟨cs.dropLast, by rw [← hyx, List.dropLast_append_getLast]⟩
    have h' : IsList l e (cs' ++ x :: y :: ds) := by simpa using h
    rw [h'.neighbours.2]
    rfl

end Chains

section Operations
variable {α : Type*} [DecidableEq α] {l : Links α} {e : Ends α}

def Links.setNext (l : Links α) (x : α) (v : Option α) : Links α :=
  { l with next := Function.update l.next x v }

def Links.setPrev (l : Links α) (x : α) (v : Option α) : Links α :=
  { l with prev := Function.update l.prev x v }

@[simp] theorem Links.setNext_prev (l : Links α) (x : α) (v : Option α) :
    (l.setNext x v).prev = l.prev := rfl

@[simp] theorem Links.setPrev_next (l : Links α) (x : α) (v : Option α) :
    (l.setPrev x v).next = l.next := rfl

theorem Links.setNext_next (l : Links α) (x y : α) (v : Option α) :
    (l.setNext x v).next y = if y = x then v else l.next y := Function.update_apply _ _ _ _

theorem Links.setPrev_prev (l : Links α) (x y : α) (v : Option α) :
    (l.setPrev x v).prev y = if y = x then v else l.prev y := Function.update_apply _ _ _ _

/-- Joins what is before a node, or the head, with what is behind it. -/
def joinNext (l : Links α) (e : Ends α) (p n : Option α) : Links α × Ends α :=
  match p with
  | some p => (l.setNext p n, e)
  | none => (l, { e with head := n })

/-- Joins what is behind a node, or the tail, with what is before it. -/
def joinPrev (l : Links α) (e : Ends α) (p n : Option α) : Links α × Ends α :=
  match n with
  | some n => (l.setPrev n p, e)
  | none => (l, { e with tail := p })

/-- Takes a node out of its list. Its own links stay. -/
def unlink (l : Links α) (e : Ends α) (x : α) : Links α × Ends α :=
  let (l, e) := joinNext l e (l.prev x) (l.next x)
  joinPrev l e (l.prev x) (l.next x)

def pushBack (l : Links α) (e : Ends α) (x : α) : Links α × Ends α :=
  let l := (l.setNext x none).setPrev x e.tail
  let (l, e) := joinNext l e e.tail (some x)
  (l, { e with tail := some x })

def pushFront (l : Links α) (e : Ends α) (x : α) : Links α × Ends α :=
  let l := (l.setNext x e.head).setPrev x none
  let (l, e) := joinPrev l e (some x) e.head
  (l, { e with head := some x })

theorem Linked.setNext_last {p q v : Option α} {xs : List α} {x : α} (hx : x ∉ xs)
    (h : Linked l p (xs ++ [x]) q) : Linked (l.setNext x v) p (xs ++ [x]) v := by
  rw [linked_append] at h ⊢
  obtain ⟨h₁, h₂, _, _⟩ := h
  refine ⟨?_, h₂, ?_, trivial⟩
  · refine Linked.congr h₁ fun y hy => ⟨?_, rfl⟩
    rw [Links.setNext_next, if_neg (by rintro rfl; exact hx hy)]
  · rw [Links.setNext_next, if_pos rfl]
    rfl

theorem Linked.setPrev_first {p q v : Option α} {xs : List α} {x : α} (hx : x ∉ xs)
    (h : Linked l p (x :: xs) q) : Linked (l.setPrev x v) v (x :: xs) q := by
  obtain ⟨_, h₂, h₃⟩ := h
  refine ⟨by rw [Links.setPrev_prev, if_pos rfl], h₂, h₃.congr fun y hy => ⟨rfl, ?_⟩⟩
  rw [Links.setPrev_prev, if_neg (by rintro rfl; exact hx hy)]

theorem Linked.setNext_other {p q v : Option α} {xs : List α} {x : α} (hx : x ∉ xs)
    (h : Linked l p xs q) : Linked (l.setNext x v) p xs q :=
  h.congr fun y hy => ⟨by rw [Links.setNext_next, if_neg (by rintro rfl; exact hx hy)], rfl⟩

theorem Linked.setPrev_other {p q v : Option α} {xs : List α} {x : α} (hx : x ∉ xs)
    (h : Linked l p xs q) : Linked (l.setPrev x v) p xs q :=
  h.congr fun y hy => ⟨rfl, by rw [Links.setPrev_prev, if_neg (by rintro rfl; exact hx hy)]⟩

/-- The links outside the list are not touched. -/
theorem unlink_other {xs ys : List α} {x y : α} (h : IsList l e (xs ++ x :: ys))
    (hy : y ∉ xs ++ x :: ys) :
    (unlink l e x).1.next y = l.next y ∧ (unlink l e x).1.prev y = l.prev y := by
  obtain ⟨hp, hn⟩ := h.neighbours
  have hpy : ∀ p, l.prev x = some p → y ≠ p := by
    rintro p hpp rfl
    rw [hp] at hpp
    exact hy (List.mem_append_left _ (List.mem_of_getLast? hpp))
  have hny : ∀ n, l.next x = some n → y ≠ n := by
    rintro n hnn rfl
    rw [hn] at hnn
    exact hy (List.mem_append_right _ (List.mem_cons_of_mem _ (List.mem_of_head? hnn)))
  unfold unlink joinNext joinPrev
  cases hpx : l.prev x with
  | none =>
    cases hnx : l.next x with
    | none => simp [hpx, hnx]
    | some n => simp [hpx, hnx, Links.setPrev_prev, hny n hnx]
  | some p =>
    cases hnx : (l.setNext p (l.next x)).next x with
    | none => simp [hnx, Links.setNext_next, hpy p hpx]
    | some n =>
      have hne : x ≠ p := by
        rintro rfl
        rw [hp] at hpx
        have := List.nodup_append.mp h.nodup
        exact this.2.2 x (List.mem_of_getLast? hpx) x List.mem_cons_self rfl
      rw [Links.setNext_next, if_neg hne] at hnx
      simp [hnx, Links.setNext_next, Links.setPrev_prev, hpy p hpx, hny n hnx, hne]

theorem unlink_isList {xs ys : List α} {x : α} (h : IsList l e (xs ++ x :: ys)) :
    IsList (unlink l e x).1 (unlink l e x).2 (xs ++ ys) := by
  obtain ⟨hp, hn⟩ := h.neighbours
  obtain ⟨hxs, hys, hdis⟩ := List.nodup_append.mp h.nodup
  obtain ⟨hx, hys⟩ := List.nodup_cons.mp hys
  have hx' : x ∉ xs := fun hm => hdis x hm x List.mem_cons_self rfl
  have hnodup : (xs ++ ys).Nodup :=
    List.nodup_append.mpr ⟨hxs, hys, fun a ha b hb => hdis a ha b (List.mem_cons_of_mem _ hb)⟩
  obtain ⟨hl₁, _, _, hl₂⟩ := linked_append.mp h.linked
  have hhead := h.head
  have htail := h.tail
  unfold unlink joinNext joinPrev
  rw [hp, hn]
  rcases List.eq_nil_or_concat xs with rfl | ⟨as, a, rfl⟩
  · cases ys with
    | nil => simpa [hp, hn] using IsList.nil
    | cons b bs =>
      simp only [List.getLast?_nil, List.head?_cons, hp, hn]
      refine ⟨hnodup, rfl, ?_, ?_⟩
      · rw [htail]
        simp
      · exact hl₂.setPrev_first (List.nodup_cons.mp hys).1
  · rw [List.concat_eq_append] at *
    have ha : a ∉ as := by
      intro hm
      exact (List.nodup_append.mp hxs).2.2 a hm a (by simp) rfl
    have hxa : x ≠ a := by
      rintro rfl
      exact hx' (by simp)
    simp only [List.getLast?_append_of_ne_nil _ (List.cons_ne_nil a []), List.getLast?_singleton,
      Links.setNext_next, if_neg hxa, hn, Links.setNext_prev, hp]
    cases ys with
    | nil =>
      simp only [List.head?_nil, List.append_nil]
      refine ⟨hxs, ?_, ?_, hl₁.setNext_last ha⟩
      · rw [hhead]
        simp
      · simp
    | cons b bs =>
      obtain ⟨hb, _⟩ := List.nodup_cons.mp hys
      have hab : ∀ y ∈ as ++ [a], y ≠ b := by
        rintro y hy rfl
        exact hdis y hy y (by simp) rfl
      have haBs : ∀ y ∈ b :: bs, y ≠ a := by
        rintro y hy rfl
        exact hdis y (by simp) y (List.mem_cons_of_mem _ hy) rfl
      simp only [List.head?_cons]
      refine ⟨hnodup, ?_, ?_, linked_append.mpr ⟨?_, ?_⟩⟩
      · rw [hhead]
        simp
      · rw [htail]
        simp
      · exact (hl₁.setNext_last ha).setPrev_other fun hm => hab b hm rfl
      · rw [List.getLast?_append_of_ne_nil _ (List.cons_ne_nil a [])]
        exact (hl₂.setNext_other fun hm => haBs a hm rfl).setPrev_first hb

theorem pushBack_other {xs : List α} {x y : α} (h : IsList l e xs) (hy : y ∉ xs) (hyx : y ≠ x) :
    (pushBack l e x).1.next y = l.next y ∧ (pushBack l e x).1.prev y = l.prev y := by
  unfold pushBack joinNext
  cases ht : e.tail with
  | none => simp [Links.setNext_next, Links.setPrev_prev, hyx]
  | some t =>
    have hty : y ≠ t := by
      rintro rfl
      rw [h.tail] at ht
      exact hy (List.mem_of_getLast? ht)
    simp [Links.setNext_next, Links.setPrev_prev, hyx, hty]

theorem pushBack_isList {xs : List α} {x : α} (h : IsList l e xs) (hx : x ∉ xs) :
    IsList (pushBack l e x).1 (pushBack l e x).2 (xs ++ [x]) := by
  have hnodup : (xs ++ [x]).Nodup := List.nodup_append.mpr
    ⟨h.nodup, List.nodup_singleton x, by
      rintro a ha b hb rfl
      exact hx (by rw [List.mem_singleton.mp hb] at ha; exact ha)⟩
  have hhead := h.head
  have htail := h.tail
  unfold pushBack joinNext
  rw [htail]
  rcases List.eq_nil_or_concat xs with rfl | ⟨as, a, rfl⟩
  · refine ⟨hnodup, rfl, rfl, ?_, ?_, trivial⟩
    · simp [Links.setPrev_prev]
    · simp [Links.setNext_next]
  · rw [List.concat_eq_append] at *
    have ha : a ∉ as := by
      intro hm
      exact (List.nodup_append.mp h.nodup).2.2 a hm a (by simp) rfl
    have hxa : x ≠ a := by
      rintro rfl
      exact hx (by simp)
    simp only [List.getLast?_append_of_ne_nil _ (List.cons_ne_nil a []), List.getLast?_singleton]
    refine ⟨hnodup, ?_, by simp, linked_append.mpr ⟨?_, ?_, ?_, trivial⟩⟩
    · rw [hhead]
      simp
    · exact ((h.linked.setNext_other hx).setPrev_other hx).setNext_last ha
    · simp [Links.setPrev_prev]
    · simp [Links.setNext_next, hxa]

theorem pushFront_other {xs : List α} {x y : α} (h : IsList l e xs) (hy : y ∉ xs) (hyx : y ≠ x) :
    (pushFront l e x).1.next y = l.next y ∧ (pushFront l e x).1.prev y = l.prev y := by
  unfold pushFront joinPrev
  cases ht : e.head with
  | none => simp [Links.setNext_next, Links.setPrev_prev, hyx]
  | some t =>
    have hty : y ≠ t := by
      rintro rfl
      rw [h.head] at ht
      exact hy (List.mem_of_head? ht)
    simp [Links.setNext_next, Links.setPrev_prev, hyx, hty]

theorem pushFront_isList {xs : List α} {x : α} (h : IsList l e xs) (hx : x ∉ xs) :
    IsList (pushFront l e x).1 (pushFront l e x).2 (x :: xs) := by
  have hnodup : (x :: xs).Nodup := List.nodup_cons.mpr ⟨hx, h.nodup⟩
  have hhead := h.head
  have htail := h.tail
  unfold pushFront joinPrev
  rw [hhead]
  cases xs with
  | nil =>
    refine ⟨hnodup, rfl, rfl, ?_, ?_, trivial⟩
    · simp [Links.setPrev_prev]
    · simp [Links.setNext_next]
  | cons b bs =>
    have hxb : x ≠ b := by
      rintro rfl
      exact hx List.mem_cons_self
    simp only [List.head?_cons]
    refine ⟨hnodup, rfl, ?_, ?_, ?_, ?_⟩
    · rw [htail]
      simp [List.getLast?_cons]
    · simp [Links.setPrev_prev, hxb]
    · simp [Links.setNext_next]
    · exact ((h.linked.setNext_other hx).setPrev_other hx).setPrev_first
        (List.nodup_cons.mp h.nodup).1

end Operations

section Families
variable {α ι : Type*} [DecidableEq ι] {l : Links α} {ends : ι → Ends α} {xs : ι → List α}
  {x : α} {i : ι}

/-- Several lists over the same nodes, none of them in two lists. -/
structure Family {α ι : Type*} (l : Links α) (ends : ι → Ends α) (xs : ι → List α) : Prop where
  isList : ∀ i, IsList l (ends i) (xs i)
  apart : ∀ {i j v}, v ∈ xs i → v ∈ xs j → i = j

theorem Family.unlink [DecidableEq α] (h : Family l ends xs) (hx : x ∈ xs i) :
    Family (unlink l (ends i) x).1 (Function.update ends i (unlink l (ends i) x).2)
      (Function.update xs i ((xs i).erase x)) := by
  have hi := h.isList i
  obtain ⟨as, bs, hsplit⟩ := List.append_of_mem hx
  have herase : (xs i).erase x = as ++ bs := by
    have hnodup := hi.nodup
    rw [hsplit] at hnodup ⊢
    have hout := (List.nodup_cons.mp (List.nodup_middle.mp hnodup)).1
    rw [List.erase_append_right _ fun hm => hout (List.mem_append_left _ hm),
      List.erase_cons_head]
  have hsub : ∀ {j v}, v ∈ Function.update xs i ((xs i).erase x) j → v ∈ xs j := by
    intro j v hv
    by_cases hj : j = i
    · subst hj
      rw [Function.update_self] at hv
      exact List.mem_of_mem_erase hv
    · rwa [Function.update_of_ne hj] at hv
  refine ⟨fun j => ?_, fun hv hv' => h.apart (hsub hv) (hsub hv')⟩
  rw [hsplit] at hi
  by_cases hj : j = i
  · subst hj
    rw [Function.update_self, Function.update_self, herase]
    exact unlink_isList hi
  · rw [Function.update_of_ne hj, Function.update_of_ne hj]
    refine (h.isList j).congr fun v hv => unlink_other hi fun hv' => ?_
    rw [← hsplit] at hv'
    exact hj (h.apart hv hv')

theorem Family.push (h : Family l ends xs) (hx : ∀ j, x ∉ xs j) {l' : Links α} {e' : Ends α}
    {ys : List α} (hlist : IsList l' e' ys) (hmem : ∀ v, v ∈ ys ↔ v = x ∨ v ∈ xs i)
    (hother : ∀ v, v ∉ xs i → v ≠ x → l'.next v = l.next v ∧ l'.prev v = l.prev v) :
    Family l' (Function.update ends i e') (Function.update xs i ys) := by
  have hcases : ∀ {j v}, v ∈ Function.update xs i ys j → (v = x ∧ j = i) ∨ v ∈ xs j := by
    intro j v hv
    by_cases hj : j = i
    · subst hj
      rw [Function.update_self, hmem] at hv
      exact hv.imp (fun hv => ⟨hv, rfl⟩) id
    · rw [Function.update_of_ne hj] at hv
      exact Or.inr hv
  constructor
  · intro j
    by_cases hj : j = i
    · subst hj
      rw [Function.update_self, Function.update_self]
      exact hlist
    · rw [Function.update_of_ne hj, Function.update_of_ne hj]
      refine (h.isList j).congr fun v hv => hother v (fun hv' => hj (h.apart hv hv')) ?_
      rintro rfl
      exact hx j hv
  · intro j k v hv hv'
    rcases hcases hv with ⟨rfl, rfl⟩ | hj
    · rcases hcases hv' with ⟨_, rfl⟩ | hk
      · rfl
      · exact absurd hk (hx k)
    · rcases hcases hv' with ⟨rfl, rfl⟩ | hk
      · exact absurd hj (hx j)
      · exact h.apart hj hk

theorem Family.pushBack [DecidableEq α] (h : Family l ends xs) (hx : ∀ j, x ∉ xs j) (i : ι) :
    Family (pushBack l (ends i) x).1 (Function.update ends i (pushBack l (ends i) x).2)
      (Function.update xs i (xs i ++ [x])) :=
  h.push hx (pushBack_isList (h.isList i) (hx i)) (fun v => by simp [or_comm])
    fun _ hv hne => pushBack_other (h.isList i) hv hne

theorem Family.pushFront [DecidableEq α] (h : Family l ends xs) (hx : ∀ j, x ∉ xs j) (i : ι) :
    Family (pushFront l (ends i) x).1 (Function.update ends i (pushFront l (ends i) x).2)
      (Function.update xs i (x :: xs i)) :=
  h.push hx (pushFront_isList (h.isList i) (hx i)) (fun v => by simp)
    fun _ hv hne => pushFront_other (h.isList i) hv hne

end Families

section Heads
variable {α ι : Type*} [DecidableEq α] [DecidableEq ι] {l : Links α} {head : ι → Option α}
  {xs : ι → List α} {x : α} {i : ι}

/-- Lists that keep no pointer to their last node. -/
def HeadFamily {α ι : Type*} (l : Links α) (head : ι → Option α) (xs : ι → List α) : Prop :=
  Family l (fun i => ⟨head i, (xs i).getLast?⟩) xs

/-- `unlink` for a list that is given by its head. -/
def takeOut (l : Links α) (head : Option α) (x : α) : Links α × Option α :=
  let r := match l.prev x with
    | some p => (l.setNext p (l.next x), head)
    | none => (l, l.next x)
  match r.1.next x with
  | some n => (r.1.setPrev n (r.1.prev x), r.2)
  | none => r

/-- Puts a node between two neighbours, or in front of the first. -/
def putBetween (l : Links α) (head : Option α) (p n : Option α) (x : α) : Links α × Option α :=
  let l := l.setNext x n
  let l := match n with
    | some n => l.setPrev n (some x)
    | none => l
  let l := l.setPrev x p
  match p with
  | some p => (l.setNext p (some x), head)
  | none => (l, some x)

theorem takeOut_eq_unlink (l : Links α) (h t : Option α) (x : α) :
    takeOut l h x = ((unlink l ⟨h, t⟩ x).1, (unlink l ⟨h, t⟩ x).2.head) := by
  unfold takeOut unlink joinNext joinPrev
  cases l.prev x with
  | none => cases hn : l.next x <;> simp [hn]
  | some p => cases hn : (l.setNext p (l.next x)).next x <;> simp [hn]

omit [DecidableEq α] in
theorem HeadFamily.of_update {l' : Links α} {e' : Ends α} {ys : List α}
    (h : Family l' (Function.update (fun i => ⟨head i, (xs i).getLast?⟩) i e')
      (Function.update xs i ys)) :
    HeadFamily l' (Function.update head i e'.head) (Function.update xs i ys) := by
  refine ⟨fun j => ?_, h.apart⟩
  have hj := h.isList j
  by_cases hji : j = i
  · subst hji
    rw [Function.update_self, Function.update_self] at hj
    rw [Function.update_self, Function.update_self, ← hj.tail]
    exact hj
  · rw [Function.update_of_ne hji, Function.update_of_ne hji] at hj ⊢
    exact hj

omit [DecidableEq α] [DecidableEq ι] in
theorem HeadFamily.congr {l' : Links α} (h : HeadFamily l head xs)
    (hsame : ∀ i, ∀ x ∈ xs i, l'.next x = l.next x ∧ l'.prev x = l.prev x) :
    HeadFamily l' head xs :=
  ⟨fun i => (h.isList i).congr (hsame i), h.apart⟩

theorem HeadFamily.takeOut (h : HeadFamily l head xs) (hx : x ∈ xs i) :
    HeadFamily (takeOut l (head i) x).1 (Function.update head i (takeOut l (head i) x).2)
      (Function.update xs i ((xs i).erase x)) := by
  rw [takeOut_eq_unlink l (head i) (xs i).getLast? x]
  exact .of_update (Family.unlink h hx)

theorem putBetween_other {p n : Option α} {y : α} {h : Option α} (hp : p ≠ some y)
    (hn : n ≠ some y) (hyx : y ≠ x) :
    (putBetween l h p n x).1.next y = l.next y ∧ (putBetween l h p n x).1.prev y = l.prev y := by
  unfold putBetween
  cases p with
  | none => cases n <;> simp_all [Links.setNext_next, Links.setPrev_prev, Ne.symm]
  | some p => cases n <;> simp_all [Links.setNext_next, Links.setPrev_prev, eq_comm]

theorem putBetween_isList {as bs : List α} {h : Option α}
    (hl : IsList l ⟨h, (as ++ bs).getLast?⟩ (as ++ bs)) (hx : x ∉ as ++ bs) :
    IsList (putBetween l h as.getLast? bs.head? x).1
      ⟨(putBetween l h as.getLast? bs.head? x).2, (as ++ x :: bs).getLast?⟩ (as ++ x :: bs) := by
  have hnodup : (as ++ x :: bs).Nodup := List.nodup_middle.mpr (List.nodup_cons.mpr ⟨hx, hl.nodup⟩)
  obtain ⟨has, hbs, hdis⟩ := List.nodup_append.mp hl.nodup
  have hxas : x ∉ as := fun hm => hx (List.mem_append_left _ hm)
  have hxbs : x ∉ bs := fun hm => hx (List.mem_append_right _ hm)
  obtain ⟨hl₁, hl₂⟩ := linked_append.mp hl.linked
  have hhead := hl.head
  unfold putBetween
  rcases List.eq_nil_or_concat as with rfl | ⟨as, a, rfl⟩
  · refine ⟨hnodup, rfl, rfl, ?_⟩
    cases bs with
    | nil => simp [Linked, Links.setNext_next, Links.setPrev_prev]
    | cons b bs =>
      have hxb : x ≠ b := fun he => hxbs (he ▸ List.mem_cons_self)
      refine ⟨?_, ?_, ?_⟩
      · simp [Links.setPrev_prev]
      · simp [Links.setNext_next]
      · exact ((hl₂.setNext_other hxbs).setPrev_first (List.nodup_cons.mp hbs).1).setPrev_other hxbs
  · rw [List.concat_eq_append] at *
    have ha : a ∉ as := fun hm => (List.nodup_append.mp has).2.2 a hm a (by simp) rfl
    have hxa : x ≠ a := fun he => hxas (by simp [he])
    simp only [List.getLast?_append_of_ne_nil _ (List.cons_ne_nil a []), List.getLast?_singleton]
    refine ⟨hnodup, ?_, by simp, linked_append.mpr ⟨?_, ?_⟩⟩
    · refine hhead.trans ?_
      cases as <;> rfl
    · cases bs with
      | nil => exact ((hl₁.setNext_other hxas).setPrev_other hxas).setNext_last ha
      | cons b bs =>
        have hbas : b ∉ as ++ [a] := fun hm => hdis b hm b List.mem_cons_self rfl
        exact (((hl₁.setNext_other hxas).setPrev_other hbas).setPrev_other hxas).setNext_last ha
    · rw [List.getLast?_append_of_ne_nil _ (List.cons_ne_nil a [])]
      cases bs with
      | nil => simp [Linked, Links.setNext_next, Links.setPrev_prev, hxa]
      | cons b bs =>
        have habs : a ∉ b :: bs := fun hm => hdis a (by simp) a hm rfl
        refine ⟨?_, ?_, ?_⟩
        · simp [Links.setPrev_prev]
        · simp [Links.setNext_next, hxa]
        · exact (((hl₂.setNext_other hxbs).setPrev_first
            (List.nodup_cons.mp hbs).1).setPrev_other hxbs).setNext_other habs

/-- A node that is in no list is put into list `i`, in front of the nodes `bs`. -/
theorem HeadFamily.putBetween (h : HeadFamily l head xs) {as bs : List α} (hsplit : xs i = as ++ bs)
    (hx : ∀ j, x ∉ xs j) :
    HeadFamily (putBetween l (head i) as.getLast? bs.head? x).1
      (Function.update head i (putBetween l (head i) as.getLast? bs.head? x).2)
      (Function.update xs i (as ++ x :: bs)) := by
  have hi : IsList l ⟨head i, (xs i).getLast?⟩ (xs i) := h.isList i
  have hxi := hx i
  rw [hsplit] at hi hxi
  refine .of_update (Family.push h hx (putBetween_isList hi hxi) (fun v => ?_) fun v hv hne => ?_)
  · rw [hsplit]
    simp only [List.mem_append, List.mem_cons]
    tauto
  · rw [hsplit] at hv
    refine putBetween_other (fun he => hv ?_) (fun he => hv ?_) hne
    · exact List.mem_append_left _ (List.mem_of_getLast? he)
    · exact List.mem_append_right _ (List.mem_of_head? he)

end Heads

end LinkedList
