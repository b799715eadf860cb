import Mathlib.Tactic

/-! Life cycles of objects that are handed out by reference. An object with a key is
acquired, is referenced any number of times under one and the same datum, and is disposed of
once, when no reference is left: it is removed if it was marked at the moment its last
reference went, and released at any later time otherwise. A history of actions follows the
protocol when every action is allowed where it stands. -/
namespace LifecycleProtocol

variable {κ δ : Type*}

/-- Where an object is. A doomed one has lost its last reference while marked. -/
inductive Life (δ : Type*) where
  | absent
  | present (data : δ) (refs : ℤ) (marked : Bool)
  | doomed (data : δ)
  deriving DecidableEq, Repr

inductive Act (δ : Type*) where
  | readFailed
  | read (data : δ)
  | created (data : δ)
  | got (data : δ)
  | referenced
  | put
  | mark (marked : Bool)
  | release (data : δ)
  | remove (data : δ)
  deriving DecidableEq, Repr

/-- What an action does to the object it is about; `none` when it is not allowed there. -/
def Life.step [DecidableEq δ] : Life δ → Act δ → Option (Life δ)
  | .absent, .readFailed => some .absent
  | .absent, .read data => some (.present data 0 false)
  | .absent, .created data => some (.present data 1 false)
  | .present data refs marked, .got data' =>
    if data' = data then some (.present data (refs + 1) marked) else none
  | .present data refs marked, .referenced =>
    if 0 < refs then some (.present data (refs + 1) marked) else none
  | .present data refs marked, .put =>
    if refs ≤ 0 then none
    else if refs = 1 ∧ marked = true then some (.doomed data)
    else some (.present data (refs - 1) marked)
  | .present data refs _, .mark marked =>
    if 0 < refs then some (.present data refs marked) else none
  | .present data refs marked, .release data' =>
    if refs = 0 ∧ marked = false ∧ data' = data then some .absent else none
  | .doomed data, .remove data' => if data' = data then some .absent else none
  | _, _ => none

/-- The object of one key after a history, if the history follows the protocol for it. -/
def follow [DecidableEq κ] [DecidableEq δ] (key : κ) : Life δ → List (κ × Act δ) → Option (Life δ)
  | life, [] => some life
  | life, (k, act) :: rest =>
    if k = key then (life.step act).bind fun life => follow key life rest
    else follow key life rest

variable [DecidableEq κ] [DecidableEq δ] {key : κ} {life life' : Life δ}

theorem follow_append (xs ys : List (κ × Act δ)) :
    follow key life (xs ++ ys) = (follow key life xs).bind fun life => follow key life ys := by
  induction xs generalizing life with
  | nil => rfl
  | cons x xs ih =>
    obtain ⟨k, act⟩ := x
    rw [List.cons_append, follow, follow]
    by_cases hk : k = key
    · simp only [if_pos hk]
      cases life.step act with
      | none => rfl
      | some life' => exact ih
    · simp only [if_neg hk]
      exact ih

theorem follow_other {xs : List (κ × Act δ)} {k : κ} (act : Act δ) (hk : k ≠ key)
    (h : follow key .absent xs = some life) :
    follow key .absent (xs ++ [(k, act)]) = some life := by
  rw [follow_append, h]
  simp [follow, hk]

def Act.acquires : Act δ → ℕ
  | .read _ => 1
  | .created _ => 1
  | _ => 0

def Act.disposes : Act δ → ℕ
  | .release _ => 1
  | .remove _ => 1
  | _ => 0

/-- How often the object of a key has been acquired, and how often disposed of. -/
def acquisitions (key : κ) (xs : List (κ × Act δ)) : ℕ :=
  (xs.map fun x => if x.1 = key then x.2.acquires else 0).sum

def disposals (key : κ) (xs : List (κ × Act δ)) : ℕ :=
  (xs.map fun x => if x.1 = key then x.2.disposes else 0).sum

def Life.held : Life δ → ℕ
  | .absent => 0
  | _ => 1

theorem step_held {act : Act δ} (h : life.step act = some life') :
    act.acquires + life.held = act.disposes + life'.held := by
  cases life <;> cases act <;> simp only [Life.step, reduceCtorEq] at h
  all_goals try split_ifs at h
  all_goals cases h; rfl

/-- Acquisitions and disposals take turns, starting with an acquisition. -/
theorem follow_alternates {xs : List (κ × Act δ)} (h : follow key life xs = some life') :
    acquisitions key xs + life.held = disposals key xs + life'.held := by
  induction xs generalizing life with
  | nil =>
    cases h
    rfl
  | cons x xs ih =>
    obtain ⟨k, act⟩ := x
    rw [follow] at h
    by_cases hk : k = key
    · rw [if_pos hk] at h
      obtain ⟨mid, hstep, hrest⟩ := Option.bind_eq_some_iff.mp h
      have hone := step_held hstep
      have hmany := ih hrest
      simp only [acquisitions, disposals, List.map_cons, List.sum_cons, hk, if_true] at hmany ⊢
      omega
    · rw [if_neg hk] at h
      have hmany := ih h
      simp only [acquisitions, disposals, List.map_cons, List.sum_cons, hk, if_false, zero_add]
        at hmany ⊢
      exact hmany

end LifecycleProtocol
