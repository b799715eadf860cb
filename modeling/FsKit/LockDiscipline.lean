import Mathlib.Tactic

/-! Logs of calls to a cache whose blocks are locked while someone works on them. A log keeps the
discipline when it leaves every lock count as it was and every block it changed marked dirty. Logs
that keep it compose, one after the other and one inside the lock of the other. -/
namespace LockDiscipline

variable {α : Type*}

/-- `getEmpty` clears the bytes of the block and marks it dirty at once. -/
inductive Event (α : Type*) where
  | get (a : α)
  | getEmpty (a : α)
  | modify (a : α)
  | markDirty (a : α)
  | release (a : α)

structure Locks (α : Type*) where
  lock : α → ℤ
  dirty : α → Bool

variable [DecidableEq α]

def Locks.apply (c : Locks α) : Event α → Locks α
  | .get a => { c with lock := Function.update c.lock a (c.lock a + 1) }
  | .getEmpty a => ⟨Function.update c.lock a (c.lock a + 1), Function.update c.dirty a true⟩
  | .modify _ => c
  | .markDirty a => { c with dirty := Function.update c.dirty a true }
  | .release a => { c with lock := Function.update c.lock a (c.lock a - 1) }

def run (c : Locks α) (es : List (Event α)) : Locks α := es.foldl Locks.apply c

omit [DecidableEq α] in
/-- The bytes of block `a` were changed. -/
def Modifies (es : List (Event α)) (a : α) : Prop := .modify a ∈ es ∨ .getEmpty a ∈ es

def Clean (es : List (Event α)) : Prop :=
  ∀ c : Locks α, (run c es).lock = c.lock ∧ ∀ a, Modifies es a → (run c es).dirty a = true

theorem run_append (c : Locks α) (es es' : List (Event α)) :
    run c (es ++ es') = run (run c es) es' := List.foldl_append

theorem apply_dirty_mono (c : Locks α) (e : Event α) {a : α} (h : c.dirty a = true) :
    (c.apply e).dirty a = true := by
  cases e with
  | get b => exact h
  | getEmpty b =>
    refine (Function.update_apply c.dirty b true a).trans ?_
    split
    · rfl
    · exact h
  | modify b => exact h
  | markDirty b =>
    refine (Function.update_apply c.dirty b true a).trans ?_
    split
    · rfl
    · exact h
  | release b => exact h

/-- No call takes a dirty mark away. -/
theorem run_dirty_mono (c : Locks α) (es : List (Event α)) {a : α} (h : c.dirty a = true) :
    (run c es).dirty a = true := by
  induction es generalizing c with
  | nil => exact h
  | cons e es ih => exact ih (c.apply e) (apply_dirty_mono c e h)

theorem run_modify {es : List (Event α)} {a : α} (hes : ∀ e ∈ es, e = .modify a) (c : Locks α) :
    run c es = c := by
  induction es with
  | nil => rfl
  | cons e es ih =>
    rw [hes e List.mem_cons_self]
    exact ih fun e he => hes e (List.mem_cons_of_mem _ he)

theorem Clean.nil : Clean ([] : List (Event α)) := by
  refine fun c => ⟨rfl, fun a h => ?_⟩
  rcases h with h | h <;> cases h

theorem Clean.append {es es' : List (Event α)} (h : Clean es) (h' : Clean es') :
    Clean (es ++ es') := by
  intro c
  rw [run_append]
  refine ⟨(h' _).1.trans (h c).1, fun a hm => ?_⟩
  unfold Modifies at hm
  rw [List.mem_append, List.mem_append] at hm
  rcases hm with (hm | hm) | (hm | hm)
  · exact run_dirty_mono _ es' ((h c).2 a (.inl hm))
  · exact (h' _).2 a (.inl hm)
  · exact run_dirty_mono _ es' ((h c).2 a (.inr hm))
  · exact (h' _).2 a (.inr hm)

/-- A block that is only read, with whatever happens while it is locked. -/
theorem Clean.within {es : List (Event α)} (h : Clean es) (a : α) :
    Clean (.get a :: es ++ [.release a]) := by
  intro c
  have hrun : run c (.get a :: es ++ [.release a]) =
      (run (c.apply (.get a)) es).apply (.release a) := by
    rw [run_append]
    rfl
  rw [hrun]
  constructor
  · have hsame := (h (c.apply (.get a))).1
    generalize run (c.apply (.get a)) es = d at hsame ⊢
    simp only [Locks.apply] at hsame ⊢
    rw [hsame, Function.update_self, add_sub_cancel_right, Function.update_idem,
      Function.update_eq_self]
  · intro b hm
    refine (h (c.apply (.get a))).2 b ?_
    simpa [Modifies] using hm

/-- A block that is changed under its lock. `first` is `get` or `getEmpty`. -/
theorem Clean.store {first : Event α} {a : α} (hfirst : first = .get a ∨ first = .getEmpty a)
    {es : List (Event α)} (hes : ∀ e ∈ es, e = .modify a) :
    Clean (first :: es ++ [.markDirty a, .release a]) := by
  intro c
  have hrun : run c (first :: es ++ [.markDirty a, .release a]) =
      ((c.apply first).apply (.markDirty a)).apply (.release a) := by
    rw [run_append]
    exact congrArg (fun c => run c [.markDirty a, .release a]) (run_modify hes (c.apply first))
  rw [hrun]
  constructor
  · rcases hfirst with rfl | rfl
    all_goals
      simp only [Locks.apply, Function.update_self, add_sub_cancel_right, Function.update_idem,
        Function.update_eq_self]
  · intro b hm
    have hb : b = a := by
      rcases hm with hm | hm
      all_goals
        rcases List.mem_append.mp hm with hm | hm
        · rcases List.mem_cons.mp hm with he | hm
          · rcases hfirst with rfl | rfl <;> cases he <;> rfl
          · have := hes _ hm
            cases this <;> rfl
        · simp at hm
    subst hb
    exact Function.update_self ..

/-- A block that was locked and not released. -/
theorem not_clean_of_kept {first : Event α} {a : α} (hfirst : first = .get a ∨ first = .getEmpty a)
    {es : List (Event α)} (hes : ∀ e ∈ es, e = .modify a) : ¬Clean (first :: es) := by
  intro h
  have hlock := congrFun (h ⟨fun _ => 0, fun _ => false⟩).1 a
  rw [show run _ (first :: es) = _ from run_modify hes (Locks.apply _ first)] at hlock
  rcases hfirst with rfl | rfl
  all_goals simp [Locks.apply] at hlock

end LockDiscipline
