import Mathlib.Tactic

/-! Rules for computations that return a value or stop. -/
namespace FallibleRuns

variable {ε α β : Type*} {S : ε → Prop} {Q : α → Prop} {R : β → Prop} {x : Except ε α}

/-- The computation returns a value with `Q`, or stops for a reason in `S`. -/
def Ends (S : ε → Prop) (Q : α → Prop) : Except ε α → Prop
  | .ok a => Q a
  | .error e => S e

theorem Ends.mono {Q' : α → Prop} (h : Ends S Q x) (hQ : ∀ a, Q a → Q' a) : Ends S Q' x := by
  cases x with
  | ok a => exact hQ a h
  | error e => exact h

theorem Ends.stops {S' : ε → Prop} (h : Ends S Q x) (hS : ∀ e, S e → S' e) : Ends S' Q x := by
  cases x with
  | ok a => exact h
  | error e => exact hS e h

theorem Ends.bind {f : α → Except ε β} (h : Ends S Q x) (hf : ∀ a, Q a → Ends S R (f a)) :
    Ends S R (x.bind f) := by
  cases x with
  | ok a => exact hf a h
  | error e => exact h

theorem Ends.map {f : α → β} (h : Ends S Q x) (hf : ∀ a, Q a → R (f a)) : Ends S R (x.map f) := by
  cases x with
  | ok a => exact hf a h
  | error e => exact h

theorem Ends.of_ok {a : α} (h : Ends S Q x) (hx : x = .ok a) : Q a := by
  rw [hx] at h
  exact h

theorem Ends.returns (h : Ends S Q x) (hS : ∀ e, ¬S e) : ∃ a, x = .ok a ∧ Q a := by
  cases x with
  | ok a => exact ⟨a, rfl, h⟩
  | error e => exact absurd h (hS e)

theorem bind_ok {f : α → Except ε β} {b : β} (h : x.bind f = .ok b) :
    ∃ a, x = .ok a ∧ f a = .ok b := by
  cases x with
  | error e => cases h
  | ok a => exact ⟨a, rfl, h⟩

theorem map_ok {f : α → β} {b : β} (h : x.map f = .ok b) : ∃ a, x = .ok a ∧ f a = b := by
  cases x with
  | error e => cases h
  | ok a => exact ⟨a, rfl, Except.ok.inj h⟩

end FallibleRuns
