import Mathlib.Tactic

/-! Finite traces of a deterministic transition system whose steps have preconditions.
A property of every state of a trace and a condition on every step of it are compared
by one rule, so that a result about one step becomes a result about whole traces. -/
namespace TransitionTrace

variable {σ ε : Type*} (next : σ → ε → σ)

def runTrace (s : σ) : List ε → σ
  | [] => s
  | e :: es => runTrace (next s e) es

/-- Every step of the trace meets `C` in the state it starts from. -/
def EveryStep (C : σ → ε → Prop) (s : σ) : List ε → Prop
  | [] => True
  | e :: es => C s e ∧ EveryStep C (next s e) es

/-- Some step of the trace meets `C` in the state it starts from. -/
def SomeStep (C : σ → ε → Prop) (s : σ) : List ε → Prop
  | [] => False
  | e :: es => C s e ∨ SomeStep C (next s e) es

/-- Every state of the trace, the first and the last included, satisfies `P`. -/
def EveryState (P : σ → Prop) (s : σ) : List ε → Prop
  | [] => P s
  | e :: es => P s ∧ EveryState P (next s e) es

variable {next}

instance EveryStep.decidable {C : σ → ε → Prop} [∀ s e, Decidable (C s e)] (s : σ) :
    (es : List ε) → Decidable (EveryStep next C s es)
  | [] => .isTrue trivial
  | e :: es =>
    have : Decidable (EveryStep next C (next s e) es) := EveryStep.decidable (next s e) es
    inferInstanceAs (Decidable (C s e ∧ EveryStep next C (next s e) es))

@[simp] theorem runTrace_nil (s : σ) : runTrace next s [] = s := rfl

@[simp] theorem runTrace_cons (s : σ) (e : ε) (es : List ε) :
    runTrace next s (e :: es) = runTrace next (next s e) es := rfl

theorem runTrace_append (s : σ) (es es' : List ε) :
    runTrace next s (es ++ es') = runTrace next (runTrace next s es) es' := by
  induction es generalizing s with
  | nil => rfl
  | cons e es ih => exact ih (next s e)

theorem everyStep_append {C : σ → ε → Prop} {s : σ} {es es' : List ε} :
    EveryStep next C s (es ++ es') ↔
      EveryStep next C s es ∧ EveryStep next C (runTrace next s es) es' := by
  induction es generalizing s with
  | nil => exact ⟨fun h => ⟨trivial, h⟩, fun h => h.2⟩
  | cons e es ih =>
    simp only [List.cons_append, EveryStep, runTrace_cons]
    rw [ih, and_assoc]

theorem someStep_append {C : σ → ε → Prop} {s : σ} {es es' : List ε} :
    SomeStep next C s (es ++ es') ↔
      SomeStep next C s es ∨ SomeStep next C (runTrace next s es) es' := by
  induction es generalizing s with
  | nil => exact ⟨Or.inr, fun h => h.resolve_left id⟩
  | cons e es ih =>
    simp only [List.cons_append, SomeStep, runTrace_cons]
    rw [ih, or_assoc]

theorem EveryState.head {P : σ → Prop} {s : σ} {es : List ε}
    (h : EveryState next P s es) : P s := by
  cases es with
  | nil => exact h
  | cons e es => exact h.1

theorem EveryState.last {P : σ → Prop} {s : σ} {es : List ε}
    (h : EveryState next P s es) : P (runTrace next s es) := by
  induction es generalizing s with
  | nil => exact h
  | cons e es ih => exact ih h.2

theorem EveryState.mono {P Q : σ → Prop} (hpq : ∀ s, P s → Q s) {s : σ} {es : List ε}
    (h : EveryState next P s es) : EveryState next Q s es := by
  induction es generalizing s with
  | nil => exact hpq s h
  | cons e es ih => exact ⟨hpq s h.1, ih h.2⟩

theorem EveryStep.mono {C D : σ → ε → Prop} (hcd : ∀ s e, C s e → D s e) {s : σ} {es : List ε}
    (h : EveryStep next C s es) : EveryStep next D s es := by
  induction es generalizing s with
  | nil => trivial
  | cons e es ih => exact ⟨hcd s e h.1, ih h.2⟩

theorem EveryStep.and {C D : σ → ε → Prop} {s : σ} {es : List ε}
    (h : EveryStep next C s es) (k : EveryStep next D s es) :
    EveryStep next (fun s e => C s e ∧ D s e) s es := by
  induction es generalizing s with
  | nil => trivial
  | cons e es ih => exact ⟨⟨h.1, k.1⟩, ih h.2 k.2⟩

/-- The invariant rule: what every admitted step keeps holds in every state. -/
theorem everyState_of_step {C : σ → ε → Prop} {P : σ → Prop}
    (step : ∀ s e, P s → C s e → P (next s e)) {s : σ} {es : List ε}
    (hs : P s) (h : EveryStep next C s es) : EveryState next P s es := by
  induction es generalizing s with
  | nil => exact hs
  | cons e es ih => exact ⟨hs, ih (step s e hs h.1) h.2⟩

theorem everyStep_of_inv {C D : σ → ε → Prop} {Inv : σ → Prop}
    (keep : ∀ s e, Inv s → C s e → Inv (next s e)) (meets : ∀ s e, Inv s → C s e → D s e)
    {s : σ} {es : List ε} (hi : Inv s) (h : EveryStep next C s es) : EveryStep next D s es := by
  induction es generalizing s with
  | nil => trivial
  | cons e es ih => exact ⟨meets s e hi h.1, ih (keep s e hi h.1) h.2⟩

/-- Two conditions on steps that agree under an invariant agree over whole traces. The
invariant need only survive the steps that meet the conditions. -/
theorem everyStep_congr_of_inv {C D E : σ → ε → Prop} {Inv : σ → Prop}
    (keep : ∀ s e, Inv s → C s e → E s e → Inv (next s e))
    (congr : ∀ s e, Inv s → C s e → (D s e ↔ E s e))
    {s : σ} {es : List ε} (hi : Inv s) (h : EveryStep next C s es) :
    EveryStep next D s es ↔ EveryStep next E s es := by
  induction es generalizing s with
  | nil => exact Iff.rfl
  | cons e es ih =>
    simp only [EveryStep]
    rw [congr s e hi h.1]
    exact and_congr_right fun he => ih (keep s e hi h.1 he) h.2

/-- When, from states with `I` and `P`, a step keeps `P` exactly if it meets `D`, a trace
has `P` in every state exactly if every one of its steps meets `D`. -/
theorem everyState_iff_everyStep {C D : σ → ε → Prop} {I P : σ → Prop}
    (keep : ∀ s e, I s → P s → C s e → P (next s e) → I (next s e))
    (exact_step : ∀ s e, I s → P s → C s e → (P (next s e) ↔ D s e))
    {s : σ} {es : List ε} (hi : I s) (hp : P s) (h : EveryStep next C s es) :
    EveryState next P s es ↔ EveryStep next D s es := by
  induction es generalizing s with
  | nil => exact ⟨fun _ => trivial, fun _ => hp⟩
  | cons e es ih =>
    have hx := exact_step s e hi hp h.1
    constructor
    · rintro ⟨_, ht⟩
      have hn := EveryState.head ht
      exact ⟨hx.mp hn, (ih (keep s e hi hp h.1 hn) hn h.2).mp ht⟩
    · rintro ⟨hd, ht⟩
      have hn := hx.mpr hd
      exact ⟨hp, (ih (keep s e hi hp h.1 hn) hn h.2).mpr ht⟩

end TransitionTrace
