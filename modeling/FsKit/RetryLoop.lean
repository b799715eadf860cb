import Mathlib.Tactic

/-! Loops that repeat their body as long as there is something left to do, and may repeat it for
ever. Such a loop ends unless it comes to a state from which it never gets on; all other
repetitions are paid for by a measure that sinks now and then. -/
namespace RetryLoop

section Loop
variable {σ : Type*} (again : σ → Prop) (body : σ → σ)

/-- The states in which the loop tests. -/
inductive Reaches (s : σ) : σ → Prop where
  | start : Reaches s s
  | step {s' : σ} (h : Reaches s s') (ha : again s') : Reaches s (body s')

variable {again body} in
theorem Reaches.trans {s s' s'' : σ} (h : Reaches again body s s')
    (k : Reaches again body s' s'') : Reaches again body s s'' := by
  induction k with
  | start => exact h
  | step _ ha ih => exact ih.step ha

variable [DecidablePred again]

/-- The loop with at most `n` tests. -/
def retry : ℕ → σ → Option σ
  | 0, _ => none
  | n + 1, s => if again s then retry n (body s) else some s

def EndsIn (s s' : σ) : Prop := ∃ n, retry again body n s = some s'

def Ends (s : σ) : Prop := ∃ s', EndsIn again body s s'

end Loop

section Ending
variable {σ : Type*} {again : σ → Prop} [DecidablePred again] {body : σ → σ} {s s' t : σ}

/-- More tests do no harm. -/
theorem retry_more {n k : ℕ} (h : retry again body n s = some s') (hle : n ≤ k) :
    retry again body k s = some s' := by
  induction n generalizing k s with
  | zero => cases h
  | succ n ih =>
    obtain ⟨k, rfl⟩ := Nat.exists_eq_add_of_le' (Nat.le_trans (Nat.le_add_left 1 n) hle)
    rw [retry] at h ⊢
    split_ifs at h ⊢ with ha
    · exact ih h (Nat.le_of_succ_le_succ hle)
    · exact h

theorem endsIn_done (h : ¬again s) : EndsIn again body s s :=
  ⟨1, if_neg h⟩

theorem endsIn_step (h : again s) : EndsIn again body (body s) t ↔ EndsIn again body s t := by
  constructor
  · rintro ⟨n, hn⟩
    refine ⟨n + 1, ?_⟩
    rw [retry, if_pos h]
    exact hn
  · rintro ⟨n, hn⟩
    cases n with
    | zero => cases hn
    | succ n =>
      rw [retry, if_pos h] at hn
      exact ⟨n, hn⟩

theorem Reaches.endsIn_iff (h : Reaches again body s s') :
    EndsIn again body s' t ↔ EndsIn again body s t := by
  induction h with
  | start => exact Iff.rfl
  | step _ ha ih => exact (endsIn_step ha).trans ih

theorem Reaches.ends_iff (h : Reaches again body s s') :
    Ends again body s' ↔ Ends again body s :=
  exists_congr fun _ => h.endsIn_iff

/-- The loop ends in the state that it comes to with nothing left to do. -/
theorem endsIn_iff : EndsIn again body s s' ↔ Reaches again body s s' ∧ ¬again s' := by
  refine ⟨?_, fun ⟨hreach, hdone⟩ => hreach.endsIn_iff.mp (endsIn_done hdone)⟩
  rintro ⟨n, hn⟩
  induction n generalizing s with
  | zero => cases hn
  | succ n ih =>
    rw [retry] at hn
    split_ifs at hn with ha
    · obtain ⟨hreach, hdone⟩ := ih hn
      exact ⟨(Reaches.start.step ha).trans hreach, hdone⟩
    · obtain rfl := Option.some.inj hn
      exact ⟨.start, ha⟩

variable {Stuck : σ → Prop}

theorem not_ends_of_stuck (hstuck : ∀ s, Stuck s → again s ∧ Stuck (body s)) (h : Stuck s) :
    ¬Ends again body s := by
  rintro ⟨s', n, hn⟩
  induction n generalizing s with
  | zero => cases hn
  | succ n ih =>
    obtain ⟨ha, hbody⟩ := hstuck s h
    rw [retry, if_pos ha] at hn
    exact ih hbody hn

/-- The loop ends exactly if no state that it comes to is stuck. -/
theorem ends_iff (μ : σ → ℕ) (hstuck : ∀ s, Stuck s → again s ∧ Stuck (body s))
    (hprogress : ∀ s, again s → ¬Stuck s →
      ∃ s', Reaches again body s s' ∧ (¬again s' ∨ μ s' < μ s)) (s : σ) :
    Ends again body s ↔ ∀ s', Reaches again body s s' → ¬Stuck s' := by
  constructor
  · intro h s' hreach hs
    exact not_ends_of_stuck hstuck hs (hreach.ends_iff.mpr h)
  · intro h
    induction hm : μ s using Nat.strong_induction_on generalizing s with
    | _ m ih =>
      by_cases ha : again s
      · obtain ⟨s', hreach, hs'⟩ := hprogress s ha (h s .start)
        apply hreach.ends_iff.mp
        rcases hs' with hdone | hless
        · exact ⟨s', endsIn_done hdone⟩
        · exact ih (μ s') (hm ▸ hless) s' (fun u hu => h u (hreach.trans hu)) rfl
      · exact ⟨s, endsIn_done ha⟩

end Ending

end RetryLoop
