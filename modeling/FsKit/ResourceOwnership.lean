import Mathlib.Tactic

/-! Exclusive ownership. Places of some kind hold addresses of a pool with a used mark for
every address; no address is held at two places, and every held address is used. -/
namespace ResourceOwnership

variable {P A : Type*} {owns owns' : P → Prop} {addr addr' : P → A} {used used' : A → Prop}

structure OwnedOnce (owns : P → Prop) (addr : P → A) (used : A → Prop) : Prop where
  marked : ∀ p, owns p → used (addr p)
  once : ∀ p q, owns p → owns q → addr p = addr q → p = q

/-- A place that takes over a fresh address. -/
theorem OwnedOnce.take (h : OwnedOnce owns addr used) (p₀ : P)
    (hold : ∀ p, owns' p → p ≠ p₀ → owns p ∧ addr' p = addr p)
    (hfresh : ¬ used (addr' p₀)) (hnew : used' (addr' p₀))
    (hmono : ∀ a, used a → used' a) : OwnedOnce owns' addr' used' := by
  have apart : ∀ p, owns' p → p ≠ p₀ → addr' p ≠ addr' p₀ := by
    intro p hp hne he
    obtain ⟨ho, ha⟩ := hold p hp hne
    apply hfresh
    rw [← he, ha]
    exact h.marked p ho
  constructor
  · intro p hp
    by_cases he : p = p₀
    · rw [he]; exact hnew
    · obtain ⟨ho, ha⟩ := hold p hp he
      rw [ha]
      exact hmono _ (h.marked p ho)
  · intro p q hp hq he
    by_cases hp₀ : p = p₀
    · by_cases hq₀ : q = p₀
      · rw [hp₀, hq₀]
      · rw [hp₀] at he
        exact absurd he.symm (apart q hq hq₀)
    · by_cases hq₀ : q = p₀
      · rw [hq₀] at he
        exact absurd he (apart p hp hp₀)
      · obtain ⟨ho, ha⟩ := hold p hp hp₀
        obtain ⟨ho', ha'⟩ := hold q hq hq₀
        exact h.once p q ho ho' (by rw [← ha, ← ha', he])

/-- Giving up places and clearing the marks of a set of addresses keeps ownership
exactly when none of the addresses in the set is still held. -/
theorem OwnedOnce.release_iff (h : OwnedOnce owns addr used) {S : A → Prop}
    (hold : ∀ p, owns' p → owns p ∧ addr' p = addr p)
    (hused : ∀ a, used' a ↔ used a ∧ ¬ S a) :
    OwnedOnce owns' addr' used' ↔ ∀ p, owns' p → ¬ S (addr p) := by
  constructor
  · intro h' p hp hs
    have := h'.marked p hp
    rw [(hold p hp).2, hused] at this
    exact this.2 hs
  · intro hkeep
    constructor
    · intro p hp
      rw [(hold p hp).2, hused]
      exact ⟨h.marked p (hold p hp).1, hkeep p hp⟩
    · intro p q hp hq he
      obtain ⟨ho, ha⟩ := hold p hp
      obtain ⟨ho', ha'⟩ := hold q hq
      exact h.once p q ho ho' (by rw [← ha, ← ha', he])

/-- The same places with the same addresses and marks. -/
theorem OwnedOnce.congr (h : OwnedOnce owns addr used)
    (hold : ∀ p, owns' p → owns p ∧ addr' p = addr p)
    (hused : ∀ a, used a → used' a) : OwnedOnce owns' addr' used' := by
  constructor
  · intro p hp
    rw [(hold p hp).2]
    exact hused _ (h.marked p (hold p hp).1)
  · intro p q hp hq he
    obtain ⟨ho, ha⟩ := hold p hp
    obtain ⟨ho', ha'⟩ := hold q hq
    exact h.once p q ho ho' (by rw [← ha, ← ha', he])

end ResourceOwnership
