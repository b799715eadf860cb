import Mathlib.Tactic

/-! A cursor over a sorted list that changes between the reads. The cursor keeps the last value
it has returned and goes on behind it, wherever that is by then. -/
namespace SortedCursor

variable {α : Type*} [LinearOrder α]

/-- What is behind the cursor. -/
def after (last : Option α) (xs : List α) : List α :=
  match last with
  | none => xs
  | some a => xs.filter fun x => decide (a < x)

def batch (last : Option α) (xs : List α) (n : ℕ) : List α := (after last xs).take n

/-- What has been seen is sorted, and nothing was passed over that `Stays`. -/
structure Exact (Stays : α → Prop) (seen : List α) : Prop where
  sorted : seen.Pairwise (· < ·)
  complete : ∀ x, Stays x → (∃ a ∈ seen, x ≤ a) → x ∈ seen

section Batches
variable {xs seen : List α} {last : Option α} {n : ℕ} {x : α} {Stays : α → Prop}

theorem mem_after : x ∈ after last xs ↔ x ∈ xs ∧ ∀ a ∈ last, a < x := by
  cases last with
  | none => simp [after]
  | some a => simp [after]

/-- A walk along a sorted list gets behind the cursor. -/
theorem dropWhile_eq_after (hs : xs.Pairwise (· < ·)) (a : α) :
    xs.dropWhile (fun x => decide (x ≤ a)) = after (some a) xs := by
  induction xs with
  | nil => rfl
  | cons x xs ih =>
    obtain ⟨hx, hs⟩ := List.pairwise_cons.mp hs
    rw [List.dropWhile_cons]
    by_cases hle : x ≤ a
    · rw [if_pos (decide_eq_true hle), ih hs]
      simp [after, not_lt.mpr hle]
    · rw [if_neg (by simpa using hle), after, List.filter_eq_self.mpr]
      intro y hy
      rcases List.mem_cons.mp hy with rfl | hy
      · simpa using hle
      · simpa using (not_le.mp hle).trans (hx y hy)

theorem mem_of_mem_batch (h : x ∈ batch last xs n) : x ∈ xs :=
  (mem_after.mp (List.mem_of_mem_take h)).1

theorem after_sorted (last : Option α) (hs : xs.Pairwise (· < ·)) :
    (after last xs).Pairwise (· < ·) := by
  cases last with
  | none => exact hs
  | some a => exact hs.filter _

/-- In a sorted list the last value is the largest. -/
theorem le_getLast (hs : seen.Pairwise (· < ·)) (hx : x ∈ seen) : ∃ a ∈ seen.getLast?, x ≤ a := by
  obtain ⟨ys, a, rfl⟩ := (List.eq_nil_or_concat seen).resolve_left (List.ne_nil_of_mem hx)
  rw [List.concat_eq_append] at *
  refine ⟨a, by simp, ?_⟩
  rcases List.mem_append.mp hx with hx | hx
  · exact ((List.pairwise_append.mp hs).2.2 x hx a List.mem_cons_self).le
  · exact (List.mem_singleton.mp hx).le

theorem mem_take_of_le {a : α} (hs : xs.Pairwise (· < ·)) (ha : a ∈ xs.take n) (hx : x ∈ xs)
    (hle : x ≤ a) : x ∈ xs.take n := by
  rw [← List.take_append_drop n xs] at hs hx
  rcases List.mem_append.mp hx with hx | hx
  · exact hx
  · have := (List.pairwise_append.mp hs).2.2 a ha x hx
    exact absurd hle this.not_ge

theorem Exact.nil : Exact Stays [] :=
  ⟨List.Pairwise.nil, fun _ _ ⟨_, ha, _⟩ => absurd ha List.not_mem_nil⟩

/-- The rule for one read: the list may be any sorted list by then. -/
theorem Exact.append (h : Exact Stays seen) (hs : xs.Pairwise (· < ·)) (n : ℕ) :
    Exact (fun x => Stays x ∧ x ∈ xs) (seen ++ batch seen.getLast? xs n) := by
  have hsorted := after_sorted seen.getLast? hs
  have hbehind : ∀ a ∈ seen, ∀ b ∈ batch seen.getLast? xs n, a < b := by
    intro a ha b hb
    obtain ⟨l, hl, hle⟩ := le_getLast h.sorted ha
    exact lt_of_le_of_lt hle ((mem_after.mp (List.mem_of_mem_take hb)).2 l hl)
  refine ⟨List.pairwise_append.mpr ⟨h.sorted, hsorted.sublist (List.take_sublist _ _), hbehind⟩, ?_⟩
  rintro x ⟨hstays, hx⟩ ⟨a, ha, hle⟩
  by_cases hpassed : ∃ l ∈ seen, x ≤ l
  · exact List.mem_append_left _ (h.complete x hstays hpassed)
  · refine List.mem_append_right _ ?_
    have hafter : x ∈ after seen.getLast? xs := by
      refine mem_after.mpr ⟨hx, fun l hl => ?_⟩
      by_contra hnot
      exact hpassed ⟨l, List.mem_of_getLast? hl, not_lt.mp hnot⟩
    rcases List.mem_append.mp ha with ha | ha
    · exact absurd ⟨a, ha, hle⟩ hpassed
    · exact mem_take_of_le hsorted ha hafter hle

/-- A read of at least one value that returns none has come to the end. -/
theorem Exact.finish (h : Exact Stays seen) (hn : 1 ≤ n) (hend : batch seen.getLast? xs n = [])
    (hx : Stays x) (hmem : x ∈ xs) : x ∈ seen := by
  have hnone : after seen.getLast? xs = [] := by
    rcases List.take_eq_nil_iff.mp hend with h₀ | h₀
    · omega
    · exact h₀
  apply h.complete x hx
  by_contra hnot
  have hafter : x ∈ after seen.getLast? xs := by
    refine mem_after.mpr ⟨hmem, fun l hl => ?_⟩
    by_contra hle
    exact hnot ⟨l, List.mem_of_getLast? hl, not_lt.mp hle⟩
  rw [hnone] at hafter
  exact List.not_mem_nil hafter

end Batches

end SortedCursor
