import Mathlib.Data.List.DropRight
import Mathlib.Tactic

/-! Lists with a separator: the pieces that stand between the separators, where something does,
and what is put after the last separator. -/
namespace SeparatedLists

variable {α : Type*} [DecidableEq α] {sep : α}

/-- What stands between the separators. Where two of them meet there is no piece. -/
def pieces (sep : α) (xs : List α) : List (List α) := (xs.splitOn sep).filter (· ≠ [])

@[simp] theorem pieces_nil : pieces sep [] = [] := by
  simp [pieces]

theorem pieces_append (xs ys : List α) :
    pieces sep (xs ++ sep :: ys) = pieces sep xs ++ pieces sep ys := by
  unfold pieces
  rw [List.splitOn_append_cons_self, List.filter_append]

theorem pieces_of_notMem {xs : List α} (hne : xs ≠ []) (h : sep ∉ xs) : pieces sep xs = [xs] := by
  unfold pieces
  rw [List.splitOn_eq_singleton h]
  simp [hne]

theorem pieces_sep_cons (xs : List α) : pieces sep (sep :: xs) = pieces sep xs :=
  pieces_append [] xs

theorem pieces_dropWhile (xs : List α) : pieces sep (xs.dropWhile (· = sep)) = pieces sep xs := by
  induction xs with
  | nil => rfl
  | cons x xs ih =>
    by_cases hx : x = sep
    · rw [List.dropWhile_cons_of_pos (by simpa using hx), ih, hx, pieces_sep_cons]
    · rw [List.dropWhile_cons_of_neg (by simpa using hx)]

theorem notMem_takeWhile (xs : List α) : sep ∉ xs.takeWhile (· ≠ sep) := by
  intro hmem
  simpa using List.mem_takeWhile_imp hmem

/-- What is left once a piece has been taken off the front. -/
theorem dropWhile_ne_cases (sep : α) (xs : List α) :
    xs.dropWhile (· ≠ sep) = [] ∨ ∃ ys, xs.dropWhile (· ≠ sep) = sep :: ys := by
  induction xs with
  | nil => exact .inl rfl
  | cons x xs ih =>
    by_cases hx : x = sep
    · rw [List.dropWhile_cons_of_neg (by simpa using hx), hx]
      exact .inr ⟨xs, rfl⟩
    · rw [List.dropWhile_cons_of_pos (by simpa using hx)]
      exact ih

theorem head_dropWhile_ne (xs : List α) : (xs.dropWhile (· = sep)).head? ≠ some sep := by
  induction xs with
  | nil => simp
  | cons x xs ih =>
    by_cases hx : x = sep
    · rw [List.dropWhile_cons_of_pos (by simpa using hx)]
      exact ih
    · rw [List.dropWhile_cons_of_neg (by simpa using hx), List.head?_cons]
      exact fun h => hx (Option.some.inj h)

/-- The first piece of a list that does not start with a separator. -/
theorem pieces_cons {x : α} (xs : List α) (hx : x ≠ sep) :
    pieces sep (x :: xs) = (x :: xs.takeWhile (· ≠ sep)) ::
      pieces sep ((xs.dropWhile (· ≠ sep)).dropWhile (· = sep)) := by
  have hfirst : pieces sep (x :: xs.takeWhile (· ≠ sep)) = [x :: xs.takeWhile (· ≠ sep)] := by
    refine pieces_of_notMem (List.cons_ne_nil _ _) ?_
    rw [List.mem_cons, not_or]
    exact ⟨Ne.symm hx, notMem_takeWhile xs⟩
  have hparts : x :: xs = (x :: xs.takeWhile (· ≠ sep)) ++ xs.dropWhile (· ≠ sep) := by
    rw [List.cons_append, List.takeWhile_append_dropWhile]
  rw [pieces_dropWhile]
  calc pieces sep (x :: xs)
      = pieces sep ((x :: xs.takeWhile (· ≠ sep)) ++ xs.dropWhile (· ≠ sep)) := by rw [← hparts]
    _ = pieces sep (x :: xs.takeWhile (· ≠ sep)) ++ pieces sep (xs.dropWhile (· ≠ sep)) := by
      rcases dropWhile_ne_cases sep xs with hrest | ⟨ys, hrest⟩
      · rw [hrest, pieces_nil, List.append_nil, List.append_nil]
      · rw [hrest, pieces_append, pieces_sep_cons]
    _ = _ := by rw [hfirst, List.singleton_append]

section LastSeparator

theorem notMem_rtakeWhile (sep : α) (xs : List α) : sep ∉ xs.rtakeWhile (· ≠ sep) := by
  intro hmem
  simpa using List.mem_rtakeWhile_imp hmem

/-- What goes up to the last separator ends with it. -/
theorem rdropWhile_ne_cases (sep : α) (xs : List α) :
    xs.rdropWhile (· ≠ sep) = [] ∨ ∃ ys, xs.rdropWhile (· ≠ sep) = ys ++ [sep] := by
  unfold List.rdropWhile
  rcases dropWhile_ne_cases sep xs.reverse with hrest | ⟨ys, hrest⟩
  · rw [hrest]
    exact .inl rfl
  · rw [hrest]
    exact .inr ⟨ys.reverse, List.reverse_cons⟩

/-- What is put after the last separator adds its pieces to those before it. -/
theorem pieces_rdropWhile_append (xs ys : List α) :
    pieces sep (xs.rdropWhile (· ≠ sep) ++ ys) =
      pieces sep (xs.rdropWhile (· ≠ sep)) ++ pieces sep ys := by
  rcases rdropWhile_ne_cases sep xs with hnone | ⟨zs, hsome⟩
  · rw [hnone, pieces_nil, List.nil_append, List.nil_append]
  · rw [hsome, List.append_assoc, List.singleton_append, pieces_append, pieces_append, pieces_nil,
      List.append_nil]

theorem rtakeWhile_mem_splitOn (xs : List α) : xs.rtakeWhile (· ≠ sep) ∈ xs.splitOn sep := by
  have hlast := List.splitOn_eq_singleton (notMem_rtakeWhile sep xs)
  have hparts : xs.rdropWhile (· ≠ sep) ++ xs.rtakeWhile (· ≠ sep) = xs :=
    List.rdropWhile_append_rtakeWhile
  generalize xs.rtakeWhile (· ≠ sep) = last at hlast hparts ⊢
  rcases rdropWhile_ne_cases sep xs with hnone | ⟨ys, hsome⟩
  · rw [hnone, List.nil_append] at hparts
    rw [← hparts, hlast]
    exact List.mem_singleton_self _
  · rw [hsome, List.append_assoc, List.singleton_append] at hparts
    rw [← hparts, List.splitOn_append_cons_self, hlast]
    exact List.mem_append_right _ (List.mem_singleton_self _)

end LastSeparator

end SeparatedLists
