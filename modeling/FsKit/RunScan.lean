import Mathlib.Tactic
import Mathlib.Order.Interval.Finset.Nat

/-! Runs of clear positions in a Boolean sequence, and what a scan from left to right
learns about them: that every run it passed was too short, how long the longest one was, and
how many set positions it counted. A scan that meets a set position behind a run steps over
it without counting it. -/
namespace RunScan

variable {f : ℕ → Bool}

def ClearRun (f : ℕ → Bool) (s l : ℕ) : Prop := ∀ p, s ≤ p → p < s + l → f p = false

/-- Some run of `l` clear positions lies in `[a, e)`. -/
def HasRun (f : ℕ → Bool) (a e l : ℕ) : Prop := ∃ s, a ≤ s ∧ s + l ≤ e ∧ ClearRun f s l

/-- `m` is the length of the longest run in `[a, e)`, where 0 and -1 both stand for none. -/
structure Longest (f : ℕ → Bool) (a e : ℕ) (m : ℤ) : Prop where
  bound : ∀ l, 0 < l → HasRun f a e l → (l : ℤ) ≤ m
  attained : (m = 0 ∨ m = -1) ∨ ∃ l, 0 < l ∧ HasRun f a e l ∧ m = l

/-- The positions that a scan of `[a, e)` counts: set, and not right behind a clear one. -/
def counted (f : ℕ → Bool) (a e : ℕ) : ℕ :=
  ((Finset.Ico a e).filter fun p => f p = true ∧ (p = a ∨ f (p - 1) = true)).card

/-- The scan went over `[a, e)`: `m` and `m'` are the longest run before and after,
`z` and `z'` the numbers of set positions counted. -/
structure Scanned (f : ℕ → Bool) (len a e : ℕ) (m m' : ℤ) (z z' : ℕ) : Prop where
  le : a ≤ e
  short : ∀ l, 0 < l → HasRun f a e l → l < len ∧ (l : ℤ) ≤ m'
  grows : m ≤ m'
  attained : m' = m ∨ m' = 0 ∨ ∃ l, 0 < l ∧ HasRun f a e l ∧ m' = l
  count : z' = z + counted f a e

theorem HasRun.mono {a e a' e' l : ℕ} (h : HasRun f a e l) (ha : a' ≤ a) (he : e ≤ e') :
    HasRun f a' e' l := by
  obtain ⟨s, hs, hl, hrun⟩ := h
  exact ⟨s, by omega, by omega, hrun⟩

theorem HasRun.shorter {a e l k : ℕ} (h : HasRun f a e l) (hk : k ≤ l) : HasRun f a e k := by
  obtain ⟨s, hs, hl, hrun⟩ := h
  exact ⟨s, hs, by omega, fun p hp hp' => hrun p hp (by omega)⟩

/-- A run does not go over a set position. -/
theorem HasRun.split {a e g l : ℕ} (h : HasRun f a g l)
    (hset : e ≤ a ∨ f (e - 1) = true ∨ g ≤ e) : HasRun f a e l ∨ HasRun f e g l := by
  obtain ⟨s, hs, hg, hrun⟩ := h
  by_cases he : e ≤ s
  · exact .inr ⟨s, he, hg, hrun⟩
  · refine .inl ⟨s, hs, ?_, hrun⟩
    by_contra hcross
    rcases hset with hset | hset | hset
    · omega
    · rw [hrun (e - 1) (by omega) (by omega)] at hset
      cases hset
    · omega

@[simp] theorem counted_self (a : ℕ) : counted f a a = 0 := by
  simp [counted]

theorem counted_append {a e g : ℕ} (ha : a ≤ e) (he : e ≤ g) (hset : a = e ∨ f (e - 1) = true) :
    counted f a g = counted f a e + counted f e g := by
  unfold counted
  rw [← Finset.Ico_union_Ico_eq_Ico ha he, Finset.filter_union, Finset.card_union_of_disjoint]
  · congr 2
    refine Finset.filter_congr fun p hp => ?_
    rw [Finset.mem_Ico] at hp
    refine and_congr_right fun _ => ?_
    constructor
    · rintro (rfl | h)
      · exact .inl (by omega)
      · exact .inr h
    · rintro (rfl | h)
      · rcases hset with rfl | h
        · exact .inl rfl
        · exact .inr h
      · exact .inr h
  · exact Finset.disjoint_filter_filter (Finset.Ico_disjoint_Ico_consecutive a e g)

theorem counted_ones {a n : ℕ} (h : ∀ p, a ≤ p → p < a + n → f p = true) :
    counted f a (a + n) = n := by
  unfold counted
  rw [Finset.filter_true_of_mem, Nat.card_Ico, Nat.add_sub_cancel_left]
  intro p hp
  rw [Finset.mem_Ico] at hp
  refine ⟨h p hp.1 hp.2, ?_⟩
  by_cases he : p = a
  · exact .inl he
  · exact .inr (h _ (by omega) (by omega))

theorem counted_run {a l e : ℕ} (h : ClearRun f a l) (he : e ≤ a + l + 1)
    (hl : e = a + l + 1 → 0 < l) :
    counted f a e = 0 := by
  unfold counted
  rw [Finset.card_eq_zero, Finset.filter_eq_empty_iff]
  rintro p hp ⟨hset, hbefore⟩
  rw [Finset.mem_Ico] at hp
  by_cases hin : p < a + l
  · rw [h p hp.1 hin] at hset
    cases hset
  · rcases hbefore with rfl | hbefore
    · omega
    · rw [h (p - 1) (by omega) (by omega)] at hbefore
      cases hbefore

theorem Scanned.refl (len a : ℕ) (m : ℤ) (z : ℕ) : Scanned f len a a m m z z := by
  refine ⟨le_rfl, fun l hl h => ?_, le_rfl, .inl rfl, by simp⟩
  obtain ⟨s, hs, he, _⟩ := h
  omega

theorem Scanned.ones {len a n : ℕ} {m : ℤ} {z : ℕ} (h : ∀ p, a ≤ p → p < a + n → f p = true) :
    Scanned f len a (a + n) m m z (z + n) := by
  refine ⟨by omega, fun l hl hrun => ?_, le_rfl, .inl rfl, by rw [counted_ones h]⟩
  obtain ⟨s, hs, he, hclear⟩ := hrun
  have hset := h s hs (by omega)
  rw [hclear s le_rfl (by omega)] at hset
  cases hset

theorem HasRun.le_of_end {a l e k : ℕ} (h : HasRun f a e k) (hk : 0 < k)
    (hend : e ≤ a + l ∨ e = a + l + 1 ∧ f (a + l) = true) : k ≤ l := by
  obtain ⟨s, hs, he, hclear⟩ := h
  by_contra hlong
  rcases hend with hend | ⟨rfl, hset⟩
  · omega
  · rw [hclear (a + l) (by omega) (by omega)] at hset
    cases hset

/-- A run that is too short, up to the end or with the set position behind it. -/
theorem Scanned.run {len a l e : ℕ} {m : ℤ} {z : ℕ} (hrun : ClearRun f a l) (hl : l < len)
    (hend : e = a + l ∨ e = a + l + 1 ∧ f (a + l) = true ∧ 0 < l) :
    Scanned f len a e m (if m < l then (l : ℤ) else m) z z := by
  have hend' : e ≤ a + l ∨ e = a + l + 1 ∧ f (a + l) = true := by
    rcases hend with rfl | ⟨rfl, hset, _⟩
    · exact .inl le_rfl
    · exact .inr ⟨rfl, hset⟩
  refine ⟨by omega, fun k hk h => ?_, by split <;> omega, ?_, ?_⟩
  · have := h.le_of_end hk hend'
    exact ⟨by omega, by split <;> omega⟩
  · split
    · rcases Nat.eq_zero_or_pos l with rfl | hpos
      · exact .inr (.inl rfl)
      · exact .inr (.inr ⟨l, hpos, ⟨a, le_rfl, by omega, hrun⟩, rfl⟩)
    · exact .inl rfl
  · rw [counted_run hrun (by omega) (by omega), Nat.add_zero]

theorem Scanned.trans {len a e g : ℕ} {m m' m'' : ℤ} {z z' z'' : ℕ}
    (h₁ : Scanned f len a e m m' z z') (h₂ : Scanned f len e g m' m'' z' z'')
    (hset : a = e ∨ f (e - 1) = true) : Scanned f len a g m m'' z z'' := by
  have hle₁ := h₁.le
  have hle₂ := h₂.le
  refine ⟨by omega, fun l hl hrun => ?_, h₁.grows.trans h₂.grows, ?_, ?_⟩
  · have hgrows := h₂.grows
    rcases hrun.split (e := e) (hset.elim (fun h => .inl h.ge) fun h => .inr (.inl h)) with h | h
    · obtain ⟨hshort, hmax⟩ := h₁.short l hl h
      exact ⟨hshort, by omega⟩
    · exact h₂.short l hl h
  · rcases h₂.attained with h | h | ⟨l, hl, hrun, h⟩
    · subst h
      rcases h₁.attained with h | h | ⟨l, hl, hrun, h⟩
      · exact .inl h
      · exact .inr (.inl h)
      · exact .inr (.inr ⟨l, hl, hrun.mono le_rfl hle₂, h⟩)
    · exact .inr (.inl h)
    · exact .inr (.inr ⟨l, hl, hrun.mono hle₁ le_rfl, h⟩)
  · rw [h₂.count, h₁.count, counted_append hle₁ hle₂ hset, Nat.add_assoc]

theorem Scanned.longest {len a e : ℕ} {m : ℤ} {z z' : ℕ} (h : Scanned f len a e (-1) m z z') :
    Longest f a e m := by
  refine ⟨fun l hl hrun => (h.short l hl hrun).2, ?_⟩
  rcases h.attained with h | h | h
  · exact .inl (.inr h)
  · exact .inl (.inl h)
  · exact .inr h

theorem Scanned.noRun {len a e : ℕ} {m m' : ℤ} {z z' : ℕ} (h : Scanned f len a e m m' z z')
    (hlen : 0 < len) : ¬HasRun f a e len := by
  intro hrun
  have := (h.short len hlen hrun).1
  omega

/-- Two overlapping scans: first the right part from `b` on, then the left part from `lo`
up to `x`, which is behind `b` and no run goes over. -/
structure Rescanned (f : ℕ → Bool) (len lo b x e : ℕ) (m : ℤ) (z : ℕ) : Prop where
  noRun : ¬HasRun f lo e len
  longest : Longest f lo e m
  count : z = counted f b e + counted f lo x

theorem Scanned.rescanned {len lo b x e : ℕ} {m m' : ℤ} {z z' : ℕ}
    (h₁ : Scanned f len b e (-1) m 0 z) (h₂ : Scanned f len lo x m m' z z')
    (hlo : lo ≤ b) (hb : b ≤ x) (hx : x ≤ e) (hset : x ≤ lo ∨ f (x - 1) = true ∨ e ≤ x)
    (hlen : 0 < len) :
    Rescanned f len lo b x e m' z' := by
  have hshort : ∀ l, 0 < l → HasRun f lo e l → l < len ∧ (l : ℤ) ≤ m' := by
    intro l hl hrun
    have hgrows := h₂.grows
    rcases hrun.split (e := x) hset with h | h
    · exact h₂.short l hl h
    · obtain ⟨hlt, hmax⟩ := h₁.short l hl (h.mono hb le_rfl)
      exact ⟨hlt, by omega⟩
  refine ⟨fun hrun => ?_, ⟨fun l hl hrun => (hshort l hl hrun).2, ?_⟩, ?_⟩
  · have := (hshort len hlen hrun).1
    omega
  · rcases h₂.attained with h | h | ⟨l, hl, hrun, h⟩
    · subst h
      rcases h₁.longest.attained with h | ⟨l, hl, hrun, h⟩
      · exact .inl h
      · exact .inr ⟨l, hl, hrun.mono hlo le_rfl, h⟩
    · exact .inl (.inl h)
    · exact .inr ⟨l, hl, hrun.mono le_rfl hx, h⟩
  · rw [h₂.count, h₁.count, Nat.zero_add]

end RunScan
