import Mathlib.Tactic
import FsKit.MachineIntegers
import FsKit.SkipListSet
import FsKit.TransitionTrace

/-! Runs of insertions and deletions on a skip list (`sl.c`), for any comparison that is a
total preorder and any node heights. A set of keys that knows nothing of nodes and levels
is kept alongside, and the skip list answers as the set does. Its `count` is an `int`, so it
is the number of keys as long as there are fewer than 2^31 of them. -/
namespace SkipListRuns

open SkipListSet TransitionTrace MachineIntegers

section Code
variable {κ : Type*}

/-- `heads` is how often `rand` stayed below the bound before it did not. -/
def randomLevelSL (heads : ℕ) : ℕ := if maxLevel < heads then maxLevel else heads

inductive Event (κ : Type*) where
  | insert (key : κ) (heads : ℕ)
  | delete (key : κ)
  deriving DecidableEq, Repr

/-- A skip list, and for how many levels each of its nodes was allocated. -/
structure State (κ : Type*) where
  list : SkipList κ
  height : ℕ → ℕ

def initial (null : κ) : State κ := ⟨newSL null, fun _ => 0⟩

variable (cmp : κ → κ → ℤ)

def exec (s : State κ) : Event κ → ℤ × State κ
  | .insert key heads =>
    let random := randomLevelSL heads
    let (ret, l) := insertSL s.list key (cmp · key) random
    (ret, ⟨l, if ret = 1 then
      Function.update s.height s.list.made (min random s.list.level + 1) else s.height⟩)
  | .delete key =>
    let (ok, l) := deleteSL s.list (cmp · key)
    (if ok then 1 else 0, ⟨l, s.height⟩)

def next (s : State κ) (e : Event κ) : State κ := (exec cmp s e).2

/-- The keys inserted and not deleted, as a set, and what the calls answer on it. -/
def setExec (ks : List κ) : Event κ → ℤ × List κ
  | .insert key _ => if ks.any fun k => cmp k key = 0 then (-1, ks) else (1, key :: ks)
  | .delete key =>
    if ks.any fun k => cmp k key = 0 then (1, ks.filter fun k => cmp k key ≠ 0) else (0, ks)

def setNext (ks : List κ) (e : Event κ) : List κ := (setExec cmp ks e).2

def setSearch (ks : List κ) (key : κ) : Option κ := ks.find? fun k => cmp k key = 0

end Code

section Orders
variable {κ : Type*} {cmp : κ → κ → ℤ}

/-- The signs of a comparison order the keys, equal keys being allowed to differ. -/
structure Comparison (cmp : κ → κ → ℤ) : Prop where
  swap : ∀ a b, cmp a b < 0 ↔ 0 < cmp b a
  trans : ∀ a b c, cmp a b ≤ 0 → cmp b c ≤ 0 → cmp a c ≤ 0

theorem Comparison.irrefl (h : Comparison cmp) (a : κ) : ¬cmp a a < 0 := by
  have := h.swap a a
  omega

theorem Comparison.zero_symm (h : Comparison cmp) {a b : κ} (hab : cmp a b = 0) :
    cmp b a = 0 := by
  have h₁ := h.swap a b
  have h₂ := h.swap b a
  omega

theorem Comparison.lt_of_lt_of_le (h : Comparison cmp) {a b c : κ} (hab : cmp a b < 0)
    (hbc : cmp b c ≤ 0) : cmp a c < 0 := by
  rcases lt_or_eq_of_le (h.trans a b c hab.le hbc) with hlt | heq
  · exact hlt
  · -- were `a` and `c` equal, `b` would not be above `a`
    have hca := h.zero_symm heq
    have hba := h.trans b c a hbc hca.le
    have := (h.swap a b).mp hab
    omega

theorem Comparison.fits (h : Comparison cmp) {ks : List κ} (hs : ks.Pairwise (cmp · · < 0))
    (key : κ) : Fits (cmp · key) ks :=
  hs.imp fun hab hbk => h.lt_of_lt_of_le hab hbk

/-- In a strictly increasing list at most one key is equal to a given one. -/
theorem Comparison.unique (h : Comparison cmp) {ks : List κ} (hs : ks.Pairwise (cmp · · < 0))
    {a b key : κ} (ha : a ∈ ks) (hb : b ∈ ks) (hak : cmp a key = 0) (hbk : cmp b key = 0) :
    a = b := by
  have hba : cmp b a ≤ 0 := h.trans b key a hbk.le (h.zero_symm hak).le
  have hab : cmp a b ≤ 0 := h.trans a key b hak.le (h.zero_symm hbk).le
  have hsw := h.swap a b
  have hsw' := h.swap b a
  by_contra hne
  have hall := List.Pairwise.forall_of_forall_of_flip (R := fun x y => x ≠ y → cmp x y ≠ 0)
    (fun x _ hx => absurd rfl hx)
    (hs.imp fun {x y} hxy _ => hxy.ne)
    (hs.imp fun {x y} hxy _ => by
      have := (h.swap x y).mp hxy
      exact this.ne')
  exact hall ha hb hne (by omega)

end Orders

section Runs
variable {κ : Type*} {cmp : κ → κ → ℤ} {s : State κ} {ks : List κ}

/-- A skip list with the levels `L` that holds the keys of a set. -/
structure Represents (cmp : κ → κ → ℤ) (s : State κ) (ks : List κ) (L : ℕ → List ℕ) : Prop where
  levels : Levels s.list L
  sorted : (members s.list).Pairwise (cmp · · < 0)
  height : ∀ x ∈ L 0, ∀ k, x ∈ L k ↔ k < s.height x
  same : (members s.list).Perm ks

theorem represents_initial (null : κ) : Represents cmp (initial null) [] fun _ => [] where
  levels := levels_newSL null
  sorted := by
    change (members (newSL null)).Pairwise _
    rw [(levels_newSL null).members_eq]
    exact List.Pairwise.nil
  height := by simp
  same := by
    change (members (newSL null)).Perm _
    rw [(levels_newSL null).members_eq]
    exact List.Perm.refl _

variable {L : ℕ → List ℕ}

theorem Represents.any_iff (h : Represents cmp s ks L) (key : κ) :
    (ks.any fun k => decide (cmp k key = 0)) = true ↔ ∃ k ∈ members s.list, cmp k key = 0 := by
  rw [List.any_eq_true]
  simp only [decide_eq_true_eq, h.same.mem_iff]

theorem Represents.keys_nodup (h : Represents cmp s ks L) (hcmp : Comparison cmp) :
    ((L 0).map s.list.key).Nodup := by
  have hsorted := h.sorted
  rw [h.levels.members_eq] at hsorted
  refine List.nodup_iff_pairwise_ne.mpr (hsorted.imp ?_)
  rintro a _ hlt rfl
  exact hcmp.irrefl a hlt

theorem Represents.search (h : Represents cmp s ks L) (hcmp : Comparison cmp) (key : κ) :
    searchSL s.list (cmp · key) = setSearch cmp ks key := by
  obtain ⟨hfound, hnone⟩ := searchSL_spec ⟨L, h.levels⟩ (hcmp.fits h.sorted key)
  cases hk : searchSL s.list (cmp · key) with
  | none =>
    symm
    rw [setSearch, List.find?_eq_none]
    intro k hmem
    simpa using hnone hk k (h.same.mem_iff.mpr hmem)
  | some k =>
    obtain ⟨hmem, hzero⟩ := hfound k hk
    cases hf : setSearch cmp ks key with
    | none =>
      have := List.find?_eq_none.mp hf k (h.same.mem_iff.mp hmem)
      simp [hzero] at this
    | some k' =>
      have hzero' : cmp k' key = 0 := by simpa using List.find?_some hf
      have hmem' := h.same.mem_iff.mpr (List.mem_of_find?_eq_some hf)
      rw [hcmp.unique h.sorted hmem hmem' hzero hzero']

theorem randomLevelSL_le (heads : ℕ) : randomLevelSL heads ≤ maxLevel := by
  unfold randomLevelSL
  split <;> omega

theorem mem_enter {l : SkipList κ} {compare : κ → ℤ} {q n k x : ℕ}
    (hsplit : before l compare (L k) ++ behind l compare (L k) = L k) :
    x ∈ enter l compare L q n k ↔ (x = q ∧ k ≤ n) ∨ x ∈ L k := by
  unfold enter
  split
  · rename_i hk
    rw [List.perm_middle.mem_iff, List.mem_cons, hsplit]
    simp [hk]
  · rename_i hk
    simp [hk]

theorem Represents.insert (h : Represents cmp s ks L) (hcmp : Comparison cmp) (key : κ)
    (heads : ℕ) :
    (exec cmp s (.insert key heads)).1 = (setExec cmp ks (.insert key heads)).1 ∧
    ∃ L', Represents cmp (next cmp s (.insert key heads)) (setNext cmp ks (.insert key heads))
      L' := by
  have hfits := hcmp.fits h.sorted key
  unfold next setNext
  by_cases hany : (ks.any fun k => decide (cmp k key = 0)) = true
  · obtain ⟨k, hmem, hzero⟩ := (h.any_iff key).mp hany
    have hdup := h.levels.insertSL_duplicate hfits hmem hzero key (randomLevelSL heads)
    simp only [exec, setExec, hdup, hany, if_true]
    exact ⟨trivial, L, h.levels, h.sorted, h.height, h.same⟩
  · have hnew : ∀ k ∈ members s.list, cmp k key ≠ 0 := by
      intro k hk hzero
      exact hany ((h.any_iff key).mpr ⟨k, hk, hzero⟩)
    obtain ⟨hret, hlevels, hkey, _⟩ :=
      h.levels.insertSL_new hfits hnew key (randomLevelSL_le heads)
    have hmembers := h.levels.members_enter hlevels hkey
    have hsplit := h.levels.split hfits.divides 0
    have hold : members s.list = (before s.list (cmp · key) (L 0)).map s.list.key ++
        (behind s.list (cmp · key) (L 0)).map s.list.key := by
      rw [h.levels.members_eq, ← List.map_append, hsplit]
    simp only [exec, setExec, hret, if_true, if_neg hany]
    refine ⟨trivial, _, hlevels, ?_, ?_, ?_⟩
    · dsimp only
      have hsorted := h.sorted
      rw [hold, List.pairwise_append] at hsorted
      obtain ⟨hs₁, hs₂, hs₃⟩ := hsorted
      have hbelow : ∀ a ∈ (before s.list (cmp · key) (L 0)).map s.list.key, cmp a key < 0 := by
        intro a ha
        obtain ⟨x, hx, rfl⟩ := List.mem_map.mp ha
        exact (mem_before.mp hx).2
      have habove : ∀ b ∈ (behind s.list (cmp · key) (L 0)).map s.list.key, cmp key b < 0 := by
        intro b hb
        have hmem : b ∈ members s.list := by
          rw [hold]
          exact List.mem_append_right _ hb
        obtain ⟨x, hx, rfl⟩ := List.mem_map.mp hb
        have hge := (mem_behind.mp hx).2
        have hne := hnew _ hmem
        exact (hcmp.swap _ _).mpr (by omega)
      rw [hmembers, List.pairwise_append, List.pairwise_cons]
      refine ⟨hs₁, ⟨habove, hs₂⟩, ?_⟩
      intro a ha b hb
      rcases List.mem_cons.mp hb with rfl | hb
      · exact hbelow a ha
      · exact hs₃ a ha b hb
    · intro x hx k
      dsimp only
      rw [mem_enter (h.levels.split hfits.divides k)]
      rw [mem_enter hsplit] at hx
      rcases hx with ⟨rfl, _⟩ | hx
      · rw [Function.update_self]
        have hout : s.list.made ∉ L k := fun hm =>
          (h.levels.made _ (List.mem_cons_of_mem _ ((h.levels.sub_zero k).subset hm))).ne rfl
        simp only [hout, or_false, true_and]
        omega
      · have hne : x ≠ s.list.made := (h.levels.made x (List.mem_cons_of_mem _ hx)).ne
        rw [Function.update_of_ne hne]
        simp only [hne, false_and, false_or]
        exact h.height x hx k
    · dsimp only
      rw [hmembers]
      refine List.perm_middle.trans (List.Perm.cons _ ?_)
      rw [← hold]
      exact h.same

theorem Represents.delete (h : Represents cmp s ks L) (hcmp : Comparison cmp) (key : κ) :
    (exec cmp s (.delete key)).1 = (setExec cmp ks (.delete key)).1 ∧
    ∃ L', Represents cmp (next cmp s (.delete key)) (setNext cmp ks (.delete key)) L' := by
  have hfits := hcmp.fits h.sorted key
  unfold next setNext
  by_cases hany : (ks.any fun k => decide (cmp k key = 0)) = true
  · obtain ⟨k, hmem, hzero⟩ := (h.any_iff key).mp hany
    obtain ⟨q, rest, hq, rfl⟩ := h.levels.found hfits hmem hzero
    obtain ⟨hret, hlevels, hkeys, _⟩ := h.levels.deleteSL_found hfits hq hzero
    have hsub : ∀ k, ((L k).filter (· ≠ q)).Sublist (L k) := fun k => List.filter_sublist
    have hmembers : members (deleteSL s.list (cmp · key)).2 =
        ((L 0).filter (· ≠ q)).map s.list.key := by
      rw [hlevels.members_eq, hkeys]
    simp only [exec, setExec, hret, hany, if_true]
    refine ⟨trivial, _, hlevels, ?_, ?_, ?_⟩
    · dsimp only
      have hsorted := h.sorted
      rw [h.levels.members_eq] at hsorted
      rw [hmembers]
      exact hsorted.sublist ((hsub 0).map _)
    · intro x hx k
      have hx' := (hsub 0).subset hx
      have hne : x ≠ q := by simpa using (List.mem_filter.mp hx).2
      dsimp only
      rw [List.mem_filter]
      simp only [hne, ne_eq, not_false_eq_true, decide_true, and_true]
      exact h.height x hx' k
    · dsimp only
      have hqL : q ∈ L 0 := by
        have hb : q ∈ behind s.list (cmp · key) (L 0) := by rw [hq]; exact List.mem_cons_self
        exact (mem_behind.mp hb).1
      -- the only node that goes is the one whose key compares equal
      have hfilter : ((L 0).filter (· ≠ q)).map s.list.key =
          (members s.list).filter fun k => cmp k key ≠ 0 := by
        rw [h.levels.members_eq, List.filter_map]
        congr 1
        refine List.filter_congr fun x hx => ?_
        have hiff : x = q ↔ cmp (s.list.key x) key = 0 := by
          constructor
          · rintro rfl
            exact hzero
          · intro hx₀
            have hxm : s.list.key x ∈ members s.list := by
              rw [h.levels.members_eq]
              exact List.mem_map_of_mem hx
            exact List.inj_on_of_nodup_map (h.keys_nodup hcmp) hx hqL
              (hcmp.unique h.sorted hxm hmem hx₀ hzero)
        simp [hiff]
      rw [hmembers, hfilter]
      exact h.same.filter _
  · have hnew : ∀ k ∈ members s.list, cmp k key ≠ 0 := by
      intro k hk hzero
      exact hany ((h.any_iff key).mpr ⟨k, hk, hzero⟩)
    have habsent := h.levels.deleteSL_absent hfits hnew
    simp only [exec, setExec, habsent, if_neg hany]
    exact ⟨rfl, L, h.levels, h.sorted, h.height, h.same⟩

theorem Represents.step (h : Represents cmp s ks L) (hcmp : Comparison cmp) (e : Event κ) :
    (exec cmp s e).1 = (setExec cmp ks e).1 ∧
    ∃ L', Represents cmp (next cmp s e) (setNext cmp ks e) L' := by
  cases e with
  | insert key heads => exact h.insert hcmp key heads
  | delete key => exact h.delete hcmp key

theorem Represents.run (h : Represents cmp s ks L) (hcmp : Comparison cmp) (es : List (Event κ)) :
    ∃ L', Represents cmp (runTrace (next cmp) s es) (runTrace (setNext cmp) ks es) L' := by
  induction es generalizing s ks L with
  | nil => exact ⟨L, h⟩
  | cons e es ih =>
    obtain ⟨_, L', h'⟩ := h.step hcmp e
    exact ih h'

/-- The shape of a skip list that holds the keys of a set: chains that end in null, each
strictly increasing and a part of the one below, every node on exactly the levels it was
allocated for, and as many nodes on the bottom level as `NumInSL` says. -/
def Shaped (cmp : κ → κ → ℤ) (s : State κ) (ks : List κ) : Prop :=
  1 ≤ s.list.level ∧ s.list.level ≤ maxNumberOfLevels ∧
  ∃ L : ℕ → List ℕ, (∀ k, Chain s.list k 0 (L k)) ∧
    (∀ k, ((L k).map s.list.key).Pairwise (cmp · · < 0)) ∧
    (∀ k, (L (k + 1)).Sublist (L k)) ∧
    (∀ k, s.list.level ≤ k → L k = []) ∧
    (∀ x ∈ L 0, ∀ k, x ∈ L k ↔ k < s.height x) ∧
    numInSL s.list = (L 0).length ∧ ((L 0).map s.list.key).Perm ks

theorem Represents.length (h : Represents cmp s ks L) : (L 0).length = ks.length := by
  rw [← h.same.length_eq, h.levels.members_eq, List.length_map]

/-- All of the shape is there whatever was done, but for what is read of the count. -/
theorem Represents.shaped_iff (h : Represents cmp s ks L) :
    Shaped cmp s ks ↔ ks.length < 2 ^ 31 := by
  have hmembers := h.levels.members_eq
  constructor
  · rintro ⟨_, _, L', _, _, _, _, _, hcount, hperm⟩
    have hlen : (L' 0).length = ks.length := by rw [← hperm.length_eq, List.length_map]
    rw [hlen] at hcount
    have hlt := toInt32_lt s.list.count
    rw [numInSL] at hcount
    omega
  · intro hlt
    refine ⟨h.levels.level.1, h.levels.level.2, L, h.levels.chain, ?_, h.levels.sub,
      h.levels.above, h.height, ?_, ?_⟩
    · intro k
      have hsorted := h.sorted
      rw [hmembers] at hsorted
      exact hsorted.sublist ((h.levels.sub_zero k).map _)
    · rw [numInSL, h.levels.count, h.length]
      exact toInt32_of_lt (by omega) (by omega)
    · rw [← hmembers]
      exact h.same

/-- After a run: the shape, and the answers of the set to every further call. -/
def SortedSet (cmp : κ → κ → ℤ) (s : State κ) (ks : List κ) : Prop :=
  Shaped cmp s ks ∧ (∀ key, searchSL s.list (cmp · key) = setSearch cmp ks key) ∧
  ∀ e, (exec cmp s e).1 = (setExec cmp ks e).1

theorem Represents.sortedSet_iff (h : Represents cmp s ks L) (hcmp : Comparison cmp) :
    SortedSet cmp s ks ↔ ks.length < 2 ^ 31 := by
  unfold SortedSet
  rw [h.shaped_iff]
  constructor
  · rintro ⟨hlt, _⟩
    exact hlt
  · intro hlt
    exact ⟨hlt, h.search hcmp, fun e => (h.step hcmp e).1⟩

/-- A run leaves a sorted set exactly when the set has fewer than 2^31 keys. -/
theorem skip_list_is_sorted_set_iff (hcmp : Comparison cmp) (null : κ) (es : List (Event κ)) :
    SortedSet cmp (runTrace (next cmp) (initial null) es) (runTrace (setNext cmp) [] es) ↔
      (runTrace (setNext cmp) [] es).length < 2 ^ 31 := by
  obtain ⟨L, h⟩ := (represents_initial null).run hcmp es
  exact h.sortedSet_iff hcmp

theorem comparison_integers : Comparison fun a b : ℤ => a - b where
  swap a b := by constructor <;> intro h <;> omega
  trans a b c h₁ h₂ := by omega

theorem skip_list_is_sorted_set_integers :
    SortedSet (fun a b : ℤ => a - b) (runTrace (next fun a b : ℤ => a - b) (initial 0)
      [.insert 5 2, .insert 3 0, .insert 5 1, .delete 3, .insert 9 40])
      (runTrace (setNext fun a b : ℤ => a - b) []
        [.insert 5 2, .insert 3 0, .insert 5 1, .delete 3, .insert 9 40]) :=
  (skip_list_is_sorted_set_iff comparison_integers 0 _).mpr (by decide)

/-- The first `n` numbers are inserted, each on the bottom level only. -/
def inserts (n : ℕ) : List (Event ℤ) := (List.range n).map fun k => .insert k 0

/-- No two of them are equal, so that all of them are members. -/
theorem runTrace_inserts (n : ℕ) :
    runTrace (setNext fun a b : ℤ => a - b) [] (inserts n) =
      ((List.range n).map (Nat.cast : ℕ → ℤ)).reverse := by
  induction n with
  | zero => rfl
  | succ n ih =>
    have hnew : (((List.range n).map (Nat.cast : ℕ → ℤ)).reverse.any
        fun k => decide (k - (n : ℤ) = 0)) = false := by
      rw [List.any_eq_false]
      intro k hk
      rw [List.mem_reverse, List.mem_map] at hk
      obtain ⟨m, hm, rfl⟩ := hk
      have := List.mem_range.mp hm
      rw [decide_eq_true_eq]
      omega
    have happ : inserts (n + 1) = inserts n ++ [.insert n 0] := by
      simp [inserts, List.range_succ]
    rw [happ, runTrace_append, ih, List.range_succ, List.map_append, List.reverse_append]
    simp [runTrace, setNext, setExec, hnew]

/-- With 2^31 keys the count is below zero. -/
theorem skip_list_count_overflows :
    ¬SortedSet (fun a b : ℤ => a - b)
      (runTrace (next fun a b : ℤ => a - b) (initial 0) (inserts (2 ^ 31)))
      (runTrace (setNext fun a b : ℤ => a - b) [] (inserts (2 ^ 31))) := by
  obtain ⟨L, h⟩ := (represents_initial 0).run comparison_integers (inserts (2 ^ 31))
  rw [h.sortedSet_iff comparison_integers, runTrace_inserts, List.length_reverse,
    List.length_map, List.length_range]
  exact lt_irrefl _

end Runs

end SkipListRuns
