import Mathlib.Tactic
import FsKit.MachineIntegers

/-! Skip lists (`sl.c`) with duplicates not allowed. Nodes are numbered in the order they are
made and the header is node 0; a node that was freed is not used again. A comparison with
the key that is looked for is given as the function of the other key that it is. Allocation
succeeds, and there is no `freeitem`. -/
namespace SkipListSet

open MachineIntegers

def maxNumberOfLevels : ℕ := 16
def maxLevel : ℕ := maxNumberOfLevels - 1

/-- `count` is kept exactly. It is an `int` in the source, which nothing but `numInSL` reads. -/
structure SkipList (κ : Type*) where
  key : ℕ → κ
  forward : ℕ → ℕ → Option ℕ
  level : ℕ
  count : ℤ
  made : ℕ

section Code
variable {κ : Type*}

def newSL (null : κ) : SkipList κ := ⟨fun _ => null, fun _ _ => none, 1, 0, 1⟩

/-- The inner loop of every search: along level `k`, over the nodes with smaller keys. -/
def advance (l : SkipList κ) (compare : κ → ℤ) (k : ℕ) : ℕ → ℕ → ℕ
  | 0, p => p
  | fuel + 1, p =>
    match l.forward p k with
    | some q => if compare (l.key q) < 0 then advance l compare k fuel q else p
    | none => p

/-- The outer loop, from level `k - 1` down. Returns `p` and the array `update`. -/
def descend (l : SkipList κ) (compare : κ → ℤ) : ℕ → ℕ → (ℕ → ℕ) → ℕ × (ℕ → ℕ)
  | 0, p, update => (p, update)
  | k + 1, p, update =>
    let p := advance l compare k l.made p
    descend l compare k p (Function.update update k p)

def setForward (l : SkipList κ) (p k : ℕ) (q : Option ℕ) : SkipList κ :=
  { l with forward := Function.update l.forward p (Function.update (l.forward p) k q) }

/-- Enters node `q` behind `update` on the levels below `k`, from the top. -/
def splice (q : ℕ) (update : ℕ → ℕ) : ℕ → SkipList κ → SkipList κ
  | 0, l => l
  | k + 1, l =>
    let l := setForward l q k (l.forward (update k) k)
    splice q update k (setForward l (update k) k (some q))

/-- `random` is what `RandomLevelSL` returns. -/
def insertSL (l : SkipList κ) (key : κ) (compare : κ → ℤ) (random : ℕ) : ℤ × SkipList κ :=
  let (p, update) := descend l compare l.level 0 (fun _ => 0)
  if (l.forward p 0).any (fun q => compare (l.key q) = 0) then (-1, l)
  else
    let (k, level, update) :=
      if l.level ≤ random then (l.level, l.level + 1, Function.update update l.level 0)
      else (random, l.level, update)
    let q := l.made
    (1, splice q update (k + 1) { l with
      level := level
      made := l.made + 1
      count := l.count + 1
      key := Function.update l.key q key
      forward := Function.update l.forward q fun _ => none })

/-- Takes node `q` out of the levels from `k` on, up to the first it is not in. -/
def unsplice (q : ℕ) (update : ℕ → ℕ) : ℕ → ℕ → SkipList κ → SkipList κ
  | 0, _, l => l
  | todo + 1, k, l =>
    if l.forward (update k) k ≠ some q then l
    else unsplice q update todo (k + 1) (setForward l (update k) k (l.forward q k))

def topLevel (l : SkipList κ) : ℕ → ℕ
  | 0 => 0
  | m + 1 => if l.forward 0 (m + 1) = none then topLevel l m else m + 1

def deleteSL (l : SkipList κ) (compare : κ → ℤ) : Bool × SkipList κ :=
  let (p, update) := descend l compare l.level 0 (fun _ => 0)
  match l.forward p 0 with
  | none => (false, l)
  | some q =>
    if compare (l.key q) = 0 then
      let l := unsplice q update l.level 0 l
      (true, { l with count := l.count - 1, level := topLevel l (l.level - 1) + 1 })
    else (false, l)

def numInSL (l : SkipList κ) : ℤ := toInt32 l.count

def searchSL (l : SkipList κ) (compare : κ → ℤ) : Option κ :=
  match l.forward (descend l compare l.level 0 (fun _ => 0)).1 0 with
  | none => none
  | some q => if compare (l.key q) ≠ 0 then none else some (l.key q)

/-- The keys along level 0. -/
def walk (l : SkipList κ) : ℕ → ℕ → List κ
  | 0, _ => []
  | fuel + 1, p =>
    match l.forward p 0 with
    | none => []
    | some q => l.key q :: walk l fuel q

def members (l : SkipList κ) : List κ := walk l l.made 0

end Code

section Chains
variable {κ : Type*} {l : SkipList κ}

/-- On level `k` the nodes behind `p` are these, and the last one points to null. -/
def Chain (l : SkipList κ) (k p : ℕ) : List ℕ → Prop
  | [] => l.forward p k = none
  | x :: xs => l.forward p k = some x ∧ Chain l k x xs

/-- The last node of a chain behind `p`. -/
def lastOf (p : ℕ) (xs : List ℕ) : ℕ := xs.getLastD p

@[simp] theorem lastOf_nil (p : ℕ) : lastOf p [] = p := rfl

@[simp] theorem lastOf_cons (p x : ℕ) (xs : List ℕ) : lastOf p (x :: xs) = lastOf x xs :=
  List.getLastD_cons

theorem lastOf_append (p : ℕ) (xs ys : List ℕ) :
    lastOf p (xs ++ ys) = lastOf (lastOf p xs) ys := by
  induction xs generalizing p with
  | nil => rfl
  | cons x xs ih => rw [List.cons_append, lastOf_cons, lastOf_cons, ih]

theorem lastOf_mem (p : ℕ) (xs : List ℕ) : lastOf p xs ∈ p :: xs := by
  induction xs generalizing p with
  | nil => simp
  | cons x xs ih =>
    rw [lastOf_cons]
    exact List.mem_cons_of_mem p (ih x)

theorem chain_forward {k p : ℕ} {xs : List ℕ} (h : Chain l k p xs) : l.forward p k = xs.head? := by
  cases xs with
  | nil => exact h
  | cons x xs => exact h.1

theorem chain_unique {k p : ℕ} {xs ys : List ℕ} (hx : Chain l k p xs) (hy : Chain l k p ys) :
    xs = ys := by
  induction xs generalizing p ys with
  | nil =>
    cases ys with
    | nil => rfl
    | cons y ys => exact absurd (hx.symm.trans hy.1) (by simp)
  | cons x xs ih =>
    cases ys with
    | nil => exact absurd (hx.1.symm.trans hy) (by simp)
    | cons y ys =>
      obtain rfl : x = y := by simpa using hx.1.symm.trans hy.1
      rw [ih hx.2 hy.2]

theorem Chain.drop {k p : ℕ} {xs ys : List ℕ} (h : Chain l k p (xs ++ ys)) :
    Chain l k (lastOf p xs) ys := by
  induction xs generalizing p with
  | nil => exact h
  | cons x xs ih =>
    rw [lastOf_cons]
    exact ih h.2

theorem Chain.congr {l' : SkipList κ} {k p : ℕ} {xs : List ℕ} (h : Chain l k p xs)
    (hsame : ∀ x ∈ p :: xs, l'.forward x k = l.forward x k) : Chain l' k p xs := by
  induction xs generalizing p with
  | nil => rw [Chain, hsame p List.mem_cons_self]; exact h
  | cons x xs ih =>
    refine ⟨by rw [hsame p List.mem_cons_self]; exact h.1, ih h.2 fun y hy => ?_⟩
    exact hsame y (List.mem_cons_of_mem p hy)

/-- A chain may be entered at another node that points to its first. -/
theorem Chain.restart {l' : SkipList κ} {k p p' : ℕ} {xs : List ℕ} (h : Chain l k p xs)
    (hp : l'.forward p' k = l.forward p k)
    (hsame : ∀ x ∈ xs, l'.forward x k = l.forward x k) : Chain l' k p' xs := by
  cases xs with
  | nil => rw [Chain, hp]; exact h
  | cons x xs => exact ⟨by rw [hp]; exact h.1, h.2.congr hsame⟩

/-- A chain whose last link is set anew goes on with the new rest. -/
theorem Chain.relink {l' : SkipList κ} {k p : ℕ} {xs ys zs : List ℕ} (h : Chain l k p (xs ++ ys))
    (hnodup : (p :: xs).Nodup)
    (hsame : ∀ x ∈ p :: xs, x ≠ lastOf p xs → l'.forward x k = l.forward x k)
    (hrest : Chain l' k (lastOf p xs) zs) : Chain l' k p (xs ++ zs) := by
  induction xs generalizing p with
  | nil => exact hrest
  | cons x xs ih =>
    rw [lastOf_cons] at hsame hrest
    obtain ⟨hp, hx⟩ := List.nodup_cons.mp hnodup
    refine ⟨?_, ih h.2 hx (fun y hy => hsame y (List.mem_cons_of_mem p hy)) hrest⟩
    rw [hsame p List.mem_cons_self, h.1]
    rintro rfl
    exact hp (lastOf_mem x xs)

theorem walk_eq {fuel p : ℕ} {xs : List ℕ} (h : Chain l 0 p xs) (hf : xs.length < fuel) :
    walk l fuel p = xs.map l.key := by
  induction xs generalizing fuel p with
  | nil =>
    cases fuel with
    | zero => rfl
    | succ fuel => rw [walk, chain_forward h]; rfl
  | cons x xs ih =>
    cases fuel with
    | zero => cases hf
    | succ fuel =>
      simp only [walk, h.1, List.map_cons, List.cons.injEq, true_and]
      exact ih h.2 (by simpa using hf)

theorem advance_eq {compare : κ → ℤ} {k fuel p : ℕ} {xs ys : List ℕ}
    (h : Chain l k p (xs ++ ys)) (hxs : ∀ x ∈ xs, compare (l.key x) < 0)
    (hys : ∀ y ∈ ys, ¬ compare (l.key y) < 0) (hf : xs.length ≤ fuel) :
    advance l compare k fuel p = lastOf p xs := by
  induction xs generalizing fuel p with
  | nil =>
    have hp := chain_forward h
    cases fuel with
    | zero => rfl
    | succ fuel =>
      cases ys with
      | nil => simp [advance, hp]
      | cons y ys => simp [advance, hp, hys y List.mem_cons_self]
  | cons x xs ih =>
    cases fuel with
    | zero => cases hf
    | succ fuel =>
      rw [advance, h.1, lastOf_cons]
      simp only [hxs x List.mem_cons_self, if_true]
      exact ih h.2 (fun y hy => hxs y (List.mem_cons_of_mem x hy)) (by simpa using hf)

end Chains

section Levels
variable {κ : Type*} {l : SkipList κ} {L : ℕ → List ℕ} {compare : κ → ℤ}

/-- The levels of a skip list: chains that end in null, each a part of the one below. -/
structure Levels (l : SkipList κ) (L : ℕ → List ℕ) : Prop where
  chain : ∀ k, Chain l k 0 (L k)
  sub : ∀ k, (L (k + 1)).Sublist (L k)
  nodup : (0 :: L 0).Nodup
  made : ∀ x ∈ 0 :: L 0, x < l.made
  level : 1 ≤ l.level ∧ l.level ≤ maxNumberOfLevels
  above : ∀ k, l.level ≤ k → L k = []
  count : l.count = (L 0).length

theorem Levels.sub_le (h : Levels l L) {j k : ℕ} (hle : j ≤ k) : (L k).Sublist (L j) := by
  induction k, hle using Nat.le_induction with
  | base => exact List.Sublist.refl _
  | succ k _ ih => exact (h.sub k).trans ih

theorem Levels.sub_zero (h : Levels l L) (k : ℕ) : (L k).Sublist (L 0) := h.sub_le (Nat.zero_le k)

theorem Levels.length_lt (h : Levels l L) : (L 0).length < l.made := by
  have hsub : (0 :: L 0) ⊆ List.range l.made := fun x hx => List.mem_range.mpr (h.made x hx)
  have hle := (h.nodup.subperm hsub).length_le
  simpa using hle

theorem Levels.members_eq (h : Levels l L) : members l = (L 0).map l.key :=
  walk_eq (h.chain 0) h.length_lt

theorem levels_newSL (null : κ) : Levels (newSL null) fun _ => [] where
  chain _ := rfl
  sub _ := List.Sublist.refl _
  nodup := by simp
  made := by simp [newSL]
  level := ⟨le_rfl, by simp [newSL, maxNumberOfLevels]⟩
  above _ _ := rfl
  count := rfl

/-- Taking nodes out of every level keeps the levels in shape. -/
theorem Levels.keep {l' : SkipList κ} (h : Levels l L) (P : ℕ → Bool)
    (hchain : ∀ k, Chain l' k 0 ((L k).filter P)) (hmade : l'.made = l.made)
    (hlevel : l'.level = l.level) (hcount : l'.count = ((L 0).filter P).length) :
    Levels l' fun k => (L k).filter P where
  chain := hchain
  sub k := (h.sub k).filter _
  nodup := h.nodup.sublist (List.filter_sublist.cons_cons 0)
  made x hx := by
    rw [hmade]
    exact h.made x ((List.filter_sublist.cons_cons 0).subset hx)
  level := by
    rw [hlevel]
    exact h.level
  above k hk := by
    rw [h.above k (hlevel ▸ hk)]
    rfl
  count := hcount

/-- The nodes with keys below the one looked for, and the others. -/
def before (l : SkipList κ) (compare : κ → ℤ) (xs : List ℕ) : List ℕ :=
  xs.filter fun x => compare (l.key x) < 0

def behind (l : SkipList κ) (compare : κ → ℤ) (xs : List ℕ) : List ℕ :=
  xs.filter fun x => ¬ compare (l.key x) < 0

theorem mem_before {xs : List ℕ} {x : ℕ} :
    x ∈ before l compare xs ↔ x ∈ xs ∧ compare (l.key x) < 0 := by
  simp [before]

theorem mem_behind {xs : List ℕ} {x : ℕ} :
    x ∈ behind l compare xs ↔ x ∈ xs ∧ ¬ compare (l.key x) < 0 := by
  simp [behind]

/-- A comparison with a key that fits the order of the keys. -/
def Fits (compare : κ → ℤ) (ks : List κ) : Prop :=
  ks.Pairwise fun a b => compare b ≤ 0 → compare a < 0

/-- No smaller key stands behind one that is not smaller. -/
def Divides (compare : κ → ℤ) (ks : List κ) : Prop :=
  ks.Pairwise fun a b => compare b < 0 → compare a < 0

theorem Fits.divides {ks : List κ} (h : Fits compare ks) : Divides compare ks :=
  List.Pairwise.imp (fun hab hb => hab hb.le) h

theorem before_append_behind {xs : List ℕ} (h : Divides compare (xs.map l.key)) :
    before l compare xs ++ behind l compare xs = xs := by
  induction xs with
  | nil => rfl
  | cons x xs ih =>
    rw [Divides, List.map_cons, List.pairwise_cons] at h
    obtain ⟨hx, hrest⟩ := h
    have hsplit := ih hrest
    by_cases hneg : compare (l.key x) < 0
    · have h₁ : before l compare (x :: xs) = x :: before l compare xs := by simp [before, hneg]
      have h₂ : behind l compare (x :: xs) = behind l compare xs := by
        simp [behind, not_le.mpr hneg]
      rw [h₁, h₂, List.cons_append, hsplit]
    · -- behind a key that is not smaller there is no smaller one
      have hnone : before l compare xs = [] := by
        rw [List.eq_nil_iff_forall_not_mem]
        intro y hy
        obtain ⟨hmem, hy⟩ := mem_before.mp hy
        exact hneg (hx _ (List.mem_map_of_mem hmem) hy)
      have h₁ : before l compare (x :: xs) = before l compare xs := by simp [before, hneg]
      have h₂ : behind l compare (x :: xs) = x :: behind l compare xs := by
        simp [behind, not_lt.mp hneg]
      rw [hnone, List.nil_append] at hsplit
      rw [h₁, h₂, hnone, List.nil_append, hsplit]

theorem Levels.split (h : Levels l L) (hc : Divides compare (members l)) (k : ℕ) :
    before l compare (L k) ++ behind l compare (L k) = L k := by
  rw [h.members_eq] at hc
  exact before_append_behind (List.Pairwise.sublist ((h.sub_zero k).map l.key) hc)

/-- Where the search leaves level `k`. -/
def stop (l : SkipList κ) (compare : κ → ℤ) (L : ℕ → List ℕ) (k : ℕ) : ℕ :=
  lastOf 0 (before l compare (L k))

theorem Levels.stop_forward (h : Levels l L) (hc : Divides compare (members l)) (k : ℕ) :
    l.forward (stop l compare L k) k = (behind l compare (L k)).head? := by
  have hchain := h.chain k
  rw [← h.split hc k] at hchain
  exact chain_forward hchain.drop

theorem Levels.advance_eq_stop (h : Levels l L) (hc : Divides compare (members l)) {k p : ℕ}
    (hp : p ∈ 0 :: before l compare (L k)) : advance l compare k l.made p = stop l compare L k := by
  have hlen : (before l compare (L k)).length ≤ l.made :=
    (List.length_filter_le _ _).trans ((h.sub_zero k).length_le.trans h.length_lt.le)
  have hchain := h.chain k
  rw [← h.split hc k] at hchain
  have hbehind : ∀ y ∈ behind l compare (L k), ¬ compare (l.key y) < 0 :=
    fun y hy => (mem_behind.mp hy).2
  have hbefore : ∀ y ∈ before l compare (L k), compare (l.key y) < 0 :=
    fun y hy => (mem_before.mp hy).2
  unfold stop
  generalize before l compare (L k) = xs at *
  rcases List.mem_cons.mp hp with rfl | hmem
  · exact advance_eq hchain hbefore hbehind hlen
  · obtain ⟨us, vs, rfl⟩ := List.append_of_mem hmem
    have hlast : lastOf 0 (us ++ [p]) = p := by rw [lastOf_append]; rfl
    have hrest : Chain l k p (vs ++ behind l compare (L k)) := by
      rw [← hlast]
      apply Chain.drop
      simpa using hchain
    rw [advance_eq hrest (fun y hy => hbefore y (by simp [hy])) hbehind (by simp at hlen; omega),
      List.append_cons, lastOf_append, hlast]

theorem Levels.before_sub (h : Levels l L) (k : ℕ) :
    (before l compare (L (k + 1))).Sublist (before l compare (L k)) := (h.sub k).filter _

theorem Levels.behind_sub (h : Levels l L) (k : ℕ) :
    (behind l compare (L (k + 1))).Sublist (behind l compare (L k)) := (h.sub k).filter _

theorem Levels.stop_mem (h : Levels l L) (k : ℕ) :
    stop l compare L (k + 1) ∈ 0 :: before l compare (L k) := by
  rcases List.mem_cons.mp (lastOf_mem 0 (before l compare (L (k + 1)))) with h₀ | hmem
  · rw [stop, h₀]
    exact List.mem_cons_self
  · exact List.mem_cons_of_mem _ ((h.before_sub k).subset hmem)

theorem Levels.descend_eq (h : Levels l L) (hc : Divides compare (members l)) (n p : ℕ)
    (update : ℕ → ℕ) (hp : p ∈ 0 :: before l compare (L n)) :
    descend l compare (n + 1) p update =
      (stop l compare L 0, fun k => if k ≤ n then stop l compare L k else update k) := by
  induction n generalizing p update with
  | zero =>
    simp only [descend, h.advance_eq_stop hc hp, Prod.mk.injEq, true_and]
    funext k
    by_cases hk : k = 0
    · subst hk
      simp
    · rw [Function.update_of_ne hk, if_neg (by omega)]
  | succ n ih =>
    rw [descend, h.advance_eq_stop hc hp, ih _ _ (h.stop_mem n)]
    simp only [Prod.mk.injEq, true_and]
    funext k
    by_cases hk : k ≤ n
    · rw [if_pos hk, if_pos (by omega)]
    · rw [if_neg hk]
      by_cases hk₁ : k = n + 1
      · subst hk₁
        simp
      · rw [Function.update_of_ne hk₁, if_neg (by omega)]

/-- What every operation starts with. -/
theorem Levels.search_path (h : Levels l L) (hc : Divides compare (members l)) (update : ℕ → ℕ) :
    (descend l compare l.level 0 update).1 = stop l compare L 0 ∧
    ∀ k < l.level, (descend l compare l.level 0 update).2 k = stop l compare L k := by
  obtain ⟨n, hn⟩ : ∃ n, l.level = n + 1 := ⟨l.level - 1, by have := h.level.1; omega⟩
  rw [hn, h.descend_eq hc n 0 update List.mem_cons_self]
  refine ⟨rfl, fun k hk => ?_⟩
  dsimp only
  rw [if_pos (by omega)]

end Levels

section Operations
variable {κ : Type*} {l : SkipList κ} {L : ℕ → List ℕ} {compare : κ → ℤ}

theorem setForward_forward (l : SkipList κ) (p k x j : ℕ) (q : Option ℕ) :
    (setForward l p k q).forward x j = if x = p ∧ j = k then q else l.forward x j := by
  unfold setForward
  dsimp only
  by_cases hx : x = p
  · subst hx
    by_cases hj : j = k
    · subst hj
      simp
    · simp [hj]
  · simp [hx]

theorem splice_same (q : ℕ) (update : ℕ → ℕ) (n : ℕ) (l : SkipList κ) :
    (splice q update n l).key = l.key ∧ (splice q update n l).level = l.level ∧
    (splice q update n l).count = l.count ∧ (splice q update n l).made = l.made := by
  induction n generalizing l with
  | zero => exact ⟨rfl, rfl, rfl, rfl⟩
  | succ n ih => exact ih _

theorem splice_forward {q : ℕ} {update : ℕ → ℕ} (n : ℕ) (l : SkipList κ)
    (hq : ∀ k < n, update k ≠ q) (x j : ℕ) :
    (splice q update n l).forward x j =
      if j < n then
        if x = q then l.forward (update j) j
        else if x = update j then some q
        else l.forward x j
      else l.forward x j := by
  induction n generalizing l with
  | zero => simp [splice]
  | succ n ih =>
    rw [splice, ih _ (fun k hk => hq k (by omega))]
    simp only [setForward_forward]
    have hqn := hq n (by omega)
    by_cases hj : j = n
    · subst hj
      rw [if_neg (lt_irrefl j), if_pos (Nat.lt_succ_self j)]
      by_cases hx : x = q
      · subst hx
        simp [Ne.symm hqn]
      · simp [hx]
    · by_cases hlt : j < n
      · simp [hj, hlt, Nat.lt_succ_of_lt hlt]
      · simp [hj, hlt, show ¬ j < n + 1 by omega]

theorem unsplice_same (q : ℕ) (update : ℕ → ℕ) (todo k : ℕ) (l : SkipList κ) :
    (unsplice q update todo k l).key = l.key ∧ (unsplice q update todo k l).level = l.level ∧
    (unsplice q update todo k l).count = l.count ∧
    (unsplice q update todo k l).made = l.made := by
  induction todo generalizing l k with
  | zero => exact ⟨rfl, rfl, rfl, rfl⟩
  | succ todo ih =>
    rw [unsplice]
    split
    · exact ⟨rfl, rfl, rfl, rfl⟩
    · exact ih _ _

/-- The node is in the levels below `h`, and behind `update` there. -/
theorem unsplice_forward {q : ℕ} {update : ℕ → ℕ} {h : ℕ} (todo k : ℕ) (l : SkipList κ)
    (hat : ∀ j, k ≤ j → j < k + todo → (l.forward (update j) j = some q ↔ j < h)) (x j : ℕ) :
    (unsplice q update todo k l).forward x j =
      if k ≤ j ∧ j < k + todo ∧ j < h ∧ x = update j then l.forward q j else l.forward x j := by
  induction todo generalizing l k with
  | zero =>
    rw [unsplice, if_neg (by omega)]
  | succ todo ih =>
    have hk := hat k le_rfl (by omega)
    rw [unsplice]
    by_cases hq : l.forward (update k) k = some q
    · rw [if_neg (not_not.mpr hq), ih]
      · simp only [setForward_forward]
        have hkh := hk.mp hq
        by_cases hj : j = k
        · subst hj
          rw [if_neg (by omega)]
          by_cases hx : x = update j
          · simp [hx, hkh]
          · simp [hx]
        · by_cases hr : k ≤ j ∧ j < k + (todo + 1) ∧ j < h ∧ x = update j
          · rw [if_pos ⟨by omega, by omega, hr.2.2⟩, if_pos hr, if_neg (by simp [hj])]
          · rw [if_neg (by rintro ⟨h₁, h₂, h₃⟩; exact hr ⟨by omega, by omega, h₃⟩), if_neg hr,
              if_neg (by simp [hj])]
      · intro i hi₁ hi₂
        rw [setForward_forward, if_neg (by omega)]
        exact hat i (by omega) (by omega)
    · rw [if_pos hq, if_neg]
      rintro ⟨h₁, _, h₃, _⟩
      exact hq (hk.mpr (by omega))

theorem topLevel_le (l : SkipList κ) (m : ℕ) : topLevel l m ≤ m := by
  induction m with
  | zero => exact le_rfl
  | succ m ih =>
    rw [topLevel]
    split
    · omega
    · exact le_rfl

theorem topLevel_above (l : SkipList κ) (m k : ℕ) (hlt : topLevel l m < k) (hle : k ≤ m) :
    l.forward 0 k = none := by
  induction m with
  | zero => omega
  | succ m ih =>
    rw [topLevel] at hlt
    split at hlt
    · rename_i hnone
      rcases Nat.lt_or_eq_of_le hle with hk | rfl
      · exact ih hlt (by omega)
      · exact hnone
    · omega

def Wf (l : SkipList κ) : Prop := ∃ L, Levels l L

/-- A search finds the member that compares equal, if there is one. -/
theorem searchSL_spec (h : Wf l) (hc : Fits compare (members l)) :
    (∀ k, searchSL l compare = some k → k ∈ members l ∧ compare k = 0) ∧
    (searchSL l compare = none → ∀ k ∈ members l, compare k ≠ 0) := by
  obtain ⟨L, hL⟩ := h
  have hsplit := hL.split hc.divides 0
  have hfits : Fits compare ((behind l compare (L 0)).map l.key) := by
    rw [hL.members_eq] at hc
    exact List.Pairwise.sublist (List.Sublist.map _ List.filter_sublist) hc
  have hfwd := hL.stop_forward hc.divides 0
  unfold searchSL
  rw [(hL.search_path hc.divides fun _ => 0).1, hfwd, hL.members_eq]
  cases hb : behind l compare (L 0) with
  | nil =>
    rw [hb, List.append_nil] at hsplit
    refine ⟨fun k hk => (by cases hk), fun _ k hk => ?_⟩
    obtain ⟨x, hx, rfl⟩ := List.mem_map.mp hk
    rw [← hsplit] at hx
    exact (mem_before.mp hx).2.ne
  | cons q rest =>
    have hq : q ∈ behind l compare (L 0) := by rw [hb]; exact List.mem_cons_self
    obtain ⟨hqL, hqc⟩ := mem_behind.mp hq
    simp only [List.head?_cons]
    by_cases h₀ : compare (l.key q) = 0
    · rw [if_neg (not_not.mpr h₀)]
      refine ⟨fun k hk => ?_, fun hk => by cases hk⟩
      cases hk
      exact ⟨List.mem_map_of_mem hqL, h₀⟩
    · rw [if_pos h₀]
      refine ⟨fun k hk => (by cases hk), fun _ k hk => ?_⟩
      obtain ⟨x, hx, rfl⟩ := List.mem_map.mp hk
      rw [← hsplit, List.mem_append, hb, List.mem_cons] at hx
      rw [hb, Fits, List.map_cons, List.pairwise_cons] at hfits
      rcases hx with hx | rfl | hx
      · exact (mem_before.mp hx).2.ne
      · exact h₀
      · intro hx₀
        exact hqc (hfits.1 _ (List.mem_map_of_mem hx) hx₀.le)

/-- The levels after node `q` was entered up to level `h`. -/
def enter (l : SkipList κ) (compare : κ → ℤ) (L : ℕ → List ℕ) (q h k : ℕ) : List ℕ :=
  if k ≤ h then before l compare (L k) ++ q :: behind l compare (L k) else L k

theorem Levels.enter_sub (h : Levels l L) (hc : Divides compare (members l)) (q n k : ℕ) :
    (enter l compare L q n (k + 1)).Sublist (enter l compare L q n k) := by
  unfold enter
  by_cases h₁ : k + 1 ≤ n
  · rw [if_pos h₁, if_pos (by omega)]
    exact (h.before_sub k).append ((h.behind_sub k).cons_cons q)
  · rw [if_neg h₁]
    split
    · refine (h.sub k).trans ?_
      conv_lhs => rw [← h.split hc k]
      exact (List.Sublist.refl _).append (List.sublist_cons_self q _)
    · exact h.sub k

theorem Levels.stop_lt (h : Levels l L) (k : ℕ) : stop l compare L k < l.made := by
  apply h.made
  rcases List.mem_cons.mp (lastOf_mem 0 (before l compare (L k))) with h₀ | hmem
  · rw [stop, h₀]
    exact List.mem_cons_self
  · exact List.mem_cons_of_mem _ ((h.sub_zero k).subset (mem_before.mp hmem).1)

/-- The chains after a new node has been spliced in. -/
theorem Levels.splice_chain (h : Levels l L) (hc : Divides compare (members l)) {l' : SkipList κ}
    {update : ℕ → ℕ} (n : ℕ) (hn : ∀ k ≤ n, update k = stop l compare L k)
    (hl' : l'.forward = Function.update l.forward l.made fun _ => none) (k : ℕ) :
    Chain (splice l.made update (n + 1) l') k 0 (enter l compare L l.made n k) := by
  have hne : ∀ x, x < l.made → x ≠ l.made := fun x hx => hx.ne
  have hq : ∀ j < n + 1, update j ≠ l.made := by
    intro j hj
    rw [hn j (by omega)]
    exact hne _ (h.stop_lt j)
  have hfwd := splice_forward (n + 1) l' hq
  have hold : ∀ x, x < l.made → ∀ j, l'.forward x j = l.forward x j := by
    intro x hx j
    rw [hl', Function.update_of_ne (hne x hx)]
  have hmade : ∀ x ∈ 0 :: L k, x < l.made := by
    intro x hx
    rcases List.mem_cons.mp hx with rfl | hx
    · exact h.made 0 List.mem_cons_self
    · exact h.made x (List.mem_cons_of_mem _ ((h.sub_zero k).subset hx))
  have hchain := h.chain k
  unfold enter
  by_cases hk : k ≤ n
  · rw [if_pos hk]
    have hsplit := h.split hc k
    rw [← hsplit] at hchain
    have hat : ∀ x ∈ 0 :: L k, x ≠ stop l compare L k →
        (splice l.made update (n + 1) l').forward x k = l.forward x k := by
      intro x hx hstop
      rw [hfwd, if_pos (by omega), if_neg (hne x (hmade x hx)), hn k hk, if_neg hstop,
        hold x (hmade x hx)]
    have hnodup : (0 :: L k).Nodup := h.nodup.sublist ((h.sub_zero k).cons_cons 0)
    rw [← hsplit] at hat hnodup
    have hs : stop l compare L k < l.made := h.stop_lt k
    have hlast : lastOf 0 (before l compare (L k)) = stop l compare L k := rfl
    have hstop := lastOf_mem 0 (before l compare (L k))
    rw [hlast] at hstop
    refine hchain.relink (hnodup.sublist (List.Sublist.cons_cons 0 (List.sublist_append_left _ _)))
      (fun x hx => hat x ?_) ⟨?_, hchain.drop.restart ?_ ?_⟩
    · rcases List.mem_cons.mp hx with rfl | hx
      · exact List.mem_cons_self
      · exact List.mem_cons_of_mem _ (List.mem_append_left _ hx)
    · rw [hlast, hfwd, if_pos (by omega), if_neg (hne _ hs), if_pos (hn k hk).symm]
    · rw [hfwd, if_pos (by omega), if_pos rfl, hn k hk, hold _ hs, hlast]
    · intro x hx
      refine hat x (List.mem_cons_of_mem _ (List.mem_append_right _ hx)) ?_
      rintro rfl
      rw [← List.cons_append] at hnodup
      exact (List.nodup_append.mp hnodup).2.2 _ hstop _ hx rfl
  · rw [if_neg hk]
    refine hchain.congr fun x hx => ?_
    rw [hfwd, if_neg (by omega), hold x (hmade x hx)]

theorem enter_zero (q h : ℕ) :
    enter l compare L q h 0 = before l compare (L 0) ++ q :: behind l compare (L 0) :=
  if_pos (Nat.zero_le h)

theorem Levels.enter_levels (h : Levels l L) (hc : Divides compare (members l)) {l' : SkipList κ}
    (n : ℕ) (hmade : l'.made = l.made + 1) (hcount : l'.count = l.count + 1)
    (hlevel : n < l'.level ∧ l.level ≤ l'.level ∧ l'.level ≤ maxNumberOfLevels)
    (hchain : ∀ k, Chain l' k 0 (enter l compare L l.made n k)) :
    Levels l' (enter l compare L l.made n) where
  chain := hchain
  sub := h.enter_sub hc l.made n
  nodup := by
    have hnodup := h.nodup
    have hfresh : l.made ∉ 0 :: L 0 := fun hm => (h.made _ hm).ne rfl
    rw [← h.split hc 0] at hnodup hfresh
    rw [enter_zero, ← List.cons_append]
    rw [← List.cons_append] at hnodup hfresh
    exact List.nodup_middle.mpr (List.nodup_cons.mpr ⟨hfresh, hnodup⟩)
  made := by
    intro x hx
    rw [enter_zero, ← List.cons_append, List.perm_middle.mem_iff, List.mem_cons, List.cons_append,
      h.split hc 0] at hx
    rcases hx with rfl | hx
    · omega
    · have := h.made x hx
      omega
  level := ⟨by have := h.level.1; omega, hlevel.2.2⟩
  above := by
    intro k hk
    rw [enter, if_neg (by omega)]
    exact h.above k (by omega)
  count := by
    have hlen := congrArg List.length (h.split hc 0)
    rw [enter_zero, hcount, h.count, List.length_append, List.length_cons]
    rw [List.length_append] at hlen
    push_cast
    omega

theorem Levels.none_equal (h : Levels l L) (hc : Divides compare (members l))
    (hnew : ∀ k ∈ members l, compare k ≠ 0) :
    (l.forward (stop l compare L 0) 0).any (fun q => decide (compare (l.key q) = 0)) = false := by
  rw [h.stop_forward hc 0]
  cases hb : behind l compare (L 0) with
  | nil => rfl
  | cons q rest =>
    have hq : q ∈ behind l compare (L 0) := by rw [hb]; exact List.mem_cons_self
    have hmem : l.key q ∈ members l := by
      rw [h.members_eq]
      exact List.mem_map_of_mem (mem_behind.mp hq).1
    simp [hnew _ hmem]

/-- The member that compares equal is the first one that is not smaller. -/
theorem Levels.found (h : Levels l L) (hc : Fits compare (members l)) {key : κ}
    (hkey : key ∈ members l) (hzero : compare key = 0) :
    ∃ q rest, behind l compare (L 0) = q :: rest ∧ l.key q = key := by
  have hfits : Fits compare ((behind l compare (L 0)).map l.key) := by
    rw [h.members_eq] at hc
    exact List.Pairwise.sublist (List.Sublist.map _ List.filter_sublist) hc
  rw [h.members_eq] at hkey
  obtain ⟨x, hx, rfl⟩ := List.mem_map.mp hkey
  have hxb : x ∈ behind l compare (L 0) := mem_behind.mpr ⟨hx, by omega⟩
  cases hb : behind l compare (L 0) with
  | nil => rw [hb] at hxb; cases hxb
  | cons q rest =>
    refine ⟨q, rest, rfl, ?_⟩
    rw [hb, List.mem_cons] at hxb
    rcases hxb with rfl | hxr
    · rfl
    · rw [hb, Fits, List.map_cons, List.pairwise_cons] at hfits
      have hqb : q ∈ behind l compare (L 0) := by rw [hb]; exact List.mem_cons_self
      exact absurd (hfits.1 _ (List.mem_map_of_mem hxr) hzero.le) (mem_behind.mp hqb).2

theorem Levels.insertSL_duplicate (h : Levels l L) (hc : Fits compare (members l)) {key : κ}
    (hkey : key ∈ members l) (hzero : compare key = 0) (new : κ) (random : ℕ) :
    insertSL l new compare random = (-1, l) := by
  obtain ⟨hp, _⟩ := h.search_path hc.divides fun _ => 0
  obtain ⟨q, rest, hb, hq⟩ := h.found hc hkey hzero
  have hhead := h.stop_forward hc.divides 0
  rw [hb, List.head?_cons] at hhead
  unfold insertSL
  generalize descend l compare l.level 0 (fun _ => 0) = r at hp
  obtain ⟨p, update⟩ := r
  dsimp only at hp ⊢
  subst hp
  simp [hhead, hq, hzero]

/-- A key that is not there is entered on the levels up to the height of its node. -/
theorem Levels.insertSL_new (h : Levels l L) (hc : Fits compare (members l))
    (hnew : ∀ k ∈ members l, compare k ≠ 0) (key : κ) {random : ℕ} (hr : random ≤ maxLevel) :
    (insertSL l key compare random).1 = 1 ∧
    Levels (insertSL l key compare random).2 (enter l compare L l.made (min random l.level)) ∧
    (insertSL l key compare random).2.key = Function.update l.key l.made key ∧
    (insertSL l key compare random).2.made = l.made + 1 := by
  obtain ⟨hp, hu⟩ := h.search_path hc.divides fun _ => 0
  have hlevel := h.level
  have hfresh := h.none_equal hc.divides hnew
  unfold insertSL
  generalize descend l compare l.level 0 (fun _ => 0) = r at hp hu
  obtain ⟨p, update⟩ := r
  dsimp only at hp hu ⊢
  subst hp
  rw [hfresh, if_neg (by simp)]
  generalize hpick : (if l.level ≤ random then
    (l.level, l.level + 1, Function.update update l.level 0) else (random, l.level, update)) = r
  obtain ⟨n, level, update'⟩ := r
  -- the new top level starts at the header, where the search would have left it
  have hpicked : n = min random l.level ∧ n < level ∧ l.level ≤ level ∧
      level ≤ maxNumberOfLevels ∧ ∀ k ≤ n, update' k = stop l compare L k := by
    unfold maxLevel at hr
    split at hpick
    · cases hpick
      refine ⟨by omega, by omega, by omega, by omega, fun k hk => ?_⟩
      by_cases hk' : k = l.level
      · subst hk'
        rw [Function.update_self, stop, h.above _ le_rfl]
        rfl
      · rw [Function.update_of_ne hk', hu k (by omega)]
    · cases hpick
      exact ⟨by omega, by omega, le_rfl, hlevel.2, fun k hk => hu k (by omega)⟩
  obtain ⟨rfl, h₁, h₂, h₃, h₄⟩ := hpicked
  dsimp only
  generalize hl' : ({ l with
      level := level
      made := l.made + 1
      count := l.count + 1
      key := Function.update l.key l.made key
      forward := Function.update l.forward l.made fun _ => none } : SkipList κ) = l'
  obtain ⟨s₁, s₂, s₃, s₄⟩ := splice_same l.made update' (min random l.level + 1) l'
  have hforward : l'.forward = Function.update l.forward l.made fun _ => none := by rw [← hl']
  have hchain := h.splice_chain hc.divides (min random l.level) h₄ hforward
  refine ⟨rfl, ?_, by rw [s₁, ← hl'], by rw [s₄, ← hl']⟩
  exact h.enter_levels hc.divides _ (by rw [s₄, ← hl']) (by rw [s₃, ← hl'])
    (by rw [s₂, ← hl']; exact ⟨h₁, h₂, h₃⟩) hchain

/-- The keys after an insertion, in the order of the bottom level. -/
theorem Levels.members_enter (h : Levels l L) {l' : SkipList κ} {n : ℕ} {key : κ}
    (h' : Levels l' (enter l compare L l.made n))
    (hkey : l'.key = Function.update l.key l.made key) :
    members l' =
      (before l compare (L 0)).map l.key ++ key :: (behind l compare (L 0)).map l.key := by
  have hkeys : ∀ xs : List ℕ, (∀ x ∈ xs, x ∈ L 0) → xs.map l'.key = xs.map l.key := by
    intro xs hxs
    refine List.map_congr_left fun x hx => ?_
    rw [hkey, Function.update_of_ne]
    exact (h.made x (List.mem_cons_of_mem _ (hxs x hx))).ne
  rw [h'.members_eq, enter_zero, List.map_append, List.map_cons,
    hkeys _ (fun x hx => (mem_before.mp hx).1), hkeys _ (fun x hx => (mem_behind.mp hx).1),
    hkey, Function.update_self]

/-- A duplicate is answered with -1, so no answer is the 0 of a list without memory. -/
theorem insertSL_ne_zero (l : SkipList κ) (key : κ) (compare : κ → ℤ) (random : ℕ) :
    (insertSL l key compare random).1 ≠ 0 := by
  unfold insertSL
  dsimp only
  split
  · exact Int.neg_ne_zero.mpr one_ne_zero
  · exact one_ne_zero

/-- An insertion enters the key between the smaller and the larger ones. -/
theorem insertSL_spec (h : Wf l) (hc : Fits compare (members l))
    (hnew : ∀ k ∈ members l, compare k ≠ 0) (key : κ) {random : ℕ} (hr : random ≤ maxLevel) :
    (insertSL l key compare random).1 = 1 ∧ Wf (insertSL l key compare random).2 ∧
    ∃ as bs, members l = as ++ bs ∧
      members (insertSL l key compare random).2 = as ++ key :: bs ∧
      (∀ a ∈ as, compare a < 0) ∧ ∀ b ∈ bs, 0 < compare b := by
  obtain ⟨L, hL⟩ := h
  obtain ⟨hret, hlevels, hkey, _⟩ := hL.insertSL_new hc hnew key hr
  refine ⟨hret, ⟨_, hlevels⟩, (before l compare (L 0)).map l.key,
    (behind l compare (L 0)).map l.key, ?_, hL.members_enter hlevels hkey, ?_, ?_⟩
  · rw [hL.members_eq, ← List.map_append, hL.split hc.divides 0]
  · intro a ha
    obtain ⟨x, hx, rfl⟩ := List.mem_map.mp ha
    exact (mem_before.mp hx).2
  · intro b hb
    obtain ⟨x, hx, rfl⟩ := List.mem_map.mp hb
    obtain ⟨hxL, hx⟩ := mem_behind.mp hx
    have := hnew (l.key x) (by rw [hL.members_eq]; exact List.mem_map_of_mem hxL)
    omega

theorem head_of_sublist_cons {xs ys : List ℕ} {q : ℕ} (h : xs.Sublist (q :: ys)) (hq : q ∉ ys)
    (hmem : q ∈ xs) : ∃ zs, xs = q :: zs := by
  cases h with
  | cons _ h => exact absurd (h.subset hmem) hq
  | cons_cons _ h => exact ⟨_, rfl⟩

theorem Levels.behind_sub_zero (h : Levels l L) (k : ℕ) :
    (behind l compare (L k)).Sublist (behind l compare (L 0)) := (h.sub_zero k).filter _

/-- On each level the node looked for is the first of the others, if it is there at all. -/
theorem Levels.behind_of_mem (h : Levels l L) {q : ℕ} {rest : List ℕ}
    (hq : behind l compare (L 0) = q :: rest) {k : ℕ} (hmem : q ∈ L k) :
    ∃ zs, behind l compare (L k) = q :: zs := by
  have hsub : (behind l compare (L k)).Sublist (q :: rest) := by
    rw [← hq]
    exact h.behind_sub_zero k
  have hnodup : (behind l compare (L 0)).Nodup :=
    (List.nodup_cons.mp h.nodup).2.sublist List.filter_sublist
  rw [hq] at hnodup
  have hneg : ¬ compare (l.key q) < 0 := by
    have : q ∈ behind l compare (L 0) := by rw [hq]; exact List.mem_cons_self
    exact (mem_behind.mp this).2
  exact head_of_sublist_cons hsub (List.nodup_cons.mp hnodup).1 (mem_behind.mpr ⟨hmem, hneg⟩)

/-- The levels that hold a node are those below its height. -/
theorem Levels.height (h : Levels l L) (q : ℕ) : ∃ n, ∀ k, q ∈ L k ↔ k < n := by
  classical
  have hex : ∃ k, q ∉ L k := ⟨l.level, by rw [h.above _ le_rfl]; exact List.not_mem_nil⟩
  refine ⟨Nat.find hex, fun k => ⟨fun hk => ?_, fun hk => not_not.mp (Nat.find_min hex hk)⟩⟩
  by_contra hle
  exact Nat.find_spec hex ((h.sub_le (not_lt.mp hle)).subset hk)

theorem filter_ne_of_not_mem {xs : List ℕ} {q : ℕ} (h : q ∉ xs) : xs.filter (· ≠ q) = xs := by
  refine List.filter_eq_self.mpr fun x hx => ?_
  simp only [ne_eq, decide_not, Bool.not_eq_true', decide_eq_false_iff_not]
  rintro rfl
  exact h hx

theorem filter_ne_middle {xs ys : List ℕ} {q : ℕ} (h : (xs ++ q :: ys).Nodup) :
    (xs ++ q :: ys).filter (· ≠ q) = xs ++ ys := by
  have hq := (List.nodup_cons.mp (List.nodup_middle.mp h)).1
  rw [List.mem_append, not_or] at hq
  rw [List.filter_append, List.filter_cons_of_neg (by simp), filter_ne_of_not_mem hq.1,
    filter_ne_of_not_mem hq.2]

/-- The chains after the node has been taken out. -/
theorem Levels.unsplice_chain (h : Levels l L) (hc : Divides compare (members l)) {q : ℕ}
    {rest : List ℕ} (hq : behind l compare (L 0) = q :: rest) {update : ℕ → ℕ}
    (hu : ∀ k < l.level, update k = stop l compare L k) (k : ℕ) :
    Chain (unsplice q update l.level 0 l) k 0 ((L k).filter (· ≠ q)) := by
  obtain ⟨n, hn⟩ := h.height q
  have hat : ∀ j, 0 ≤ j → j < 0 + l.level → (l.forward (update j) j = some q ↔ j < n) := by
    intro j _ hj
    rw [hu j (by omega), h.stop_forward hc j, ← hn j]
    constructor
    · intro hhead
      exact (mem_behind.mp (List.mem_of_head? hhead)).1
    · intro hmem
      obtain ⟨zs, hzs⟩ := h.behind_of_mem hq hmem
      rw [hzs]
      rfl
  have hfwd := unsplice_forward l.level 0 l hat
  have hchain := h.chain k
  by_cases hmem : q ∈ L k
  · have hkn := (hn k).mp hmem
    have hkl : k < l.level := by
      by_contra hle
      rw [h.above k (not_lt.mp hle)] at hmem
      cases hmem
    obtain ⟨zs, hzs⟩ := h.behind_of_mem hq hmem
    have hsplit := h.split hc k
    have hnodup : (0 :: L k).Nodup := h.nodup.sublist ((h.sub_zero k).cons_cons 0)
    rw [hzs] at hsplit
    rw [← hsplit] at hchain hnodup ⊢
    rw [filter_ne_middle (List.nodup_cons.mp hnodup).2]
    have hlast : lastOf 0 (before l compare (L k)) = stop l compare L k := rfl
    have hstop := lastOf_mem 0 (before l compare (L k))
    rw [hlast] at hstop
    have hother : ∀ x, x ≠ stop l compare L k →
        (unsplice q update l.level 0 l).forward x k = l.forward x k := by
      intro x hx
      rw [hfwd, if_neg]
      rintro ⟨_, _, _, hxu⟩
      exact hx (by rw [hxu, hu k hkl])
    rw [← List.cons_append] at hnodup
    have hdis := (List.nodup_append.mp hnodup).2.2
    have hrest := hchain.drop
    refine hchain.relink (List.nodup_append.mp hnodup).1 (fun x _ hx => hother x hx)
      (hrest.2.restart ?_ ?_)
    · rw [hlast, hfwd, if_pos ⟨Nat.zero_le _, by omega, hkn, (hu k hkl).symm⟩]
    · intro x hx
      refine hother x ?_
      rintro rfl
      exact hdis _ hstop _ (List.mem_cons_of_mem q hx) rfl
  · rw [filter_ne_of_not_mem hmem]
    refine hchain.congr fun x _ => ?_
    rw [hfwd, if_neg]
    rintro ⟨_, _, hlt, _⟩
    exact hmem ((hn k).mpr hlt)

theorem Levels.deleteSL_absent (h : Levels l L) (hc : Fits compare (members l))
    (hnew : ∀ k ∈ members l, compare k ≠ 0) : deleteSL l compare = (false, l) := by
  obtain ⟨hp, _⟩ := h.search_path hc.divides fun _ => 0
  have hnone := h.none_equal hc.divides hnew
  unfold deleteSL
  generalize descend l compare l.level 0 (fun _ => 0) = r at hp
  obtain ⟨p, update⟩ := r
  dsimp only at hp ⊢
  subst hp
  cases hf : l.forward (stop l compare L 0) 0 with
  | none => rfl
  | some q =>
    rw [hf] at hnone
    simp only [Option.any_some, decide_eq_false_iff_not] at hnone
    exact if_neg hnone

/-- A key that is there is taken out of every level. -/
theorem Levels.deleteSL_found (h : Levels l L) (hc : Fits compare (members l)) {q : ℕ}
    {rest : List ℕ} (hq : behind l compare (L 0) = q :: rest) (hzero : compare (l.key q) = 0) :
    (deleteSL l compare).1 = true ∧
    Levels (deleteSL l compare).2 (fun k => (L k).filter (· ≠ q)) ∧
    (deleteSL l compare).2.key = l.key ∧ (deleteSL l compare).2.made = l.made := by
  obtain ⟨hp, hu⟩ := h.search_path hc.divides fun _ => 0
  have hsplit := h.split hc.divides 0
  have hqL : q ∈ L 0 := by
    rw [← hsplit, hq]
    exact List.mem_append_right _ List.mem_cons_self
  have hhead := h.stop_forward hc.divides 0
  rw [hq, List.head?_cons] at hhead
  unfold deleteSL
  generalize descend l compare l.level 0 (fun _ => 0) = r at hp hu
  obtain ⟨p, update⟩ := r
  dsimp only at hp hu ⊢
  subst hp
  rw [hhead]
  simp only [hzero, if_true]
  have hchain := h.unsplice_chain hc.divides hq hu
  obtain ⟨s₁, s₂, s₃, s₄⟩ := unsplice_same q update l.level 0 l
  generalize unsplice q update l.level 0 l = l' at hchain s₁ s₂ s₃ s₄ ⊢
  have htop := topLevel_le l' (l'.level - 1)
  have hlevel := h.level
  refine ⟨trivial, ?_, s₁, s₄⟩
  refine ⟨fun k => (hchain k).congr fun _ _ => rfl, fun k => (h.sub k).filter _,
    h.nodup.sublist (List.Sublist.cons_cons 0 List.filter_sublist), ?_, ?_, ?_, ?_⟩
  · intro x hx
    dsimp only
    rw [s₄]
    refine h.made x ?_
    rcases List.mem_cons.mp hx with rfl | hx
    · exact List.mem_cons_self
    · exact List.mem_cons_of_mem _ (List.mem_of_mem_filter hx)
  · dsimp only
    omega
  · intro k hk
    dsimp only at hk
    by_cases hkl : l.level ≤ k
    · rw [h.above k hkl]
      rfl
    · have hnone := topLevel_above l' (l'.level - 1) k (by omega) (by omega)
      have := chain_forward (hchain k)
      rw [hnone] at this
      exact List.head?_eq_none_iff.mp this.symm
  · dsimp only
    rw [s₃, h.count]
    have hlen := List.length_eq_countP_add_countP (fun x => decide (x ≠ q)) (l := L 0)
    have hone : (L 0).countP (fun x => decide ¬ decide (x ≠ q) = true) = 1 := by
      have := List.count_eq_one_of_mem (List.nodup_cons.mp h.nodup).2 hqL
      rw [List.count] at this
      rw [← this]
      refine List.countP_congr fun x _ => ?_
      simp
    rw [← List.countP_eq_length_filter]
    omega

/-- A deletion takes out the member that compares equal. -/
theorem deleteSL_spec (h : Wf l) (hc : Fits compare (members l)) {key : κ}
    (hkey : key ∈ members l) (hzero : compare key = 0) :
    (deleteSL l compare).1 = true ∧ Wf (deleteSL l compare).2 ∧
    ∃ as bs, members l = as ++ key :: bs ∧ members (deleteSL l compare).2 = as ++ bs := by
  obtain ⟨L, hL⟩ := h
  have hsplit := hL.split hc.divides 0
  obtain ⟨q, rest, hq, rfl⟩ := hL.found hc hkey hzero
  obtain ⟨hret, hnew, hkeys, _⟩ := hL.deleteSL_found hc hq hzero
  refine ⟨hret, ⟨_, hnew⟩, (before l compare (L 0)).map l.key, rest.map l.key, ?_, ?_⟩
  · rw [hL.members_eq, ← List.map_cons, ← List.map_append, ← hq, hsplit]
  · rw [hnew.members_eq, hkeys, ← List.map_append]
    congr 1
    have hnodup := (List.nodup_cons.mp hL.nodup).2
    rw [hq] at hsplit
    rw [← hsplit] at hnodup
    have hfilter := filter_ne_middle hnodup
    rwa [hsplit] at hfilter

end Operations

end SkipListSet
