import Mathlib.Tactic
import FsKit.SkipListSet

/-! Going through a skip list with a callback that may have elements deleted (`DoForRangeSL`
and `DoForSL` in `sl.c`). Duplicates are allowed. The callback is a function of what it knows,
`arg`, and of the key it is called with, and `freeitem` is told of every node that is freed. -/
namespace SkipListWalks

open SkipListSet

def SL_CONTINUE : ℕ := 0
def SL_DELETE : ℕ := 1
def SL_QUIT : ℕ := 2

def deletes (ret : ℕ) : Bool := ret &&& SL_DELETE ≠ 0
def quits (ret : ℕ) : Bool := ret &&& SL_QUIT ≠ 0

section Code
variable {σ κ : Type*}

/-- The list, what the callback knows, the nodes it was called with and its answers, and the
nodes that were freed. -/
structure Walk (σ κ : Type*) where
  list : SkipList κ
  arg : σ
  calls : List (ℕ × ℕ)
  freed : List ℕ

def call (func : σ → κ → ℕ × σ) (w : Walk σ κ) (p : ℕ) : ℕ × Walk σ κ :=
  let (ret, arg) := func w.arg (w.list.key p)
  (ret, { w with arg := arg, calls := w.calls ++ [(p, ret)] })

/-- The end of a deletion, the links having been set to `l`. -/
def freeNode (w : Walk σ κ) (p : ℕ) (l : SkipList κ) : Walk σ κ :=
  { w with list := { l with count := l.count - 1 }, freed := w.freed ++ [p] }

/-- The callback's turn on node `p`. The inner loop over the levels is `unsplice`. -/
def rangeVisit (func : σ → κ → ℕ × σ) (update : ℕ → ℕ) (w : Walk σ κ) (p : ℕ) : ℕ × Walk σ κ :=
  let (ret, w) := call func w p
  (ret, if deletes ret then freeNode w p (unsplice p update w.list.level 0 w.list) else w)

/-- The do-while loop from node `p` on. -/
def rangeLoop (compare : κ → ℤ) (func : σ → κ → ℕ × σ) (update : ℕ → ℕ) :
    ℕ → ℕ → Walk σ κ → Walk σ κ
  | 0, _, w => w
  | fuel + 1, p, w =>
    let q := w.list.forward p 0
    let (ret, w) := rangeVisit func update w p
    if quits ret then w
    else
      match q with
      | none => w
      | some q => if compare (w.list.key q) = 0 then rangeLoop compare func update fuel q w else w

def doForRangeSL (l : SkipList κ) (compare : κ → ℤ) (func : σ → κ → ℕ × σ) (arg : σ) :
    Walk σ κ :=
  let (p, update) := descend l compare l.level 0 fun _ => 0
  match l.forward p 0 with
  | none => ⟨l, arg, [], []⟩
  | some p =>
    if compare (l.key p) ≠ 0 then ⟨l, arg, [], []⟩
    else rangeLoop compare func update l.made p ⟨l, arg, [], []⟩

/-- The links, and the arrays `save` and `who`, an entry that was never set being none. -/
structure Tracked (κ : Type*) where
  list : SkipList κ
  save : ℕ → Option (Option ℕ)
  who : ℕ → Option ℕ

/-- `while(save[k] == p)`, with its two bodies. None stands for reading an entry that was
never set. -/
def catchUp (delete : Bool) (p : ℕ) : ℕ → ℕ → Tracked κ → Option (Tracked κ)
  | 0, _, _ => none
  | fuel + 1, k, t =>
    match t.save k with
    | none => none
    | some s =>
      if s = some p then
        if delete then
          match t.who k with
          | none => none
          | some fix =>
            catchUp delete p fuel (k + 1) { t with
              list := setForward t.list fix k (t.list.forward p k)
              save := Function.update t.save k (some (t.list.forward p k)) }
        else
          catchUp delete p fuel (k + 1) { t with
            save := Function.update t.save k (some (t.list.forward p k))
            who := Function.update t.who k (some p) }
      else some t

/-- The while loop of `DoForSL`. -/
def forLoop (function : σ → κ → ℕ × σ) :
    ℕ → Option ℕ → (ℕ → Option (Option ℕ)) → (ℕ → Option ℕ) → Walk σ κ → Option (Walk σ κ)
  | 0, _, _, _, w => some w
  | _ + 1, none, _, _, w => some w
  | fuel + 1, some p, save, who, w =>
    let q := w.list.forward p 0
    let (ret, w) := call function w p
    match catchUp (deletes ret) p (maxNumberOfLevels + 1) 0 ⟨w.list, save, who⟩ with
    | none => none
    | some t =>
      let w := if deletes ret then freeNode w p t.list else w
      if quits ret then some w else forLoop function fuel q t.save t.who w

def doForSL (l : SkipList κ) (function : σ → κ → ℕ × σ) (arg : σ) : Option (Walk σ κ) :=
  let save := fun k => if k < l.level then some (l.forward 0 k) else none
  let who := fun k => if k < l.level then some 0 else none
  forLoop function l.made (l.forward 0 0) save who ⟨l, arg, [], []⟩

end Code

section Answers
variable {σ κ : Type*} {func : σ → κ → ℕ × σ} {key : ℕ → κ}

/-- The nodes a callback is called with, up to the first `SL_QUIT`, and what it answers. -/
def answers (func : σ → κ → ℕ × σ) (key : ℕ → κ) : σ → List ℕ → List (ℕ × ℕ)
  | _, [] => []
  | arg, p :: ps =>
    (p, (func arg (key p)).1) ::
      if quits (func arg (key p)).1 then [] else answers func key (func arg (key p)).2 ps

/-- The nodes answered with `SL_DELETE`. -/
def deleted (as : List (ℕ × ℕ)) : List ℕ := (as.filter fun a => deletes a.2).map Prod.fst

@[simp] theorem deleted_nil : deleted [] = [] := rfl

theorem deleted_cons (a : ℕ × ℕ) (as : List (ℕ × ℕ)) :
    deleted (a :: as) = if deletes a.2 then a.1 :: deleted as else deleted as := by
  cases h : deletes a.2 <;> simp [deleted, h]

theorem answers_last {arg : σ} {p : ℕ} {ps : List ℕ}
    (h : quits (func arg (key p)).1 = true ∨ ps = []) :
    answers func key arg (p :: ps) = [(p, (func arg (key p)).1)] := by
  rcases h with hquit | rfl
  · simp [answers, hquit]
  · simp [answers]

theorem answers_next {arg : σ} {p : ℕ} (h : quits (func arg (key p)).1 = false) (ps : List ℕ) :
    answers func key arg (p :: ps) =
      (p, (func arg (key p)).1) :: answers func key (func arg (key p)).2 ps := by
  simp [answers, h]

theorem answers_sublist (arg : σ) (ps : List ℕ) :
    ((answers func key arg ps).map Prod.fst).Sublist ps := by
  induction ps generalizing arg with
  | nil => exact List.Sublist.refl _
  | cons p ps ih =>
    simp only [answers, List.map_cons]
    apply List.Sublist.cons_cons
    split
    · exact List.nil_sublist _
    · exact ih _

theorem deleted_sublist (as : List (ℕ × ℕ)) : (deleted as).Sublist (as.map Prod.fst) :=
  List.filter_sublist.map _

/-- The nodes deleted before one is kept. -/
def leading (as : List (ℕ × ℕ)) : List ℕ := deleted (as.takeWhile fun a => deletes a.2)

/-- No element is deleted behind one that is kept. -/
def DeletesFirst (as : List (ℕ × ℕ)) : Prop :=
  ∀ a ∈ as.dropWhile fun a => deletes a.2, deletes a.2 = false

theorem deleted_append (as bs : List (ℕ × ℕ)) : deleted (as ++ bs) = deleted as ++ deleted bs := by
  simp [deleted]

instance (as : List (ℕ × ℕ)) : Decidable (DeletesFirst as) :=
  inferInstanceAs (Decidable (∀ a ∈ as.dropWhile fun a => deletes a.2, deletes a.2 = false))

theorem leading_cons_of_deletes {a : ℕ × ℕ} (h : deletes a.2 = true) (as : List (ℕ × ℕ)) :
    leading (a :: as) = a.1 :: leading as := by
  simp [leading, h, deleted_cons]

theorem leading_cons_of_keeps {a : ℕ × ℕ} (h : deletes a.2 = false) (as : List (ℕ × ℕ)) :
    leading (a :: as) = [] := by
  simp [leading, h]

theorem deleted_eq (as : List (ℕ × ℕ)) :
    deleted as = leading as ++ deleted (as.dropWhile fun a => deletes a.2) := by
  unfold leading deleted
  rw [← List.map_append, ← List.filter_append, List.takeWhile_append_dropWhile]

theorem deletesFirst_iff (as : List (ℕ × ℕ)) :
    DeletesFirst as ↔ deleted (as.dropWhile fun a => deletes a.2) = [] := by
  simp [DeletesFirst, deleted]

end Answers

section Ranges
variable {σ κ : Type*} {l : SkipList κ} {L : ℕ → List ℕ} {compare : κ → ℤ}
  {func : σ → κ → ℕ × σ} {update : ℕ → ℕ}

/-- Deleting the first node that is not smaller, as the loop over a range does it. -/
theorem unlink_first (h : Levels l L) (hc : Divides compare (members l)) {q : ℕ} {rest : List ℕ}
    (hq : behind l compare (L 0) = q :: rest) (hu : ∀ k < l.level, update k = stop l compare L k) :
    Levels { unsplice q update l.level 0 l with count := (unsplice q update l.level 0 l).count - 1 }
      fun k => (L k).filter (· ≠ q) := by
  obtain ⟨_, hlevel, hcount, hmade⟩ := unsplice_same q update l.level 0 l
  have hsplit := h.split hc 0
  rw [hq] at hsplit
  apply h.keep
  · intro k
    exact (h.unsplice_chain hc hq hu k).congr fun _ _ => rfl
  · exact hmade
  · exact hlevel
  · have hnodup := (List.nodup_cons.mp h.nodup).2
    rw [← hsplit] at hnodup
    have hlen := congrArg List.length hsplit
    rw [← hsplit, filter_ne_middle hnodup]
    simp only [List.length_append, List.length_cons] at hlen ⊢
    rw [hcount, h.count]
    omega

/-- What a walk has done since `w`, when it was called with `as` and the nodes in `leading as`
were the ones taken out. -/
structure Ranged (w : Walk σ κ) (L : ℕ → List ℕ) (as : List (ℕ × ℕ)) (w' : Walk σ κ) : Prop where
  calls : w'.calls = w.calls ++ as
  freed : w'.freed = w.freed ++ deleted as
  key : w'.list.key = w.list.key
  made : w'.list.made = w.list.made
  level : w'.list.level = w.list.level
  count : w'.list.count = w.list.count - (deleted as).length
  chain : ∀ k, Chain w'.list k 0 ((L k).filter (· ∉ leading as))

theorem unsplice_absent {q todo k : ℕ} (h : l.forward (update k) k ≠ some q) :
    unsplice q update todo k l = l := by
  cases todo with
  | zero => rfl
  | succ todo => exact if_pos h

theorem rangeVisit_keeps {w : Walk σ κ} {p : ℕ}
    (h : deletes (func w.arg (w.list.key p)).1 = false) :
    rangeVisit func update w p = call func w p := by
  simp [rangeVisit, call, h]

/-- A node that is not behind `update` is freed and stays where it is. -/
theorem rangeVisit_stuck (func : σ → κ → ℕ × σ) {w : Walk σ κ} {p : ℕ}
    (h : w.list.forward (update 0) 0 ≠ some p) :
    (rangeVisit func update w p).2 = { w with
      list := { w.list with
        count := w.list.count - (deleted [(p, (func w.arg (w.list.key p)).1)]).length }
      arg := (func w.arg (w.list.key p)).2
      calls := w.calls ++ [(p, (func w.arg (w.list.key p)).1)]
      freed := w.freed ++ deleted [(p, (func w.arg (w.list.key p)).1)] } := by
  cases hd : deletes (func w.arg (w.list.key p)).1 <;>
    simp [rangeVisit, call, freeNode, deleted_cons, hd, unsplice_absent h]

theorem rangeVisit_key (func : σ → κ → ℕ × σ) (update : ℕ → ℕ) (w : Walk σ κ) (p : ℕ) :
    (rangeVisit func update w p).2.list.key = w.list.key := by
  cases hd : deletes (func w.arg (w.list.key p)).1 <;>
    simp [rangeVisit, call, freeNode, hd, unsplice_same]

/-- Where the loop ends: at an answer, or before a key that is not equal. -/
theorem rangeLoop_last {fuel p : ℕ} {w : Walk σ κ}
    (h : quits (func w.arg (w.list.key p)).1 = true ∨
      ∀ q ∈ w.list.forward p 0, compare (w.list.key q) ≠ 0) :
    rangeLoop compare func update (fuel + 1) p w = (rangeVisit func update w p).2 := by
  have hret : (rangeVisit func update w p).1 = (func w.arg (w.list.key p)).1 := rfl
  have hkey := rangeVisit_key func update w p
  rw [rangeLoop]
  dsimp only
  rw [hret]
  split
  · rfl
  · rename_i hquit
    rcases h with hq | hnext
    · exact absurd hq hquit
    · split
      · rfl
      · rename_i q hq
        rw [hkey, if_neg (hnext q hq)]

theorem rangeLoop_next {fuel p q : ℕ} {w : Walk σ κ}
    (hquit : quits (func w.arg (w.list.key p)).1 = false)
    (hq : w.list.forward p 0 = some q) (heq : compare (w.list.key q) = 0) :
    rangeLoop compare func update (fuel + 1) p w =
      rangeLoop compare func update fuel q (rangeVisit func update w p).2 := by
  have hret : (rangeVisit func update w p).1 = (func w.arg (w.list.key p)).1 := rfl
  have hkey := rangeVisit_key func update w p
  rw [rangeLoop]
  dsimp only
  rw [hret, if_neg (by simp [hquit]), hq]
  dsimp only
  rw [hkey, if_pos heq]

/-- The loop once an element was kept: no other one is found behind `update`. -/
theorem stuck_loop (func : σ → κ → ℕ × σ) {fuel p : ℕ} {es gs : List ℕ} {w : Walk σ κ}
    (hchain : Chain w.list 0 p (es ++ gs))
    (hstuck : ∀ x ∈ p :: es, w.list.forward (update 0) 0 ≠ some x)
    (heq : ∀ x ∈ es, compare (w.list.key x) = 0)
    (hgs : ∀ g ∈ gs.head?, compare (w.list.key g) ≠ 0) (hf : es.length < fuel) :
    ∃ arg, rangeLoop compare func update fuel p w =
      { list := { w.list with
          count := w.list.count - (deleted (answers func w.list.key w.arg (p :: es))).length }
        arg := arg
        calls := w.calls ++ answers func w.list.key w.arg (p :: es)
        freed := w.freed ++ deleted (answers func w.list.key w.arg (p :: es)) } := by
  induction es generalizing fuel p w with
  | nil =>
    have hvisit := rangeVisit_stuck func (hstuck p List.mem_cons_self)
    obtain ⟨fuel, rfl⟩ := Nat.exists_eq_add_one_of_ne_zero (Nat.ne_zero_of_lt hf)
    refine ⟨(func w.arg (w.list.key p)).2, ?_⟩
    rw [answers_last (Or.inr rfl), ← hvisit]
    apply rangeLoop_last
    right
    intro q hq
    rw [chain_forward hchain] at hq
    exact hgs q hq
  | cons e es ih =>
    have hvisit := rangeVisit_stuck func (hstuck p List.mem_cons_self)
    obtain ⟨fuel, rfl⟩ := Nat.exists_eq_add_one_of_ne_zero (Nat.ne_zero_of_lt hf)
    cases hquit : quits (func w.arg (w.list.key p)).1 with
    | true =>
      refine ⟨(func w.arg (w.list.key p)).2, ?_⟩
      rw [answers_last (Or.inl hquit), ← hvisit]
      exact rangeLoop_last (Or.inl hquit)
    | false =>
      rw [rangeLoop_next hquit hchain.1 (heq e List.mem_cons_self), answers_next hquit]
      generalize (rangeVisit func update w p).2 = w' at hvisit ⊢
      have hsame : w'.list.forward = w.list.forward ∧ w'.list.key = w.list.key := by
        rw [hvisit]
        exact ⟨rfl, rfl⟩
      obtain ⟨arg, hloop⟩ := ih (hchain.2.congr fun x _ => by rw [hsame.1])
        (fun x hx => hsame.1 ▸ hstuck x (List.mem_cons_of_mem p hx))
        (fun x hx => hsame.2 ▸ heq x (List.mem_cons_of_mem e hx)) (hsame.2 ▸ hgs)
        (Nat.lt_of_succ_lt_succ hf)
      refine ⟨arg, hloop.trans ?_⟩
      have hcons := deleted_append [(p, (func w.arg (w.list.key p)).1)]
        (answers func w.list.key (func w.arg (w.list.key p)).2 (e :: es))
      rw [List.singleton_append] at hcons
      rw [hvisit, hcons]
      simp only [List.length_append, List.append_assoc, List.singleton_append, Nat.cast_add,
        sub_sub]

theorem before_keep {l' : SkipList κ} (hkey : l'.key = l.key) {q : ℕ}
    (hq : ¬compare (l.key q) < 0) (xs : List ℕ) :
    before l' compare (xs.filter (· ≠ q)) = before l compare xs := by
  unfold before
  rw [hkey, List.filter_filter]
  apply List.filter_congr
  intro x _
  by_cases hx : x = q
  · subst hx
    simp [hq]
  · simp [hx]

theorem behind_keep {l' : SkipList κ} (hkey : l'.key = l.key) (q : ℕ) (xs : List ℕ) :
    behind l' compare (xs.filter (· ≠ q)) = (behind l compare xs).filter (· ≠ q) := by
  unfold behind
  rw [hkey, List.filter_filter, List.filter_filter]
  apply List.filter_congr
  intro x _
  exact Bool.and_comm _ _

theorem Levels.divides_keep {l' : SkipList κ} {L' : ℕ → List ℕ} (h : Levels l L)
    (h' : Levels l' L') (hkey : l'.key = l.key) (hsub : (L' 0).Sublist (L 0))
    (hc : Divides compare (members l)) : Divides compare (members l') := by
  rw [h'.members_eq, hkey]
  rw [h.members_eq] at hc
  exact List.Pairwise.sublist (hsub.map l.key) hc

/-- One turn that deletes, before any element was kept. -/
theorem rangeVisit_deletes {w : Walk σ κ} {p : ℕ} {rest : List ℕ} (h : Levels w.list L)
    (hc : Divides compare (members w.list)) (hb : behind w.list compare (L 0) = p :: rest)
    (hu : ∀ k < w.list.level, update k = stop w.list compare L k)
    (hd : deletes (func w.arg (w.list.key p)).1 = true) :
    Levels (rangeVisit func update w p).2.list (fun k => (L k).filter (· ≠ p)) ∧
    Ranged w L [(p, (func w.arg (w.list.key p)).1)] (rangeVisit func update w p).2 := by
  have hlevels := unlink_first h hc hb hu
  have heq : rangeVisit func update w p = ((func w.arg (w.list.key p)).1,
      freeNode (call func w p).2 p (unsplice p update w.list.level 0 w.list)) := by
    simp [rangeVisit, call, hd]
  obtain ⟨hkey, hlevel, hcount, hmade⟩ := unsplice_same p update w.list.level 0 w.list
  have hdel : deleted [(p, (func w.arg (w.list.key p)).1)] = [p] := by simp [deleted_cons, hd]
  have hlead : leading [(p, (func w.arg (w.list.key p)).1)] = [p] := by
    simp [leading, hd, deleted_cons]
  rw [heq]
  refine ⟨hlevels, rfl, by rw [hdel]; rfl, hkey, hmade, hlevel, ?_, fun k => ?_⟩
  · rw [hdel]
    exact congrArg (· - 1) hcount
  · have hchain := hlevels.chain k
    rw [hlead]
    simp only [List.mem_singleton]
    exact hchain

theorem Ranged.cons {w w₁ w' : Walk σ κ} {p ret : ℕ} {as : List (ℕ × ℕ)}
    (hd : deletes ret = true) (h₁ : Ranged w L [(p, ret)] w₁)
    (h : Ranged w₁ (fun k => (L k).filter (· ≠ p)) as w') : Ranged w L ((p, ret) :: as) w' where
  calls := by rw [h.calls, h₁.calls, List.append_assoc, List.singleton_append]
  freed := by
    rw [h.freed, h₁.freed, List.append_assoc, ← deleted_append, List.singleton_append]
  key := h.key.trans h₁.key
  made := h.made.trans h₁.made
  level := h.level.trans h₁.level
  count := by
    have hlen := congrArg List.length (deleted_append [(p, ret)] as)
    rw [List.singleton_append, List.length_append] at hlen
    rw [h.count, h₁.count, hlen]
    push_cast
    omega
  chain k := by
    have hchain := h.chain k
    rw [List.filter_filter] at hchain
    rw [leading_cons_of_deletes hd]
    convert hchain using 2
    funext x
    simp [Bool.and_comm]

/-- One turn that keeps the element, and whatever the callback answers from there on. -/
theorem Ranged.of_same {w w' : Walk σ κ} {as : List (ℕ × ℕ)} (h : Levels w.list L) (arg : σ)
    (hlead : leading as = []) (heq : w' =
      { list := { w.list with count := w.list.count - (deleted as).length }
        arg := arg
        calls := w.calls ++ as
        freed := w.freed ++ deleted as }) : Ranged w L as w' := by
  subst heq
  refine ⟨rfl, rfl, rfl, rfl, rfl, rfl, fun k => ?_⟩
  rw [hlead]
  have hall : (L k).filter (· ∉ ([] : List ℕ)) = L k := by simp
  rw [hall]
  exact (h.chain k).congr fun _ _ => rfl

theorem rangeVisit_ranged {w : Walk σ κ} {p : ℕ} {rest : List ℕ} (h : Levels w.list L)
    (hc : Divides compare (members w.list)) (hb : behind w.list compare (L 0) = p :: rest)
    (hu : ∀ k < w.list.level, update k = stop w.list compare L k) :
    Ranged w L [(p, (func w.arg (w.list.key p)).1)] (rangeVisit func update w p).2 := by
  cases hd : deletes (func w.arg (w.list.key p)).1 with
  | true => exact (rangeVisit_deletes h hc hb hu hd).2
  | false =>
    apply Ranged.of_same h (func w.arg (w.list.key p)).2 (leading_cons_of_keeps hd [])
    rw [rangeVisit_keeps hd, deleted_cons, hd]
    simp [call]

/-- The loop on the elements `p :: es`, no element having been kept so far. -/
theorem clearing_loop (func : σ → κ → ℕ × σ) {fuel p : ℕ} {es gs : List ℕ} {w : Walk σ κ}
    (h : Levels w.list L)
    (hc : Divides compare (members w.list))
    (hb : behind w.list compare (L 0) = p :: (es ++ gs))
    (hu : ∀ k < w.list.level, update k = stop w.list compare L k)
    (heq : ∀ x ∈ es, compare (w.list.key x) = 0)
    (hgs : ∀ g ∈ gs.head?, compare (w.list.key g) ≠ 0) (hf : es.length < fuel) :
    Ranged w L (answers func w.list.key w.arg (p :: es))
      (rangeLoop compare func update fuel p w) := by
  induction es generalizing fuel p w L with
  | nil =>
    obtain ⟨fuel, rfl⟩ := Nat.exists_eq_add_one_of_ne_zero (Nat.ne_zero_of_lt hf)
    have hchain := h.chain 0
    rw [← h.split hc 0, hb] at hchain
    rw [answers_last (Or.inr rfl), rangeLoop_last]
    · exact rangeVisit_ranged h hc hb hu
    · right
      intro q hq
      rw [chain_forward hchain.drop.2] at hq
      exact hgs q hq
  | cons e es ih =>
    obtain ⟨fuel, rfl⟩ := Nat.exists_eq_add_one_of_ne_zero (Nat.ne_zero_of_lt hf)
    have hchain := h.chain 0
    rw [← h.split hc 0, hb] at hchain
    have hrest : Chain w.list 0 p (e :: es ++ gs) := hchain.drop.2
    have hnodup : (p :: (e :: es ++ gs)).Nodup := by
      rw [← hb]
      exact (List.nodup_cons.mp h.nodup).2.sublist List.filter_sublist
    have hzero := heq e List.mem_cons_self
    cases hquit : quits (func w.arg (w.list.key p)).1 with
    | true =>
      rw [answers_last (Or.inl hquit), rangeLoop_last (Or.inl hquit)]
      exact rangeVisit_ranged h hc hb hu
    | false =>
      rw [rangeLoop_next hquit hrest.1 hzero, answers_next hquit]
      cases hd : deletes (func w.arg (w.list.key p)).1 with
      | true =>
        -- the same situation again, with one node fewer
        obtain ⟨hlevels, hone⟩ := rangeVisit_deletes h hc hb hu hd
        have hneg : ¬compare (w.list.key p) < 0 :=
          (mem_behind.mp (hb ▸ List.mem_cons_self : p ∈ behind w.list compare (L 0))).2
        have harg : (rangeVisit func update w p).2.arg = (func w.arg (w.list.key p)).2 := by
          simp [rangeVisit, call, freeNode, hd]
        generalize (rangeVisit func update w p).2 = w₁ at hlevels hone harg ⊢
        have hkey := hone.key
        apply Ranged.cons hd hone
        rw [← harg, ← hkey]
        apply ih hlevels
        · exact Levels.divides_keep h hlevels hkey List.filter_sublist hc
        · have hcut : ([] ++ p :: (e :: es ++ gs)).filter (· ≠ p) = [] ++ (e :: es ++ gs) :=
            filter_ne_middle hnodup
          rw [behind_keep hkey, hb]
          exact hcut
        · intro k hk
          rw [hu k (hone.level ▸ hk), stop, stop, before_keep hkey hneg]
        · rw [hkey]
          exact fun x hx => heq x (List.mem_cons_of_mem e hx)
        · rw [hkey]
          exact hgs
        · exact Nat.lt_of_succ_lt_succ hf
      | false =>
        rw [rangeVisit_keeps hd]
        have hfirst : w.list.forward (update 0) 0 = some p := by
          rw [hu 0 h.level.1, h.stop_forward hc 0, hb]
          rfl
        have hstuck : ∀ x ∈ e :: es, (call func w p).2.list.forward (update 0) 0 ≠ some x := by
          intro x hx hat
          obtain rfl : p = x := by simpa [call, hfirst] using hat
          exact (List.nodup_cons.mp hnodup).1 (List.mem_append_left gs hx)
        have hsame : Chain (call func w p).2.list 0 e (es ++ gs) := hrest.2.congr fun _ _ => rfl
        obtain ⟨arg, hloop⟩ := stuck_loop func hsame hstuck
          (fun x hx => heq x (List.mem_cons_of_mem e hx)) hgs (Nat.lt_of_succ_lt_succ hf)
        apply Ranged.of_same h arg (leading_cons_of_keeps hd _)
        rw [hloop]
        simp [call, deleted_cons, hd]

/-- A comparison that fits a list in which equal keys may stand side by side. -/
def Consistent (compare : κ → ℤ) (ks : List κ) : Prop :=
  ks.Pairwise fun a b => (compare b < 0 → compare a < 0) ∧ (compare b ≤ 0 → compare a ≤ 0)

theorem Consistent.divides {ks : List κ} (h : Consistent compare ks) : Divides compare ks :=
  List.Pairwise.imp And.left h

/-- The elements equal to the key that is looked for. -/
def equal (l : SkipList κ) (compare : κ → ℤ) (xs : List ℕ) : List ℕ :=
  xs.filter fun x => compare (l.key x) = 0

theorem mem_equal {xs : List ℕ} {x : ℕ} :
    x ∈ equal l compare xs ↔ x ∈ xs ∧ compare (l.key x) = 0 := by
  simp [equal]

/-- The equal elements stand together, in front of the greater ones. -/
theorem Consistent.behind_eq {xs : List ℕ} (hc : Consistent compare (xs.map l.key)) :
    ∃ gs, behind l compare xs = equal l compare xs ++ gs ∧ ∀ g ∈ gs, compare (l.key g) ≠ 0 := by
  have hle : Divides (fun k => compare k - 1) ((behind l compare xs).map l.key) := by
    apply List.Pairwise.sublist (List.filter_sublist.map l.key)
    apply List.Pairwise.imp _ hc
    intro a b hab hb
    have hle := hab.2 (Int.sub_one_lt_iff.mp hb)
    exact Int.sub_one_lt_iff.mpr hle
  refine ⟨behind l (fun k => compare k - 1) (behind l compare xs), ?_, ?_⟩
  · have hequal : before l (fun k => compare k - 1) (behind l compare xs) =
        equal l compare xs := by
      unfold before behind equal
      rw [List.filter_filter]
      apply List.filter_congr
      intro x _
      simp only [← Bool.decide_and, decide_eq_decide]
      omega
    rw [← hequal, before_append_behind hle]
  · intro g hg
    have hneg := (mem_behind.mp hg).2
    rw [Int.sub_one_lt_iff] at hneg
    exact fun hzero => hneg hzero.le

theorem doForRangeSL_ranged (h : Levels l L) (hc : Consistent compare (members l))
    (func : σ → κ → ℕ × σ) (arg : σ) :
    Ranged ⟨l, arg, [], []⟩ L (answers func l.key arg (equal l compare (L 0)))
      (doForRangeSL l compare func arg) := by
  obtain ⟨hp, hu⟩ := h.search_path hc.divides fun _ => 0
  have hfirst := h.stop_forward hc.divides 0
  have hcL := hc
  rw [h.members_eq] at hcL
  obtain ⟨gs, hb, hgs⟩ := hcL.behind_eq
  unfold doForRangeSL
  generalize descend l compare l.level 0 (fun _ => 0) = r at hp hu
  obtain ⟨p, update⟩ := r
  dsimp only at hp hu ⊢
  subst hp
  rw [hfirst, hb]
  have hnothing : Ranged ⟨l, arg, [], []⟩ L [] (⟨l, arg, [], []⟩ : Walk σ κ) := by
    apply Ranged.of_same h arg rfl
    simp
  have hlen := h.length_lt
  have hsub : (behind l compare (L 0)).length ≤ (L 0).length := List.length_filter_le _ _
  have hzero : ∀ x ∈ equal l compare (L 0), compare (l.key x) = 0 :=
    fun x hx => (mem_equal.mp hx).2
  cases heq : equal l compare (L 0) with
  | nil =>
    rw [List.nil_append]
    cases gs with
    | nil => exact hnothing
    | cons g gs =>
      have hne := hgs g List.mem_cons_self
      simp only [List.head?_cons, ne_eq, hne, not_false_eq_true, if_true]
      exact hnothing
  | cons e es =>
    rw [heq] at hb hzero
    have hle : es.length < l.made := by
      rw [hb] at hsub
      simp only [List.length_append, List.length_cons] at hsub
      omega
    have hloop := clearing_loop func (w := ⟨l, arg, [], []⟩) h hc.divides hb hu
      (fun x hx => hzero x (List.mem_cons_of_mem e hx))
      (fun g hg => hgs g (List.mem_of_head? hg)) hle
    simpa [hzero e List.mem_cons_self] using hloop

end Ranges

section Exactness
variable {σ κ : Type*} {l : SkipList κ} {L : ℕ → List ℕ} {compare : κ → ℤ}

/-- A walk that was asked for `as` has taken those nodes out, and nothing else, on every
level. -/
structure DeletesAsked (l : SkipList κ) (L : ℕ → List ℕ) (as : List (ℕ × ℕ)) (w : Walk σ κ) :
    Prop where
  calls : w.calls = as
  freed : w.freed = deleted as
  key : w.list.key = l.key
  levels : Levels w.list fun k => (L k).filter (· ∉ deleted as)
  ordered : ∀ R : κ → κ → Prop, (members l).Pairwise R → (members w.list).Pairwise R

theorem DeletesAsked.of_levels (h : Levels l L) {as : List (ℕ × ℕ)} {w : Walk σ κ}
    (hcalls : w.calls = as) (hfreed : w.freed = deleted as) (hkey : w.list.key = l.key)
    (hlevels : Levels w.list fun k => (L k).filter (· ∉ deleted as)) : DeletesAsked l L as w := by
  refine ⟨hcalls, hfreed, hkey, hlevels, fun R hR => ?_⟩
  rw [hlevels.members_eq, hkey]
  rw [h.members_eq] at hR
  exact hR.sublist (List.filter_sublist.map l.key)

theorem filter_mem_eq {xs ds : List ℕ} (hxs : xs.Nodup) (hds : ds.Sublist xs) :
    xs.filter (· ∈ ds) = ds := by
  have hperm : ds.Perm (xs.filter (· ∈ ds)) := by
    rw [List.perm_ext_iff_of_nodup (hxs.sublist hds) (hxs.filter _)]
    intro x
    simp only [List.mem_filter, decide_eq_true_eq]
    exact ⟨fun hx => ⟨hds.subset hx, hx⟩, And.right⟩
  have hsub := hds.filter (· ∈ ds)
  have hall : ds.filter (· ∈ ds) = ds := by simp
  rw [hall] at hsub
  exact (hsub.eq_of_length hperm.length_eq).symm

theorem length_keep {xs ds : List ℕ} (hxs : xs.Nodup) (hds : ds.Sublist xs) :
    (xs.filter (· ∉ ds)).length + ds.length = xs.length := by
  have hsplit := List.length_eq_length_filter_add (l := xs) (· ∈ ds)
  rw [filter_mem_eq hxs hds] at hsplit
  simp only [← decide_not] at hsplit
  omega

/-- The callback is asked about the equal elements in order, and what it wants deleted is
deleted, if and only if it wants nothing deleted once it has kept an element. -/
theorem doForRangeSL_deletes_asked_iff (h : Levels l L) (hc : Consistent compare (members l))
    (func : σ → κ → ℕ × σ) (arg : σ) :
    DeletesAsked l L (answers func l.key arg (equal l compare (L 0)))
        (doForRangeSL l compare func arg) ↔
      DeletesFirst (answers func l.key arg (equal l compare (L 0))) := by
  have hr := doForRangeSL_ranged h hc func arg
  have hnodup := (List.nodup_cons.mp h.nodup).2
  have hsub : (deleted (answers func l.key arg (equal l compare (L 0)))).Sublist (L 0) :=
    ((deleted_sublist _).trans (answers_sublist arg _)).trans List.filter_sublist
  generalize answers func l.key arg (equal l compare (L 0)) = as at hr hsub ⊢
  have hsplit := deleted_eq as
  rw [deletesFirst_iff]
  constructor
  · intro hd
    have hsame := chain_unique (hd.levels.chain 0) (hr.chain 0)
    rw [List.eq_nil_iff_forall_not_mem]
    intro x hx
    have hdel : x ∈ deleted as := by
      rw [hsplit]
      exact List.mem_append_right _ hx
    have hlead : x ∈ leading as := by
      by_contra hnot
      have hkept : x ∈ (L 0).filter (· ∉ leading as) :=
        List.mem_filter.mpr ⟨hsub.subset hdel, by simpa using hnot⟩
      rw [← hsame] at hkept
      simpa [hdel] using (List.mem_filter.mp hkept).2
    have hdis := hnodup.sublist hsub
    rw [hsplit] at hdis
    exact (List.nodup_append.mp hdis).2.2 x hlead x hx rfl
  · intro hnone
    rw [hnone, List.append_nil] at hsplit
    apply DeletesAsked.of_levels h (by simpa using hr.calls) (by simpa using hr.freed) hr.key
    apply h.keep
    · intro k
      rw [hsplit]
      exact hr.chain k
    · exact hr.made
    · exact hr.level
    · have hlen := length_keep hnodup hsub
      rw [hr.count, h.count]
      omega

/-- Two equal keys, the second one on two levels. -/
def twins : SkipList ℕ where
  key _ := 5
  forward
    | 0, 0 => some 1
    | 1, 0 => some 2
    | 0, 1 => some 2
    | _, _ => none
  level := 2
  count := 2
  made := 3

def twinsLevels : ℕ → List ℕ
  | 0 => [1, 2]
  | 1 => [2]
  | _ => []

theorem twins_levels : Levels twins twinsLevels where
  chain
    | 0 => ⟨rfl, rfl, rfl⟩
    | 1 => ⟨rfl, rfl⟩
    | _ + 2 => rfl
  sub
    | 0 => by decide
    | 1 => by decide
    | _ + 2 => List.Sublist.refl _
  nodup := by decide
  made := by decide
  level := by decide
  above
    | 0, h => absurd h (by decide)
    | 1, h => absurd h (by decide)
    | _ + 2, _ => rfl
  count := rfl

/-- The comparison with the key 5. -/
def withFive (k : ℕ) : ℤ := k - 5

theorem twins_consistent : Consistent withFive (members twins) := by
  have hmembers : members twins = [5, 5] := by decide
  rw [hmembers]
  simp [Consistent]

theorem doForRangeSL_deletes_asked_twins :
    DeletesAsked twins twinsLevels
      (answers (fun (_ : Unit) _ => (SL_DELETE, ())) twins.key () (equal twins withFive [1, 2]))
      (doForRangeSL twins withFive (fun _ _ => (SL_DELETE, ())) ()) :=
  (doForRangeSL_deletes_asked_iff twins_levels twins_consistent _ ()).mpr (by decide)

/-- The first element is kept, and the second one is freed and left in the list. -/
theorem doForRangeSL_frees_linked_node :
    Levels twins twinsLevels ∧ Consistent withFive (members twins) ∧
    ¬DeletesAsked twins twinsLevels
      (answers (fun n _ => (n, n + 1)) twins.key SL_CONTINUE (equal twins withFive [1, 2]))
      (doForRangeSL twins withFive (fun n _ => (n, n + 1)) SL_CONTINUE) := by
  refine ⟨twins_levels, twins_consistent, fun h => ?_⟩
  have hlinked : (doForRangeSL twins withFive (fun n _ => (n, n + 1)) SL_CONTINUE).list.forward
      1 0 =
      some 2 := by decide
  have hend := (h.levels.chain 0).2
  have hnone := hlinked.symm.trans hend
  cases hnone

end Exactness

section Whole
variable {σ κ : Type*} {l : SkipList κ} {L : ℕ → List ℕ} {func : σ → κ → ℕ × σ}

/-- What the inner loop does to the levels from `k` up to the height `n` of node `p`. -/
structure CaughtUp (delete : Bool) (p k n : ℕ) (t t' : Tracked κ) : Prop where
  list : t'.list = { t.list with forward := t'.list.forward }
  forward : ∀ x j, t'.list.forward x j =
    if delete ∧ k ≤ j ∧ j < n ∧ t.who j = some x then t.list.forward p j else t.list.forward x j
  save : ∀ j, t'.save j = if k ≤ j ∧ j < n then some (t.list.forward p j) else t.save j
  who : ∀ j, t'.who j = if delete = false ∧ k ≤ j ∧ j < n then some p else t.who j

theorem caughtUp_refl (delete : Bool) (p n : ℕ) (t : Tracked κ) : CaughtUp delete p n n t t where
  list := rfl
  forward x j := by rw [if_neg (by omega)]
  save j := by rw [if_neg (by omega)]
  who j := by rw [if_neg (by omega)]

theorem CaughtUp.trans {delete : Bool} {p k m n : ℕ} {t t₁ t' : Tracked κ}
    (h₁ : CaughtUp delete p k m t t₁) (h : CaughtUp delete p m n t₁ t') (hkm : k ≤ m) (hmn : m ≤ n)
    (hp : ∀ j, k ≤ j → j < m → t.who j ≠ some p) : CaughtUp delete p k n t t' := by
  have hnode : ∀ j, t₁.list.forward p j = t.list.forward p j := by
    intro j
    rw [h₁.forward, if_neg]
    rintro ⟨_, hkj, hjm, hwho⟩
    exact hp j hkj hjm hwho
  refine ⟨h.list.trans (by rw [h₁.list]), fun x j => ?_, fun j => ?_, fun j => ?_⟩
  · rw [h.forward, h₁.forward x j, hnode, h₁.who]
    cases delete
    · simp
    · simp
      grind
  · rw [h.save, h₁.save, hnode]
    grind
  · rw [h.who, h₁.who]
    grind

theorem caughtUp_delete {p k x : ℕ} {t : Tracked κ} (hx : t.who k = some x) :
    CaughtUp true p k (k + 1) t { t with
      list := setForward t.list x k (t.list.forward p k)
      save := Function.update t.save k (some (t.list.forward p k)) } where
  list := rfl
  forward y j := by
    rw [setForward_forward]
    by_cases hj : j = k
    · subst hj
      simp [hx, eq_comm]
    · rw [if_neg (by tauto), if_neg (by omega)]
  save j := by
    by_cases hj : j = k
    · subst hj
      simp
    · rw [if_neg (by omega)]
      exact Function.update_of_ne hj _ _
  who j := by simp

theorem caughtUp_keep {p k : ℕ} {t : Tracked κ} :
    CaughtUp false p k (k + 1) t { t with
      save := Function.update t.save k (some (t.list.forward p k))
      who := Function.update t.who k (some p) } where
  list := rfl
  forward y j := by simp
  save j := by
    by_cases hj : j = k
    · subst hj
      simp
    · rw [if_neg (by omega)]
      exact Function.update_of_ne hj _ _
  who j := by
    by_cases hj : j = k
    · subst hj
      simp
    · rw [if_neg (by omega)]
      exact Function.update_of_ne hj _ _

/-- The entries of `save` and `who` from `k` on when the loop gets to node `p` of height `n`. -/
structure AtNode (level p n k : ℕ) (t : Tracked κ) : Prop where
  below : ∀ j < level, k ≤ j → ∃ s, t.save j = some s ∧ (s = some p ↔ j < n)
  beyond : ∀ j, level ≤ j → t.save j = none
  who : ∀ j < level, k ≤ j → ∃ x, t.who j = some x ∧ x ≠ p

theorem AtNode.next {delete : Bool} {level p n k : ℕ} {t t₁ : Tracked κ}
    (h : AtNode level p n k t) (h₁ : CaughtUp delete p k (k + 1) t t₁) (hk : k < level) :
    AtNode level p n (k + 1) t₁ where
  below j hj hkj := by
    rw [h₁.save, if_neg (by omega)]
    exact h.below j hj (by omega)
  beyond j hj := by
    rw [h₁.save, if_neg (by omega)]
    exact h.beyond j hj
  who j hj hkj := by
    rw [h₁.who, if_neg (by omega)]
    exact h.who j hj (by omega)

theorem catchUp_spec (delete : Bool) {level p n d k fuel : ℕ} {t : Tracked κ}
    (h : AtNode level p n k t) (hn : n ≤ level) (hk : k + d = n) (hf : d < fuel) :
    (n = level → catchUp delete p fuel k t = none) ∧
    (n < level → ∃ t', catchUp delete p fuel k t = some t' ∧ CaughtUp delete p k n t t') := by
  induction d generalizing k fuel t with
  | zero =>
    obtain ⟨fuel, rfl⟩ := Nat.exists_eq_add_one_of_ne_zero (Nat.ne_zero_of_lt hf)
    obtain rfl : k = n := hk
    constructor
    · intro htop
      simp [catchUp, h.beyond k htop.ge]
    · intro hlow
      obtain ⟨s, hs, hsp⟩ := h.below k hlow le_rfl
      have hne : s ≠ some p := fun heq => lt_irrefl k (hsp.mp heq)
      exact ⟨t, by simp [catchUp, hs, hne], caughtUp_refl delete p k t⟩
  | succ d ih =>
    obtain ⟨fuel, rfl⟩ := Nat.exists_eq_add_one_of_ne_zero (Nat.ne_zero_of_lt hf)
    have hlow : k < level := by omega
    obtain ⟨s, hs, hsp⟩ := h.below k hlow le_rfl
    obtain ⟨x, hx, hxp⟩ := h.who k hlow le_rfl
    obtain rfl := hsp.mpr (by omega)
    have hstep : ∃ t₁, catchUp delete p (fuel + 1) k t = catchUp delete p fuel (k + 1) t₁ ∧
        CaughtUp delete p k (k + 1) t t₁ := by
      cases delete with
      | true => exact ⟨_, by simp [catchUp, hs, hx], caughtUp_delete hx⟩
      | false => exact ⟨_, by simp [catchUp, hs], caughtUp_keep⟩
    obtain ⟨t₁, heq, h₁⟩ := hstep
    obtain ⟨htop, hrest⟩ := ih (h.next h₁ hlow) (by omega) (Nat.lt_of_succ_lt_succ hf)
    rw [heq]
    refine ⟨htop, fun hn' => ?_⟩
    obtain ⟨t', ht', hup⟩ := hrest hn'
    refine ⟨t', ht', h₁.trans hup (Nat.le_succ k) (by omega) fun j hkj hjk hwho => ?_⟩
    obtain rfl : j = k := by omega
    rw [hx] at hwho
    exact hxp (Option.some_injective _ hwho)

/-- The nodes among `xs` that stand on level `k`. -/
def standing (L : ℕ → List ℕ) (xs : List ℕ) (k : ℕ) : List ℕ := xs.filter (· ∈ L k)

theorem standing_append (L : ℕ → List ℕ) (xs ys : List ℕ) (k : ℕ) :
    standing L (xs ++ ys) k = standing L xs k ++ standing L ys k := List.filter_append xs ys

theorem standing_cons (L : ℕ → List ℕ) (p : ℕ) (xs : List ℕ) (k : ℕ) :
    standing L (p :: xs) k = if p ∈ L k then p :: standing L xs k else standing L xs k := by
  simp [standing, List.filter_cons]

theorem standing_zero {xs : List ℕ} (h : xs ⊆ L 0) : standing L xs 0 = xs := by
  simpa [standing] using fun x hx => h hx

theorem standing_all (h : Levels l L) (k : ℕ) : standing L (L 0) k = L k :=
  filter_mem_eq (List.nodup_cons.mp h.nodup).2 (h.sub_zero k)

/-- The walk between two turns: it has kept `kept` and is still to come to `rest`. -/
structure Passing (l : SkipList κ) (L : ℕ → List ℕ) (kept rest : List ℕ) (w : Walk σ κ)
    (save : ℕ → Option (Option ℕ)) (who : ℕ → Option ℕ) : Prop where
  split : kept ++ rest = (L 0).filter (· ∉ w.freed)
  key : w.list.key = l.key
  level : w.list.level = l.level
  levels : Levels w.list (standing L (kept ++ rest))
  next : ∀ k < l.level, save k = some (standing L rest k).head?
  beyond : ∀ k, l.level ≤ k → save k = none
  last : ∀ k < l.level, who k = some (lastOf 0 (standing L kept k))

section Turn
variable {kept rest : List ℕ} {w : Walk σ κ} {save : ℕ → Option (Option ℕ)}
  {who : ℕ → Option ℕ} {p n : ℕ}

theorem Passing.chain (h : Passing l L kept rest w save who) (k : ℕ) :
    Chain w.list k 0 (standing L kept k ++ standing L rest k) := by
  rw [← standing_append]
  exact h.levels.chain k

theorem Passing.nodup (h : Passing l L kept rest w save who) (hL : Levels l L) :
    (0 :: (kept ++ rest)).Nodup := by
  rw [h.split]
  exact hL.nodup.sublist (List.filter_sublist.cons_cons 0)

/-- Who points to the next node is never that node. -/
theorem Passing.last_ne (h : Passing l L kept (p :: rest) w save who) (hL : Levels l L) (k : ℕ) :
    lastOf 0 (standing L kept k) ≠ p := by
  have hnodup := h.nodup hL
  rw [← List.cons_append] at hnodup
  have hsub : (0 :: standing L kept k).Sublist (0 :: kept) := List.filter_sublist.cons_cons 0
  exact (List.nodup_append.mp hnodup).2.2 _ (hsub.subset (lastOf_mem 0 _)) _ List.mem_cons_self

theorem Passing.atNode (h : Passing l L kept (p :: rest) w save who) (hL : Levels l L)
    (hn : ∀ k, p ∈ L k ↔ k < n) : AtNode l.level p n 0 ⟨w.list, save, who⟩ where
  below k hk _ := by
    refine ⟨_, h.next k hk, ?_⟩
    have hp : p ∉ rest := by
      have hnodup := (List.nodup_cons.mp (h.nodup hL)).2
      exact (List.nodup_cons.mp (List.nodup_append.mp hnodup).2.1).1
    rw [standing_cons, ← hn k]
    split
    · rename_i hmem
      simp [hmem]
    · rename_i hnot
      simp only [hnot, iff_false]
      intro hhead
      exact hp (List.mem_of_mem_filter (List.mem_of_head? hhead))
  beyond := h.beyond
  who k hk _ := ⟨_, h.last k hk, h.last_ne hL k⟩

/-- A level on which the walk has come to node `p`. -/
theorem Passing.chain_at (h : Passing l L kept (p :: rest) w save who) {k : ℕ} (hp : p ∈ L k) :
    w.list.forward (lastOf 0 (standing L kept k)) k = some p ∧
    Chain w.list k p (standing L rest k) := by
  have hchain := h.chain k
  rw [standing_cons, if_pos hp] at hchain
  exact hchain.drop

/-- The next nodes on every level, once node `p` is behind the walk. -/
theorem Passing.next_after (h : Passing l L kept (p :: rest) w save who) {k : ℕ}
    (hk : k < l.level) : (if p ∈ L k then some (w.list.forward p k) else save k) =
      some (standing L rest k).head? := by
  split
  · rename_i hp
    rw [chain_forward (h.chain_at hp).2]
  · rename_i hp
    rw [h.next k hk, standing_cons, if_neg hp]

/-- Node `p` is kept. -/
theorem Passing.keep {t : Tracked κ} (h : Passing l L kept (p :: rest) w save who)
    (hn : ∀ k, p ∈ L k ↔ k < n) (hlow : n < l.level)
    (ht : CaughtUp false p 0 n ⟨w.list, save, who⟩ t) {w' : Walk σ κ} (hlist : w'.list = w.list)
    (hfreed : w'.freed = w.freed) : Passing l L (kept ++ [p]) rest w' t.save t.who where
  split := by rw [hfreed, ← h.split, List.append_assoc, List.singleton_append]
  key := by rw [hlist, h.key]
  level := by rw [hlist, h.level]
  levels := by
    rw [hlist, List.append_assoc, List.singleton_append]
    exact h.levels
  next k hk := by
    rw [ht.save, ← h.next_after hk]
    simp [hn]
  beyond k hk := by
    rw [ht.save, if_neg (by omega)]
    exact h.beyond k hk
  last k hk := by
    rw [ht.who, standing_append, standing_cons]
    by_cases hp : p ∈ L k
    · rw [if_pos ⟨rfl, Nat.zero_le k, (hn k).mp hp⟩, if_pos hp, lastOf_append]
      rfl
    · rw [if_neg (fun hc => hp ((hn k).mpr hc.2.2)), if_neg hp]
      exact (h.last k hk).trans (by simp [standing])

theorem Passing.mem_zero (h : Passing l L kept (p :: rest) w save who) : p ∈ L 0 := by
  have hp : p ∈ kept ++ p :: rest := List.mem_append_right _ List.mem_cons_self
  rw [h.split] at hp
  exact List.mem_of_mem_filter hp

/-- The chains once every level links past node `p`. -/
theorem Passing.chain_past {l' : SkipList κ} (h : Passing l L kept (p :: rest) w save who)
    (hL : Levels l L) {k : ℕ} (hforward : ∀ x, l'.forward x k =
      if p ∈ L k ∧ x = lastOf 0 (standing L kept k) then w.list.forward p k
      else w.list.forward x k) :
    Chain l' k 0 (standing L kept k ++ standing L rest k) := by
  have hchain := h.chain k
  by_cases hp : p ∈ L k
  · rw [standing_cons, if_pos hp] at hchain
    have hnodup : (0 :: (standing L kept k ++ p :: standing L rest k)).Nodup := by
      have hall := (h.nodup hL).sublist ((List.filter_sublist (p := (· ∈ L k))).cons_cons 0)
      rwa [List.filter_append, List.filter_cons_of_pos (by simpa using hp)] at hall
    have hother : ∀ x, x ≠ lastOf 0 (standing L kept k) →
        l'.forward x k = w.list.forward x k := by
      intro x hx
      rw [hforward, if_neg (fun hc => hx hc.2)]
    rw [← List.cons_append] at hnodup
    obtain ⟨hkept, _, hdis⟩ := List.nodup_append.mp hnodup
    refine hchain.relink hkept (fun x _ hx => hother x hx) ((h.chain_at hp).2.restart ?_ ?_)
    · rw [hforward, if_pos ⟨hp, rfl⟩]
    · intro x hx
      apply hother
      exact (hdis _ (lastOf_mem 0 _) x (List.mem_cons_of_mem p hx)).symm
  · rw [standing_cons, if_neg hp] at hchain
    refine hchain.congr fun x _ => ?_
    rw [hforward, if_neg (fun hc => hp hc.1)]

/-- Node `p` is deleted. -/
theorem Passing.delete {t : Tracked κ} (h : Passing l L kept (p :: rest) w save who)
    (hL : Levels l L) (hn : ∀ k, p ∈ L k ↔ k < n) (hlow : n < l.level)
    (ht : CaughtUp true p 0 n ⟨w.list, save, who⟩ t) {w' : Walk σ κ}
    (hlist : w'.list = { t.list with count := t.list.count - 1 })
    (hfreed : w'.freed = w.freed ++ [p]) : Passing l L kept rest w' t.save t.who := by
  have hnodup := (List.nodup_cons.mp (h.nodup hL)).2
  have hcut : (kept ++ p :: rest).filter (· ≠ p) = kept ++ rest := filter_ne_middle hnodup
  have hstand : ∀ k, (standing L (kept ++ p :: rest) k).filter (· ≠ p) =
      standing L (kept ++ rest) k := by
    intro k
    rw [← hcut, standing, standing, List.filter_filter, List.filter_filter]
    exact List.filter_congr fun x _ => Bool.and_comm _ _
  have hp := h.mem_zero
  have hlt := ht.list
  refine ⟨?_, ?_, ?_, ?_, ?_, ?_, ?_⟩
  · rw [← hcut, h.split, List.filter_filter, hfreed]
    refine List.filter_congr fun x _ => ?_
    simp [Bool.and_comm]
  · rw [hlist, hlt]
    exact h.key
  · rw [hlist, hlt]
    exact h.level
  · suffices hkeep : Levels w'.list
        fun k => (standing L (kept ++ p :: rest) k).filter (· ≠ p) by
      simpa only [hstand] using hkeep
    apply h.levels.keep
    · intro k
      rw [hstand, standing_append]
      apply h.chain_past hL
      intro x
      rw [hlist]
      refine (ht.forward x k).trans ?_
      have hwho : k < l.level → who k = some (lastOf 0 (standing L kept k)) := h.last k
      by_cases hk : k < n
      · simp [hn, hk, hwho (by omega), eq_comm]
      · simp [hn, hk]
    · rw [hlist, hlt]
    · rw [hlist, hlt]
    · have hcount := h.levels.count
      rw [standing_append, standing_cons, if_pos hp, List.length_append, List.length_cons] at hcount
      rw [hstand, hlist, hlt, standing_append, List.length_append, hcount]
      push_cast
      omega
  · intro k hk
    rw [ht.save, ← h.next_after hk]
    simp [hn]
  · intro k hk
    rw [ht.save, if_neg (by omega)]
    exact h.beyond k hk
  · intro k hk
    rw [ht.who, if_neg (by simp)]
    exact h.last k hk

/-- Between two turns the list is what is left of the old one. -/
theorem Passing.left (h : Passing l L kept rest w save who) (hL : Levels l L) :
    Levels w.list fun k => (L k).filter (· ∉ w.freed) := by
  convert h.levels using 2 with k
  rw [h.split]
  conv_lhs => rw [← standing_all hL k]
  rw [standing, standing, List.filter_filter, List.filter_filter]
  exact List.filter_congr fun x _ => Bool.and_comm _ _

theorem Passing.forward_zero (h : Passing l L kept (p :: rest) w save who) :
    w.list.forward p 0 = rest.head? := by
  have hsub : rest ⊆ L 0 := by
    intro x hx
    have hmem : x ∈ kept ++ p :: rest := List.mem_append_right _ (List.mem_cons_of_mem p hx)
    rw [h.split] at hmem
    exact List.mem_of_mem_filter hmem
  rw [chain_forward (h.chain_at h.mem_zero).2, standing_zero hsub]

theorem Passing.height_le (hL : Levels l L) (hn : ∀ k, p ∈ L k ↔ k < n) : n ≤ l.level := by
  by_contra hlt
  have hmem := (hn l.level).mpr (not_le.mp hlt)
  rw [hL.above _ le_rfl] at hmem
  cases hmem

/-- One turn of the loop on a node below the highest level. -/
theorem forLoop_turn (func : σ → κ → ℕ × σ) (h : Passing l L kept (p :: rest) w save who)
    (hL : Levels l L) (hlow : p ∉ L (l.level - 1)) (fuel : ℕ) :
    ∃ kept' w' save' who', Passing l L kept' rest w' save' who' ∧
      w'.arg = (func w.arg (l.key p)).2 ∧
      w'.calls = w.calls ++ [(p, (func w.arg (l.key p)).1)] ∧
      w'.freed = w.freed ++ deleted [(p, (func w.arg (l.key p)).1)] ∧
      forLoop func (fuel + 1) (some p) save who w =
        if quits (func w.arg (l.key p)).1 then some w'
        else forLoop func fuel rest.head? save' who' w' := by
  obtain ⟨n, hn⟩ := hL.height p
  have hle := Passing.height_le hL hn
  have hlt : n < l.level := by
    have := (hn (l.level - 1)).not.mp hlow
    have := hL.level.1
    omega
  have hmax := hL.level.2
  have hkey := h.key
  have hspec := catchUp_spec (deletes (func w.arg (l.key p)).1) (h.atNode hL hn) hle
    (Nat.zero_add n) (show n < maxNumberOfLevels + 1 by omega)
  obtain ⟨t, ht, hup⟩ := hspec.2 hlt
  cases hd : deletes (func w.arg (l.key p)).1 with
  | true =>
    rw [hd] at ht hup
    refine ⟨kept, freeNode (call func w p).2 p t.list, t.save, t.who,
      h.delete hL hn hlt hup rfl rfl, ?_⟩
    simp [forLoop, call, freeNode, hkey, hd, ht, deleted_cons, h.forward_zero]
  | false =>
    rw [hd] at ht hup
    refine ⟨kept ++ [p], (call func w p).2, t.save, t.who, h.keep hn hlt hup rfl rfl, ?_⟩
    simp [forLoop, call, hkey, hd, ht, deleted_cons, h.forward_zero]

/-- One turn of the loop on a node of the highest level. -/
theorem forLoop_top (func : σ → κ → ℕ × σ) (h : Passing l L kept (p :: rest) w save who)
    (hL : Levels l L) (htop : p ∈ L (l.level - 1)) (fuel : ℕ) :
    forLoop func (fuel + 1) (some p) save who w = none := by
  obtain ⟨n, hn⟩ := hL.height p
  have hle := Passing.height_le hL hn
  have heq : n = l.level := by
    have := (hn (l.level - 1)).mp htop
    omega
  have hmax := hL.level.2
  have hspec := catchUp_spec (deletes (func w.arg (w.list.key p)).1) (h.atNode hL hn) hle
    (Nat.zero_add n) (show n < maxNumberOfLevels + 1 by omega)
  simp [forLoop, call, hspec.1 heq]

end Turn

/-- The whole loop, from `rest` on: it comes to no node of the highest level, or it reads an
entry that was never set. -/
theorem forLoop_spec (func : σ → κ → ℕ × σ) (hL : Levels l L) {kept rest : List ℕ}
    {w : Walk σ κ} {save : ℕ → Option (Option ℕ)} {who : ℕ → Option ℕ} {fuel : ℕ}
    (h : Passing l L kept rest w save who) (hf : rest.length < fuel) :
    ((∀ a ∈ answers func l.key w.arg rest, a.1 ∉ L (l.level - 1)) →
      ∃ w', forLoop func fuel rest.head? save who w = some w' ∧
        w'.calls = w.calls ++ answers func l.key w.arg rest ∧
        w'.freed = w.freed ++ deleted (answers func l.key w.arg rest) ∧
        w'.list.key = l.key ∧ Levels w'.list fun k => (L k).filter (· ∉ w'.freed)) ∧
    ((∃ a ∈ answers func l.key w.arg rest, a.1 ∈ L (l.level - 1)) →
      forLoop func fuel rest.head? save who w = none) := by
  induction rest generalizing kept w save who fuel with
  | nil =>
    obtain ⟨fuel, rfl⟩ := Nat.exists_eq_add_one_of_ne_zero (Nat.ne_zero_of_lt hf)
    refine ⟨fun _ => ⟨w, rfl, by simp [answers], by simp [answers], h.key, h.left hL⟩, ?_⟩
    simp [answers]
  | cons p rest ih =>
    obtain ⟨fuel, rfl⟩ := Nat.exists_eq_add_one_of_ne_zero (Nat.ne_zero_of_lt hf)
    by_cases hp : p ∈ L (l.level - 1)
    · refine ⟨fun hall => absurd hp ?_, fun _ => forLoop_top func h hL hp fuel⟩
      exact hall (p, (func w.arg (l.key p)).1) (by simp [answers])
    · obtain ⟨kept', w', save', who', h', harg, hcalls, hfreed, hloop⟩ :=
        forLoop_turn func h hL hp fuel
      rw [List.head?_cons, hloop]
      cases hquit : quits (func w.arg (l.key p)).1 with
      | true =>
        rw [answers_last (Or.inl hquit)]
        refine ⟨fun _ => ⟨w', rfl, hcalls, hfreed, h'.key, h'.left hL⟩, ?_⟩
        rintro ⟨a, ha, hmem⟩
        obtain rfl := List.mem_singleton.mp ha
        exact absurd hmem hp
      | false =>
        obtain ⟨hlow, htop⟩ := ih h' (Nat.lt_of_succ_lt_succ hf)
        rw [harg] at hlow htop
        rw [answers_next hquit]
        simp only [Bool.false_eq_true, if_false, List.forall_mem_cons, List.exists_mem_cons_iff]
        constructor
        · rintro ⟨_, hall⟩
          obtain ⟨w'', hw, hc, hfr, hk, hlv⟩ := hlow hall
          refine ⟨w'', hw, ?_, ?_, hk, hlv⟩
          · rw [hc, hcalls, List.append_assoc, List.singleton_append]
          · rw [hfr, hfreed, List.append_assoc, ← deleted_append, List.singleton_append]
        · rintro (hmem | hex)
          · exact absurd hmem hp
          · exact htop hex

/-- The callback is asked about the elements in order, what it wants deleted is deleted, and
only entries of the arrays that were set are read, if and only if the callback is asked about
no element that stands on the highest level. -/
theorem doForSL_deletes_asked_iff (hL : Levels l L) (func : σ → κ → ℕ × σ) (arg : σ) :
    (∃ w, doForSL l func arg = some w ∧ DeletesAsked l L (answers func l.key arg (L 0)) w) ↔
      ∀ a ∈ answers func l.key arg (L 0), a.1 ∉ L (l.level - 1) := by
  have hstart : Passing l L [] (L 0) ⟨l, arg, [], []⟩
      (fun k => if k < l.level then some (l.forward 0 k) else none)
      (fun k => if k < l.level then some 0 else none) := by
    refine ⟨by simp, rfl, rfl, ?_, fun k hk => ?_, fun k hk => if_neg (not_lt.mpr hk),
      fun k hk => if_pos hk⟩
    · have hall : standing L (L 0) = L := funext (standing_all hL)
      rw [List.nil_append, hall]
      exact hL
    · rw [if_pos hk, standing_all hL, chain_forward (hL.chain k)]
  obtain ⟨hlow, htop⟩ := forLoop_spec func hL hstart hL.length_lt
  have hdo : doForSL l func arg = forLoop func l.made (L 0).head?
      (fun k => if k < l.level then some (l.forward 0 k) else none)
      (fun k => if k < l.level then some 0 else none) ⟨l, arg, [], []⟩ := by
    rw [doForSL, chain_forward (hL.chain 0)]
  rw [← hdo] at hlow htop
  constructor
  · rintro ⟨w, hw, _⟩ a ha hmem
    rw [htop ⟨a, ha, hmem⟩] at hw
    cases hw
  · intro hall
    obtain ⟨w, hw, hcalls, hfreed, hkey, hlevels⟩ := hlow hall
    rw [List.nil_append] at hcalls hfreed
    rw [hfreed] at hlevels
    exact ⟨w, hw, DeletesAsked.of_levels hL hcalls hfreed hkey hlevels⟩

theorem doForSL_deletes_asked_twins :
    ∃ w, doForSL twins (fun (_ : Unit) _ => (SL_DELETE + SL_QUIT, ())) () = some w ∧
      DeletesAsked twins twinsLevels
        (answers (fun (_ : Unit) _ => (SL_DELETE + SL_QUIT, ())) twins.key () [1, 2]) w :=
  (doForSL_deletes_asked_iff twins_levels _ ()).mpr (by decide)

/-- The second element stands on both levels: the entry of `save` above them is read. -/
theorem doForSL_reads_unset_entry :
    Levels twins twinsLevels ∧
    ¬∃ w, doForSL twins (fun (_ : Unit) _ => (SL_CONTINUE, ())) () = some w ∧
      DeletesAsked twins twinsLevels
        (answers (fun (_ : Unit) _ => (SL_CONTINUE, ())) twins.key () [1, 2]) w := by
  refine ⟨twins_levels, ?_⟩
  rintro ⟨w, hw, _⟩
  have hnone : (doForSL twins (fun (_ : Unit) _ => (SL_CONTINUE, ())) ()).isNone = true := by
    decide
  rw [hw] at hnone
  cases hnone

end Whole

end SkipListWalks
