import Mathlib.Tactic
import FsKit.StoreComposition

/-! A write-back store as its users see it. To them there are blocks, their own locks, and what they
have had registered; which blocks have buffers and what of them is on the disk they do not see.
Every act on the store is an act on the view, and a view that agrees with the store goes on
agreeing. -/
namespace WriteBackStore

open TransitionTrace

section Views
variable {κ β γ : Type*} [DecidableEq κ]

/-- What the users of a store know: the contents of the blocks, which of them they have modified
without saying so, which they have marked as dirty, and their locks. -/
structure View (κ β γ : Type*) where
  blocks : κ → β
  owed : κ → Bool
  marked : κ → Bool
  held : List κ

def View.mirror (v : View κ β γ) : Mirror κ β := ⟨v.blocks, v.owed⟩

/-- One lock of a block is given up. The marks of its users go with the last one. -/
def View.drop (v : View κ β γ) (k : κ) : View κ β γ :=
  { v with
    held := v.held.erase k
    marked := if 1 < v.held.count k then v.marked else Function.update v.marked k false }

/-- Blocks are written and locked. -/
def View.serve (v : View κ β γ) (ws : List (κ × β)) (ls : List κ) : View κ β γ :=
  { v with blocks := writeAll v.blocks ws, held := v.held ++ ls }

/-- Blocks are marked as dirty by the one who has locked them. -/
def View.mark (v : View κ β γ) (ks : List κ) : View κ β γ :=
  { v with marked := fun k => v.marked k || decide (k ∈ ks) }

def View.act (v : View κ β γ) : Act κ β γ → View κ β γ
  | .store k x | .direct k x => { v with blocks := Function.update v.blocks k x }
  | .lock k => { v with held := v.held ++ [k] }
  | .unlock k => v.drop k
  | .mark k =>
    { v with owed := Function.update v.owed k false, marked := Function.update v.marked k true }
  | .modify k x =>
    { v with blocks := Function.update v.blocks k x, owed := Function.update v.owed k true }
  | .register k _ =>
    { v with
      held := v.held.erase k
      marked := Function.update v.marked k false }
  | _ => v

/-- Nobody gives up the last lock on what has not been marked, only what is locked is marked, and
nothing is replaced behind the users' backs. -/
def View.Careful (v : View κ β γ) : Act κ β γ → Prop
  | .unlock k | .register k _ => v.owed k = true → 1 < v.held.count k
  | .mark k => k ∈ v.held
  | .replace _ _ => False
  | _ => True

/-- The locks of the store are those that its users have taken, and what they have marked is dirty.
-/
structure Locks (t : Store κ β γ) (v : View κ β γ) : Prop where
  locks : ∀ k, lockOf t k = (v.held.count k : ℕ)
  marked : ∀ k, v.marked k = true → HeldDirty t k

/-- The store is what its users take it for. -/
structure Follows (t : Store κ β γ) (v : View κ β γ) : Prop extends Locks t v where
  coherent : Coherent t v.mirror

variable {t : Store κ β γ} {v : View κ β γ} {a : Act κ β γ} {k : κ}

theorem follow_mirror (v : View κ β γ) (a : Act κ β γ) :
    follow v.mirror a = (v.act a).mirror := by
  cases a <;> rfl

theorem Locks.lock_pos (h : Locks t v) : 0 < lockOf t k ↔ k ∈ v.held := by
  rw [h.locks k, Int.natCast_pos, List.count_pos_iff]

theorem Locks.buffered (h : Locks t v) (hk : k ∈ v.held) :
    ∃ b, t.buf k = some b ∧ b.lock = (v.held.count k : ℕ) := by
  have hlock := h.locks k
  have hpos := h.lock_pos.mpr hk
  unfold lockOf at hlock hpos
  cases hb : t.buf k with
  | none =>
    rw [hb] at hpos
    exact absurd hpos (lt_irrefl 0)
  | some b =>
    rw [hb] at hlock
    exact ⟨b, rfl, hlock⟩

theorem Follows.marks (h : Follows t v) (hv : v.Careful a) : Marked t v.mirror a := by
  cases a with
  | unlock k | register k c =>
    intro howed
    have hcount : 1 < v.held.count k := hv howed
    obtain ⟨b, hb, hlock⟩ := h.buffered (List.count_pos_iff.mp (zero_lt_one.trans hcount))
    refine ⟨b, hb, ?_⟩
    rw [hlock]
    exact_mod_cast hcount
  | _ => trivial

/-- A buffer gives up a lock. -/
theorem lockOf_dropped {f : Buf β γ → Buf β γ} (k' : κ) {b : Buf β γ} (hb : t.buf k' = some b)
    (hf : (f b).lock = b.lock - 1) :
    lockOf (onBuf t k' f) k = lockOf t k - if k = k' then 1 else 0 := by
  unfold lockOf onBuf
  dsimp only
  by_cases hk : k = k'
  · subst hk
    rw [Function.update_self, hb, if_pos rfl]
    exact hf
  · rw [Function.update_of_ne hk, if_neg hk, sub_zero]

theorem count_erase (l : List κ) (k k' : κ) (hk' : k' ∈ l) :
    ((l.erase k').count k : ℤ) = (l.count k : ℤ) - if k = k' then 1 else 0 := by
  by_cases hk : k = k'
  · subst hk
    have hpos := List.count_pos_iff.mpr hk'
    rw [List.count_erase_self, if_pos rfl]
    omega
  · rw [List.count_erase_of_ne hk, if_neg hk, sub_zero]

theorem Locks.act_locks (h : Locks t v) (ha : Allowed t a) (k : κ) :
    lockOf (apply t a) k = ((v.act a).held.count k : ℕ) := by
  cases a with
  | unlock k' =>
    obtain ⟨b, hb, hpos⟩ := ha
    have hin : k' ∈ v.held := by
      rw [← h.lock_pos, lockOf, hb]
      exact hpos
    have hlock : lockOf (apply t (.unlock k')) k = _ := lockOf_dropped k' hb rfl
    rw [hlock, h.locks, ← count_erase v.held k k' hin]
    rfl
  | register k' c =>
    obtain ⟨b, hb, hpos, -⟩ := ha
    have hin : k' ∈ v.held := by
      rw [← h.lock_pos, lockOf, hb]
      exact hpos
    have hlock : lockOf (apply t (.register k' c)) k = lockOf t k - if k = k' then 1 else 0 := by
      simp only [apply, hb]
      exact lockOf_dropped k' hb rfl
    rw [hlock, h.locks, ← count_erase v.held k k' hin]
    rfl
  | mark k' =>
    have hlock : lockOf (apply t (.mark k')) k = lockOf t k := lockOf_onBuf k' fun _ => rfl
    exact hlock.trans (h.locks k)
  | modify k' x =>
    have hlock : lockOf (apply t (.modify k' x)) k = lockOf t k := lockOf_onBuf k' fun _ => rfl
    exact hlock.trans (h.locks k)
  | lock k' =>
    rw [lockOf_apply ha trivial, h.locks]
    simp [View.act, Act.locked, List.count_append]
  | flush _ | evict _ | load _ | store _ _ | direct _ _ | replace _ _ =>
    rw [lockOf_apply ha trivial, h.locks]
    simp [View.act, Act.locked]

theorem heldDirty_other (h : HeldDirty t k) (hk : ¬a.Touches k) : HeldDirty (apply t a) k := by
  obtain ⟨b, hb, hheld⟩ := h
  exact ⟨b, (apply_other hk).1.trans hb, hheld⟩

theorem Locks.act_marked (h : Locks t v) (ha : Allowed t a) (hv : v.Careful a) (k : κ)
    (hk : (v.act a).marked k = true) : HeldDirty (apply t a) k := by
  cases a with
  | unlock k' =>
    by_cases heq : k = k'
    · subst heq
      have hmore : 1 < v.held.count k := by
        by_contra hle
        simp [View.act, View.drop, hle] at hk
      have hmarked : v.marked k = true := by simpa [View.act, View.drop, hmore] using hk
      obtain ⟨b, hb, hdirty, -⟩ := h.marked k hmarked
      have hlock := h.locks k
      rw [lockOf, hb] at hlock
      refine ⟨{ b with lock := b.lock - 1 }, ?_, hdirty, ?_⟩
      · simp only [apply, onBuf_self, hb, Option.map_some]
      · have hcount : b.lock = (v.held.count k : ℕ) := hlock
        dsimp only
        omega
    · refine heldDirty_other (a := .unlock k') (h.marked k ?_) heq
      simp only [View.act, View.drop] at hk
      split at hk
      · exact hk
      · rwa [Function.update_of_ne heq] at hk
  | register k' c =>
    have heq : k ≠ k' := by
      rintro rfl
      simp [View.act] at hk
    refine heldDirty_other (a := .register k' c) (h.marked k ?_) heq
    simpa [View.act, Function.update_of_ne heq] using hk
  | mark k' =>
    by_cases heq : k = k'
    · subst heq
      obtain ⟨b, hb, hlock⟩ := h.buffered hv
      refine ⟨{ b with dirty := true }, ?_, rfl, ?_⟩
      · simp only [apply, onBuf_self, hb, Option.map_some]
      · have hpos := List.count_pos_iff.mpr hv
        dsimp only
        omega
    · refine heldDirty_other (a := .mark k') (h.marked k ?_) heq
      simpa [View.act, Function.update_of_ne heq] using hk
  | modify k' x =>
    obtain ⟨b, hb, hheld⟩ := h.marked k hk
    by_cases heq : k = k'
    · subst heq
      exact ⟨{ b with data := x }, by simp only [apply, onBuf_self, hb, Option.map_some], hheld⟩
    · exact heldDirty_other (a := .modify k' x) ⟨b, hb, hheld⟩ heq
  | flush _ | evict _ | load _ | store _ _ | lock _ | direct _ _ =>
    exact (h.marked k hk).apply ha trivial
  | replace _ _ => exact hv.elim

theorem Locks.act (h : Locks t v) (ha : Allowed t a) (hv : v.Careful a) :
    Locks (apply t a) (v.act a) :=
  ⟨h.act_locks ha, h.act_marked ha hv⟩

theorem Locks.run {acts : List (Act κ β γ)} (h : Locks t v) (ha : EveryStep apply Allowed t acts)
    (hv : EveryStep View.act View.Careful v acts) :
    Locks (runTrace apply t acts) (runTrace View.act v acts) := by
  induction acts generalizing t v with
  | nil => exact h
  | cons a acts ih => exact ih (h.act ha.1 hv.1) ha.2 hv.2

/-- Acts that give up no lock leave the locks and add their own, whatever they write. -/
theorem Locks.reaches {u : Store κ β γ} {ls : List κ} (h : Locks t v) (hr : Reaches ls t u)
    (ws : List (κ × β)) : Locks u (v.serve ws ls) where
  locks k := by
    rw [hr.lockOf, h.locks]
    simp [View.serve, List.count_append]
  marked k hk := (h.marked k hk).reaches hr

/-- Blocks that are locked and dirty may be marked. -/
theorem Locks.mark (h : Locks t v) {ks : List κ} (hks : ∀ k ∈ ks, HeldDirty t k) :
    Locks t (v.mark ks) where
  locks := h.locks
  marked k hk := by
    rcases (Bool.or_eq_true _ _).mp hk with hk | hk
    · exact h.marked k hk
    · exact hks k (of_decide_eq_true hk)

/-- What is flushed on the way, and is no clone, is locked by nobody, and nothing is registered. -/
theorem Locks.logs {u : Store κ β γ} {ls : List κ} (h : Locks t v) (hr : Reaches ls t u) :
    ∃ l, u.log = t.log ++ l ∧ (∀ k x lock, Obs.flushed k x false lock ∈ l → k ∉ v.held) ∧
      l.filterMap Obs.registration = [] := by
  obtain ⟨l, hl, hflushed, hnone⟩ := hr.logs
  refine ⟨l, hl, fun k x lock ho hk => ?_, hnone⟩
  have hpos := h.lock_pos.mpr hk
  have hle := hflushed k x lock ho
  omega

/-- An act on the store is the act on the view. -/
theorem Follows.act (h : Follows t v) (ha : Allowed t a) (hv : v.Careful a) :
    Follows (apply t a) (v.act a) where
  toLocks := h.toLocks.act ha hv
  coherent := by
    rw [← follow_mirror]
    exact h.coherent.apply ha (h.marks hv)

theorem Follows.run {acts : List (Act κ β γ)} (h : Follows t v)
    (ha : EveryStep apply Allowed t acts) (hv : EveryStep View.act View.Careful v acts) :
    Follows (runTrace apply t acts) (runTrace View.act v acts) := by
  induction acts generalizing t v with
  | nil => exact h
  | cons a acts ih => exact ih (h.act ha.1 hv.1) ha.2 hv.2

theorem Act.Plain.careful (hplain : a.Plain) (htold : a.Told) (v : View κ β γ) : v.Careful a := by
  cases a <;> trivial

/-- What the users see of acts that are none of theirs. -/
theorem plain_view {acts : List (Act κ β γ)} (hplain : ∀ a ∈ acts, a.Plain ∧ a.Told) :
    ∀ v : View κ β γ, EveryStep View.act View.Careful v acts ∧ runTrace View.act v acts =
      v.serve (acts.filterMap Act.written) (acts.filterMap Act.locked) := by
  induction acts with
  | nil => exact fun v => ⟨trivial, by simp [View.serve, writeAll]⟩
  | cons a acts ih =>
    intro v
    obtain ⟨hhead, htold⟩ := hplain a List.mem_cons_self
    obtain ⟨hcareful, hrun⟩ := ih (fun x hx => hplain x (List.mem_cons_of_mem _ hx)) (v.act a)
    refine ⟨⟨hhead.careful htold v, hcareful⟩, ?_⟩
    rw [runTrace_cons, hrun]
    cases a <;> first
      | exact hhead.elim
      | exact htold.elim
      | simp [View.serve, View.act, Act.written, Act.locked, writeAll, List.filterMap_cons]

theorem Follows.performs {u : Store κ β γ} {ws : List (κ × β)} {ls : List κ} (h : Follows t v)
    (hp : Performs ws ls t u) : Follows u (v.serve ws ls) := by
  obtain ⟨acts, ha, rfl, hplain, rfl, rfl⟩ := hp
  obtain ⟨hcareful, hrun⟩ := plain_view hplain v
  rw [← hrun]
  exact h.run ha hcareful

theorem Follows.mark (h : Follows t v) {ks : List κ} (hks : ∀ k ∈ ks, HeldDirty t k) :
    Follows t (v.mark ks) where
  toLocks := h.toLocks.mark hks
  coherent := h.coherent

end Views

end WriteBackStore
