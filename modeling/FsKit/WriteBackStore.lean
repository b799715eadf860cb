import Mathlib.Tactic
import FsKit.TransitionTrace

/-! A write-back store. Blocks of a disk are held in buffers, a buffer can be locked, and
its contents can be set aside as a clone that has to reach the disk before anything newer,
with a callback to be run once it is there. The acts are what a buffer cache is made of;
what reaches the disk and what the callbacks see is logged. -/
namespace WriteBackStore

open TransitionTrace

structure Buf (β γ : Type*) where
  data : β
  dirty : Bool
  clone : Option β
  func : Option γ
  lock : ℤ
  deriving DecidableEq, Repr

inductive Obs (κ β γ : Type*) where
  | flushed (k : κ) (v : β) (cloned : Bool) (lock : ℤ)
  | direct (k : κ) (v : β)
  | called (k : κ) (c : γ)
  | registered (k : κ) (v : β) (c : γ)
  deriving DecidableEq, Repr

structure Store (κ β γ : Type*) where
  buf : κ → Option (Buf β γ)
  disk : κ → β
  log : List (Obs κ β γ)

inductive Act (κ β γ : Type*) where
  | flush (ks : List κ)
  | evict (k : κ)
  | load (k : κ)
  | store (k : κ) (v : β)
  | lock (k : κ)
  | unlock (k : κ)
  | mark (k : κ)
  | modify (k : κ) (v : β)
  | register (k : κ) (c : γ)
  | direct (k : κ) (v : β)
  | replace (k : κ) (v : β)
  deriving DecidableEq, Repr

section Acts
variable {κ β γ : Type*} [DecidableEq κ]

def Obs.block : Obs κ β γ → κ
  | .flushed k _ _ _ | .direct k _ | .called k _ | .registered k _ _ => k

/-- What has been set aside, for which block and with which callback. -/
def Obs.registration : Obs κ β γ → Option (κ × β × γ)
  | .registered k v c => some (k, v, c)
  | _ => none

/-- What a flush writes: the clone, if there is one. -/
def Buf.image (b : Buf β γ) : β := b.clone.getD b.data

/-- A flush frees the clone, or else leaves the buffer clean. -/
def Buf.settle (b : Buf β γ) : Buf β γ :=
  match b.clone with
  | some _ => { b with func := none, clone := none }
  | none => { b with func := none, dirty := false }

def flushObs (t : Store κ β γ) (k : κ) : List (Obs κ β γ) :=
  match t.buf k with
  | some b => [.flushed k b.image b.clone.isSome b.lock]
  | none => []

def callObs (t : Store κ β γ) (k : κ) : List (Obs κ β γ) :=
  match (t.buf k).bind Buf.func with
  | some c => [.called k c]
  | none => []

def onBuf (t : Store κ β γ) (k : κ) (f : Buf β γ → Buf β γ) : Store κ β γ :=
  { t with buf := Function.update t.buf k ((t.buf k).map f) }

def apply (t : Store κ β γ) : Act κ β γ → Store κ β γ
  | .flush ks =>
    { buf := fun k => if k ∈ ks then (t.buf k).map Buf.settle else t.buf k
      disk := fun k => if k ∈ ks then ((t.buf k).map Buf.image).getD (t.disk k) else t.disk k
      log := t.log ++ ks.flatMap (flushObs t) ++ ks.flatMap (callObs t) }
  | .evict k => { t with buf := Function.update t.buf k none }
  | .load k => { t with buf := Function.update t.buf k (some ⟨t.disk k, false, none, none, 0⟩) }
  | .store k v => onBuf t k fun b => { b with data := v, dirty := true }
  | .lock k => onBuf t k fun b => { b with lock := b.lock + 1 }
  | .unlock k => onBuf t k fun b => { b with lock := b.lock - 1 }
  | .mark k => onBuf t k fun b => { b with dirty := true }
  | .modify k v => onBuf t k fun b => { b with data := v }
  | .register k c =>
    match t.buf k with
    | none => t
    | some b =>
      { onBuf t k fun b =>
          { b with clone := some b.data, func := some c, dirty := false, lock := b.lock - 1 } with
        log := t.log ++ [.registered k b.data c] }
  | .direct k v =>
    { onBuf t k fun b => { b with data := v } with
      disk := Function.update t.disk k v
      log := t.log ++ [.direct k v] }
  | .replace k v => onBuf t k fun b => { b with data := v }

def Allowed (t : Store κ β γ) : Act κ β γ → Prop
  | .flush ks => ks.Nodup ∧ ∀ k ∈ ks, ∃ b, t.buf k = some b ∧ (b.clone ≠ none ∨ b.lock = 0)
  | .evict k => ∃ b, t.buf k = some b ∧ b.dirty = false ∧ b.clone = none ∧ b.lock = 0
  | .load k => t.buf k = none
  | .store k _ | .lock k | .mark k => ∃ b, t.buf k = some b
  | .unlock k | .modify k _ => ∃ b, t.buf k = some b ∧ 0 < b.lock
  | .register k _ => ∃ b, t.buf k = some b ∧ 0 < b.lock ∧ b.clone = none
  | .direct k _ => ∀ b, t.buf k = some b → b.clone = none
  | .replace _ _ => True

@[simp] theorem onBuf_disk (t : Store κ β γ) (k : κ) (f : Buf β γ → Buf β γ) :
    (onBuf t k f).disk = t.disk := rfl

@[simp] theorem onBuf_log (t : Store κ β γ) (k : κ) (f : Buf β γ → Buf β γ) :
    (onBuf t k f).log = t.log := rfl

theorem onBuf_self (t : Store κ β γ) (k : κ) (f : Buf β γ → Buf β γ) :
    (onBuf t k f).buf k = (t.buf k).map f :=
  Function.update_self _ _ _

def Act.Touches (a : Act κ β γ) (k : κ) : Prop :=
  match a with
  | .flush ks => k ∈ ks
  | .evict k' | .load k' | .store k' _ | .lock k' | .unlock k' | .mark k' | .modify k' _
  | .register k' _ | .direct k' _ | .replace k' _ => k = k'

theorem apply_other {t : Store κ β γ} {a : Act κ β γ} {k : κ} (hk : ¬a.Touches k) :
    (apply t a).buf k = t.buf k ∧ (apply t a).disk k = t.disk k := by
  cases a with
  | flush ks => exact ⟨if_neg hk, if_neg hk⟩
  | register k' c =>
    simp only [apply]
    split
    · exact ⟨rfl, rfl⟩
    · exact ⟨Function.update_of_ne hk _ _, rfl⟩
  | direct k' v => exact ⟨Function.update_of_ne hk _ _, Function.update_of_ne hk _ _⟩
  | _ => exact ⟨Function.update_of_ne hk _ _, rfl⟩

omit [DecidableEq κ] in
theorem unlocked {t : Store κ β γ} {k : κ} {b : Buf β γ} (hb : t.buf k = some b)
    (h : ∃ b, t.buf k = some b ∧ 1 < b.lock) : 0 < b.lock - 1 := by
  obtain ⟨b', hb', hl⟩ := h
  rw [hb, Option.some.injEq] at hb'
  subst hb'
  omega

end Acts

section Coherence
variable {κ β γ : Type*} [DecidableEq κ]

/-- The blocks as their users see them, and which of them have been modified in place
without being marked dirty yet. -/
structure Mirror (κ β : Type*) where
  blocks : κ → β
  owed : κ → Bool

def follow (m : Mirror κ β) : Act κ β γ → Mirror κ β
  | .store k v | .direct k v => { m with blocks := Function.update m.blocks k v }
  | .modify k v => ⟨Function.update m.blocks k v, Function.update m.owed k true⟩
  | .mark k => { m with owed := Function.update m.owed k false }
  | _ => m

def CoherentAt (b : Option (Buf β γ)) (disk block : β) (owed : Bool) : Prop :=
  match b with
  | none => disk = block ∧ owed = false
  | some b => b.data = block ∧ (owed = true → 0 < b.lock) ∧
      (b.dirty = false → owed = false → b.clone.getD disk = block)

def Coherent (t : Store κ β γ) (m : Mirror κ β) : Prop :=
  ∀ k, CoherentAt (t.buf k) (t.disk k) (m.blocks k) (m.owed k)

/-- The last lock on a block is not given up while a change to it is not marked, and nothing is
replaced behind the users' backs. -/
def Marked (t : Store κ β γ) (m : Mirror κ β) : Act κ β γ → Prop
  | .unlock k | .register k _ => m.owed k = true → ∃ b, t.buf k = some b ∧ 1 < b.lock
  | .replace _ _ => False
  | _ => True

def view (t : Store κ β γ) (k : κ) : β := ((t.buf k).map Buf.data).getD (t.disk k)

variable {t : Store κ β γ} {m : Mirror κ β} {a : Act κ β γ}

omit [DecidableEq κ] in
theorem Coherent.view (h : Coherent t m) (k : κ) : view t k = m.blocks k := by
  have hk := h k
  unfold WriteBackStore.view
  cases hb : t.buf k with
  | none => rw [hb] at hk; exact hk.1
  | some b => rw [hb] at hk; exact hk.1

theorem CoherentAt.settle {b : Buf β γ} {disk block : β} {owed : Bool}
    (h : CoherentAt (some b) disk block owed) (hb : b.clone ≠ none ∨ b.lock = 0) :
    CoherentAt (some b.settle) b.image block owed := by
  obtain ⟨hdata, howed, hclean⟩ := h
  cases hc : b.clone with
  | none =>
    have hlock : b.lock = 0 := hb.resolve_left fun hne => hne hc
    simp only [CoherentAt, Buf.settle, Buf.image, hc]
    exact ⟨hdata, howed, fun _ _ => hdata⟩
  | some v =>
    simp only [CoherentAt, Buf.settle, Buf.image, hc]
    refine ⟨hdata, howed, fun hd ho => ?_⟩
    have := hclean hd ho
    rwa [hc] at this

theorem follow_other {k : κ} (hk : ¬a.Touches k) :
    (follow m a).blocks k = m.blocks k ∧ (follow m a).owed k = m.owed k := by
  cases a with
  | store k' v => exact ⟨Function.update_of_ne hk _ _, rfl⟩
  | direct k' v => exact ⟨Function.update_of_ne hk _ _, rfl⟩
  | modify k' v => exact ⟨Function.update_of_ne hk _ _, Function.update_of_ne hk _ _⟩
  | mark k' => exact ⟨rfl, Function.update_of_ne hk _ _⟩
  | _ => exact ⟨rfl, rfl⟩

theorem Coherent.apply (h : Coherent t m) (ha : Allowed t a) (hm : Marked t m a) :
    Coherent (apply t a) (follow m a) := by
  intro k
  have hat := h k
  by_cases hk : a.Touches k
  swap
  · rw [(apply_other hk).1, (apply_other hk).2, (follow_other hk).1, (follow_other hk).2]
    exact hat
  cases a with
  | flush ks =>
    have hk : k ∈ ks := hk
    obtain ⟨b, hb, hfree⟩ := ha.2 k hk
    simp only [WriteBackStore.apply, follow]
    rw [if_pos hk, if_pos hk, hb]
    rw [hb] at hat
    exact hat.settle hfree
  | evict _ =>
    cases hk
    obtain ⟨b, hb, hd, hc, hl⟩ := ha
    rw [hb] at hat
    obtain ⟨_, howed, hclean⟩ := hat
    have hfalse : m.owed k = false := by
      by_contra ho
      have := howed (by simpa using ho)
      omega
    have hdisk := hclean hd hfalse
    rw [hc] at hdisk
    simp only [WriteBackStore.apply, Function.update_self]
    exact ⟨hdisk, hfalse⟩
  | load _ =>
    cases hk
    rw [show t.buf k = none from ha] at hat
    simp only [WriteBackStore.apply, Function.update_self]
    refine ⟨hat.1, ?_, fun _ _ => hat.1⟩
    intro ho
    exact absurd (hat.2.symm.trans ho) (by decide)
  | store _ v =>
    cases hk
    obtain ⟨b, hb⟩ := ha
    rw [hb] at hat
    simp only [WriteBackStore.apply, follow, onBuf_self, hb, Option.map_some, Function.update_self]
    exact ⟨rfl, hat.2.1, fun hd => absurd hd (by simp)⟩
  | lock _ =>
    cases hk
    obtain ⟨b, hb⟩ := ha
    rw [hb] at hat
    simp only [WriteBackStore.apply, onBuf_self, hb, Option.map_some]
    refine ⟨hat.1, fun ho => ?_, hat.2.2⟩
    have := hat.2.1 ho
    change 0 < b.lock + 1
    omega
  | unlock _ =>
    cases hk
    obtain ⟨b, hb, _⟩ := ha
    rw [hb] at hat
    simp only [WriteBackStore.apply, onBuf_self, hb, Option.map_some]
    exact ⟨hat.1, fun ho => unlocked hb (hm ho), hat.2.2⟩
  | mark _ =>
    cases hk
    obtain ⟨b, hb⟩ := ha
    rw [hb] at hat
    simp only [WriteBackStore.apply, follow, onBuf_self, hb, Option.map_some, Function.update_self]
    exact ⟨hat.1, fun ho => absurd ho (by decide), fun hd => absurd hd (by simp)⟩
  | modify _ v =>
    cases hk
    obtain ⟨b, hb, hl⟩ := ha
    simp only [WriteBackStore.apply, follow, onBuf_self, hb, Option.map_some, Function.update_self]
    exact ⟨rfl, fun _ => hl, fun _ ho => absurd ho (by decide)⟩
  | register _ c =>
    cases hk
    obtain ⟨b, hb, hl, hc⟩ := ha
    rw [hb] at hat
    simp only [WriteBackStore.apply, hb, onBuf_self, Option.map_some]
    exact ⟨hat.1, fun ho => unlocked hb (hm ho), fun _ _ => hat.1⟩
  | direct _ v =>
    cases hk
    simp only [WriteBackStore.apply, follow, onBuf_self, Function.update_self]
    cases hb : t.buf k with
    | none =>
      rw [hb] at hat
      exact ⟨rfl, hat.2⟩
    | some b =>
      rw [hb] at hat
      refine ⟨rfl, hat.2.1, fun _ _ => ?_⟩
      rw [ha b hb]
      rfl
  | replace _ v => exact hm.elim

/-- Acts that neither give up a lock nor touch what is owed. -/
def Act.Plain : Act κ β γ → Prop
  | .unlock _ | .register _ _ | .mark _ | .modify _ _ => False
  | _ => True

/-- Acts that the users of the store know of. -/
def Act.Told : Act κ β γ → Prop
  | .replace _ _ => False
  | _ => True

def Act.written : Act κ β γ → Option (κ × β)
  | .store k v | .direct k v | .modify k v => some (k, v)
  | _ => none

def writeAll (blocks : κ → β) : List (κ × β) → κ → β
  | [] => blocks
  | w :: ws => writeAll (Function.update blocks w.1 w.2) ws

theorem writeAll_append (blocks : κ → β) (xs ys : List (κ × β)) :
    writeAll blocks (xs ++ ys) = writeAll (writeAll blocks xs) ys := by
  induction xs generalizing blocks with
  | nil => rfl
  | cons x xs ih => exact ih _

theorem Coherent.run {acts : List (Act κ β γ)} (h : Coherent t m)
    (ha : EveryStep WriteBackStore.apply Allowed t acts) (hplain : ∀ a ∈ acts, a.Plain ∧ a.Told) :
    Coherent (runTrace WriteBackStore.apply t acts)
      { m with blocks := writeAll m.blocks (acts.filterMap Act.written) } := by
  induction acts generalizing t m with
  | nil => exact h
  | cons a acts ih =>
    obtain ⟨hp, htold⟩ := hplain a List.mem_cons_self
    have hm : Marked t m a := by cases a <;> trivial
    have hfollow :
        follow m a = { m with blocks := writeAll m.blocks ([a].filterMap Act.written) } := by
      cases a <;> first | rfl | exact hp.elim
    have hstep := ih (h.apply ha.1 hm) ha.2 fun x hx => hplain x (List.mem_cons_of_mem _ hx)
    rw [hfollow] at hstep
    have happ : (a :: acts).filterMap Act.written =
        [a].filterMap Act.written ++ acts.filterMap Act.written := by
      rw [← List.filterMap_append]
      rfl
    rw [happ, writeAll_append]
    exact hstep

end Coherence

section Histories
variable {κ β γ : Type*} {k : κ} {t : Store κ β γ} {a : Act κ β γ}

/-- The histories a block can have, with the clone and the callback it has at the end. -/
inductive History (k : κ) : List (Obs κ β γ) → Option β → Option γ → Prop where
  | nil : History k [] none none
  | flushed {l} (v : β) (cloned : Bool) (lock : ℤ) (h : History k l none none) :
      History k (l ++ [.flushed k v cloned lock]) none none
  | direct {l} (v : β) (h : History k l none none) : History k (l ++ [.direct k v]) none none
  | registered {l} (v : β) (c : γ) (h : History k l none none) :
      History k (l ++ [.registered k v c]) (some v) (some c)
  | landed {l v c} (cloned : Bool) (lock : ℤ) (h : History k l (some v) (some c)) :
      History k (l ++ [.flushed k v cloned lock] ++ [.called k c]) none none

theorem History.clone_iff {l : List (Obs κ β γ)} {v : Option β} {c : Option γ}
    (h : History k l v c) : v = none ↔ c = none := by
  cases h <;> simp

/-- One more event at the end of a list, and a place where the list was cut. -/
theorem concat_eq_append_cons {α : Type*} {l l₁ l₂ : List α} {o x : α}
    (h : l ++ [o] = l₁ ++ x :: l₂) :
    (l₂ = [] ∧ x = o ∧ l₁ = l) ∨ ∃ l₃, l₂ = l₃ ++ [o] ∧ l = l₁ ++ x :: l₃ := by
  rcases List.eq_nil_or_concat l₂ with rfl | ⟨l₃, y, rfl⟩
  · obtain ⟨rfl, hx⟩ := List.append_inj' h rfl
    exact Or.inl ⟨rfl, (List.singleton_inj.mp hx).symm, rfl⟩
  · rw [List.concat_eq_append, ← List.cons_append, ← List.append_assoc] at h
    obtain ⟨rfl, hy⟩ := List.append_inj' h rfl
    rw [List.concat_eq_append, ← List.singleton_inj.mp hy]
    exact Or.inr ⟨l₃, rfl, rfl⟩

theorem History.last_registered {l : List (Obs κ β γ)} {v : β} {c : γ}
    (h : History k l (some v) (some c)) : ∃ l₀, l = l₀ ++ [.registered k v c] := by
  cases h with
  | registered v c h => exact ⟨_, rfl⟩

theorem History.called {l : List (Obs κ β γ)} {p : Option β} {q : Option γ}
    (h : History k l p q) :
    ∀ l₁ c l₂, l = l₁ ++ .called k c :: l₂ →
      ∃ l₀ v cloned lock, l₁ = l₀ ++ [.registered k v c, .flushed k v cloned lock] := by
  induction h with
  | nil =>
    intro l₁ c l₂ hl
    simp at hl
  | flushed v cloned lock h ih | direct v h ih | registered v c h ih =>
    intro l₁ c l₂ hl
    rcases concat_eq_append_cons hl with ⟨_, ho, _⟩ | ⟨l₃, _, hl⟩
    · cases ho
    · exact ih l₁ c l₃ hl
  | landed cloned lock h ih =>
    intro l₁ c' l₂ hl
    rcases concat_eq_append_cons hl with ⟨_, ho, rfl⟩ | ⟨l₃, _, hl⟩
    · cases ho
      obtain ⟨l₀, rfl⟩ := h.last_registered
      exact ⟨l₀, _, cloned, lock, List.append_assoc _ _ _⟩
    · rcases concat_eq_append_cons hl with ⟨_, ho, _⟩ | ⟨l₄, _, hl⟩
      · cases ho
      · exact ih l₁ c' l₄ hl

theorem History.registered_next {l : List (Obs κ β γ)} {p : Option β} {q : Option γ}
    (h : History k l p q) :
    ∀ l₁ v c l₂, l = l₁ ++ .registered k v c :: l₂ →
      (l₂ = [] ∧ p = some v ∧ q = some c) ∨
        ∃ cloned lock l₃, l₂ = .flushed k v cloned lock :: .called k c :: l₃ := by
  have hextend : ∀ {v : β} {c : γ} {l₂ l₃ : List (Obs κ β γ)} {o : Obs κ β γ}, l₂ = l₃ ++ [o] →
      (∃ cloned lock l, l₃ = .flushed k v cloned lock :: .called k c :: l) →
      ∃ cloned lock l, l₂ = .flushed k v cloned lock :: .called k c :: l := by
    rintro v c l₂ l₃ o rfl ⟨cloned, lock, l, rfl⟩
    exact ⟨cloned, lock, l ++ [o], rfl⟩
  induction h with
  | nil =>
    intro l₁ v c l₂ hl
    simp at hl
  | flushed v' cloned lock h ih | direct v' h ih =>
    intro l₁ v c l₂ hl
    rcases concat_eq_append_cons hl with ⟨_, ho, _⟩ | ⟨l₃, hl₂, hl⟩
    · cases ho
    · rcases ih l₁ v c l₃ hl with ⟨_, hp, _⟩ | hnext
      · cases hp
      · exact Or.inr (hextend hl₂ hnext)
  | registered v' c' h ih =>
    intro l₁ v c l₂ hl
    rcases concat_eq_append_cons hl with ⟨hl₂, ho, _⟩ | ⟨l₃, hl₂, hl⟩
    · cases ho
      exact Or.inl ⟨hl₂, rfl, rfl⟩
    · rcases ih l₁ v c l₃ hl with ⟨_, hp, _⟩ | hnext
      · cases hp
      · exact Or.inr (hextend hl₂ hnext)
  | landed cloned lock h ih =>
    intro l₁ v c l₂ hl
    rcases concat_eq_append_cons hl with ⟨_, ho, _⟩ | ⟨l₃, hl₂, hl⟩
    · cases ho
    · rcases concat_eq_append_cons hl with ⟨_, ho, _⟩ | ⟨l₄, hl₃, hl⟩
      · cases ho
      · rcases ih l₁ v c l₄ hl with ⟨rfl, hv, hc⟩ | hnext
        · cases hv
          cases hc
          subst hl₃
          exact Or.inr ⟨cloned, lock, [], hl₂⟩
        · exact Or.inr (hextend hl₂ (hextend hl₃ hnext))

theorem flushObs_block (t : Store κ β γ) (k : κ) : ∀ o ∈ flushObs t k, o.block = k := by
  intro o ho
  unfold flushObs at ho
  split at ho
  · rw [List.mem_singleton.mp ho]
    rfl
  · cases ho

theorem callObs_block (t : Store κ β γ) (k : κ) : ∀ o ∈ callObs t k, o.block = k := by
  intro o ho
  unfold callObs at ho
  split at ho
  · rw [List.mem_singleton.mp ho]
    rfl
  · cases ho

/-- What an act adds to the log. -/
def added (t : Store κ β γ) : Act κ β γ → List (Obs κ β γ)
  | .flush ks => ks.flatMap (flushObs t) ++ ks.flatMap (callObs t)
  | .register k c => ((t.buf k).map fun b => [.registered k b.data c]).getD []
  | .direct k v => [.direct k v]
  | _ => []

theorem added_locked (ha : Allowed t a) {v : β} {lock : ℤ}
    (h : Obs.flushed k v false lock ∈ added t a) : lock = 0 := by
  cases a with
  | flush ks =>
    simp only [added, List.mem_append, List.mem_flatMap] at h
    rcases h with ⟨x, hx, ho⟩ | ⟨x, _, ho⟩
    · obtain ⟨b, hb, hfree⟩ := ha.2 x hx
      rw [flushObs, hb, List.mem_singleton] at ho
      injection ho with _ _ hc hl
      rw [hl]
      exact hfree.resolve_left fun hne => hne (by simpa using hc.symm)
    · rw [callObs] at ho
      split at ho <;> simp at ho
  | register x c =>
    obtain ⟨b, hb, _⟩ := ha
    simp [added, hb] at h
  | direct x v => simp [added] at h
  | _ => cases h

end Histories

section Ordering
variable {κ β γ : Type*} [DecidableEq κ]

def historyOf (k : κ) (log : List (Obs κ β γ)) : List (Obs κ β γ) :=
  log.filter fun o => o.block = k

def replay (disk : κ → β) : List (Obs κ β γ) → κ → β
  | [] => disk
  | .flushed k v _ _ :: log | .direct k v :: log => replay (Function.update disk k v) log
  | _ :: log => replay disk log

structure Ordered (disk : κ → β) (t : Store κ β γ) : Prop where
  history : ∀ k, History k (historyOf k t.log) ((t.buf k).bind Buf.clone) ((t.buf k).bind Buf.func)
  locked : ∀ k v lock, Obs.flushed k v false lock ∈ t.log → lock = 0
  disk : t.disk = replay disk t.log

/-- The order in which a block reaches the disk. A callback runs right after the contents
it was registered with have been written, these are the first thing written after the
registration, and only the clone of a locked block is ever flushed. -/
structure WriteOrder (log : List (Obs κ β γ)) : Prop where
  called : ∀ k l₁ c l₂, historyOf k log = l₁ ++ .called k c :: l₂ →
    ∃ l₀ v cloned lock, l₁ = l₀ ++ [.registered k v c, .flushed k v cloned lock]
  registered : ∀ k l₁ v c l₂, historyOf k log = l₁ ++ .registered k v c :: l₂ →
    l₂ = [] ∨ ∃ cloned lock l₃, l₂ = .flushed k v cloned lock :: .called k c :: l₃
  locked : ∀ k v lock, Obs.flushed k v false lock ∈ log → lock = 0

variable {k : κ} {t : Store κ β γ} {a : Act κ β γ} {disk : κ → β}

theorem historyOf_append (k : κ) (l l' : List (Obs κ β γ)) :
    historyOf k (l ++ l') = historyOf k l ++ historyOf k l' := List.filter_append ..

theorem historyOf_self {l : List (Obs κ β γ)} (h : ∀ o ∈ l, o.block = k) : historyOf k l = l :=
  List.filter_eq_self.mpr (by simpa using h)

theorem historyOf_other {l : List (Obs κ β γ)} (h : ∀ o ∈ l, o.block ≠ k) :
    historyOf k l = [] :=
  List.filter_eq_nil_iff.mpr (by simpa using h)

theorem historyOf_flatMap {f : κ → List (Obs κ β γ)} (hf : ∀ k, ∀ o ∈ f k, o.block = k)
    {ks : List κ} (hks : ks.Nodup) :
    historyOf k (ks.flatMap f) = if k ∈ ks then f k else [] := by
  induction ks with
  | nil => rfl
  | cons x ks ih =>
    rw [List.nodup_cons] at hks
    rw [List.flatMap_cons, historyOf_append, ih hks.2]
    by_cases hx : k = x
    · subst hx
      rw [historyOf_self (hf k), if_neg hks.1, if_pos List.mem_cons_self, List.append_nil]
    · rw [historyOf_other fun o ho => by rw [hf x o ho]; exact Ne.symm hx]
      simp [hx]

theorem replay_append (disk : κ → β) (l l' : List (Obs κ β γ)) :
    replay disk (l ++ l') = replay (replay disk l) l' := by
  induction l generalizing disk with
  | nil => rfl
  | cons o l ih => cases o <;> exact ih _

theorem replay_calls (disk : κ → β) (t : Store κ β γ) (ks : List κ) :
    replay disk (ks.flatMap (callObs t)) = disk := by
  induction ks with
  | nil => rfl
  | cons k ks ih =>
    rw [List.flatMap_cons, replay_append]
    have hk : replay disk (callObs t k) = disk := by
      unfold callObs
      split <;> rfl
    rw [hk, ih]

theorem replay_flushes (disk : κ → β) (t : Store κ β γ) (ks : List κ) :
    replay disk (ks.flatMap (flushObs t)) =
      fun k => if k ∈ ks then ((t.buf k).map Buf.image).getD (disk k) else disk k := by
  induction ks generalizing disk with
  | nil => rfl
  | cons x ks ih =>
    rw [List.flatMap_cons, replay_append, ih]
    funext k
    have hx : replay disk (flushObs t x) k =
        if k = x then ((t.buf k).map Buf.image).getD (disk k) else disk k := by
      unfold flushObs
      cases hb : t.buf x with
      | none =>
        by_cases hk : k = x
        · subst hk
          simp [hb, replay]
        · simp [hk, replay]
      | some b =>
        by_cases hk : k = x
        · subst hk
          simp [hb, replay]
        · simp [hk, replay]
    by_cases hk : k = x
    · subst hk
      rw [hx]
      cases t.buf k <;> simp
    · rw [hx]
      simp [hk]

theorem Ordered.writeOrder (h : Ordered disk t) : WriteOrder t.log := by
  refine ⟨fun k l₁ c l₂ hl => (h.history k).called l₁ c l₂ hl, ?_, h.locked⟩
  intro k l₁ v c l₂ hl
  exact ((h.history k).registered_next l₁ v c l₂ hl).imp_left And.left

theorem apply_log (t : Store κ β γ) (a : Act κ β γ) : (apply t a).log = t.log ++ added t a := by
  cases a with
  | flush ks => simp [apply, added]
  | register k c => cases hb : t.buf k <;> simp [apply, added, hb]
  | _ => simp [apply, added]

theorem added_other (h : ¬a.Touches k) (ha : Allowed t a) : historyOf k (added t a) = [] := by
  cases a with
  | flush ks =>
    have hk : k ∉ ks := h
    simp only [added]
    rw [historyOf_append, historyOf_flatMap (flushObs_block t) ha.1,
      historyOf_flatMap (callObs_block t) ha.1, if_neg hk, if_neg hk]
    rfl
  | register k' c =>
    obtain ⟨b, hb, _⟩ := ha
    simp only [added, hb]
    exact historyOf_other (by simpa [Obs.block] using Ne.symm h)
  | direct k' v => exact historyOf_other (by simpa [added, Obs.block] using Ne.symm h)
  | _ => rfl

theorem Ordered.apply_history (h : Ordered disk t) (ha : Allowed t a) (k : κ) :
    History k (historyOf k (apply t a).log) (((apply t a).buf k).bind Buf.clone)
      (((apply t a).buf k).bind Buf.func) := by
  have hk := h.history k
  rw [apply_log, historyOf_append]
  by_cases ht : a.Touches k
  swap
  · rw [added_other ht ha, (apply_other ht).1, List.append_nil]
    exact hk
  cases a with
  | flush ks =>
    have ht : k ∈ ks := ht
    obtain ⟨b, hb, _⟩ := ha.2 k ht
    have hadd : historyOf k (added t (.flush ks)) = flushObs t k ++ callObs t k := by
      simp only [added]
      rw [historyOf_append, historyOf_flatMap (flushObs_block t) ha.1,
        historyOf_flatMap (callObs_block t) ha.1, if_pos ht, if_pos ht]
    rw [hadd]
    simp only [apply, if_pos ht, flushObs, callObs, hb, Option.bind_some, Option.map_some]
    rw [hb, Option.bind_some, Option.bind_some] at hk
    cases hc : b.clone with
    | none =>
      have hf : b.func = none := by rw [hc] at hk; exact hk.clone_iff.mp rfl
      rw [hc, hf] at hk
      simpa [Buf.settle, hc, hf] using hk.flushed b.image false b.lock
    | some v =>
      obtain ⟨c, hf⟩ : ∃ c, b.func = some c := by
        rw [← Option.ne_none_iff_exists']
        intro hf
        rw [hc, hf] at hk
        exact absurd (hk.clone_iff.mpr rfl) (by simp)
      rw [hc, hf] at hk
      simpa [Buf.settle, Buf.image, hc, hf] using hk.landed true b.lock
  | evict _ =>
    cases ht
    obtain ⟨b, hb, _, hc, _⟩ := ha
    rw [hb, Option.bind_some, Option.bind_some, hc] at hk
    have hf := hk.clone_iff.mp rfl
    rw [hf] at hk
    simpa [apply, added, historyOf] using hk
  | load _ =>
    cases ht
    rw [show t.buf k = none from ha] at hk
    simpa [apply, added, historyOf] using hk
  | store _ v | lock _ | mark _ =>
    cases ht
    obtain ⟨b, hb⟩ := ha
    rw [hb] at hk
    simpa [apply, added, historyOf, onBuf_self, hb] using hk
  | unlock _ | modify _ v =>
    cases ht
    obtain ⟨b, hb, _⟩ := ha
    rw [hb] at hk
    simpa [apply, added, historyOf, onBuf_self, hb] using hk
  | register _ c =>
    cases ht
    obtain ⟨b, hb, _, hc⟩ := ha
    rw [hb, Option.bind_some, Option.bind_some, hc] at hk
    have hf := hk.clone_iff.mp rfl
    rw [hf] at hk
    have hself : historyOf k [Obs.registered k b.data c] = [.registered k b.data c] :=
      historyOf_self (by simp [Obs.block])
    simpa [apply, added, onBuf_self, hb, hself] using hk.registered b.data c
  | direct _ v =>
    cases ht
    have hself : historyOf k [(Obs.direct k v : Obs κ β γ)] = [.direct k v] :=
      historyOf_self (by simp [Obs.block])
    simp only [added, hself, apply, onBuf_self]
    cases hb : t.buf k with
    | none =>
      rw [hb] at hk
      exact hk.direct v
    | some b =>
      rw [hb, Option.bind_some, Option.bind_some, ha b hb] at hk
      have hf := hk.clone_iff.mp rfl
      rw [hf] at hk
      simpa [ha b hb, hf] using hk.direct v
  | replace _ v =>
    cases ht
    cases hb : t.buf k <;>
    · rw [hb] at hk
      simpa [apply, added, historyOf, onBuf_self, hb] using hk

theorem Ordered.apply_disk (h : Ordered disk t) (ha : Allowed t a) :
    (apply t a).disk = replay disk (apply t a).log := by
  rw [apply_log, replay_append, ← h.disk]
  cases a with
  | flush ks =>
    simp only [added]
    rw [replay_append, replay_calls, replay_flushes]
    rfl
  | register x c =>
    obtain ⟨b, hb, _⟩ := ha
    simp [apply, added, hb, replay]
  | _ => rfl

theorem Ordered.apply (h : Ordered disk t) (ha : Allowed t a) :
    Ordered disk (WriteBackStore.apply t a) := by
  refine ⟨h.apply_history ha, ?_, h.apply_disk ha⟩
  intro k v lock ho
  rw [apply_log, List.mem_append] at ho
  exact ho.elim (h.locked k v lock) (added_locked ha)

theorem Ordered.run {acts : List (Act κ β γ)} (h : Ordered disk t)
    (ha : EveryStep WriteBackStore.apply Allowed t acts) :
    Ordered disk (runTrace WriteBackStore.apply t acts) :=
  (everyState_of_step (fun _ _ hs hstep => hs.apply hstep) h ha).last

end Ordering

section Flushes
variable {κ β γ : Type*} {k : κ}

/-- What is logged for a block when its buffer is written. -/
def flushLog (k : κ) (b : Buf β γ) : List (Obs κ β γ) :=
  .flushed k b.image b.clone.isSome b.lock :: (b.func.map (.called k)).toList

/-- What is logged for the clone, if there is one. -/
def cloneLog (k : κ) (b : Buf β γ) : List (Obs κ β γ) :=
  if b.clone.isSome then flushLog k b else []

/-- A buffer and its block through a run of flushes, and what is logged for the block. -/
inductive Settles (k : κ) : Buf β γ → β → List (Obs κ β γ) → Buf β γ → β → Prop where
  | refl (b : Buf β γ) (d : β) : Settles k b d [] b d
  | step {b b' : Buf β γ} {d d' : β} {l : List (Obs κ β γ)} (hb : b.clone ≠ none ∨ b.lock = 0)
      (h : Settles k b.settle b.image l b' d') : Settles k b d (flushLog k b ++ l) b' d'

variable {b b' : Buf β γ} {d d' : β} {l : List (Obs κ β γ)}

/-- Without a clone it is only the contents that are written, and only of an unlocked buffer. -/
theorem Settles.plain (h : Settles k b d l b' d') (hclone : b.clone = none)
    (hfunc : b.func = none) :
    (∀ o ∈ l, o = .flushed k b.data false 0) ∧ ((b' = b ∧ d' = d ∧ l = []) ∨
      (b.lock = 0 ∧ b' = { b with dirty := false } ∧ d' = b.data)) := by
  induction h with
  | refl b d => exact ⟨fun o ho => (List.not_mem_nil ho).elim, .inl ⟨rfl, rfl, rfl⟩⟩
  | @step b b' d d' l hb h ih =>
    have hlock : b.lock = 0 := hb.resolve_left fun hne => hne hclone
    have hsettle : b.settle = { b with dirty := false } := by
      unfold Buf.settle
      rw [hclone, ← hfunc]
    have himage : b.image = b.data := by
      unfold Buf.image
      rw [hclone]
      rfl
    rw [hsettle, himage] at ih
    obtain ⟨hl, hcases⟩ := ih hclone hfunc
    constructor
    · intro o ho
      rcases List.mem_append.mp ho with ho | ho
      · rw [flushLog, hfunc, himage, hclone, hlock] at ho
        exact List.mem_singleton.mp ho
      · exact hl o ho
    · rcases hcases with ⟨rfl, rfl, -⟩ | ⟨-, rfl, rfl⟩ <;> exact .inr ⟨hlock, rfl, rfl⟩

/-- What a run of flushes leaves that has nothing left to write: the clone has been written
first, with its callback right behind it, and after it nothing but the contents of an unlocked
buffer. -/
structure Finished (k : κ) (b : Buf β γ) (d : β) (l : List (Obs κ β γ)) (b' : Buf β γ) (d' : β) :
    Prop where
  buf : b' = { b with
    dirty := if b.lock = 0 then false else b.dirty
    clone := none
    func := none }
  disk : d' = if b.lock = 0 then b.data else b.clone.getD d
  log : ∃ rest, l = cloneLog k b ++ rest ∧ (∀ o ∈ rest, o = .flushed k b.data false 0) ∧
    (b.lock ≠ 0 → rest = [])

theorem Settles.finished_plain (h : Settles k b d l b' d') (hclone : b.clone = none)
    (hfunc : b.func = none) (hclean : b.dirty = false → d = b.data)
    (hdone : b'.lock = 0 → b'.dirty = false) : Finished k b d l b' d' := by
  obtain ⟨hl, hcases⟩ := h.plain hclone hfunc
  obtain ⟨data, dirty, clone, func, lock⟩ := b
  subst hclone hfunc
  by_cases hlock : lock = 0
  · subst hlock
    refine ⟨?_, ?_, l, rfl, hl, fun hne => absurd rfl hne⟩
    · rcases hcases with ⟨rfl, -, -⟩ | ⟨-, rfl, -⟩
      · rw [show dirty = false from hdone rfl]
        rfl
      · rfl
    · rcases hcases with ⟨rfl, rfl, -⟩ | ⟨-, -, rfl⟩
      · exact hclean (hdone rfl)
      · rfl
  · obtain ⟨rfl, rfl, rfl⟩ := hcases.resolve_right fun hor => hlock hor.1
    refine ⟨?_, (if_neg hlock).symm, [], rfl, hl, fun _ => rfl⟩
    dsimp only
    rw [if_neg hlock]

theorem Settles.finished (h : Settles k b d l b' d')
    (hclean : b.dirty = false → b.clone.getD d = b.data) (hfunc : b.func ≠ none → b.clone ≠ none)
    (hclone : b'.clone = none) (hdone : b'.lock = 0 → b'.dirty = false) :
    Finished k b d l b' d' := by
  rcases hc : b.clone with _ | v
  · refine h.finished_plain hc ?_ ?_ hdone
    · exact not_not.mp fun hne => hfunc hne hc
    · rw [hc] at hclean
      exact hclean
  cases h with
  | refl =>
    rw [hc] at hclone
    cases hclone
  | @step _ _ _ _ l hb h =>
    have hsettle : b.settle = { b with func := none, clone := none } := by
      unfold Buf.settle
      rw [hc]
    have himage : b.image = v := by
      unfold Buf.image
      rw [hc]
      rfl
    rw [hsettle, himage] at h
    rw [hc] at hclean
    obtain ⟨hbuf, hdisk, rest, hrest, hplain, hnone⟩ := h.finished_plain rfl rfl hclean hdone
    refine ⟨hbuf, ?_, rest, ?_, hplain, hnone⟩
    · rw [hc]
      exact hdisk
    · rw [cloneLog, hc, hrest]
      rfl

variable [DecidableEq κ] {t : Store κ β γ} {kss : List (List κ)}

theorem flush_here {ks : List κ} (ha : Allowed t (.flush ks)) (hk : k ∈ ks)
    (hb : t.buf k = some b) : (apply t (.flush ks)).buf k = some b.settle ∧
      (apply t (.flush ks)).disk k = b.image ∧
      historyOf k (apply t (.flush ks)).log = historyOf k t.log ++ flushLog k b := by
  refine ⟨?_, ?_, ?_⟩
  · simp only [apply, if_pos hk, hb, Option.map_some]
  · simp only [apply, if_pos hk, hb, Option.map_some, Option.getD_some]
  · rw [apply_log, historyOf_append, added, historyOf_append,
      historyOf_flatMap (flushObs_block t) ha.1, historyOf_flatMap (callObs_block t) ha.1,
      if_pos hk, if_pos hk]
    unfold flushObs callObs flushLog
    rw [hb]
    cases hf : b.func <;> simp [hf]

theorem flush_away {a : Act κ β γ} (ha : Allowed t a) (hk : ¬a.Touches k) :
    (apply t a).buf k = t.buf k ∧ (apply t a).disk k = t.disk k ∧
      historyOf k (apply t a).log = historyOf k t.log := by
  obtain ⟨hbuf, hdisk⟩ := apply_other hk
  refine ⟨hbuf, hdisk, ?_⟩
  rw [apply_log, historyOf_append, added_other hk ha, List.append_nil]

theorem flushes_settle (h : EveryStep apply Allowed t (kss.map .flush)) (hb : t.buf k = some b) :
    ∃ b' l, (runTrace apply t (kss.map .flush)).buf k = some b' ∧
      historyOf k (runTrace apply t (kss.map .flush)).log = historyOf k t.log ++ l ∧
      Settles k b (t.disk k) l b' ((runTrace apply t (kss.map .flush)).disk k) := by
  induction kss generalizing t b with
  | nil => exact ⟨b, [], hb, (List.append_nil _).symm, .refl b _⟩
  | cons ks kss ih =>
    obtain ⟨ha, hrest⟩ := h
    by_cases hk : k ∈ ks
    · obtain ⟨hbuf, hdisk, hlog⟩ := flush_here ha hk hb
      obtain ⟨b', l, hb', hl, hs⟩ := ih hrest hbuf
      obtain ⟨b₀, hb₀, hwritable⟩ := ha.2 k hk
      obtain rfl : b = b₀ := Option.some.inj (hb.symm.trans hb₀)
      rw [hdisk] at hs
      refine ⟨b', flushLog k b ++ l, hb', ?_, .step hwritable hs⟩
      rw [← List.append_assoc, ← hlog]
      exact hl
    · obtain ⟨hbuf, hdisk, hlog⟩ := flush_away ha hk
      obtain ⟨b', l, hb', hl, hs⟩ := ih hrest (hbuf.trans hb)
      rw [hdisk] at hs
      rw [hlog] at hl
      exact ⟨b', l, hb', hl, hs⟩

theorem flushes_elsewhere (h : EveryStep apply Allowed t (kss.map .flush)) (hb : t.buf k = none) :
    (runTrace apply t (kss.map .flush)).disk k = t.disk k ∧
      historyOf k (runTrace apply t (kss.map .flush)).log = historyOf k t.log := by
  induction kss generalizing t with
  | nil => exact ⟨rfl, rfl⟩
  | cons ks kss ih =>
    obtain ⟨ha, hrest⟩ := h
    have hk : k ∉ ks := by
      intro hk
      obtain ⟨b, hb', -⟩ := ha.2 k hk
      rw [hb] at hb'
      cases hb'
    obtain ⟨hbuf, hdisk, hlog⟩ := flush_away ha hk
    obtain ⟨hd, hl⟩ := ih hrest (hbuf.trans hb)
    exact ⟨hd.trans hdisk, hl.trans hlog⟩

theorem runTrace_log (t : Store κ β γ) (acts : List (Act κ β γ)) :
    ∃ new, (runTrace apply t acts).log = t.log ++ new := by
  induction acts generalizing t with
  | nil => exact ⟨[], (List.append_nil _).symm⟩
  | cons a acts ih =>
    obtain ⟨new, hnew⟩ := ih (apply t a)
    refine ⟨added t a ++ new, ?_⟩
    rw [← List.append_assoc, ← apply_log]
    exact hnew

end Flushes

end WriteBackStore
