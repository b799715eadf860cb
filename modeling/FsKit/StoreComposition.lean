import Mathlib.Tactic
import FsKit.WriteBackStore

/-! How the acts of a write-back store compose. Acts on different blocks do not see each other, so
that a run of them can be put together from what it does to each block; a flush of some of the
buffers is the same flush of the whole store. -/
namespace WriteBackStore

open TransitionTrace

section Parts
variable {κ β γ : Type*} [DecidableEq κ] {t u : Store κ β γ}

/-- The buffers of `u` are some of the buffers of `t`. -/
structure Part (u t : Store κ β γ) : Prop where
  buf : ∀ k b, u.buf k = some b → t.buf k = some b
  disk : u.disk = t.disk
  log : u.log = t.log

theorem Part.flush (h : Part u t) {ks : List κ} (ha : Allowed u (.flush ks)) :
    Allowed t (.flush ks) ∧ Part (apply u (.flush ks)) (apply t (.flush ks)) := by
  have hsame : ∀ k ∈ ks, u.buf k = t.buf k := by
    intro k hk
    obtain ⟨b, hb, -⟩ := ha.2 k hk
    rw [hb, h.buf k b hb]
  refine ⟨⟨ha.1, fun k hk => ?_⟩, fun k b hb => ?_, ?_, ?_⟩
  · rw [← hsame k hk]
    exact ha.2 k hk
  · simp only [apply] at hb ⊢
    split at hb
    · rename_i hk
      rw [if_pos hk, ← hsame k hk]
      exact hb
    · rename_i hk
      rw [if_neg hk]
      exact h.buf k b hb
  · funext k
    simp only [apply]
    split
    · rename_i hk
      rw [hsame k hk, h.disk]
    · rw [h.disk]
  · simp only [apply]
    rw [h.log]
    refine congrArg₂ _ (congrArg₂ _ rfl (List.flatMap_congr fun k hk => ?_))
      (List.flatMap_congr fun k hk => ?_)
    · unfold flushObs
      rw [hsame k hk]
    · unfold callObs
      rw [hsame k hk]

/-- Flushes of a part are flushes of the whole, and leave the other buffers alone. -/
theorem Part.flushes (h : Part u t) {kss : List (List κ)}
    (ha : EveryStep apply Allowed u (kss.map .flush)) :
    EveryStep apply Allowed t (kss.map .flush) ∧
      Part (runTrace apply u (kss.map .flush)) (runTrace apply t (kss.map .flush)) ∧
      ∀ k, u.buf k = none → (runTrace apply t (kss.map .flush)).buf k = t.buf k := by
  induction kss generalizing u t with
  | nil => exact ⟨trivial, h, fun _ _ => rfl⟩
  | cons ks kss ih =>
    obtain ⟨hallowed, hpart⟩ := h.flush ha.1
    obtain ⟨hrest, hpart', hothers⟩ := ih hpart ha.2
    refine ⟨⟨hallowed, hrest⟩, hpart', fun k hnone => ?_⟩
    have hk : k ∉ ks := by
      intro hk
      obtain ⟨b, hb, -⟩ := ha.1.2 k hk
      rw [hnone] at hb
      cases hb
    have hstill : (apply u (.flush ks)).buf k = none := by
      simp only [apply]
      rw [if_neg hk, hnone]
    refine (hothers k hstill).trans ?_
    simp only [apply]
    rw [if_neg hk]

end Parts

section Groups
variable {κ β γ : Type*} [DecidableEq κ] {t u : Store κ β γ} {a : Act κ β γ} {k : κ}

/-- Acts on the buffer of one block that neither write nor log anything. -/
def Act.QuietAt (k : κ) : Act κ β γ → Prop
  | .evict k' | .load k' | .store k' _ | .lock k' => k' = k
  | _ => False

/-- Two stores have the same in one block. -/
def SameAt (k : κ) (t u : Store κ β γ) : Prop := t.buf k = u.buf k ∧ t.disk k = u.disk k

theorem Act.QuietAt.step (ha : a.QuietAt k) (t : Store κ β γ) :
    (apply t a).disk = t.disk ∧ (apply t a).log = t.log ∧
      ∀ k', k' ≠ k → (apply t a).buf k' = t.buf k' := by
  cases a with
  | evict _ | load _ | store _ _ | lock _ =>
    cases ha
    exact ⟨rfl, rfl, fun k' hk' => Function.update_of_ne hk' _ _⟩
  | _ => exact ha.elim

theorem Act.QuietAt.congr (ha : a.QuietAt k) (h : SameAt k t u) :
    (Allowed t a ↔ Allowed u a) ∧ SameAt k (apply t a) (apply u a) := by
  obtain ⟨hbuf, hdisk⟩ := h
  cases a with
  | evict _ | load _ =>
    cases ha
    refine ⟨by simp only [Allowed, hbuf], ?_, hdisk⟩
    simp only [apply, Function.update_self, hdisk]
  | store _ _ | lock _ =>
    cases ha
    refine ⟨by simp only [Allowed, hbuf], ?_, hdisk⟩
    simp only [apply, onBuf_self, hbuf]
  | _ => exact ha.elim

variable {acts : List (Act κ β γ)}

theorem quiet_run (hacts : ∀ a ∈ acts, a.QuietAt k) (t : Store κ β γ) :
    (runTrace apply t acts).disk = t.disk ∧ (runTrace apply t acts).log = t.log ∧
      ∀ k', k' ≠ k → (runTrace apply t acts).buf k' = t.buf k' := by
  induction acts generalizing t with
  | nil => exact ⟨rfl, rfl, fun _ _ => rfl⟩
  | cons a acts ih =>
    obtain ⟨hdisk, hlog, hbuf⟩ := (hacts a List.mem_cons_self).step t
    obtain ⟨hdisk', hlog', hbuf'⟩ :=
      ih (fun b hb => hacts b (List.mem_cons_of_mem _ hb)) (apply t a)
    exact ⟨hdisk'.trans hdisk, hlog'.trans hlog,
      fun k' hk' => (hbuf' k' hk').trans (hbuf k' hk')⟩

theorem quiet_run_congr (hacts : ∀ a ∈ acts, a.QuietAt k) (h : SameAt k t u) :
    (EveryStep apply Allowed t acts ↔ EveryStep apply Allowed u acts) ∧
      SameAt k (runTrace apply t acts) (runTrace apply u acts) := by
  induction acts generalizing t u with
  | nil => exact ⟨Iff.rfl, h⟩
  | cons a acts ih =>
    obtain ⟨hallowed, hsame⟩ := (hacts a List.mem_cons_self).congr h
    obtain ⟨hrest, hend⟩ := ih (fun b hb => hacts b (List.mem_cons_of_mem _ hb)) hsame
    exact ⟨and_congr hallowed hrest, hend⟩

/-- Quiet acts on different blocks, one block after another: each block has what its own acts
make of it. -/
theorem quiet_groups {f : κ → List (Act κ β γ)} (hf : ∀ k, ∀ a ∈ f k, a.QuietAt k) {ks : List κ}
    (hks : ks.Nodup) {t : Store κ β γ} (ha : ∀ k ∈ ks, EveryStep apply Allowed t (f k)) :
    EveryStep apply Allowed t (ks.flatMap f) ∧
      runTrace apply t (ks.flatMap f) = { t with
        buf := fun k => if k ∈ ks then (runTrace apply t (f k)).buf k else t.buf k } := by
  induction ks generalizing t with
  | nil => exact ⟨trivial, by simp⟩
  | cons x ks ih =>
    obtain ⟨hx, hnodup⟩ := List.nodup_cons.mp hks
    obtain ⟨hdisk, hlog, hbuf⟩ := quiet_run (hf x) t
    have hsame : ∀ k ∈ ks, SameAt k (runTrace apply t (f x)) t := by
      intro k hk
      refine ⟨hbuf k ?_, by rw [hdisk]⟩
      rintro rfl
      exact hx hk
    obtain ⟨hallowed, hrun⟩ := ih hnodup (t := runTrace apply t (f x)) fun k hk =>
      (quiet_run_congr (hf k) (hsame k hk)).1.mpr (ha k (List.mem_cons_of_mem _ hk))
    rw [List.flatMap_cons, everyStep_append, runTrace_append, hrun]
    refine ⟨⟨ha x List.mem_cons_self, hallowed⟩, ?_⟩
    rw [hdisk, hlog]
    congr 1
    funext k
    by_cases hk : k = x
    · subst hk
      rw [if_neg hx, if_pos List.mem_cons_self]
    · by_cases hin : k ∈ ks
      · rw [if_pos hin, if_pos (List.mem_cons_of_mem _ hin)]
        exact (quiet_run_congr (hf k) (hsame k hin)).2.1
      · rw [if_neg hin, if_neg (by simp [hk, hin])]
        exact hbuf k hk

end Groups

section Performing
variable {κ β γ : Type*} [DecidableEq κ] {t u v : Store κ β γ} {m : Mirror κ β} {k : κ}
  {ws ws' : List (κ × β)} {ls ls' : List κ}

/-- The block that an act locks. -/
def Act.locked : Act κ β γ → Option κ
  | .lock k => some k
  | _ => none

/-- The store gets from `t` to `u` by acts that lock `ls`, and that leave the giving up of locks and
what is owed to others. -/
def Reaches (ls : List κ) (t u : Store κ β γ) : Prop :=
  ∃ acts : List (Act κ β γ), EveryStep apply Allowed t acts ∧ runTrace apply t acts = u ∧
    (∀ a ∈ acts, a.Plain) ∧ acts.filterMap Act.locked = ls

/-- So it does by acts that write `ws`, all of which its users know of. -/
def Performs (ws : List (κ × β)) (ls : List κ) (t u : Store κ β γ) : Prop :=
  ∃ acts : List (Act κ β γ), EveryStep apply Allowed t acts ∧ runTrace apply t acts = u ∧
    (∀ a ∈ acts, a.Plain ∧ a.Told) ∧ acts.filterMap Act.written = ws ∧
    acts.filterMap Act.locked = ls

theorem Performs.reaches (h : Performs ws ls t u) : Reaches ls t u := by
  obtain ⟨acts, ha, hrun, hplain, -, hlocked⟩ := h
  exact ⟨acts, ha, hrun, fun a ha => (hplain a ha).1, hlocked⟩

theorem Reaches.refl (t : Store κ β γ) : Reaches [] t t :=
  ⟨[], trivial, rfl, fun _ ha => (List.not_mem_nil ha).elim, rfl⟩

theorem Reaches.trans (h : Reaches ls t u) (h' : Reaches ls' u v) : Reaches (ls ++ ls') t v := by
  obtain ⟨as, ha, rfl, hplain, rfl⟩ := h
  obtain ⟨bs, hb, rfl, hplain', rfl⟩ := h'
  refine ⟨as ++ bs, everyStep_append.mpr ⟨ha, hb⟩, runTrace_append .., fun a ha => ?_,
    List.filterMap_append⟩
  exact (List.mem_append.mp ha).elim (hplain a) (hplain' a)

theorem Performs.refl (t : Store κ β γ) : Performs [] [] t t :=
  ⟨[], trivial, rfl, fun _ ha => (List.not_mem_nil ha).elim, rfl, rfl⟩

theorem Performs.trans (h : Performs ws ls t u) (h' : Performs ws' ls' u v) :
    Performs (ws ++ ws') (ls ++ ls') t v := by
  obtain ⟨as, ha, rfl, hplain, rfl, rfl⟩ := h
  obtain ⟨bs, hb, rfl, hplain', rfl, rfl⟩ := h'
  refine ⟨as ++ bs, everyStep_append.mpr ⟨ha, hb⟩, runTrace_append .., fun a ha => ?_,
    List.filterMap_append, List.filterMap_append⟩
  exact (List.mem_append.mp ha).elim (hplain a) (hplain' a)

theorem Performs.single {a : Act κ β γ} (ha : Allowed t a) (hplain : a.Plain ∧ a.Told) :
    Performs a.written.toList a.locked.toList t (apply t a) := by
  refine ⟨[a], ⟨ha, trivial⟩, rfl, List.forall_mem_singleton.mpr hplain, ?_, ?_⟩
  · cases hw : a.written <;> simp [hw]
  · cases hl : a.locked <;> simp [hl]

theorem Performs.coherent (h : Performs ws ls t u) (hc : Coherent t m) :
    Coherent u { m with blocks := writeAll m.blocks ws } := by
  obtain ⟨acts, ha, rfl, hplain, rfl, -⟩ := h
  exact hc.run ha hplain

theorem Reaches.ordered {disk : κ → β} (h : Reaches ls t u) (ho : Ordered disk t) :
    Ordered disk u := by
  obtain ⟨acts, ha, rfl, -, -⟩ := h
  exact ho.run ha

theorem performs_flushes {kss : List (List κ)} (ha : EveryStep apply Allowed t (kss.map .flush)) :
    Performs [] [] t (runTrace apply t (kss.map .flush)) := by
  refine ⟨_, ha, rfl, fun a hmem => ?_, List.filterMap_eq_nil_iff.mpr fun a hmem => ?_,
    List.filterMap_eq_nil_iff.mpr fun a hmem => ?_⟩ <;>
  · obtain ⟨ks, -, rfl⟩ := List.mem_map.mp hmem
    trivial

/-- The quiet acts of some blocks, each of which writes at most its own. -/
theorem performs_groups {f : κ → List (Act κ β γ)} (hf : ∀ k, ∀ a ∈ f k, a.QuietAt k) {ks : List κ}
    (hks : ks.Nodup) (ha : ∀ k ∈ ks, EveryStep apply Allowed t (f k)) :
    Performs (ks.flatMap fun k => (f k).filterMap Act.written)
      (ks.flatMap fun k => (f k).filterMap Act.locked) t { t with
        buf := fun k => if k ∈ ks then (runTrace apply t (f k)).buf k else t.buf k } := by
  obtain ⟨hallowed, hrun⟩ := quiet_groups hf hks ha
  refine ⟨_, hallowed, hrun, fun a hmem => ?_, List.filterMap_flatMap, List.filterMap_flatMap⟩
  obtain ⟨k, -, hak⟩ := List.mem_flatMap.mp hmem
  have hquiet := hf k a hak
  cases a with
  | evict _ | load _ | store _ _ | lock _ => exact ⟨trivial, trivial⟩
  | _ => exact hquiet.elim

theorem performs_evicts {ks : List κ} (hks : ks.Nodup) (ha : ∀ k ∈ ks, Allowed t (.evict k)) :
    Performs [] [] t { t with buf := fun k => if k ∈ ks then none else t.buf k } := by
  have hquiet : ∀ k : κ, ∀ a ∈ [(.evict k : Act κ β γ)], a.QuietAt k := fun k =>
    List.forall_mem_singleton.mpr rfl
  have h := performs_groups hquiet hks fun k hk => ⟨ha k hk, trivial⟩
  have hnone : ∀ k, (runTrace apply t [.evict k]).buf k = none := fun k => Function.update_self ..
  have hwritten : (ks.flatMap fun k => [(.evict k : Act κ β γ)].filterMap Act.written) = [] :=
    List.flatMap_eq_nil_iff.mpr fun _ _ => rfl
  have hlocked : (ks.flatMap fun k => [(.evict k : Act κ β γ)].filterMap Act.locked) = [] :=
    List.flatMap_eq_nil_iff.mpr fun _ _ => rfl
  simp only [hwritten, hlocked, hnone] at h
  exact h

end Performing

section Data
variable {κ β γ : Type*} [DecidableEq κ] {t : Store κ β γ} {k : κ} {v : β} {ks : List κ}

/-- The contents of a buffer are replaced, and nothing says so. -/
def setData (t : Store κ β γ) (k : κ) (v : β) : Store κ β γ :=
  onBuf t k fun b => { b with data := v }

def setAll (t : Store κ β γ) (ws : List (κ × β)) : Store κ β γ :=
  ws.foldl (fun t w => setData t w.1 w.2) t

theorem setData_buf (hk : k ∉ ks) : ∀ k' ∈ ks, (setData t k v).buf k' = t.buf k' := by
  intro k' hk'
  refine Function.update_of_ne ?_ _ _
  rintro rfl
  exact hk hk'

/-- A flush of other blocks does not see the new contents. -/
theorem flush_setData (hk : k ∉ ks) (ha : Allowed (setData t k v) (.flush ks)) :
    Allowed t (.flush ks) ∧
      apply (setData t k v) (.flush ks) = setData (apply t (.flush ks)) k v := by
  have hbuf := setData_buf (t := t) (v := v) hk
  refine ⟨⟨ha.1, fun k' hk' => hbuf k' hk' ▸ ha.2 k' hk'⟩, ?_⟩
  have hflushed : ks.flatMap (flushObs (setData t k v)) = ks.flatMap (flushObs t) :=
    List.flatMap_congr fun k' hk' => by
      unfold flushObs
      rw [hbuf k' hk']
  have hcalled : ks.flatMap (callObs (setData t k v)) = ks.flatMap (callObs t) :=
    List.flatMap_congr fun k' hk' => by
      unfold callObs
      rw [hbuf k' hk']
  simp only [apply]
  unfold setData onBuf
  dsimp only
  congr 1
  · funext k'
    by_cases hin : k' ∈ ks
    · have hne : k' ≠ k := fun heq => hk (heq ▸ hin)
      rw [if_pos hin, Function.update_of_ne hne, Function.update_of_ne hne, if_pos hin]
    · by_cases heq : k' = k
      · subst heq
        rw [if_neg hin, Function.update_self, Function.update_self, if_neg hin]
      · rw [if_neg hin, Function.update_of_ne heq, Function.update_of_ne heq, if_neg hin]
  · funext k'
    by_cases hin : k' ∈ ks
    · have hne : k' ≠ k := fun heq => hk (heq ▸ hin)
      rw [if_pos hin, if_pos hin, Function.update_of_ne hne]
    · rw [if_neg hin, if_neg hin]
  · exact congrArg₂ _ (congrArg₂ _ rfl hflushed) hcalled

theorem flushes_setData {kss : List (List κ)} (hk : ∀ ks ∈ kss, k ∉ ks)
    (ha : EveryStep apply Allowed (setData t k v) (kss.map .flush)) :
    EveryStep apply Allowed t (kss.map .flush) ∧
      runTrace apply (setData t k v) (kss.map .flush) =
        setData (runTrace apply t (kss.map .flush)) k v := by
  induction kss generalizing t with
  | nil => exact ⟨trivial, rfl⟩
  | cons ks kss ih =>
    obtain ⟨hallowed, hflush⟩ := flush_setData (hk ks List.mem_cons_self) ha.1
    have hrest := ha.2
    rw [hflush] at hrest
    obtain ⟨hallowed', hrun⟩ := ih (fun ks' hks' => hk ks' (List.mem_cons_of_mem _ hks')) hrest
    refine ⟨⟨hallowed, hallowed'⟩, ?_⟩
    rw [List.map_cons, runTrace_cons, runTrace_cons, hflush, hrun]

/-- Flushes do not reach what has no buffer. -/
theorem flushes_absent {kss : List (List κ)} (ha : EveryStep apply Allowed t (kss.map .flush))
    (hk : t.buf k = none) :
    (∀ ks ∈ kss, k ∉ ks) ∧ (runTrace apply t (kss.map .flush)).buf k = none := by
  induction kss generalizing t with
  | nil => exact ⟨fun _ hks => (List.not_mem_nil hks).elim, hk⟩
  | cons ks kss ih =>
    have hnot : k ∉ ks := by
      intro hin
      obtain ⟨b, hb, -⟩ := ha.1.2 k hin
      rw [hk] at hb
      cases hb
    have htouch : ¬(Act.flush ks : Act κ β γ).Touches k := hnot
    obtain ⟨hrest, hend⟩ := ih ha.2 (by rw [(apply_other htouch).1, hk])
    exact ⟨List.forall_mem_cons.mpr ⟨hnot, hrest⟩, hend⟩

theorem setAll_buf {t u : Store κ β γ} (ws : List (κ × β)) (h : t.buf = u.buf) :
    (setAll t ws).buf = (setAll u ws).buf := by
  induction ws generalizing t u with
  | nil => exact h
  | cons w ws ih =>
    refine ih (t := setData t w.1 w.2) (u := setData u w.1 w.2) ?_
    unfold setData onBuf
    rw [h]

theorem setAll_kept (t : Store κ β γ) (ws : List (κ × β)) :
    (setAll t ws).disk = t.disk ∧ (setAll t ws).log = t.log ∧ ∀ k b, t.buf k = some b →
      ∃ v, (setAll t ws).buf k = some { b with data := v } := by
  induction ws generalizing t with
  | nil => exact ⟨rfl, rfl, fun k b hb => ⟨b.data, hb⟩⟩
  | cons w ws ih =>
    obtain ⟨hdisk, hlog, hbuf⟩ := ih (setData t w.1 w.2)
    refine ⟨hdisk, hlog, fun k b hb => ?_⟩
    by_cases hk : k = w.1
    · subst hk
      exact hbuf w.1 { b with data := w.2 } (by rw [setData, onBuf_self, hb]; rfl)
    · exact hbuf k b ((Function.update_of_ne hk _ _).trans hb)

/-- New contents for buffers, of which the users of the store are not told. -/
theorem reaches_setAll (t : Store κ β γ) (ws : List (κ × β)) : Reaches [] t (setAll t ws) := by
  induction ws generalizing t with
  | nil => exact .refl t
  | cons w ws ih =>
    have hfirst : Reaches [] t (setData t w.1 w.2) :=
      ⟨[.replace w.1 w.2], ⟨trivial, trivial⟩, rfl, List.forall_mem_singleton.mpr trivial, rfl⟩
    exact hfirst.trans (ih (setData t w.1 w.2))

/-- Blocks that are written past their buffers, which get the contents too. -/
def directAll (t : Store κ β γ) (ws : List (κ × β)) : Store κ β γ where
  buf := (setAll t ws).buf
  disk := writeAll t.disk ws
  log := t.log ++ ws.map fun w => .direct w.1 w.2

theorem directAll_cons (t : Store κ β γ) (w : κ × β) (ws : List (κ × β)) :
    directAll t (w :: ws) = directAll (apply t (.direct w.1 w.2)) ws := by
  have hbuf : (setAll (apply t (.direct w.1 w.2)) ws).buf = (setAll t (w :: ws)).buf :=
    setAll_buf ws rfl
  unfold directAll
  rw [hbuf, List.map_cons, List.append_cons]
  rfl

/-- Some blocks are written past their buffers, and others get contents that are not written. -/
theorem setAll_directAll (t : Store κ β γ) (ws vs : List (κ × β)) :
    setAll (directAll t ws) vs = { directAll t ws with buf := (setAll t (ws ++ vs)).buf } := by
  obtain ⟨hdisk, hlog, -⟩ := setAll_kept (directAll t ws) vs
  have hbuf : (setAll (directAll t ws) vs).buf = (setAll t (ws ++ vs)).buf := by
    have hboth : setAll t (ws ++ vs) = setAll (setAll t ws) vs := List.foldl_append
    rw [hboth]
    exact setAll_buf vs rfl
  generalize setAll (directAll t ws) vs = u at hbuf hdisk hlog
  obtain ⟨buf, disk, log⟩ := u
  dsimp only at hbuf hdisk hlog
  rw [hbuf, hdisk, hlog]

/-- What has no clone can be written directly, one block after another. -/
theorem performs_directs (ws : List (κ × β))
    (hclone : ∀ w ∈ ws, ∀ b, t.buf w.1 = some b → b.clone = none) :
    Performs ws [] t (directAll t ws) := by
  induction ws generalizing t with
  | nil =>
    have hsame : directAll t [] = t := by
      unfold directAll
      rw [List.map_nil, List.append_nil]
      rfl
    rw [hsame]
    exact Performs.refl t
  | cons w ws ih =>
    have hfirst := Performs.single (t := t) (a := .direct w.1 w.2)
      (hclone w List.mem_cons_self) ⟨trivial, trivial⟩
    have hrest := ih (t := apply t (.direct w.1 w.2)) fun w' hw' b hb => by
      simp only [apply, onBuf] at hb
      by_cases heq : w'.1 = w.1
      · rw [heq, Function.update_self, Option.map_eq_some_iff] at hb
        obtain ⟨b', hb', rfl⟩ := hb
        exact hclone w List.mem_cons_self b' hb'
      · rw [Function.update_of_ne heq] at hb
        exact hclone w' (List.mem_cons_of_mem _ hw') b hb
    rw [directAll_cons]
    exact hfirst.trans hrest

end Data

section Locks
variable {κ β γ : Type*} [DecidableEq κ] {t u : Store κ β γ} {a : Act κ β γ} {k : κ}
  {ws : List (κ × β)} {ls : List κ}

/-- How often a block is locked. -/
def lockOf (t : Store κ β γ) (k : κ) : ℤ := ((t.buf k).map Buf.lock).getD 0

/-- The buffer of a block is locked and has yet to be written. -/
def HeldDirty (t : Store κ β γ) (k : κ) : Prop :=
  ∃ b, t.buf k = some b ∧ b.dirty = true ∧ 0 < b.lock

theorem Buf.settle_lock (b : Buf β γ) : b.settle.lock = b.lock := by
  unfold Buf.settle
  split <;> rfl

theorem lockOf_onBuf {f : Buf β γ → Buf β γ} (k' : κ) (hf : ∀ b, (f b).lock = b.lock) :
    lockOf (onBuf t k' f) k = lockOf t k := by
  unfold lockOf onBuf
  dsimp only
  by_cases hk : k = k'
  · subst hk
    rw [Function.update_self]
    cases t.buf k with
    | none => rfl
    | some b => exact hf b
  · rw [Function.update_of_ne hk]

theorem lockOf_apply (ha : Allowed t a) (hplain : a.Plain) :
    lockOf (apply t a) k = lockOf t k + (a.locked.toList.count k : ℕ) := by
  cases a with
  | flush ks =>
    have hlock : lockOf (apply t (.flush ks)) k = lockOf t k := by
      unfold lockOf
      simp only [apply]
      split
      · cases t.buf k with
        | none => rfl
        | some b => exact b.settle_lock
      · rfl
    simpa [Act.locked] using hlock
  | evict k' =>
    obtain ⟨b, hb, -, -, hlock⟩ := ha
    by_cases hk : k = k'
    · subst hk
      simp [lockOf, apply, hb, hlock, Act.locked]
    · simp [lockOf, apply, hk, Act.locked]
  | load k' =>
    have hnone : t.buf k' = none := ha
    by_cases hk : k = k'
    · subst hk
      simp [lockOf, apply, hnone, Act.locked]
    · simp [lockOf, apply, hk, Act.locked]
  | store k' v =>
    have hlock : lockOf (apply t (.store k' v)) k = lockOf t k := lockOf_onBuf k' fun _ => rfl
    simpa [Act.locked] using hlock
  | direct k' v =>
    have hlock : lockOf (apply t (.direct k' v)) k = lockOf t k := lockOf_onBuf k' fun _ => rfl
    simpa [Act.locked] using hlock
  | replace k' v =>
    have hlock : lockOf (apply t (.replace k' v)) k = lockOf t k := lockOf_onBuf k' fun _ => rfl
    simpa [Act.locked] using hlock
  | lock k' =>
    obtain ⟨b, hb⟩ := ha
    by_cases hk : k = k'
    · subst hk
      simp [lockOf, apply, onBuf_self, hb, Act.locked]
    · simp [lockOf, apply, onBuf, hk, Act.locked, Ne.symm hk]
  | _ => exact hplain.elim

theorem Reaches.lockOf (h : Reaches ls t u) :
    lockOf u k = lockOf t k + (ls.count k : ℕ) := by
  obtain ⟨acts, ha, rfl, hplain, rfl⟩ := h
  induction acts generalizing t with
  | nil => simp
  | cons a acts ih =>
    have hsplit : (a :: acts).filterMap Act.locked =
        a.locked.toList ++ acts.filterMap Act.locked := by
      cases hl : a.locked <;> simp [hl]
    rw [runTrace_cons, ih ha.2 fun x hx => hplain x (List.mem_cons_of_mem _ hx),
      lockOf_apply ha.1 (hplain a List.mem_cons_self), hsplit, List.count_append]
    push_cast
    ring

theorem Reaches.lockOf_le (h : Reaches ls t u) (k : κ) :
    WriteBackStore.lockOf t k ≤ WriteBackStore.lockOf u k := by
  rw [h.lockOf]
  exact Int.le_add_of_nonneg_right (Int.natCast_nonneg _)

theorem lockOf_le_apply (ha : Allowed t a) (hplain : a.Plain) (k : κ) :
    lockOf t k ≤ lockOf (apply t a) k := by
  rw [lockOf_apply ha hplain]
  exact Int.le_add_of_nonneg_right (Int.natCast_nonneg _)

omit [DecidableEq κ] in
theorem added_unlocked (ha : Allowed t a) {v : β} {lock : ℤ}
    (h : Obs.flushed k v false lock ∈ added t a) : lockOf t k = 0 := by
  cases a with
  | flush ks =>
    simp only [added, List.mem_append, List.mem_flatMap] at h
    rcases h with ⟨x, hx, ho⟩ | ⟨x, -, ho⟩
    · obtain ⟨b, hb, hfree⟩ := ha.2 x hx
      rw [flushObs, hb, List.mem_singleton] at ho
      injection ho with hk _ hc hl
      subst hk
      unfold lockOf
      rw [hb]
      exact hfree.resolve_left fun hne => hne (by simpa using hc.symm)
    · rw [callObs] at ho
      split at ho <;> simp at ho
  | register x c =>
    obtain ⟨b, hb, _⟩ := ha
    simp [added, hb] at h
  | direct x v => simp [added] at h
  | _ => cases h

omit [DecidableEq κ] in
theorem flush_registers_nothing (t : Store κ β γ) (ks : List κ) :
    (ks.flatMap (flushObs t) ++ ks.flatMap (callObs t)).filterMap Obs.registration = [] := by
  rw [List.filterMap_append, List.append_eq_nil_iff]
  refine ⟨List.filterMap_eq_nil_iff.mpr fun o ho => ?_,
    List.filterMap_eq_nil_iff.mpr fun o ho => ?_⟩
  · obtain ⟨k, -, ho⟩ := List.mem_flatMap.mp ho
    unfold flushObs at ho
    split at ho
    · rw [List.mem_singleton.mp ho]
      rfl
    · cases ho
  · obtain ⟨k, -, ho⟩ := List.mem_flatMap.mp ho
    unfold callObs at ho
    split at ho
    · rw [List.mem_singleton.mp ho]
      rfl
    · cases ho

omit [DecidableEq κ] in
theorem added_registers_nothing (t : Store κ β γ) (hplain : a.Plain) :
    (added t a).filterMap Obs.registration = [] := by
  cases a with
  | flush ks => exact flush_registers_nothing t ks
  | register _ _ => exact hplain.elim
  | _ => rfl

/-- What logs nothing, whatever the store, leaves the log. -/
theorem runTrace_silent {acts : List (Act κ β γ)}
    (h : ∀ a ∈ acts, ∀ t : Store κ β γ, added t a = []) (t : Store κ β γ) :
    (runTrace apply t acts).log = t.log := by
  induction acts generalizing t with
  | nil => rfl
  | cons a acts ih =>
    rw [runTrace_cons, ih fun x hx => h x (List.mem_cons_of_mem _ hx), apply_log,
      h a List.mem_cons_self, List.append_nil]

/-- What is flushed on the way, and is no clone, was locked by nobody at the beginning, and nothing
is registered. -/
theorem Reaches.logs (h : Reaches ls t u) : ∃ l, u.log = t.log ++ l ∧
    (∀ k v lock, Obs.flushed k v false lock ∈ l → WriteBackStore.lockOf t k ≤ 0) ∧
    l.filterMap Obs.registration = [] := by
  obtain ⟨acts, ha, rfl, hplain, -⟩ := h
  induction acts generalizing t with
  | nil => exact ⟨[], (List.append_nil _).symm, fun _ _ _ ho => (List.not_mem_nil ho).elim, rfl⟩
  | cons a acts ih =>
    have hhead := hplain a List.mem_cons_self
    obtain ⟨l, hl, hflushed, hnone⟩ := ih ha.2 fun x hx => hplain x (List.mem_cons_of_mem _ hx)
    refine ⟨added t a ++ l, ?_, fun k v lock ho => ?_, ?_⟩
    · rw [runTrace_cons, hl, apply_log, List.append_assoc]
    · rcases List.mem_append.mp ho with ho | ho
      · exact (added_unlocked ha.1 ho).le
      · exact (lockOf_le_apply ha.1 hhead k).trans (hflushed k v lock ho)
    · rw [List.filterMap_append, added_registers_nothing t hhead, hnone, List.append_nil]

section Registrations
variable {c : γ}

theorem view_register (t : Store κ β γ) (k k' : κ) (c : γ) :
    view (apply t (.register k c)) k' = view t k' := by
  unfold view
  simp only [apply]
  cases hb : t.buf k with
  | none => rfl
  | some b =>
    by_cases hk : k' = k
    · subst hk
      simp [onBuf, hb]
    · simp [onBuf, hk]

/-- What a run of registrations logs: every block with the contents that it has. -/
theorem registers_log (f : κ → γ) (ks : List κ) {t : Store κ β γ}
    (ha : EveryStep apply Allowed t (ks.map fun k => .register k (f k))) :
    (runTrace apply t (ks.map fun k => .register k (f k))).log =
      t.log ++ ks.map fun k => .registered k (view t k) (f k) := by
  induction ks generalizing t with
  | nil => exact (List.append_nil _).symm
  | cons k ks ih =>
    obtain ⟨⟨b, hb, -⟩, hrest⟩ := ha
    have hview : view t k = b.data := by
      unfold view
      rw [hb]
      rfl
    rw [List.map_cons, runTrace_cons, ih hrest, apply_log, List.map_cons, List.append_cons,
      added, hb, hview]
    refine congrArg₂ _ rfl (List.map_congr_left fun k' _ => ?_)
    rw [view_register]

end Registrations

/-- What is locked and dirty stays so. -/
theorem HeldDirty.apply (h : HeldDirty t k) (ha : Allowed t a) (hplain : a.Plain) :
    HeldDirty (apply t a) k := by
  obtain ⟨b, hb, hdirty, hlock⟩ := h
  by_cases hk : a.Touches k
  swap
  · exact ⟨b, (apply_other hk).1.trans hb, hdirty, hlock⟩
  cases a with
  | flush ks =>
    obtain ⟨b', hb', hfree⟩ := ha.2 k hk
    obtain rfl := Option.some.inj (hb.symm.trans hb')
    have hclone : b.clone ≠ none := hfree.resolve_right hlock.ne'
    refine ⟨b.settle, ?_, ?_, ?_⟩
    · have hin : k ∈ ks := hk
      simp only [WriteBackStore.apply]
      rw [if_pos hin, hb]
      rfl
    · unfold Buf.settle
      cases hc : b.clone with
      | none => exact absurd hc hclone
      | some v => exact hdirty
    · rw [b.settle_lock]
      exact hlock
  | evict _ =>
    cases hk
    obtain ⟨b', hb', -, -, hzero⟩ := ha
    obtain rfl := Option.some.inj (hb.symm.trans hb')
    exact absurd hlock hzero.not_gt
  | load _ =>
    cases hk
    have hnone : t.buf k = none := ha
    rw [hb] at hnone
    cases hnone
  | store _ v =>
    cases hk
    refine ⟨{ b with data := v, dirty := true }, ?_, rfl, hlock⟩
    simp only [WriteBackStore.apply, onBuf_self, hb, Option.map_some]
  | lock _ =>
    cases hk
    refine ⟨{ b with lock := b.lock + 1 }, ?_, hdirty, Int.lt_add_one_of_le hlock.le⟩
    simp only [WriteBackStore.apply, onBuf_self, hb, Option.map_some]
  | direct _ v | replace _ v =>
    cases hk
    refine ⟨{ b with data := v }, ?_, hdirty, hlock⟩
    simp only [WriteBackStore.apply, onBuf_self, hb, Option.map_some]
  | _ => exact hplain.elim

theorem HeldDirty.reaches (h : HeldDirty t k) (hr : Reaches ls t u) : HeldDirty u k := by
  obtain ⟨acts, ha, rfl, hplain, -⟩ := hr
  induction acts generalizing t with
  | nil => exact h
  | cons a acts ih =>
    exact ih (h.apply ha.1 (hplain a List.mem_cons_self)) ha.2
      fun x hx => hplain x (List.mem_cons_of_mem _ hx)

/-- What writes nothing makes nothing dirty. -/
theorem dirty_before {b' : Buf β γ} (hplain : a.Plain ∧ a.Told) (hwritten : a.written = none)
    (hb : (apply t a).buf k = some b') (hdirty : b'.dirty = true) :
    ∃ b, t.buf k = some b ∧ b.dirty = true := by
  by_cases hk : a.Touches k
  swap
  · rw [(apply_other hk).1] at hb
    exact ⟨b', hb, hdirty⟩
  cases a with
  | flush ks =>
    have hin : k ∈ ks := hk
    simp only [apply, if_pos hin] at hb
    obtain ⟨b, hbuf, rfl⟩ := Option.map_eq_some_iff.mp hb
    refine ⟨b, hbuf, ?_⟩
    unfold Buf.settle at hdirty
    split at hdirty
    · exact hdirty
    · cases hdirty
  | evict _ =>
    cases hk
    simp [apply] at hb
  | load _ =>
    cases hk
    simp only [apply, Function.update_self, Option.some.injEq] at hb
    rw [← hb] at hdirty
    cases hdirty
  | lock _ =>
    cases hk
    simp only [apply, onBuf_self] at hb
    obtain ⟨b, hbuf, rfl⟩ := Option.map_eq_some_iff.mp hb
    exact ⟨b, hbuf, hdirty⟩
  | store _ _ | direct _ _ => cases hwritten
  | replace _ _ => exact hplain.2.elim
  | _ => exact hplain.1.elim

theorem HeldDirty.before (h : HeldDirty u k) (hp : Performs [] [] t u) : HeldDirty t k := by
  have hlock := hp.reaches.lockOf (k := k)
  rw [List.count_nil, Nat.cast_zero, add_zero] at hlock
  obtain ⟨b', hb', hdirty', hpos⟩ := h
  obtain ⟨b, hb, hdirty⟩ : ∃ b, t.buf k = some b ∧ b.dirty = true := by
    obtain ⟨acts, -, rfl, hplain, hwritten, -⟩ := hp
    rw [List.filterMap_eq_nil_iff] at hwritten
    clear hlock hpos
    induction acts generalizing t with
    | nil => exact ⟨b', hb', hdirty'⟩
    | cons a acts ih =>
      obtain ⟨b, hb, hdirty⟩ := ih (t := WriteBackStore.apply t a) hb'
        (fun x hx => hplain x (List.mem_cons_of_mem _ hx))
        fun x hx => hwritten x (List.mem_cons_of_mem _ hx)
      exact dirty_before (hplain a List.mem_cons_self) (hwritten a List.mem_cons_self) hb hdirty
  refine ⟨b, hb, hdirty, ?_⟩
  unfold WriteBackStore.lockOf at hlock
  rw [hb, hb'] at hlock
  exact hpos.trans_eq hlock

end Locks

section Calls
variable {κ β γ : Type*} {k : κ} {b b' : Buf β γ} {d d' : β} {l : List (Obs κ β γ)}

/-- Whether a buffer has a callback goes with whether it has a clone, through all flushes. -/
theorem Settles.calls (h : Settles k b d l b' d') (hb : b.clone = none ↔ b.func = none) :
    b'.clone = none ↔ b'.func = none := by
  induction h with
  | refl => exact hb
  | @step b b' d d' l _ _ ih =>
    refine ih ?_
    unfold Buf.settle
    cases hc : b.clone with
    | none => simp
    | some v => simp

end Calls

end WriteBackStore
