import Mathlib.Tactic
import FsKit.CacheTransfers

/-! The flushes of the cache on a device that takes every write (`cache.c`). A batch is marked as
busy, sorted and written; the cache is at rest again behind it, and nothing of the batch remains to
be written but what is locked and has no clone. -/
namespace CacheFlushes

open HashTable BlockCache WriteBackStore CacheStructure CacheStores CacheVictims CacheTransfers
open FlushCompleteness (bufOf Works Kept Flushed)
open FlushTermination (setBusy_all)

variable {β : Type}

section Batches
variable {s s' s'' : Cache β} {xs : Members} {size : ℤ → ℕ} {ents ents' : List ℕ}
  {m : Mirror Block β}

/-- Nothing of the entry remains to be written, unless it is locked. -/
def Done (c : CacheEnt β) : Prop := c.clone = none ∧ (c.lock = 0 → c.dirty = false)

/-- The entries have been flushed. -/
structure Swept (size : ℤ → ℕ) (xs : Members) (ents : List ℕ) (s s' : Cache β) : Prop where
  rests : Rests size s' xs
  same : s' = { s with ents := s'.ents, disk := s'.disk, ios := s'.ios, log := s'.log }
  kept : ∀ ce, Kept (s.ents ce) (s'.ents ce)
  others : ∀ ce ∉ ents, s'.ents ce = s.ents ce
  done : ∀ ce ∈ ents, Done (s'.ents ce)
  performs : Performs [] [] (cacheStore s) (cacheStore s')

theorem Swept.refl (h : Rests size s xs) : Swept size xs [] s s :=
  ⟨h, rfl, fun _ => rfl, fun _ _ => rfl, fun _ hce => (List.not_mem_nil hce).elim, Performs.refl _⟩

theorem Swept.ht (h : Swept size xs ents s s') : s'.ht = s.ht := by
  rw [h.same]

theorem Swept.still (h : Swept size xs ents s s') {ce : ℕ} (hce : Done (s.ents ce)) :
    Done (s'.ents ce) := by
  by_cases hin : ce ∈ ents
  · exact h.done ce hin
  · rw [h.others ce hin]
    exact hce

theorem Swept.trans (h : Swept size xs ents s s') (k : Swept size xs ents' s' s'') :
    Swept size xs (ents ++ ents') s s'' where
  rests := k.rests
  same := by rw [k.same, h.same]
  kept ce := (h.kept ce).trans (k.kept ce)
  others ce hce := by
    rw [List.mem_append, not_or] at hce
    rw [k.others ce hce.2, h.others ce hce.1]
  done ce hce := by
    rcases List.mem_append.mp hce with hce | hce
    · exact k.still (h.done ce hce)
    · exact k.done ce hce
  performs := h.performs.trans k.performs

/-- Some entries are marked as busy. -/
def marked (p : ℕ → Bool) (s : Cache β) : Cache β :=
  { s with ents := fun ce => if p ce then { s.ents ce with busy := true } else s.ents ce }

theorem marked_none (s : Cache β) : marked (fun _ => false) s = s := rfl

theorem marked_ht (p : ℕ → Bool) (s : Cache β) : (marked p s).ht = s.ht := rfl

theorem setBusy_marked (p : ℕ → Bool) (s : Cache β) (ce : ℕ) :
    setBusy true (marked p s) ce = marked (fun c => p c || c = ce) s := by
  unfold setBusy setEnt marked
  dsimp only
  congr 1
  funext c
  by_cases hc : c = ce
  · subst hc
    rw [Function.update_self]
    by_cases hp : p c = true <;> simp [hp]
  · rw [Function.update_of_ne hc]
    simp [hc]

theorem marks_marked (p : ℕ → Bool) (s : Cache β) (ents : List ℕ) :
    ents.foldl (setBusy true) (marked p s) = marked (fun c => p c || c ∈ ents) s := by
  induction ents generalizing p with
  | nil => simp
  | cons ce ents ih =>
    rw [List.foldl_cons, setBusy_marked, ih]
    congr 1
    funext c
    simp [Bool.or_assoc]

theorem cacheStore_marked (p : ℕ → Bool) (s : Cache β) :
    cacheStore (marked p s) = cacheStore s := by
  refine storeOn_congr (fun b ce _ => ?_) rfl rfl
  unfold marked
  dsimp only
  split <;> rfl

/-- The marks are as they were before. -/
def unmarked (s u : Cache β) : Cache β :=
  { u with ents := fun ce => { u.ents ce with busy := (s.ents ce).busy } }

theorem marked_ent (p : ℕ → Bool) (s : Cache β) (ce : ℕ) :
    (marked p s).ents ce = { s.ents ce with busy := ((marked p s).ents ce).busy } := by
  unfold marked
  dsimp only
  split <;> rfl

theorem marked_leads (h : Rests size s xs) (p : ℕ → Bool) (hnodup : ents.Nodup)
    (hents : ∀ ce ∈ ents, Listed xs ce) : Leads s.ht (marked p s).ents ents := by
  have hl := h.leads hnodup hents
  refine ⟨hl.nodup, fun ce hce => ?_, fun b ce hce hb => ?_⟩
  · rw [marked_ent]
    exact hl.lookup ce hce
  · rw [marked_ent]
    exact hl.own b ce hce hb

/-- What a flush of marked entries makes of a cache at rest, when the marks are taken away. -/
theorem swept_of_flushed {u : Cache β} (h : Rests size s xs) (p : ℕ → Bool) (hnodup : ents.Nodup)
    (hents : ∀ ce ∈ ents, Listed xs ce) (hf : Flushed ents (marked p s) u)
    (hdone : ∀ ce ∈ ents, Done (u.ents ce)) : Swept size xs ents s (unmarked s u) := by
  have hleads := marked_leads h p hnodup hents
  have hother : ∀ ce, ce ∉ ents → u.ents ce = (marked p s).ents ce := fun ce hce => hf.others ce hce
  have hcalls : ∀ ce, Listed xs ce →
      (((marked p s).ents ce).clone = none ↔ ((marked p s).ents ce).func = none) := by
    intro ce hce
    rw [marked_ent]
    exact h.calls ce hce
  have hkept : ∀ ce, Kept (s.ents ce) ((unmarked s u).ents ce) := by
    intro ce
    have hu := hf.kept ce
    rw [marked_ent] at hu
    unfold Kept at hu ⊢
    change { u.ents ce with busy := (s.ents ce).busy } = _
    rw [hu]
    rfl
  have hsame : unmarked s u =
      { s with ents := (unmarked s u).ents, disk := u.disk, ios := u.ios, log := u.log } := by
    have hu := hf.same
    change { u with ents := (unmarked s u).ents } = _
    rw [hu]
    rfl
  refine ⟨?_, hsame, hkept, fun ce hce => ?_, hdone, ?_⟩
  · refine h.congr hsame hf.ios fun ce hlisted => ⟨(hkept ce).block, ?_, (hkept ce).lock,
      h.idle ce hlisted, ?_⟩
    · rw [hkept ce]
    · change (u.ents ce).clone = none ↔ (u.ents ce).func = none
      by_cases hce : ce ∈ ents
      · exact flushed_calls hf hleads.distinct hce (hcalls ce hlisted)
      · rw [hother ce hce]
        exact hcalls ce hlisted
  · change { u.ents ce with busy := (s.ents ce).busy } = _
    rw [hother ce hce, marked_ent]
  · have hperforms : Performs [] [] (storeOn s.ht (marked p s)) (storeOn s.ht u) :=
      flushed_performs hf hleads
    have hstart : storeOn s.ht (marked p s) = cacheStore s := cacheStore_marked p s
    have hend : storeOn s.ht u = cacheStore (unmarked s u) := by
      unfold cacheStore
      rw [hsame]
      exact storeOn_congr (fun _ _ _ => rfl) rfl rfl
    rw [hstart, hend] at hperforms
    exact hperforms

theorem Swept.congr (h : Swept size xs ents s s') (hmem : ∀ ce, ce ∈ ents ↔ ce ∈ ents') :
    Swept size xs ents' s s' where
  rests := h.rests
  same := h.same
  kept := h.kept
  others ce hce := h.others ce (mt (hmem ce).mp hce)
  done ce hce := h.done ce ((hmem ce).mpr hce)
  performs := h.performs

/-- A batch is flushed; the marks of other entries stay. -/
theorem flushBatch_swept (h : Rests size s xs) (p : ℕ → Bool) (hnodup : ents.Nodup)
    (hents : ∀ ce ∈ ents, Listed xs ce) :
    ∃ s', flushBatch (marked p s) ents = marked (fun ce => p ce && ce ∉ ents) s' ∧
      Swept size xs ents s s' := by
  have hperm : ∀ ce, ce ∈ qsort (marked p s) ents ↔ ce ∈ ents := fun ce =>
    (qsort_perm (marked p s) ents).mem_iff
  have hsorted : (qsort (marked p s) ents).Nodup := (qsort_perm _ ents).nodup_iff.mpr hnodup
  have hlisted : ∀ ce ∈ qsort (marked p s) ents, Listed xs ce := fun ce hce =>
    hents ce ((hperm ce).mp hce)
  obtain ⟨u, hflush, hflushed, -, hdone⟩ := flushEnts_cleans (marked_leads h p hsorted hlisted)
    h.works fun ce hce => by
      rw [marked_ent]
      exact h.calls ce (hlisted ce hce)
  have hswept := swept_of_flushed h p hsorted hlisted hflushed fun ce hce =>
    ⟨(hdone ce hce).1, (hdone ce hce).2.2⟩
  refine ⟨unmarked s u, ?_, hswept.congr hperm⟩
  unfold flushBatch
  dsimp only
  rw [hflush]
  dsimp only
  rw [setBusy_all]
  simp only [hperm]
  unfold marked
  congr 1
  funext ce
  by_cases hce : ce ∈ ents
  · have hidle := h.idle ce (hents ce hce)
    simp [hce, unmarked, hidle]
  · have hother : u.ents ce = (marked p s).ents ce := hflushed.others ce (mt (hperm ce).mp hce)
    have hsent : ∀ busy, ({ u.ents ce with busy := busy } : CacheEnt β) =
        { s.ents ce with busy := busy } := fun busy => by
      rw [hother, marked_ent]
    rw [if_neg hce, hother]
    unfold marked
    by_cases hp : p ce <;> simp [hp, hce, unmarked, hsent]

theorem doFlush_swept (h : Rests size s xs) (hnodup : ents.Nodup)
    (hents : ∀ ce ∈ ents, Listed xs ce) : Swept size xs ents s (doFlush s ents) := by
  obtain ⟨s', hrun, hswept⟩ := flushBatch_swept h (fun ce => false || ce ∈ ents) hnodup hents
  have hmarks : (fun ce => (false || decide (ce ∈ ents)) && decide (ce ∉ ents)) =
      fun _ => false := by
    funext ce
    by_cases hce : ce ∈ ents <;> simp [hce]
  rw [hmarks, marked_none, ← marks_marked, marked_none] at hrun
  unfold doFlush
  rw [hrun]
  exact hswept

/-- What has been flushed is on the disk, if nobody has it locked. -/
theorem disk_of_done (h : Rests size s xs) (hc : Coherent (cacheStore s) m) {k : Block}
    (hlock : lockOf (cacheStore s) k = 0)
    (hdone : ∀ ce, Listed xs ce → (s.ents ce).block = k → Done (s.ents ce)) :
    s.disk k = m.blocks k := by
  have hat := hc k
  cases hlook : hashLookup s.ht k with
  | none => exact coherent_disk hc (storeOn_none hlook)
  | some ce =>
    obtain ⟨hce, rfl⟩ := h.listed hlook
    obtain ⟨hclone, hclean⟩ := hdone ce hce rfl
    have hbuf : (cacheStore s).buf (s.ents ce).block = some (bufOf (s.ents ce)) := storeOn_buf hlook
    rw [lockOf_entry h hce] at hlock
    rw [hbuf] at hat
    obtain ⟨-, howed, hdisk⟩ := hat
    have hnot : m.owed (s.ents ce).block = false := by
      by_contra howes
      have hpos := howed (Bool.not_eq_false _ ▸ howes)
      exact absurd hlock hpos.ne'
    have hdata := hdisk (hclean hlock) hnot
    change (s.ents ce).clone.getD _ = _ at hdata
    rw [hclone] at hdata
    exact hdata

end Batches

section Lists
variable {s s' : Cache β} {xs : Members} {size : ℤ → ℕ} {cel : ListName}
  {wanted : CacheEnt β → Bool}
  {dev : ℤ}

/-- A batch of the wanted entries of a list. -/
theorem batch_swept (cel : ListName) (wanted : CacheEnt β → Bool) (h : Rests size s xs) (n : ℕ) :
    Swept size xs (((xs cel).filter fun ce => wanted (s.ents ce)).take n) s
      (doFlush s (((xs cel).filter fun ce => wanted (s.ents ce)).take n)) := by
  refine doFlush_swept h ?_ fun ce hce => ⟨cel, List.mem_of_mem_filter (List.mem_of_mem_take hce)⟩
  exact ((h.lists.family.isList cel).nodup.filter _).sublist (List.take_sublist n _)

/-- Flushing a list comes to an end, and then nothing on it is wanted any more. -/
theorem flushList_swept (cel : ListName) (wanted : CacheEnt β → Bool)
    (hdone : ∀ ce ∈ xs cel, ∀ s' : Cache β, Rests size s' xs →
      Done (s'.ents ce) → wanted (s'.ents ce) = false) (n : ℕ) :
    ∀ {s : Cache β}, Rests size s xs → ((xs cel).filter fun ce => wanted (s.ents ce)).length < n →
      ∃ s' ents, flushList cel wanted n s = .ok s' ∧ Swept size xs ents s s' ∧
        (∀ ce ∈ ents, ce ∈ xs cel) ∧ ∀ ce ∈ xs cel, wanted (s'.ents ce) = false := by
  induction n with
  | zero => exact fun _ hlt => absurd hlt (Nat.not_lt_zero _)
  | succ n ih =>
    intro s h hlt
    have hlist := h.lists.listNodes_eq cel
    have hsub : ∀ ce ∈ ((xs cel).filter fun ce => wanted (s.ents ce)).take numFlushBlocks,
        ce ∈ xs cel := fun ce hce => List.mem_of_mem_filter (List.mem_of_mem_take hce)
    have hswept := batch_swept cel wanted h numFlushBlocks
    have hgone : ∀ ce ∈ ((xs cel).filter fun ce => wanted (s.ents ce)).take numFlushBlocks,
        wanted ((doFlush s (((xs cel).filter fun ce => wanted (s.ents ce)).take
          numFlushBlocks)).ents ce) = false := fun ce hce =>
      hdone ce (hsub ce hce) _ hswept.rests (hswept.done ce hce)
    rw [flushList, hlist]
    split
    · rename_i hfull
      -- the wanted ones become fewer
      have hfewer : ((xs cel).filter fun ce => wanted ((doFlush s (((xs cel).filter fun ce =>
          wanted (s.ents ce)).take numFlushBlocks)).ents ce)).length <
            ((xs cel).filter fun ce => wanted (s.ents ce)).length := by
        have hle : ((xs cel).filter fun ce => wanted ((doFlush s (((xs cel).filter fun ce =>
            wanted (s.ents ce)).take numFlushBlocks)).ents ce)).Sublist
              ((xs cel).filter fun ce => wanted (s.ents ce)) := by
          refine List.monotone_filter_right _ fun ce hce => ?_
          by_contra hnot
          rw [hswept.others ce fun hin => hnot (List.mem_filter.mp (List.mem_of_mem_take hin)).2]
            at hce
          exact hnot hce
        refine lt_of_le_of_ne hle.length_le fun heq => ?_
        obtain ⟨ce, hce⟩ := List.exists_mem_of_length_pos
          (lt_of_lt_of_le (Nat.succ_pos 63) hfull)
        have hstill := List.mem_of_mem_take hce
        rw [← hle.eq_of_length heq, List.mem_filter, hgone ce hce] at hstill
        exact Bool.false_ne_true hstill.2
      obtain ⟨s', ents, hrun, hswept', hents, hnone⟩ := ih hswept.rests (by omega)
      exact ⟨s', _, hrun, hswept.trans hswept',
        fun ce hce => (List.mem_append.mp hce).elim (hsub ce) (hents ce), hnone⟩
    · rename_i hshort
      have hall : ((xs cel).filter fun ce => wanted (s.ents ce)).take numFlushBlocks =
          (xs cel).filter fun ce => wanted (s.ents ce) := by
        refine List.take_of_length_le ?_
        rw [List.length_take] at hshort
        omega
      rw [hall] at hswept hgone hsub ⊢
      split
      · refine ⟨_, _, rfl, hswept, hsub, fun ce hce => ?_⟩
        by_cases hin : ce ∈ (xs cel).filter fun ce => wanted (s.ents ce)
        · exact hgone ce hin
        · rw [hswept.others ce hin]
          exact Bool.eq_false_iff.mpr fun hw => hin (List.mem_filter.mpr ⟨hce, hw⟩)
      · rename_i hnil
        rw [not_not] at hnil
        refine ⟨s, [], rfl, .refl h, fun _ hce => (List.not_mem_nil hce).elim, fun ce hce => ?_⟩
        exact Bool.eq_false_iff.mpr fun hw =>
          List.not_mem_nil (hnil ▸ List.mem_filter.mpr ⟨hce, hw⟩)

theorem wantedBy_done (h : Rests size s xs) {ce : ℕ} (hce : ce ∈ xs cel)
    (hdone : Done (s.ents ce)) : wantedBy dev cel (s.ents ce) = false := by
  cases cel with
  | normal =>
    have hdirty := hdone.2 (h.lists.normal_unlocked ce hce)
    simp [wantedBy, CacheEnt.unwritten, hdirty, hdone.1]
  | locked => simp [wantedBy, hdone.1]

/-- `flush_device` on a device that takes every write. -/
theorem flushDevice_swept (dev : ℤ) (h : Rests size s xs) {n : ℕ} (hn : s.made < n) :
    ∃ s' ents, flushDevice n s dev = .ok s' ∧ Swept size xs ents s s' ∧
      ∀ ce, Listed xs ce → (s'.ents ce).dev = dev → Done (s'.ents ce) := by
  have hbound : ∀ {u : Cache β} (cel : ListName), u.made = s.made → Rests size u xs →
      ((xs cel).filter fun ce => wantedBy dev cel (u.ents ce)).length < n := by
    intro u cel hmade hu
    have hle := hu.lists.length_le cel
    have hfilter := List.length_filter_le (fun ce => wantedBy dev cel (u.ents ce)) (xs cel)
    omega
  obtain ⟨s₁, ents₁, hrun₁, hswept₁, hents₁, hnone₁⟩ := flushList_swept .normal
    (wantedBy dev .normal) (fun ce hce u hu => wantedBy_done hu hce) n h
    (hbound .normal rfl h)
  have hmade₁ : s₁.made = s.made := by rw [hswept₁.same]
  obtain ⟨s₂, ents₂, hrun₂, hswept₂, hents₂, hnone₂⟩ := flushList_swept .locked
    (wantedBy dev .locked) (fun ce hce u hu => wantedBy_done hu hce) n hswept₁.rests
    (hbound .locked hmade₁ hswept₁.rests)
  refine ⟨s₂, _, ?_, hswept₁.trans hswept₂, fun ce hce hdev => ?_⟩
  · unfold flushDevice
    rw [hrun₁]
    exact hrun₂
  · obtain ⟨cel, hcel⟩ := hce
    have hidle := hswept₂.rests.idle ce ⟨cel, hcel⟩
    cases cel with
    | normal =>
      have hlocked : ce ∉ ents₂ := fun hin => by
        have happart := h.lists.family.apart hcel (hents₂ ce hin)
        cases happart
      have hsame := hswept₂.others ce hlocked
      have hclean := hnone₁ ce hcel
      rw [← hsame] at hclean
      simp only [wantedBy, hdev, hidle, CacheEnt.unwritten] at hclean
      constructor
      · cases hclone : (s₂.ents ce).clone with
        | none => rfl
        | some v => simp [hclone] at hclean
      · intro _
        cases hdirty : (s₂.ents ce).dirty with
        | false => rfl
        | true => simp [hdirty] at hclean
    | locked =>
      have hclean := hnone₂ ce hcel
      simp only [wantedBy, hdev, hidle] at hclean
      constructor
      · cases hclone : (s₂.ents ce).clone with
        | none => rfl
        | some v => simp [hclone] at hclean
      · intro hzero
        have hname := hswept₂.rests.lists.lock .locked ce hcel
        rw [hzero] at hname
        cases hname

/-- A batch of wanted entries is flushed: those of the normal list, and while there is room those of
the locked one. -/
def flushWanted (normal locked : CacheEnt β → Bool) (s : Cache β) : Cache β :=
  let dirty := ((listNodes s .normal).filter fun ce => normal (s.ents ce)).take numFlushBlocks
  let s := dirty.foldl (setBusy true) s
  let cloned := ((listNodes s .locked).filter fun ce => locked (s.ents ce)).take
    (numFlushBlocks - dirty.length)
  let s := cloned.foldl (setBusy true) s
  if dirty ++ cloned ≠ [] then flushBatch s (dirty ++ cloned) else s

theorem flushWanted_swept (h : Rests size s xs) (normal locked : CacheEnt β → Bool) :
    ∃ ents, Swept size xs ents s (flushWanted normal locked s) := by
  have hmarks : ∀ ents : List ℕ, ents.foldl (setBusy true) s = marked (fun c => c ∈ ents) s := by
    intro ents
    have hm := marks_marked (fun _ => false) s ents
    rwa [marked_none] at hm
  unfold flushWanted
  rw [h.lists.listNodes_eq .normal]
  dsimp only
  generalize hdirty : ((xs .normal).filter fun ce => normal (s.ents ce)).take numFlushBlocks = dirty
  have hnormal : dirty.Sublist (xs .normal) := by
    rw [← hdirty]
    exact (List.take_sublist _ _).trans List.filter_sublist
  have hlist : listNodes (dirty.foldl (setBusy true) s) .locked = xs .locked := by
    rw [hmarks]
    exact h.lists.listNodes_eq .locked
  rw [hlist]
  generalize hcloned : ((xs .locked).filter fun ce =>
    locked ((dirty.foldl (setBusy true) s).ents ce)).take (numFlushBlocks - dirty.length) = cloned
  have hlocked : cloned.Sublist (xs .locked) := by
    rw [← hcloned]
    exact (List.take_sublist _ _).trans List.filter_sublist
  have hnodup : (dirty ++ cloned).Nodup := by
    refine List.nodup_append.mpr ⟨(h.lists.family.isList .normal).nodup.sublist hnormal,
      (h.lists.family.isList .locked).nodup.sublist hlocked, ?_⟩
    rintro a ha b hb rfl
    have happart := h.lists.family.apart (hnormal.subset ha) (hlocked.subset hb)
    cases happart
  split
  · refine ⟨dirty ++ cloned, ?_⟩
    have hswept := doFlush_swept h hnodup fun ce hce => (List.mem_append.mp hce).elim
      (fun hin => ⟨_, hnormal.subset hin⟩) fun hin => ⟨_, hlocked.subset hin⟩
    unfold doFlush at hswept
    rw [List.foldl_append] at hswept
    exact hswept
  · rename_i hnil
    rw [not_not, List.append_eq_nil_iff] at hnil
    rw [hnil.1, hnil.2]
    exact ⟨[], .refl h⟩

theorem forceCacheFlush_swept (h : Rests size s xs) (dev : ℤ) (preferLogBlocks : Bool) :
    ∃ ents, Swept size xs ents s (forceCacheFlush s dev preferLogBlocks) :=
  flushWanted_swept h (fun c => c.dev = dev ∧ ¬c.busy ∧ c.unwritten ∧
    (preferLogBlocks → c.func.isSome)) fun c => c.dev = dev ∧ ¬c.busy ∧ c.clone.isSome

/-- A turn of the flusher, which leaves the cache alone if somebody has been in it just before. The
function is static, and nothing in the sources starts it. -/
def cacheFlusher (s : Cache β) (recent : Bool) : Cache β :=
  if recent then s
  else flushWanted (fun c => ¬c.busy ∧ c.unwritten) (fun c => ¬c.busy ∧ c.clone.isSome) s

theorem cacheFlusher_swept (h : Rests size s xs) (recent : Bool) :
    ∃ ents, Swept size xs ents s (cacheFlusher s recent) := by
  unfold cacheFlusher
  split
  · exact ⟨[], .refl h⟩
  · exact flushWanted_swept h _ _

end Lists

section Ranges
variable {s s' : Cache β} {xs : Members} {size : ℤ → ℕ} {dev bnum : ℤ} {ents : List ℕ}

theorem blockLookup_marked (h : Rests size s xs) {p : ℕ → Bool} {b : Block}
    (hp : ∀ ce, hashLookup s.ht b = some ce → p ce = false) :
    blockLookup (marked p s) b = .ok (hashLookup s.ht b) := by
  unfold blockLookup
  rw [marked_ht]
  cases hfind : hashLookup s.ht b with
  | none => rfl
  | some ce =>
    have hidle := h.idle ce (h.listed hfind).1
    have hmark := hp ce hfind
    simp [marked, hmark, hidle]

/-- A batch of entries of the blocks before `bnum`. -/
structure Gathered (s : Cache β) (xs : Members) (dev bnum : ℤ) (ents : List ℕ) : Prop where
  nodup : ents.Nodup
  listed : ∀ ce ∈ ents, Listed xs ce
  before : ∀ ce ∈ ents, (s.ents ce).blockNum < bnum

theorem Gathered.nil (s : Cache β) (xs : Members) (dev bnum : ℤ) : Gathered s xs dev bnum [] :=
  ⟨List.nodup_nil, fun _ hce => (List.not_mem_nil hce).elim,
    fun _ hce => (List.not_mem_nil hce).elim⟩

theorem Gathered.next (h : Gathered s xs dev bnum ents) : Gathered s xs dev (bnum + 1) ents :=
  ⟨h.nodup, h.listed, fun ce hce => (h.before ce hce).trans (Int.lt_succ bnum)⟩

theorem Gathered.snoc (h : Gathered s xs dev bnum ents) {ce : ℕ} (hce : Listed xs ce)
    (hb : (s.ents ce).blockNum = bnum) : Gathered s xs dev (bnum + 1) (ents ++ [ce]) := by
  refine ⟨?_, fun c hc => ?_, fun c hc => ?_⟩
  · refine List.nodup_append.mpr ⟨h.nodup, List.nodup_singleton ce, ?_⟩
    rintro a ha b hb' rfl
    have hlt := h.before a ha
    rw [List.mem_singleton.mp hb', hb] at hlt
    exact lt_irrefl _ hlt
  · rcases List.mem_append.mp hc with hc | hc
    · exact h.listed c hc
    · rw [List.mem_singleton.mp hc]
      exact hce
  · rcases List.mem_append.mp hc with hc | hc
    · exact (h.before c hc).trans (Int.lt_succ bnum)
    · rw [List.mem_singleton.mp hc, hb]
      exact Int.lt_succ bnum

theorem flushBatch_whole (h : Rests size s xs) (hnodup : ents.Nodup)
    (hents : ∀ ce ∈ ents, Listed xs ce) :
    Swept size xs ents s (flushBatch (marked (fun ce => ce ∈ ents) s) ents) := by
  have hswept := doFlush_swept h hnodup hents
  unfold doFlush at hswept
  have hmarks := marks_marked (fun _ => false) s ents
  rw [marked_none] at hmarks
  rw [hmarks] at hswept
  exact hswept

/-- The blocks from `bnum` on are gathered, and flushed whenever a batch is full. -/
theorem collectBlocks_swept (dev : ℤ) (n : ℕ) : ∀ {bnum : ℤ} {ents : List ℕ} {s : Cache β},
    Rests size s xs → Gathered s xs dev bnum ents →
    ∃ ents' swept s', collectBlocks dev n bnum ents (marked (fun ce => ce ∈ ents) s) =
        .ok (ents', marked (fun ce => ce ∈ ents') s') ∧
      Swept size xs swept s s' ∧ Gathered s' xs dev (bnum + n) ents' ∧
      (∀ ce ∈ ents, ce ∈ ents' ∨ Done (s'.ents ce)) ∧
      ∀ ce, Listed xs ce → (s'.ents ce).dev = dev → bnum ≤ (s'.ents ce).blockNum →
        (s'.ents ce).blockNum < bnum + n → ce ∈ ents' ∨ Done (s'.ents ce) := by
  induction n with
  | zero =>
    intro bnum ents s h hg
    refine ⟨ents, [], s, rfl, .refl h, ?_, fun ce hce => .inl hce, fun ce _ _ hle hlt => ?_⟩
    · rwa [Nat.cast_zero, add_zero]
    · rw [Nat.cast_zero, add_zero] at hlt
      exact absurd hlt (not_lt.mpr hle)
  | succ n ih =>
    intro bnum ents s h hg
    have hfree : ∀ ce, hashLookup s.ht ⟨dev, bnum⟩ = some ce → decide (ce ∈ ents) = false := by
      intro ce hfind
      refine decide_eq_false fun hin => ?_
      have hlt := hg.before ce hin
      have hb : (s.ents ce).blockNum = bnum := congrArg Block.bnum (h.listed hfind).2
      omega
    have hnext : bnum + 1 + (n : ℤ) = bnum + (n + 1 : ℕ) := by
      push_cast
      ring
    -- the blocks behind this one, from a cache in which this one has been dealt with
    have hrest : ∀ {ents₁ swept₁ : List ℕ} {s₁ : Cache β}, Swept size xs swept₁ s s₁ →
        Gathered s₁ xs dev (bnum + 1) ents₁ → (∀ ce ∈ ents, ce ∈ ents₁ ∨ Done (s₁.ents ce)) →
        (∀ ce, Listed xs ce → (s₁.ents ce).block = ⟨dev, bnum⟩ → ce ∈ ents₁ ∨ Done (s₁.ents ce)) →
        ∃ ents' swept s', collectBlocks dev n (bnum + 1) ents₁ (marked (fun ce => ce ∈ ents₁) s₁) =
            .ok (ents', marked (fun ce => ce ∈ ents') s') ∧
          Swept size xs swept s s' ∧ Gathered s' xs dev (bnum + (n + 1 : ℕ)) ents' ∧
          (∀ ce ∈ ents, ce ∈ ents' ∨ Done (s'.ents ce)) ∧
          ∀ ce, Listed xs ce → (s'.ents ce).dev = dev → bnum ≤ (s'.ents ce).blockNum →
            (s'.ents ce).blockNum < bnum + (n + 1 : ℕ) → ce ∈ ents' ∨ Done (s'.ents ce) := by
      intro ents₁ swept₁ s₁ hswept₁ hg₁ hents₁ hthis
      obtain ⟨ents', swept, s', hrun, hswept, hg', hkept, hrange⟩ := ih hswept₁.rests hg₁
      rw [hnext] at hg' hrange
      have hlater : ∀ ce, ce ∈ ents₁ ∨ Done (s₁.ents ce) → ce ∈ ents' ∨ Done (s'.ents ce) :=
        fun ce hce => hce.elim (hkept ce) fun hdone => .inr (hswept.still hdone)
      refine ⟨ents', _, s', hrun, hswept₁.trans hswept, hg',
        fun ce hce => hlater ce (hents₁ ce hce), fun ce hce hdev hle hlt => ?_⟩
      rcases eq_or_lt_of_le hle with heq | hgt
      · refine hlater ce (hthis ce hce ?_)
        rw [← (hswept.kept ce).block]
        change (⟨(s'.ents ce).dev, (s'.ents ce).blockNum⟩ : Block) = _
        rw [hdev, ← heq]
      · exact hrange ce hce hdev hgt hlt
    rw [collectBlocks, blockLookup_marked h hfree]
    cases hfind : hashLookup s.ht ⟨dev, bnum⟩ with
    | none =>
      refine hrest (.refl h) hg.next (fun ce hce => .inl hce) fun ce hce hblock => ?_
      have hlook := h.lookup hce
      rw [hblock, hfind] at hlook
      cases hlook
    | some ce =>
      obtain ⟨hce, hblock⟩ := h.listed hfind
      have hbnum : (s.ents ce).blockNum = bnum := congrArg Block.bnum hblock
      have hdev : (s.ents ce).dev = dev := congrArg Block.dev hblock
      have hself : (marked (fun ce => ce ∈ ents) s).ents ce = s.ents ce := by
        have hnot := of_decide_eq_false (hfree ce hfind)
        simp [marked, hnot]
      have honly : ∀ c, Listed xs c → (s.ents c).block = ⟨dev, bnum⟩ → c = ce := by
        intro c hc hb
        have hlook := h.lookup hc
        rw [hb, hfind] at hlook
        exact (Option.some.inj hlook).symm
      simp only [bind, Except.bind, hself, hbnum, hdev, ne_eq, not_true_eq_false, or_self, if_false]
      split
      · rename_i hclean
        refine hrest (.refl h) hg.next (fun c hc => .inl hc) fun c hc hb => ?_
        rw [honly c hc hb]
        exact .inr ⟨hclean.2, fun _ => hclean.1⟩
      · have hg₁ := hg.snoc hce hbnum
        have hmarks : setBusy true (marked (fun ce => ce ∈ ents) s) ce =
            marked (fun c => c ∈ ents ++ [ce]) s := by
          rw [setBusy_marked]
          congr 1
          funext c
          simp
        rw [hmarks]
        split
        · have hswept := flushBatch_whole h hg₁.nodup hg₁.listed
          generalize flushBatch (marked (fun c => c ∈ ents ++ [ce]) s) (ents ++ [ce]) = s₁
            at hswept ⊢
          refine hrest hswept (.nil _ xs dev _) (fun c hc => ?_) fun c hc hb => ?_
          · exact .inr (hswept.done c (List.mem_append_left _ hc))
          · rw [(hswept.kept c).block] at hb
            rw [honly c hc hb]
            exact .inr (hswept.done ce (List.mem_append_right _ List.mem_cons_self))
        · refine hrest (.refl h) hg₁ (fun c hc => .inl (List.mem_append_left _ hc))
            fun c hc hb => ?_
          rw [honly c hc hb]
          exact .inl (List.mem_append_right _ List.mem_cons_self)

/-- `flush_blocks` on a device that takes every write. -/
theorem flushBlocks_swept (h : Rests size s xs) (dev bnum : ℤ) (n : ℕ) :
    ∃ s' ents, flushBlocks s dev bnum n = .ok (0, s') ∧ Swept size xs ents s s' ∧
      ∀ ce, Listed xs ce → (s'.ents ce).dev = dev → bnum ≤ (s'.ents ce).blockNum →
        (s'.ents ce).blockNum < bnum + n → Done (s'.ents ce) := by
  unfold flushBlocks
  split
  · rename_i hzero
    refine ⟨s, [], rfl, .refl h, fun ce _ _ hle hlt => ?_⟩
    rw [hzero, Nat.cast_zero, add_zero] at hlt
    exact absurd hlt (not_lt.mpr hle)
  · obtain ⟨ents', swept, s', hrun, hswept, hg, -, hrange⟩ :=
      collectBlocks_swept dev n h (.nil s xs dev bnum)
    rw [show marked (fun ce => decide (ce ∈ ([] : List ℕ))) s = s by simp [marked]] at hrun
    rw [hrun]
    simp only [bind, Except.bind]
    split
    · rename_i hnil
      subst hnil
      refine ⟨s', swept, by simp [marked], hswept, fun ce hce hdev hle hlt => ?_⟩
      exact (hrange ce hce hdev hle hlt).resolve_left List.not_mem_nil
    · have hlast := flushBatch_whole hswept.rests hg.nodup hg.listed
      refine ⟨_, _, rfl, hswept.trans hlast, fun ce hce hdev hle hlt => ?_⟩
      have hkept := hlast.kept ce
      have hsame : (s'.ents ce).dev = dev ∧ (s'.ents ce).blockNum = ((flushBatch
          (marked (fun ce => ce ∈ ents') s') ents').ents ce).blockNum := by
        rw [hkept] at hdev ⊢
        exact ⟨hdev, rfl⟩
      rw [← hsame.2] at hle hlt
      exact (hrange ce hce hsame.1 hle hlt).elim (hlast.done ce) hlast.still

end Ranges

end CacheFlushes
