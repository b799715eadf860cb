import Mathlib.Tactic
import FsKit.FlushFailures

/-! `flush_ents` on a device that takes every write (`cache.c`). The entries of its array are
the buffers of a store, and each `writev_pos` with what follows it is a flush of that store. -/
namespace FlushCompleteness

open BlockCache WriteBackStore TransitionTrace
open FlushFailures (Accounted Consecutive Distinct settled settleEnt_self settleEnt_other
  settleEnt_disk settled_block writeImages_ents writeImages_elsewhere writeImages_written
  runLength_consecutive)

variable {β : Type}

section Stores

def callback (c : CacheEnt β) : Option Callback := c.func.map fun f => ⟨f, c.loggedBnum, c.arg⟩

def bufOf (c : CacheEnt β) : Buf β Callback := ⟨c.data, c.dirty, c.clone, callback c, c.lock⟩

/-- The entries of an array as a store. -/
def storeOf (s : Cache β) (ents : List ℕ) : Store Block β Callback where
  buf k := (ents.find? fun ce => (s.ents ce).block = k).map fun ce => bufOf (s.ents ce)
  disk := s.disk
  log := s.log

/-- The only fields of an entry that a flush changes. -/
def Kept (c c' : CacheEnt β) : Prop :=
  c' = { c with dirty := c'.dirty, clone := c'.clone, func := c'.func }

theorem settled_kept (c : CacheEnt β) : Kept c (settled c) := by
  unfold settled
  split <;> rfl

theorem Kept.trans {c c' c'' : CacheEnt β} (h : Kept c c') (k : Kept c' c'') : Kept c c'' := by
  unfold Kept at h k ⊢
  rw [h] at k
  exact k

theorem Kept.block {c c' : CacheEnt β} (h : Kept c c') : c'.block = c.block := by
  rw [h]
  rfl

theorem Kept.lock {c c' : CacheEnt β} (h : Kept c c') : c'.lock = c.lock := by
  rw [h]

theorem Kept.data {c c' : CacheEnt β} (h : Kept c c') : c'.data = c.data := by
  rw [h]

theorem bufOf_settled (c : CacheEnt β) : bufOf (settled c) = (bufOf c).settle := by
  unfold settled Buf.settle bufOf callback
  cases c.clone <;> rfl

variable {s s' : Cache β} {ents : List ℕ}

theorem storeOf_some (hd : Distinct s.ents ents) {ce : ℕ} (hce : ce ∈ ents) :
    (storeOf s ents).buf (s.ents ce).block = some (bufOf (s.ents ce)) := by
  unfold storeOf
  rcases hfind : ents.find? (fun other => (s.ents other).block = (s.ents ce).block) with _ | other
  · have hne := List.find?_eq_none.mp hfind ce hce
    exact absurd (decide_eq_true rfl) hne
  · have hblock := List.find?_some hfind
    have hsame := List.inj_on_of_nodup_map hd (List.mem_of_find?_eq_some hfind) hce
      (of_decide_eq_true hblock)
    simp only [hfind, hsame, Option.map_some]

theorem storeOf_none {k : Block} (hk : ∀ ce ∈ ents, (s.ents ce).block ≠ k) :
    (storeOf s ents).buf k = none := by
  unfold storeOf
  rw [Option.map_eq_none_iff, List.find?_eq_none]
  intro ce hce
  exact mt of_decide_eq_true (hk ce hce)

/-- The blocks of the entries stay distinct. -/
theorem distinct_kept (hd : Distinct s.ents ents) (h : ∀ ce, Kept (s.ents ce) (s'.ents ce)) :
    Distinct s'.ents ents := by
  unfold Distinct
  rw [show (fun ce => (s'.ents ce).block) = fun ce => (s.ents ce).block from
    funext fun ce => (h ce).block]
  exact hd

end Stores

section Runs
variable {s : Cache β} {dev bnum : ℤ} {run : List ℕ}

theorem writeImages_same (s : Cache β) (dev bnum : ℤ) (run : List ℕ) :
    writeImages s dev bnum run =
      { s with
        disk := (writeImages s dev bnum run).disk
        log := (writeImages s dev bnum run).log } := by
  induction run generalizing s bnum with
  | nil => rfl
  | cons ce run ih =>
    rw [writeImages]
    exact ih _ _

theorem writeImages_log (h : Consecutive s.ents dev bnum run) :
    (writeImages s dev bnum run).log = s.log ++ run.map fun ce => .flushed (s.ents ce).block
      (s.ents ce).image (s.ents ce).clone.isSome (s.ents ce).lock := by
  induction run generalizing s bnum with
  | nil => exact (List.append_nil _).symm
  | cons ce run ih =>
    rw [writeImages, List.map_cons, h.1]
    refine Eq.trans (ih ?_) ?_
    · exact h.2
    · exact List.append_assoc ..

theorem settles_same (s : Cache β) (run : List ℕ) :
    run.foldl settleEnt s =
      { s with ents := (run.foldl settleEnt s).ents, log := (run.foldl settleEnt s).log } := by
  induction run generalizing s with
  | nil => rfl
  | cons ce run ih =>
    have hone : settleEnt s ce =
        { s with ents := (settleEnt s ce).ents, log := (settleEnt s ce).log } := by
      unfold settleEnt setEnt
      dsimp only
      split <;> rfl
    rw [List.foldl_cons]
    refine (ih (settleEnt s ce)).trans ?_
    rw [hone]

theorem settles_ents (s : Cache β) (hnodup : run.Nodup) (ce : ℕ) :
    (run.foldl settleEnt s).ents ce = if ce ∈ run then settled (s.ents ce) else s.ents ce := by
  induction run generalizing s with
  | nil => rfl
  | cons first run ih =>
    rw [List.nodup_cons] at hnodup
    rw [List.foldl_cons, ih _ hnodup.2]
    by_cases hce : ce = first
    · subst hce
      rw [if_neg hnodup.1, if_pos List.mem_cons_self, settleEnt_self]
    · rw [settleEnt_other hce]
      simp only [List.mem_cons, hce, false_or]

theorem settles_log (s : Cache β) (hnodup : run.Nodup) : (run.foldl settleEnt s).log = s.log ++
    run.flatMap fun ce => ((callback (s.ents ce)).map (.called (s.ents ce).block)).toList := by
  induction run generalizing s with
  | nil => exact (List.append_nil _).symm
  | cons ce run ih =>
    rw [List.nodup_cons] at hnodup
    have hone : (settleEnt s ce).log =
        s.log ++ ((callback (s.ents ce)).map (.called (s.ents ce).block)).toList := by
      unfold settleEnt callback
      dsimp only
      split
      · rename_i f hf
        rw [hf]
        rfl
      · rename_i hf
        rw [hf]
        exact (List.append_nil _).symm
    have hrest : (run.flatMap fun other =>
        ((callback ((settleEnt s ce).ents other)).map
          (.called ((settleEnt s ce).ents other).block)).toList : List (Obs Block β Callback)) =
        run.flatMap fun other =>
          ((callback (s.ents other)).map (.called (s.ents other).block)).toList := by
      refine List.flatMap_congr fun other hother => ?_
      rw [settleEnt_other]
      rintro rfl
      exact hnodup.1 hother
    rw [List.foldl_cons, ih _ hnodup.2, hone, hrest, List.flatMap_cons, List.append_assoc]

end Runs

section Refinement
variable {s s' : Cache β} {ents : List ℕ}

/-- The cache has gone through flushes of the array's entries, as the store has them, and is
otherwise as it was. -/
structure Flushed (ents : List ℕ) (s s' : Cache β) : Prop where
  same : s' = { s with ents := s'.ents, disk := s'.disk, ios := s'.ios, log := s'.log }
  ios : s.ios ≤ s'.ios
  kept : ∀ ce, Kept (s.ents ce) (s'.ents ce)
  others : ∀ ce ∉ ents, s'.ents ce = s.ents ce
  flushes : ∃ kss : List (List Block),
    EveryStep apply Allowed (storeOf s ents) (kss.map .flush) ∧
      storeOf s' ents = runTrace apply (storeOf s ents) (kss.map .flush)

theorem Flushed.refl (ents : List ℕ) (s : Cache β) : Flushed ents s s :=
  ⟨rfl, le_rfl, fun _ => rfl, fun _ _ => rfl, [], trivial, rfl⟩

theorem Flushed.trans {s'' : Cache β} (h : Flushed ents s s') (k : Flushed ents s' s'') :
    Flushed ents s s'' := by
  obtain ⟨kss, hallowed, hstore⟩ := h.flushes
  obtain ⟨kss', hallowed', hstore'⟩ := k.flushes
  rw [hstore] at hallowed' hstore'
  refine ⟨?_, h.ios.trans k.ios, fun ce => (h.kept ce).trans (k.kept ce),
    fun ce hce => (k.others ce hce).trans (h.others ce hce), kss ++ kss', ?_, ?_⟩
  · rw [k.same, h.same]
  · rw [List.map_append]
    exact everyStep_append.mpr ⟨hallowed, hallowed'⟩
  · rw [List.map_append, runTrace_append]
    exact hstore'

/-- The entries of a run have been written and settled. -/
structure Written (run : List ℕ) (s s' : Cache β) : Prop where
  same : s' = { s with ents := s'.ents, disk := s'.disk, ios := s'.ios, log := s'.log }
  ios : s.ios ≤ s'.ios
  ents : ∀ ce, s'.ents ce = if ce ∈ run then settled (s.ents ce) else s.ents ce
  disk : ∀ ce ∈ run, s'.disk (s.ents ce).block = (s.ents ce).image
  elsewhere : ∀ k, (∀ ce ∈ run, (s.ents ce).block ≠ k) → s'.disk k = s.disk k
  log : s'.log = s.log ++ (run.map fun ce => .flushed (s.ents ce).block (s.ents ce).image
    (s.ents ce).clone.isSome (s.ents ce).lock) ++
      run.flatMap fun ce => ((callback (s.ents ce)).map (.called (s.ents ce).block)).toList

theorem run_written {run : List ℕ} {dev bnum : ℤ} (hd : Distinct s.ents run)
    (hc : Consecutive s.ents dev bnum run) :
    Written run s (run.foldl settleEnt (writeImages { s with ios := s.ios + 1 } dev bnum run)) := by
  have hnodup : run.Nodup := hd.of_map _
  have hents := writeImages_ents { s with ios := s.ios + 1 } dev bnum run
  have hsame := settles_same (writeImages { s with ios := s.ios + 1 } dev bnum run) run
  refine ⟨?_, ?_, fun ce => ?_, fun ce hce => ?_, fun k hk => ?_, ?_⟩
  · rw [hsame, writeImages_same]
  · rw [hsame, writeImages_same]
    exact Nat.le_succ _
  · rw [settles_ents _ hnodup, hents]
  · rw [hsame]
    exact writeImages_written (s := { s with ios := s.ios + 1 }) hc hd ce hce
  · rw [hsame]
    exact writeImages_elsewhere (s := { s with ios := s.ios + 1 }) hc hk
  · rw [settles_log _ hnodup, hents, writeImages_log (s := { s with ios := s.ios + 1 }) hc]

variable {run : List ℕ}

theorem Written.kept (h : Written run s s') (ce : ℕ) : Kept (s.ents ce) (s'.ents ce) := by
  rw [h.ents]
  split
  · exact settled_kept _
  · rfl

theorem mem_blocks_iff (hd : Distinct s.ents ents) (hrun : run.Sublist ents) {ce : ℕ}
    (hce : ce ∈ ents) : ((s.ents ce).block ∈ run.map fun ce => (s.ents ce).block) ↔ ce ∈ run := by
  refine ⟨fun h => ?_, fun h => List.mem_map_of_mem h⟩
  obtain ⟨other, hother, heq⟩ := List.mem_map.mp h
  rwa [← List.inj_on_of_nodup_map hd (hrun.subset hother) hce heq]

theorem Written.buf (h : Written run s s') (hd : Distinct s.ents ents) (hrun : run.Sublist ents) :
    (storeOf s' ents).buf = (apply (storeOf s ents)
      (.flush (run.map fun ce => (s.ents ce).block))).buf := by
  funext k
  by_cases hk : ∃ ce ∈ ents, (s.ents ce).block = k
  · obtain ⟨ce, hce, rfl⟩ := hk
    have hbuf := storeOf_some (distinct_kept hd h.kept) hce
    rw [(h.kept ce).block] at hbuf
    simp only [hbuf, apply, storeOf_some hd hce, mem_blocks_iff hd hrun hce, Option.map_some,
      h.ents]
    split
    · rw [bufOf_settled]
    · rfl
  · have hbuf : (storeOf s' ents).buf k = none :=
      storeOf_none fun ce hce heq => hk ⟨ce, hce, (h.kept ce).block ▸ heq⟩
    have hnone : (storeOf s ents).buf k = none := storeOf_none fun ce hce h => hk ⟨ce, hce, h⟩
    simp only [hbuf, apply, hnone, Option.map_none, ite_self]

theorem Written.store (h : Written run s s') (hd : Distinct s.ents ents)
    (hrun : run.Sublist ents) : storeOf s' ents = apply (storeOf s ents)
      (.flush (run.map fun ce => (s.ents ce).block)) := by
  have hbuf := h.buf hd hrun
  have hsome : ∀ ce ∈ run, (storeOf s ents).buf (s.ents ce).block = some (bufOf (s.ents ce)) :=
    fun ce hce => storeOf_some hd (hrun.subset hce)
  have hdisk : s'.disk = (apply (storeOf s ents)
      (.flush (run.map fun ce => (s.ents ce).block))).disk := by
    funext k
    by_cases hk : k ∈ run.map fun ce => (s.ents ce).block
    · obtain ⟨ce, hce, rfl⟩ := List.mem_map.mp hk
      simp only [apply, if_pos hk, hsome ce hce, Option.map_some, Option.getD_some]
      exact h.disk ce hce
    · simp only [apply, if_neg hk]
      exact h.elsewhere k fun ce hce heq => hk (List.mem_map.mpr ⟨ce, hce, heq⟩)
  have hlog : s'.log = (apply (storeOf s ents)
      (.flush (run.map fun ce => (s.ents ce).block))).log := by
    rw [h.log, List.map_eq_flatMap]
    simp only [apply, List.flatMap_map]
    refine congrArg₂ _ (congrArg₂ _ rfl (List.flatMap_congr fun ce hce => ?_))
      (List.flatMap_congr fun ce hce => ?_)
    · unfold flushObs
      rw [hsome ce hce]
      rfl
    · unfold callObs
      rw [hsome ce hce,
        show (some (bufOf (s.ents ce))).bind Buf.func = callback (s.ents ce) from rfl]
      cases callback (s.ents ce) <;> rfl
  unfold storeOf at hbuf hdisk hlog ⊢
  dsimp only at hbuf hdisk hlog
  rw [hbuf, hdisk, hlog]

/-- A run of blocks that is written and settled is one flush. -/
theorem Written.flushed (h : Written run s s') (hd : Distinct s.ents ents)
    (hrun : run.Sublist ents)
    (hok : ∀ ce ∈ run, (s.ents ce).clone ≠ none ∨ (s.ents ce).lock = 0) : Flushed ents s s' := by
  refine ⟨h.same, h.ios, h.kept, fun ce hce => ?_, [run.map fun ce => (s.ents ce).block],
    ⟨⟨hd.sublist (hrun.map _), ?_⟩, trivial⟩, h.store hd hrun⟩
  · rw [h.ents, if_neg fun hin => hce (hrun.subset hin)]
  · intro k hk
    obtain ⟨ce, hce, rfl⟩ := List.mem_map.mp hk
    exact ⟨_, storeOf_some hd (hrun.subset hce), hok ce hce⟩

end Refinement

section Passes
variable {s s' : Cache β} {all ents : List ℕ} {ce : ℕ}

/-- The device takes every further write. -/
def Works (s : Cache β) : Prop := ∀ n, s.ios ≤ n → s.io n = true

theorem Flushed.works (h : Flushed all s s') (hw : Works s) : Works s' := by
  intro n hn
  rw [h.same]
  exact hw n (h.ios.trans hn)

theorem writevPos_works (hw : Works s) (dev bnum : ℤ) (run : List ℕ) :
    writevPos s dev bnum run = (true, writeImages { s with ios := s.ios + 1 } dev bnum run) := by
  unfold writevPos transfer
  simp only [hw s.ios le_rfl, if_true]

/-- What a pass makes of an entry: the clone is gone, and an unlocked entry that had none is
clean. -/
def Passed (c c' : CacheEnt β) : Prop :=
  c'.clone = none ∧ (c.clone = none → c.lock = 0 → c'.dirty = false)

theorem settled_passed (c : CacheEnt β) : Passed c (settled c) := by
  unfold Passed settled
  rcases hclone : c.clone with _ | v
  · exact ⟨rfl, fun _ _ => rfl⟩
  · exact ⟨rfl, fun hnone => by cases hnone⟩

/-- A part of a pass has gone over some of the entries and has left the others alone. -/
structure PassedOver (all part : List ℕ) (s s' : Cache β) : Prop where
  flushed : Flushed all s s'
  passed : ∀ ce ∈ part, Passed (s.ents ce) (s'.ents ce)
  others : ∀ ce ∉ part, s'.ents ce = s.ents ce

theorem PassedOver.refl (all : List ℕ) (s : Cache β) : PassedOver all [] s s :=
  ⟨.refl all s, fun _ hce => (List.not_mem_nil hce).elim, fun _ _ => rfl⟩

/-- Entries with nothing that could be written. -/
theorem PassedOver.skip (all : List ℕ) (h : Passed (s.ents ce) (s.ents ce)) :
    PassedOver all [ce] s s := by
  refine ⟨.refl all s, fun ce' hce' => ?_, fun _ _ => rfl⟩
  rw [List.mem_singleton.mp hce']
  exact h

theorem PassedOver.append {part part' : List ℕ} {s'' : Cache β} (h : PassedOver all part s s')
    (k : PassedOver all part' s' s'') (hdis : part.Disjoint part') :
    PassedOver all (part ++ part') s s'' where
  flushed := h.flushed.trans k.flushed
  passed ce hce := by
    rcases List.mem_append.mp hce with hce | hce
    · rw [k.others ce (hdis hce)]
      exact h.passed ce hce
    · rw [← h.others ce fun hin => hdis hin hce]
      exact k.passed ce hce
  others ce hce := by
    rw [List.mem_append, not_or] at hce
    rw [k.others ce hce.2, h.others ce hce.1]

/-- Going over the same entries a second time leaves nothing to write. -/
theorem Passed.again {c c' c'' : CacheEnt β} (h : Passed c c') (hkept : Kept c c')
    (k : Passed c' c'') : c''.clone = none ∧ (c.lock = 0 → c''.dirty = false) := by
  refine ⟨k.1, fun hlock => k.2 h.1 ?_⟩
  rw [hkept]
  exact hlock

theorem PassedOver.again {part : List ℕ} {s'' : Cache β} (h : PassedOver all part s s')
    (k : PassedOver all part s' s'') : PassedOver all part s s'' where
  flushed := h.flushed.trans k.flushed
  passed ce hce := by
    obtain ⟨hclone, hclean⟩ := (h.passed ce hce).again (h.flushed.kept ce) (k.passed ce hce)
    exact ⟨hclone, fun _ => hclean⟩
  others ce hce := (k.others ce hce).trans (h.others ce hce)

/-- A run that goes out with one `writev_pos`. -/
theorem run_passed {run : List ℕ} {dev bnum : ℤ} (hd : Distinct s.ents all)
    (hrun : run.Sublist all) (hc : Consecutive s.ents dev bnum run)
    (hok : ∀ ce ∈ run, (s.ents ce).clone ≠ none ∨ (s.ents ce).lock = 0) (hw : Works s) :
    (writevPos s dev bnum run).1 = true ∧
      PassedOver all run s (run.foldl settleEnt (writevPos s dev bnum run).2) := by
  have hwritten : Written run s (run.foldl settleEnt (writevPos s dev bnum run).2) := by
    rw [writevPos_works hw]
    exact run_written (hd.sublist (hrun.map _)) hc
  refine ⟨by rw [writevPos_works hw], hwritten.flushed hd hrun hok, fun ce hce => ?_,
    fun ce hce => ?_⟩
  · rw [hwritten.ents, if_pos hce]
    exact settled_passed _
  · rw [hwritten.ents, if_neg hce]

theorem flushCacheEnt_passed (hd : Distinct s.ents all) (hce : ce ∈ all)
    (hneeds : ¬((s.ents ce).dirty = false ∧ (s.ents ce).clone = none))
    (hok : (s.ents ce).clone ≠ none ∨ (s.ents ce).lock = 0) (hw : Works s) :
    ∃ s', flushCacheEnt s ce = (0, s') ∧ PassedOver all [ce] s s' := by
  have hone : [ce].Sublist all := List.singleton_sublist.mpr hce
  have hblock : Consecutive s.ents (s.ents ce).dev (s.ents ce).blockNum [ce] := ⟨rfl, trivial⟩
  obtain ⟨hwrite, hfirst⟩ := run_passed hd hone hblock (by simpa using hok) hw
  unfold flushCacheEnt
  dsimp only
  rw [if_neg hneeds, if_neg fun hno => hok.elim (· hno.1) hno.2, hwrite]
  by_cases htwice : (s.ents ce).clone.isSome ∧ (s.ents ce).lock = 0 ∧ (s.ents ce).dirty = true
  swap
  · rw [if_neg htwice]
    exact ⟨_, rfl, hfirst⟩
  -- the clone is on the disk, and what is newer follows
  rw [if_pos htwice]
  change PassedOver all [ce] s (settleEnt (writevPos s (s.ents ce).dev (s.ents ce).blockNum [ce]).2
    ce) at hfirst
  generalize settleEnt (writevPos s (s.ents ce).dev (s.ents ce).blockNum [ce]).2 ce = s₁ at *
  have hkept := hfirst.flushed.kept ce
  have hlock : (s₁.ents ce).lock = 0 := by
    rw [hkept]
    exact htwice.2.1
  have hblock' : Consecutive s₁.ents (s.ents ce).dev (s.ents ce).blockNum [ce] :=
    ⟨hkept.block, trivial⟩
  obtain ⟨hwrite', hsecond⟩ := run_passed (distinct_kept hd hfirst.flushed.kept) hone hblock'
    (fun ce' hce' => .inr (by rw [List.mem_singleton.mp hce']; exact hlock))
    (hfirst.flushed.works hw)
  rw [hwrite']
  exact ⟨_, rfl, hfirst.again hsecond⟩

/-- Every block of a run may be written. -/
theorem runLength_writable (s : Cache β) (dev : ℤ) (n : ℕ) (bnum : ℤ) (ents : List ℕ) :
    ∀ ce ∈ ents.take (runLength s dev n bnum ents),
      (s.ents ce).clone ≠ none ∨ (s.ents ce).lock = 0 := by
  induction n generalizing bnum ents with
  | zero =>
    intro ce hce
    rw [runLength] at hce
    cases hce
  | succ n ih =>
    cases ents with
    | nil =>
      intro ce hce
      rw [List.take_nil] at hce
      cases hce
    | cons first ents =>
      rw [runLength]
      intro ce hce
      split at hce
      · cases hce
      split at hce
      · cases hce
      rename_i hwritable
      rcases List.mem_cons.mp hce with rfl | hce
      · by_contra hne
        push Not at hne
        exact hwritable hne
      · exact ih (bnum + 1) ents ce hce

/-- One pass of `flush_ents`. -/
theorem flushPass_passed (skip : ℕ) (ents : List ℕ) (s : Cache β) (hsub : ents.Sublist all)
    (hd : Distinct s.ents all) (hw : Works s) :
    ∃ s', flushPass 0 s skip ents = (0, s') ∧ PassedOver all (ents.drop skip) s s' := by
  induction ents generalizing skip s with
  | nil =>
    rw [List.drop_nil]
    exact ⟨s, by unfold flushPass; rfl, .refl all s⟩
  | cons ce ents ih =>
    have htail : ents.Sublist all := (List.sublist_cons_self ce ents).trans hsub
    have hnodup : (ce :: ents).Nodup := hsub.nodup (hd.of_map _)
    cases skip with
    | succ skip =>
      rw [flushPass]
      exact ih skip s htail hd hw
    | zero =>
      -- the part that goes first, and the rest of the pass
      have hrest : ∀ (n : ℕ) (s₁ : Cache β), PassedOver all (ce :: ents.take n) s s₁ →
          ∃ s', flushPass 0 s₁ n ents = (0, s') ∧ PassedOver all (ce :: ents) s s' := by
        intro n s₁ hfirst
        obtain ⟨s', heq, hdone⟩ := ih n s₁ htail (distinct_kept hd hfirst.flushed.kept)
          (hfirst.flushed.works hw)
        have hsplit : ce :: ents = (ce :: ents.take n) ++ ents.drop n := by
          rw [List.cons_append, List.take_append_drop]
        refine ⟨s', heq, ?_⟩
        rw [hsplit] at hnodup ⊢
        exact hfirst.append hdone (List.disjoint_of_nodup_append hnodup)
      rw [flushPass, List.drop_zero]
      dsimp only
      by_cases hneeds : (s.ents ce).dirty = false ∧ (s.ents ce).clone = none
      · rw [if_pos hneeds]
        exact hrest 0 s (.skip all ⟨hneeds.2, fun _ _ => hneeds.1⟩)
      rw [if_neg hneeds]
      by_cases hok : (s.ents ce).clone = none ∧ (s.ents ce).lock ≠ 0
      · rw [if_pos hok]
        exact hrest 0 s (.skip all ⟨hok.1, fun _ hlock => absurd hlock hok.2⟩)
      rw [if_neg hok]
      have hwritable : (s.ents ce).clone ≠ none ∨ (s.ents ce).lock = 0 := by
        by_contra hne
        push Not at hne
        exact hok hne
      by_cases hn : runLength s (s.ents ce).dev (numFlushBlocks - 1)
          ((s.ents ce).blockNum + 1) ents = 0
      · obtain ⟨s₁, hone, hfirst⟩ :=
          flushCacheEnt_passed hd (hsub.subset List.mem_cons_self) hneeds hwritable hw
        rw [if_pos hn, hone]
        exact hrest 0 s₁ hfirst
      · have hrun : (ce :: ents.take (runLength s (s.ents ce).dev (numFlushBlocks - 1)
            ((s.ents ce).blockNum + 1) ents)).Sublist all :=
          ((List.take_sublist _ _).cons_cons ce).trans hsub
        have hwritables := runLength_writable s (s.ents ce).dev (numFlushBlocks - 1)
          ((s.ents ce).blockNum + 1) ents
        have hconsecutive := runLength_consecutive s (s.ents ce).dev (numFlushBlocks - 1)
          ((s.ents ce).blockNum + 1) ents
        generalize runLength s (s.ents ce).dev (numFlushBlocks - 1) ((s.ents ce).blockNum + 1) ents
          = n at *
        obtain ⟨hwrite, hfirst⟩ := run_passed hd hrun ⟨rfl, hconsecutive⟩ (fun ce' hce' => by
          rcases List.mem_cons.mp hce' with rfl | hce'
          · exact hwritable
          · exact hwritables ce' hce') hw
        rw [if_neg hn, hwrite]
        exact hrest n _ hfirst

/-- The second pass is taken when an unlocked entry is still dirty, and it is enough. -/
theorem flushEnts_passed (hd : Distinct s.ents ents) (hw : Works s) :
    ∃ s', flushEnts s ents = (0, s') ∧ Flushed ents s s' ∧ ∀ ce ∈ ents,
      (s'.ents ce).clone = none ∧ ((s'.ents ce).lock = 0 → (s'.ents ce).dirty = false) := by
  obtain ⟨s₁, heq, hfirst⟩ := flushPass_passed 0 ents s (List.Sublist.refl ents) hd hw
  rw [List.drop_zero] at hfirst
  unfold flushEnts
  rw [heq]
  dsimp only
  split
  · obtain ⟨s₂, heq', hsecond⟩ := flushPass_passed 0 ents s₁ (List.Sublist.refl ents)
      (distinct_kept hd hfirst.flushed.kept) (hfirst.flushed.works hw)
    rw [List.drop_zero] at hsecond
    refine ⟨s₂, heq', hfirst.flushed.trans hsecond.flushed, fun ce hce => ?_⟩
    obtain ⟨hclone, hclean⟩ :=
      (hfirst.passed ce hce).again (hfirst.flushed.kept ce) (hsecond.passed ce hce)
    refine ⟨hclone, fun hlock => hclean ?_⟩
    rw [(hfirst.flushed.kept ce).trans (hsecond.flushed.kept ce)] at hlock
    exact hlock
  · rename_i hnone
    refine ⟨s₁, rfl, hfirst.flushed, fun ce hce => ⟨(hfirst.passed ce hce).1, fun hlock => ?_⟩⟩
    by_contra hdirty
    refine hnone (List.any_eq_true.mpr ⟨ce, hce, ?_⟩)
    exact decide_eq_true ⟨by simpa using hdirty, hlock⟩

end Passes

section Completeness
variable {s s' : Cache β} {ents : List ℕ}

/-- What a flush of an array leaves of its entries, the disk and the log. -/
structure Complete (ents : List ℕ) (s s' : Cache β) : Prop where
  same : s' = { s with ents := s'.ents, disk := s'.disk, ios := s'.ios, log := s'.log }
  unlocked : ∀ ce ∈ ents, (s.ents ce).lock = 0 →
    s'.ents ce = { s.ents ce with dirty := false, clone := none, func := none } ∧
      s'.disk (s.ents ce).block = (s.ents ce).data
  cloned : ∀ ce ∈ ents, (s.ents ce).lock ≠ 0 → ∀ v, (s.ents ce).clone = some v →
    s'.ents ce = { s.ents ce with clone := none, func := none } ∧
      s'.disk (s.ents ce).block = v
  locked : ∀ ce ∈ ents, (s.ents ce).lock ≠ 0 → (s.ents ce).clone = none →
    s'.ents ce = s.ents ce ∧ s'.disk (s.ents ce).block = s.disk (s.ents ce).block
  others : ∀ ce ∉ ents, s'.ents ce = s.ents ce
  elsewhere : ∀ k, (∀ ce ∈ ents, (s.ents ce).block ≠ k) → s'.disk k = s.disk k
  /-- A clone is written first and its callback runs right behind it; then come only the
  contents of an unlocked entry. -/
  log : ∃ new, s'.log = s.log ++ new ∧
    (∀ ce ∈ ents, ∃ rest, historyOf (s.ents ce).block new =
        cloneLog (s.ents ce).block (bufOf (s.ents ce)) ++ rest ∧
      (∀ o ∈ rest, o = .flushed (s.ents ce).block (s.ents ce).data false 0) ∧
      ((s.ents ce).lock ≠ 0 → rest = [])) ∧
    ∀ o ∈ new, ∃ ce ∈ ents, (s.ents ce).block = o.block

/-- From the array's entries to its buffers and back. -/
theorem Flushed.finished (h : Flushed ents s s') (hd : Distinct s.ents ents)
    (ha : Accounted s ents) (hcalls : ∀ ce ∈ ents, (s.ents ce).func ≠ none →
      (s.ents ce).clone ≠ none)
    (hdone : ∀ ce ∈ ents, (s'.ents ce).clone = none ∧
      ((s'.ents ce).lock = 0 → (s'.ents ce).dirty = false)) {new : List (Obs Block β Callback)}
    (hnew : s'.log = s.log ++ new) {ce : ℕ} (hce : ce ∈ ents) :
    Finished (s.ents ce).block (bufOf (s.ents ce)) (s.disk (s.ents ce).block)
      (historyOf (s.ents ce).block new) (bufOf (s'.ents ce)) (s'.disk (s.ents ce).block) := by
  obtain ⟨kss, hallowed, hstore⟩ := h.flushes
  obtain ⟨b', l, hb', hl, hsettles⟩ := flushes_settle hallowed (storeOf_some hd hce)
  rw [← hstore] at hb' hl hsettles
  have hbuf := storeOf_some (distinct_kept hd h.kept) hce
  rw [(h.kept ce).block, hb'] at hbuf
  obtain rfl := Option.some.inj hbuf
  have hlog : l = historyOf (s.ents ce).block new := by
    change historyOf _ s'.log = historyOf _ s.log ++ l at hl
    rw [hnew, historyOf_append] at hl
    exact (List.append_cancel_left hl).symm
  rw [hlog] at hsettles
  refine hsettles.finished (ha ce hce) ?_ (hdone ce hce).1 (hdone ce hce).2
  intro hfunc
  refine hcalls ce hce fun hnone => hfunc ?_
  change callback (s.ents ce) = none
  rw [callback, hnone]
  rfl

/-- The fields of an entry from its buffer. -/
theorem Kept.entry {c c' : CacheEnt β} {k : Block} {d d' : β} {l : List (Obs Block β Callback)}
    (h : Kept c c') (hf : Finished k (bufOf c) d l (bufOf c') d') :
    c' = { c with
      dirty := if c.lock = 0 then false else c.dirty
      clone := none
      func := none } := by
  have hdirty : c'.dirty = if c.lock = 0 then false else c.dirty := congrArg Buf.dirty hf.buf
  have hclone : c'.clone = none := congrArg Buf.clone hf.buf
  have hcall : callback c' = none := congrArg Buf.func hf.buf
  have hfunc : c'.func = none := Option.map_eq_none_iff.mp hcall
  unfold Kept at h
  rw [hdirty, hclone, hfunc] at h
  exact h

/-- With every write taken, `flush_ents` returns 0 and has flushed the whole array, each block's
clone before what is newer. -/
theorem flushEnts_complete (hd : Distinct s.ents ents) (ha : Accounted s ents)
    (hcalls : ∀ ce ∈ ents, (s.ents ce).func ≠ none → (s.ents ce).clone ≠ none) (hw : Works s) :
    ∃ s', flushEnts s ents = (0, s') ∧ Complete ents s s' := by
  obtain ⟨s', heq, hflushed, hdone⟩ := flushEnts_passed hd hw
  obtain ⟨kss, hallowed, hstore⟩ := hflushed.flushes
  obtain ⟨new, hnew⟩ := runTrace_log (storeOf s ents) (kss.map .flush)
  rw [← hstore] at hnew
  have hfinished := fun ce (hce : ce ∈ ents) =>
    hflushed.finished hd ha hcalls hdone hnew hce
  have hentry := fun ce (hce : ce ∈ ents) => (hflushed.kept ce).entry (hfinished ce hce)
  have helse : ∀ k, (∀ ce ∈ ents, (s.ents ce).block ≠ k) →
      s'.disk k = s.disk k ∧ historyOf k s'.log = historyOf k s.log := by
    intro k hk
    have haway := flushes_elsewhere hallowed (storeOf_none hk)
    rw [← hstore] at haway
    exact haway
  refine ⟨s', heq, hflushed.same, fun ce hce hlock => ?_, fun ce hce hlock v hv => ?_,
    fun ce hce hlock hnone => ?_, hflushed.others, fun k hk => (helse k hk).1, new, hnew,
    fun ce hce => (hfinished ce hce).log, fun o ho => ?_⟩
  · have hdisk := (hfinished ce hce).disk
    have hent := hentry ce hce
    rw [if_pos hlock] at hent
    rw [if_pos (show (bufOf (s.ents ce)).lock = 0 from hlock)] at hdisk
    exact ⟨hent, hdisk⟩
  · have hdisk := (hfinished ce hce).disk
    have hent := hentry ce hce
    rw [if_neg hlock] at hent
    rw [if_neg (show (bufOf (s.ents ce)).lock ≠ 0 from hlock)] at hdisk
    refine ⟨hent, ?_⟩
    change _ = (s.ents ce).clone.getD _ at hdisk
    rw [hv] at hdisk
    exact hdisk
  · have hdisk := (hfinished ce hce).disk
    have hent := hentry ce hce
    have hfunc : (s.ents ce).func = none := not_not.mp fun hne => hcalls ce hce hne hnone
    rw [if_neg hlock, ← hnone, ← hfunc] at hent
    rw [if_neg (show (bufOf (s.ents ce)).lock ≠ 0 from hlock)] at hdisk
    refine ⟨hent, ?_⟩
    change _ = (s.ents ce).clone.getD _ at hdisk
    rw [hnone] at hdisk
    exact hdisk
  · by_contra hne
    push Not at hne
    have hsame := (helse o.block hne).2
    change s'.log = s.log ++ new at hnew
    rw [hnew, historyOf_append] at hsame
    have hempty := List.append_right_eq_self.mp hsame
    exact List.filter_eq_nil_iff.mp hempty o ho (decide_eq_true rfl)

/-- Two adjacent blocks in one run, the first one cloned and dirty with a callback, and a locked
one behind them. -/
def threeBlocks : Cache ℕ :=
  { initBlockCache 16 0 (fun _ => 0) (fun _ => true) with
    ents := fun ce =>
      if ce = 0 then ⟨0, 5, 512, true, false, 7, some 6, 0, some 1, 5, 0⟩
      else if ce = 1 then ⟨0, 6, 512, true, false, 8, none, 0, none, 0, 0⟩
      else ⟨0, 7, 512, true, false, 9, none, 1, none, 0, 0⟩ }

theorem flushEnts_complete_threeBlocks :
    ∃ s', flushEnts threeBlocks [0, 1, 2] = (0, s') ∧ Complete [0, 1, 2] threeBlocks s' := by
  refine flushEnts_complete ?_ ?_ ?_ fun _ _ => rfl
  · unfold Distinct
    decide
  · intro ce hce
    revert ce
    decide
  · decide

end Completeness

end FlushCompleteness
