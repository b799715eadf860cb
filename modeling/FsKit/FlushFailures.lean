import Mathlib.Tactic
import FsKit.BlockCache
import FsKit.TransitionTrace

/-! Device writes that fail during a flush (`flush_cache_ent` and `flush_ents` of `cache.c`).
A flush is taken apart into its device writes and what it does to an entry behind them: run the
callback, and free the clone or clear `CE_DIRTY`. -/
namespace FlushFailures

open BlockCache TransitionTrace

variable {β : Type}

inductive Action where
  | write (dev bnum : ℤ) (run : List ℕ)
  | settle (ce : ℕ)
  deriving DecidableEq

/-- A cache with the contents that the last device write has put on the disk, none if it
failed. -/
structure Watched (β : Type) where
  cache : Cache β
  written : List (ℕ × β)

def apply (x : Watched β) : Action → Watched β
  | .write dev bnum run =>
    ⟨(writevPos x.cache dev bnum run).2, if (writevPos x.cache dev bnum run).1 then
      run.map fun ce => (ce, (x.cache.ents ce).image) else []⟩
  | .settle ce => { x with cache := settleEnt x.cache ce }

section Actions

def flushCacheEntActions (s : Cache β) (ce : ℕ) : List Action :=
  let c := s.ents ce
  if c.dirty = false ∧ c.clone = none then []
  else if c.clone = none ∧ c.lock ≠ 0 then []
  else
    [.write c.dev c.blockNum [ce], .settle ce] ++
      if c.clone.isSome ∧ c.lock = 0 ∧ c.dirty then [.write c.dev c.blockNum [ce], .settle ce]
      else []

def flushPassActions (s : Cache β) : ℕ → List ℕ → List Action
  | _, [] => []
  | skip + 1, _ :: ents => flushPassActions s skip ents
  | 0, ce :: ents =>
    let c := s.ents ce
    if c.dirty = false ∧ c.clone = none then flushPassActions s 0 ents
    else if c.clone = none ∧ c.lock ≠ 0 then flushPassActions s 0 ents
    else
      let n := runLength s c.dev (numFlushBlocks - 1) (c.blockNum + 1) ents
      if n = 0 then
        flushCacheEntActions s ce ++
          if (flushCacheEnt s ce).1 ≠ 0 then [] else flushPassActions (flushCacheEnt s ce).2 0 ents
      else
        let run := ce :: ents.take n
        let r := writevPos s c.dev c.blockNum run
        .write c.dev c.blockNum run ::
          if r.1 then run.map .settle ++ flushPassActions (run.foldl settleEnt r.2) n ents else []

def flushEntsActions (s : Cache β) (ents : List ℕ) : List Action :=
  let r := flushPass 0 s 0 ents
  flushPassActions s 0 ents ++
    if ents.any fun ce => (r.2.ents ce).dirty ∧ (r.2.ents ce).lock = 0 then
      flushPassActions r.2 0 ents
    else []

end Actions

section Replay
variable {x : Watched β} {s : Cache β}

theorem settles_cache (x : Watched β) (run : List ℕ) :
    runTrace apply x (run.map .settle) = { x with cache := run.foldl settleEnt x.cache } := by
  induction run generalizing x with
  | nil => rfl
  | cons ce run ih =>
    rw [List.map_cons, runTrace_cons, ih]
    rfl

theorem flushCacheEnt_replay (x : Watched β) (ce : ℕ) :
    (runTrace apply x (flushCacheEntActions x.cache ce)).cache = (flushCacheEnt x.cache ce).2 := by
  unfold flushCacheEntActions flushCacheEnt
  dsimp only
  split
  · rfl
  split
  · rfl
  split
  · rfl
  · rfl

/-- The actions are what the pass does. -/
theorem flushPass_replay (ret : ℤ) (skip : ℕ) (ents : List ℕ) (x : Watched β) :
    (runTrace apply x (flushPassActions x.cache skip ents)).cache =
      (flushPass ret x.cache skip ents).2 := by
  induction ents generalizing ret skip x with
  | nil =>
    unfold flushPassActions flushPass
    rfl
  | cons ce ents ih =>
    cases skip with
    | succ skip =>
      rw [flushPassActions, flushPass]
      exact ih ret skip x
    | zero =>
      rw [flushPassActions, flushPass]
      dsimp only
      split
      · exact ih ret 0 x
      split
      · exact ih ret 0 x
      split
      · have hfirst := flushCacheEnt_replay x ce
        rw [runTrace_append]
        split
        · exact hfirst
        · rw [← hfirst]
          exact ih _ 0 _
      · rw [runTrace_cons]
        split
        · rename_i hok
          rw [runTrace_append, settles_cache]
          exact ih 0 _ _
        · rfl

theorem flushEnts_replay (x : Watched β) (ents : List ℕ) :
    (runTrace apply x (flushEntsActions x.cache ents)).cache = (flushEnts x.cache ents).2 := by
  have hfirst := flushPass_replay 0 0 ents x
  unfold flushEntsActions flushEnts
  dsimp only
  rw [runTrace_append]
  split
  · rw [← hfirst]
    exact flushPass_replay _ 0 ents _
  · exact hfirst

end Replay

section Settling
variable {s : Cache β} {ce ce' : ℕ} {dev bnum : ℤ} {run : List ℕ}

/-- What settling does to an entry. -/
def settled (c : CacheEnt β) : CacheEnt β :=
  match c.clone with
  | some _ => { c with func := none, clone := none }
  | none => { c with func := none, dirty := false }

theorem settleEnt_self (s : Cache β) (ce : ℕ) : (settleEnt s ce).ents ce = settled (s.ents ce) := by
  unfold settleEnt setEnt
  dsimp only
  split <;> exact Function.update_self ..

theorem settleEnt_other (h : ce' ≠ ce) : (settleEnt s ce).ents ce' = s.ents ce' := by
  unfold settleEnt setEnt
  dsimp only
  split <;> exact Function.update_of_ne h ..

theorem settleEnt_disk (s : Cache β) (ce : ℕ) : (settleEnt s ce).disk = s.disk := by
  unfold settleEnt setEnt
  dsimp only
  split <;> rfl

@[simp] theorem settled_block (c : CacheEnt β) : (settled c).block = c.block := by
  unfold settled
  split <;> rfl

@[simp] theorem settled_data (c : CacheEnt β) : (settled c).data = c.data := by
  unfold settled
  split <;> rfl

theorem writeImages_ents (s : Cache β) (dev bnum : ℤ) (run : List ℕ) :
    (writeImages s dev bnum run).ents = s.ents := by
  induction run generalizing s bnum with
  | nil => rfl
  | cons ce run ih =>
    rw [writeImages]
    exact ih _ _

theorem writevPos_ents (s : Cache β) (dev bnum : ℤ) (run : List ℕ) :
    (writevPos s dev bnum run).2.ents = s.ents := by
  unfold writevPos transfer
  dsimp only
  split
  · exact writeImages_ents _ _ _ _
  · rfl

theorem writevPos_ok (s : Cache β) (dev bnum : ℤ) (run : List ℕ) :
    (writevPos s dev bnum run).1 = s.io s.ios := rfl

end Settling

section Honesty
variable {x : Watched β} {ce : ℕ} {dev bnum : ℤ} {run : List ℕ}

/-- The entry was dirty, cloned or waiting for its callback, and is no longer. -/
def Loses (c c' : CacheEnt β) : Prop :=
  c.dirty = true ∧ c'.dirty = false ∨ c.clone ≠ none ∧ c'.clone = none ∨
    c.func ≠ none ∧ c'.func = none

/-- An entry is settled only behind a device write that has put its contents on the disk. -/
def Honest (x : Watched β) (a : Action) : Prop :=
  ∀ ce, Loses (x.cache.ents ce) ((apply x a).cache.ents ce) →
    (ce, (x.cache.ents ce).image) ∈ x.written

/-- A device write of a single block succeeds. -/
def SingleSucceeds (x : Watched β) : Action → Prop
  | .write _ _ [_] => x.cache.io x.cache.ios = true
  | _ => True

theorem not_loses (c : CacheEnt β) : ¬Loses c c := by
  rintro (⟨h, h'⟩ | ⟨h, h'⟩ | ⟨h, h'⟩)
  · rw [h] at h'
    cases h'
  · exact h h'
  · exact h h'

theorem write_honest : Honest x (.write dev bnum run) := by
  intro ce h
  change Loses _ ((writevPos x.cache dev bnum run).2.ents ce) at h
  rw [writevPos_ents] at h
  exact absurd h (not_loses _)

theorem settle_honest (h : (ce, (x.cache.ents ce).image) ∈ x.written) : Honest x (.settle ce) := by
  intro ce' hloses
  by_cases heq : ce' = ce
  · rwa [heq]
  · change Loses _ ((settleEnt x.cache ce).ents ce') at hloses
    rw [settleEnt_other heq] at hloses
    exact absurd hloses (not_loses _)

/-- An entry that has something to lose loses it. -/
theorem settled_loses {c : CacheEnt β} (h : ¬(c.dirty = false ∧ c.clone = none)) :
    Loses c (settled c) := by
  unfold settled
  split
  · rename_i v hclone
    exact .inr (.inl ⟨by rw [hclone]; simp, rfl⟩)
  · rename_i hclone
    have hdirty : c.dirty = true := by
      by_contra hne
      exact h ⟨Bool.eq_false_of_not_eq_true hne, hclone⟩
    exact .inl ⟨hdirty, rfl⟩

/-- One block is written and settled: honest just when the write succeeds. -/
theorem single_honest_iff {as : List Action}
    (h : ¬((x.cache.ents ce).dirty = false ∧ (x.cache.ents ce).clone = none)) :
    EveryStep apply Honest x (.write dev bnum [ce] :: .settle ce :: as) ↔
      x.cache.io x.cache.ios = true ∧
        EveryStep apply Honest (apply (apply x (.write dev bnum [ce])) (.settle ce)) as := by
  have hents : (apply x (.write dev bnum [ce])).cache.ents = x.cache.ents := writevPos_ents _ _ _ _
  have hsettle : Honest (apply x (.write dev bnum [ce])) (.settle ce) ↔
      x.cache.io x.cache.ios = true := by
    constructor
    · intro hhonest
      have hlost : Loses ((apply x (.write dev bnum [ce])).cache.ents ce)
          ((apply (apply x (.write dev bnum [ce])) (.settle ce)).cache.ents ce) := by
        change Loses _ ((settleEnt (apply x (.write dev bnum [ce])).cache ce).ents ce)
        rw [settleEnt_self, hents]
        exact settled_loses h
      have hmem := hhonest ce hlost
      by_contra hfail
      change (ce, _) ∈ (if (writevPos x.cache dev bnum [ce]).1 then _ else []) at hmem
      rw [writevPos_ok, if_neg hfail] at hmem
      cases hmem
    · intro hok
      refine settle_honest ?_
      rw [hents]
      change (ce, _) ∈ (if (writevPos x.cache dev bnum [ce]).1 then _ else [])
      rw [writevPos_ok, if_pos hok]
      simp
  constructor
  · rintro ⟨-, hs, hrest⟩
    exact ⟨hsettle.1 hs, hrest⟩
  · rintro ⟨hok, hrest⟩
    exact ⟨write_honest, hsettle.2 hok, hrest⟩

theorem single_succeeds_iff {as : List Action} :
    EveryStep apply SingleSucceeds x (.write dev bnum [ce] :: .settle ce :: as) ↔
      x.cache.io x.cache.ios = true ∧
        EveryStep apply SingleSucceeds
          (apply (apply x (.write dev bnum [ce])) (.settle ce)) as := by
  simp [EveryStep, SingleSucceeds]

/-- Settling the entries of a run, all of which have been written. -/
theorem settles_honest (hnodup : run.Nodup)
    (h : ∀ ce ∈ run, (ce, (x.cache.ents ce).image) ∈ x.written) :
    EveryStep apply Honest x (run.map .settle) := by
  induction run generalizing x with
  | nil => trivial
  | cons ce run ih =>
    rw [List.nodup_cons] at hnodup
    refine ⟨settle_honest (h ce (List.mem_cons_self ..)), ih hnodup.2 fun ce' hmem => ?_⟩
    have hne : ce' ≠ ce := by
      rintro rfl
      exact hnodup.1 hmem
    change (ce', ((settleEnt x.cache ce).ents ce').image) ∈ x.written
    rw [settleEnt_other hne]
    exact h ce' (List.mem_cons_of_mem _ hmem)

theorem settles_succeed (x : Watched β) (run : List ℕ) :
    EveryStep apply SingleSucceeds x (run.map .settle) := by
  induction run generalizing x with
  | nil => trivial
  | cons ce run ih => exact ⟨trivial, ih _⟩

theorem flushCacheEnt_honest_iff (x : Watched β) (ce : ℕ) :
    EveryStep apply Honest x (flushCacheEntActions x.cache ce) ↔
      EveryStep apply SingleSucceeds x (flushCacheEntActions x.cache ce) := by
  unfold flushCacheEntActions
  dsimp only
  split
  · exact Iff.rfl
  rename_i hneeds
  split
  · exact Iff.rfl
  rw [List.cons_append, List.cons_append, List.nil_append, single_honest_iff hneeds,
    single_succeeds_iff]
  refine and_congr_right fun _ => ?_
  split
  · -- the second round: the clone is gone, and the entry is dirty
    rename_i htwice
    obtain ⟨hclone, -, hdirty⟩ := htwice
    obtain ⟨v, hv⟩ := Option.isSome_iff_exists.1 hclone
    rw [single_honest_iff, single_succeeds_iff]
    · exact Iff.rfl
    rintro ⟨hclean, -⟩
    change ((settleEnt (writevPos x.cache _ _ [ce]).2 ce).ents ce).dirty = false at hclean
    rw [settleEnt_self, writevPos_ents, settled, hv] at hclean
    rw [show (x.cache.ents ce).dirty = true from hdirty] at hclean
    cases hclean
  · exact Iff.rfl

/-- A pass over distinct entries is honest just when its single writes succeed: a run that
cannot be written is left alone. -/
theorem flushPass_honest_iff (skip : ℕ) (ents : List ℕ) (x : Watched β) (hnodup : ents.Nodup) :
    EveryStep apply Honest x (flushPassActions x.cache skip ents) ↔
      EveryStep apply SingleSucceeds x (flushPassActions x.cache skip ents) := by
  induction ents generalizing skip x with
  | nil =>
    unfold flushPassActions
    exact Iff.rfl
  | cons ce ents ih =>
    have htail := (List.nodup_cons.1 hnodup).2
    cases skip with
    | succ skip =>
      rw [flushPassActions]
      exact ih skip x htail
    | zero =>
      rw [flushPassActions]
      dsimp only
      split
      · exact ih 0 x htail
      split
      · exact ih 0 x htail
      split
      · rw [everyStep_append, everyStep_append, flushCacheEnt_honest_iff]
        refine and_congr_right fun _ => ?_
        split
        · exact Iff.rfl
        · rw [← flushCacheEnt_replay x ce]
          exact ih 0 _ htail
      · rename_i hn
        refine and_congr ⟨fun _ => ?_, fun _ => write_honest⟩ ?_
        · obtain ⟨e, es, hes⟩ : ∃ e es, ents.take (runLength x.cache (x.cache.ents ce).dev
              (numFlushBlocks - 1) ((x.cache.ents ce).blockNum + 1) ents) = e :: es := by
            cases ents with
            | nil =>
              rw [show numFlushBlocks - 1 = 62 + 1 from rfl, runLength] at hn
              · exact absurd rfl hn
              · exact fun h => by cases h
            | cons e es =>
              obtain ⟨k, hk⟩ := Nat.exists_eq_succ_of_ne_zero hn
              rw [hk]
              exact ⟨e, _, List.take_succ_cons⟩
          rw [hes]
          trivial
        split
        · rename_i hok
          rw [everyStep_append, everyStep_append]
          have hrun : (ce :: ents.take (runLength x.cache (x.cache.ents ce).dev
              (numFlushBlocks - 1) ((x.cache.ents ce).blockNum + 1) ents)).Nodup :=
            hnodup.sublist ((List.take_sublist _ _).cons_cons _)
          refine and_congr ⟨fun _ => settles_succeed _ _, fun _ => settles_honest hrun ?_⟩ ?_
          · intro ce' hmem
            change (ce', ((writevPos x.cache _ _ _).2.ents ce').image) ∈ (if _ then _ else _)
            rw [if_pos hok, writevPos_ents]
            exact List.mem_map.2 ⟨ce', hmem, rfl⟩
          · rw [settles_cache]
            exact ih _ _ htail
        · exact Iff.rfl

end Honesty

section Accounts
variable {s : Cache β} {ce : ℕ} {dev bnum : ℤ} {run ents : List ℕ}

/-- An entry that is not dirty has its latest contents in its clone or on the disk. -/
def Accounted (s : Cache β) (ents : List ℕ) : Prop :=
  ∀ ce ∈ ents, (s.ents ce).dirty = false →
    (s.ents ce).clone.getD (s.disk (s.ents ce).block) = (s.ents ce).data

/-- There is one entry for a block. -/
def Distinct (e : ℕ → CacheEnt β) (ents : List ℕ) : Prop := (ents.map fun ce => (e ce).block).Nodup

/-- The entries are for consecutive blocks from `bnum` on. -/
def Consecutive (e : ℕ → CacheEnt β) (dev : ℤ) : ℤ → List ℕ → Prop
  | _, [] => True
  | bnum, ce :: run => (e ce).block = ⟨dev, bnum⟩ ∧ Consecutive e dev (bnum + 1) run

theorem runLength_consecutive (s : Cache β) (dev : ℤ) (n : ℕ) (bnum : ℤ) (ents : List ℕ) :
    Consecutive s.ents dev bnum (ents.take (runLength s dev n bnum ents)) := by
  induction n generalizing bnum ents with
  | zero =>
    rw [runLength]
    trivial
  | succ n ih =>
    cases ents with
    | nil => trivial
    | cons ce ents =>
      rw [runLength]
      split
      · trivial
      rename_i hblock
      push Not at hblock
      split
      · trivial
      · refine ⟨?_, ih (bnum + 1) ents⟩
        rw [CacheEnt.block, hblock.1, hblock.2]

theorem writeImages_elsewhere {k : Block} (h : Consecutive s.ents dev bnum run)
    (hk : ∀ ce ∈ run, (s.ents ce).block ≠ k) : (writeImages s dev bnum run).disk k = s.disk k := by
  induction run generalizing s bnum with
  | nil => rfl
  | cons ce run ih =>
    rw [writeImages]
    refine Eq.trans (ih ?_ ?_) ?_
    · exact h.2
    · exact fun ce' hmem => hk ce' (List.mem_cons_of_mem _ hmem)
    · refine Function.update_of_ne ?_ _ _
      rw [← h.1]
      exact (hk ce (List.mem_cons_self ..)).symm

theorem writeImages_written (h : Consecutive s.ents dev bnum run) (hd : Distinct s.ents run) :
    ∀ ce ∈ run, (writeImages s dev bnum run).disk (s.ents ce).block = (s.ents ce).image := by
  induction run generalizing s bnum with
  | nil =>
    intro ce hmem
    cases hmem
  | cons ce run ih =>
    rw [Distinct, List.map_cons, List.nodup_cons] at hd
    rw [writeImages]
    intro ce' hmem
    rcases List.mem_cons.1 hmem with rfl | hmem
    · refine Eq.trans (writeImages_elsewhere ?_ ?_) ?_
      · exact h.2
      · exact fun other hother heq => hd.1 (List.mem_map.2 ⟨other, hother, heq⟩)
      · rw [h.1]
        exact Function.update_self ..
    · refine Eq.trans (ih ?_ ?_ ce' hmem) rfl
      · exact h.2
      · exact hd.2

/-- A write of a run, whether it succeeds or not. -/
theorem writevPos_accounted (ha : Accounted s ents) (hd : Distinct s.ents ents)
    (hrun : run.Sublist ents) (hc : Consecutive s.ents dev bnum run) :
    Accounted (writevPos s dev bnum run).2 ents ∧ ((writevPos s dev bnum run).1 = true →
      ∀ ce ∈ run, (writevPos s dev bnum run).2.disk (s.ents ce).block = (s.ents ce).image) := by
  by_cases hok : s.io s.ios = true
  swap
  · have hsame : writevPos s dev bnum run = (false, { s with ios := s.ios + 1 }) := by
      unfold writevPos transfer
      simp [hok]
    rw [hsame]
    exact ⟨ha, fun h => by cases h⟩
  have hwrite : writevPos s dev bnum run =
      (true, writeImages { s with ios := s.ios + 1 } dev bnum run) := by
    unfold writevPos transfer
    simp [hok]
  have hwritten : ∀ ce ∈ run, (writeImages { s with ios := s.ios + 1 } dev bnum run).disk
      (s.ents ce).block = (s.ents ce).image := by
    refine writeImages_written ?_ ?_
    · exact hc
    · exact hd.sublist (hrun.map _)
  rw [hwrite]
  refine ⟨fun ce hmem => ?_, fun _ => hwritten⟩
  dsimp only
  rw [writeImages_ents]
  intro hclean
  have hbefore := ha ce hmem hclean
  by_cases hin : ce ∈ run
  · have himage := hwritten ce hin
    dsimp only
    rw [himage, CacheEnt.image]
    cases hclone : (s.ents ce).clone with
    | some v =>
      rw [hclone] at hbefore
      exact hbefore
    | none => rfl
  · rw [writeImages_elsewhere]
    · exact hbefore
    · exact hc
    · intro other hother heq
      have hsame := List.inj_on_of_nodup_map hd (hrun.subset hother) hmem heq
      exact hin (hsame ▸ hother)

theorem settleEnt_block (s : Cache β) (ce ce' : ℕ) :
    ((settleEnt s ce).ents ce').block = (s.ents ce').block := by
  by_cases h : ce' = ce
  · rw [h, settleEnt_self, settled_block]
  · rw [settleEnt_other h]

theorem settleEnt_accounted (ha : Accounted s ents)
    (hdisk : s.disk (s.ents ce).block = (s.ents ce).image) : Accounted (settleEnt s ce) ents := by
  intro ce' hmem
  by_cases h : ce' = ce
  · subst h
    rw [settleEnt_self, settleEnt_disk, settled_block, settled_data, hdisk, settled]
    have hbefore := ha ce' hmem
    intro hclean
    cases hclone : (s.ents ce').clone with
    | some v =>
      rw [hclone] at hbefore hclean
      rw [CacheEnt.image, hclone]
      exact hbefore hclean
    | none => rw [CacheEnt.image, hclone]; rfl
  · rw [settleEnt_other h, settleEnt_disk]
    exact ha ce' hmem

theorem settles_accounted (ha : Accounted s ents) (hnodup : run.Nodup)
    (hdisk : ∀ ce ∈ run, s.disk (s.ents ce).block = (s.ents ce).image) :
    Accounted (run.foldl settleEnt s) ents := by
  induction run generalizing s with
  | nil => exact ha
  | cons ce run ih =>
    rw [List.nodup_cons] at hnodup
    refine ih (settleEnt_accounted ha (hdisk ce (List.mem_cons_self ..))) hnodup.2
      fun ce' hmem => ?_
    have hne : ce' ≠ ce := by
      rintro rfl
      exact hnodup.1 hmem
    rw [settleEnt_other hne, settleEnt_disk]
    exact hdisk ce' (List.mem_cons_of_mem _ hmem)

theorem Distinct.nodup {e : ℕ → CacheEnt β} (h : Distinct e ents) : ents.Nodup := h.of_map _

theorem Distinct.settle (h : Distinct s.ents ents) (ce : ℕ) :
    Distinct (settleEnt s ce).ents ents := by
  unfold Distinct
  rw [show (fun ce' => ((settleEnt s ce).ents ce').block) = fun ce' => (s.ents ce').block from
    funext (settleEnt_block s ce)]
  exact h

theorem Distinct.settles (h : Distinct s.ents ents) (run : List ℕ) :
    Distinct (run.foldl settleEnt s).ents ents := by
  induction run generalizing s with
  | nil => exact h
  | cons ce run ih => exact ih (h.settle ce)

theorem Distinct.writev (h : Distinct s.ents ents) (dev bnum : ℤ) (run : List ℕ) :
    Distinct (writevPos s dev bnum run).2.ents ents := by
  rw [writevPos_ents]
  exact h

/-- One block is written with success, and settled. -/
theorem single_accounted (ha : Accounted s ents) (hd : Distinct s.ents ents) (hmem : ce ∈ ents)
    (hblock : (s.ents ce).block = ⟨dev, bnum⟩) (hok : s.io s.ios = true) :
    Accounted (settleEnt (writevPos s dev bnum [ce]).2 ce) ents := by
  obtain ⟨haccounted, hwritten⟩ := writevPos_accounted ha hd (List.singleton_sublist.2 hmem)
    (show Consecutive s.ents dev bnum [ce] from ⟨hblock, trivial⟩)
  refine settleEnt_accounted haccounted ?_
  rw [writevPos_ents]
  exact hwritten hok ce (List.mem_singleton.2 rfl)

theorem flushCacheEnt_accounted (x : Watched β) (ha : Accounted x.cache ents)
    (hd : Distinct x.cache.ents ents) (hmem : ce ∈ ents)
    (hok : EveryStep apply SingleSucceeds x (flushCacheEntActions x.cache ce)) :
    Accounted (flushCacheEnt x.cache ce).2 ents ∧
      Distinct (flushCacheEnt x.cache ce).2.ents ents := by
  unfold flushCacheEntActions at hok
  unfold flushCacheEnt
  dsimp only at hok ⊢
  split at hok
  · rename_i hclean
    rw [if_pos hclean]
    exact ⟨ha, hd⟩
  rename_i hneeds
  rw [if_neg hneeds]
  split at hok
  · rename_i hlocked
    rw [if_pos hlocked]
    exact ⟨ha, hd⟩
  rename_i hunlocked
  rw [if_neg hunlocked]
  rw [List.cons_append, List.cons_append, List.nil_append, single_succeeds_iff] at hok
  obtain ⟨hfirst, hrest⟩ := hok
  have ha₁ := single_accounted ha hd hmem (show (x.cache.ents ce).block =
    ⟨(x.cache.ents ce).dev, (x.cache.ents ce).blockNum⟩ from rfl) hfirst
  have hd₁ := (hd.writev (x.cache.ents ce).dev (x.cache.ents ce).blockNum [ce]).settle ce
  split at hrest
  · rename_i htwice
    rw [if_pos htwice]
    rw [single_succeeds_iff] at hrest
    refine ⟨single_accounted ha₁ hd₁ hmem ?_ hrest.1, (hd₁.writev _ _ _).settle ce⟩
    rw [settleEnt_block, writevPos_ents]
    rfl
  · rename_i honce
    rw [if_neg honce]
    exact ⟨ha₁, hd₁⟩

theorem flushPass_accounted {all : List ℕ} (ret : ℤ) (skip : ℕ) (ents : List ℕ) (x : Watched β)
    (hsub : ents.Sublist all) (ha : Accounted x.cache all) (hd : Distinct x.cache.ents all)
    (hok : EveryStep apply SingleSucceeds x (flushPassActions x.cache skip ents)) :
    Accounted (flushPass ret x.cache skip ents).2 all ∧
      Distinct (flushPass ret x.cache skip ents).2.ents all := by
  induction ents generalizing ret skip x with
  | nil =>
    unfold flushPass
    exact ⟨ha, hd⟩
  | cons ce ents ih =>
    have htail : ents.Sublist all := (List.sublist_cons_self ce ents).trans hsub
    cases skip with
    | succ skip =>
      rw [flushPassActions] at hok
      rw [flushPass]
      exact ih ret skip x htail ha hd hok
    | zero =>
      rw [flushPassActions] at hok
      rw [flushPass]
      dsimp only at hok ⊢
      split at hok
      · rename_i hclean
        rw [if_pos hclean]
        exact ih ret 0 x htail ha hd hok
      rename_i hneeds
      rw [if_neg hneeds]
      split at hok
      · rename_i hlocked
        rw [if_pos hlocked]
        exact ih ret 0 x htail ha hd hok
      rename_i hunlocked
      rw [if_neg hunlocked]
      split at hok
      · rename_i hn
        rw [if_pos hn]
        rw [everyStep_append] at hok
        obtain ⟨hfirst, hrest⟩ := hok
        obtain ⟨ha₁, hd₁⟩ :=
          flushCacheEnt_accounted x ha hd (hsub.subset (List.mem_cons_self ..)) hfirst
        split at hrest
        · rename_i hfail
          rw [if_pos hfail]
          exact ⟨ha₁, hd₁⟩
        · rename_i hgood
          rw [if_neg hgood]
          rw [← flushCacheEnt_replay x ce] at hrest ha₁ hd₁ ⊢
          exact ih _ 0 _ htail ha₁ hd₁ hrest
      · rename_i hn
        rw [if_neg hn]
        generalize hrun : ce :: ents.take (runLength x.cache (x.cache.ents ce).dev
          (numFlushBlocks - 1) ((x.cache.ents ce).blockNum + 1) ents) = run at hok ⊢
        have hrunsub : run.Sublist all := by
          rw [← hrun]
          exact ((List.take_sublist _ _).cons_cons _).trans hsub
        have hcons : Consecutive x.cache.ents (x.cache.ents ce).dev
            (x.cache.ents ce).blockNum run := by
          rw [← hrun]
          exact ⟨rfl, runLength_consecutive _ _ _ _ _⟩
        obtain ⟨ha₁, hwritten⟩ := writevPos_accounted ha hd hrunsub hcons
        have hd₁ := hd.writev (x.cache.ents ce).dev (x.cache.ents ce).blockNum run
        obtain ⟨-, hrest⟩ := hok
        split at hrest
        · rename_i hgood
          rw [if_pos hgood]
          rw [everyStep_append, settles_cache] at hrest
          refine ih 0 _ _ htail (settles_accounted ha₁ (hd.nodup.sublist hrunsub) ?_)
            (hd₁.settles run)
            hrest.2
          rw [writevPos_ents]
          exact hwritten hgood
        · rename_i hfail
          rw [if_neg hfail]
          exact ⟨ha₁, hd₁⟩

theorem flushEnts_accounted (x : Watched β) (ha : Accounted x.cache ents)
    (hd : Distinct x.cache.ents ents)
    (hok : EveryStep apply SingleSucceeds x (flushEntsActions x.cache ents)) :
    Accounted (flushEnts x.cache ents).2 ents := by
  unfold flushEntsActions at hok
  dsimp only at hok
  rw [everyStep_append] at hok
  obtain ⟨hfirst, hrest⟩ := hok
  obtain ⟨ha₁, hd₁⟩ := flushPass_accounted 0 0 ents x (List.Sublist.refl _) ha hd hfirst
  unfold flushEnts
  dsimp only
  split at hrest
  · rename_i hagain
    rw [if_pos hagain]
    rw [← flushPass_replay 0 0 ents x] at hrest ha₁ hd₁ ⊢
    exact (flushPass_accounted _ 0 ents _ (List.Sublist.refl _) ha₁ hd₁ hrest).1
  · rename_i honce
    rw [if_neg honce]
    exact ha₁

theorem flushEnts_honest_iff (x : Watched β) (hnodup : ents.Nodup) :
    EveryStep apply Honest x (flushEntsActions x.cache ents) ↔
      EveryStep apply SingleSucceeds x (flushEntsActions x.cache ents) := by
  unfold flushEntsActions
  dsimp only
  rw [everyStep_append, everyStep_append, flushPass_honest_iff 0 ents x hnodup]
  refine and_congr_right fun _ => ?_
  split
  · rw [← flushPass_replay 0 0 ents x]
    exact flushPass_honest_iff 0 ents _ hnodup
  · exact Iff.rfl

end Accounts

section Flushes

inductive Flush where
  | cacheEnt (ce : ℕ)
  | ents (all : List ℕ)

def Flush.entries : Flush → List ℕ
  | .cacheEnt ce => [ce]
  | .ents all => all

def Flush.run (s : Cache β) : Flush → ℤ × Cache β
  | .cacheEnt ce => flushCacheEnt s ce
  | .ents all => flushEnts s all

def Flush.actions (s : Cache β) : Flush → List Action
  | .cacheEnt ce => flushCacheEntActions s ce
  | .ents all => flushEntsActions s all

/-- No step of the flush settles an entry whose contents the device has not taken, so that what
is not on the disk afterwards is still dirty or cloned, if it was before. -/
def NeverLooksClean (f : Flush) (s : Cache β) : Prop :=
  EveryStep apply Honest ⟨s, []⟩ (f.actions s) ∧
    (Accounted s f.entries → Accounted (f.run s).2 f.entries)

/-- A flush keeps to this just when the device takes every single block that it writes: what
`flush_cache_ent` writes is settled whether or not the write succeeds. -/
theorem never_looks_clean_iff (f : Flush) (s : Cache β) (hd : Distinct s.ents f.entries) :
    (runTrace apply ⟨s, []⟩ (f.actions s)).cache = (f.run s).2 ∧
    (NeverLooksClean f s ↔ EveryStep apply SingleSucceeds ⟨s, []⟩ (f.actions s)) := by
  cases f with
  | cacheEnt ce =>
    refine ⟨flushCacheEnt_replay ⟨s, []⟩ ce, fun h => ?_, fun h => ⟨?_, fun ha => ?_⟩⟩
    · exact (flushCacheEnt_honest_iff ⟨s, []⟩ ce).1 h.1
    · exact (flushCacheEnt_honest_iff ⟨s, []⟩ ce).2 h
    · exact (flushCacheEnt_accounted ⟨s, []⟩ ha hd (List.mem_singleton.2 rfl) h).1
  | ents ents =>
    refine ⟨flushEnts_replay ⟨s, []⟩ ents, fun h => ?_, fun h => ⟨?_, fun ha => ?_⟩⟩
    · exact (flushEnts_honest_iff ⟨s, []⟩ hd.nodup).1 h.1
    · exact (flushEnts_honest_iff ⟨s, []⟩ hd.nodup).2 h
    · exact flushEnts_accounted ⟨s, []⟩ ha hd h

/-- Dirty blocks from number 5 on, on a device that takes no write. -/
def brokenDevice : Cache ℕ :=
  { initBlockCache 16 0 (fun _ => 0) (fun _ => false) with
    ents := fun ce => ⟨0, 5 + ce, 512, true, false, 7, none, 0, none, 0, 0⟩ }

theorem never_looks_clean_iff_run : NeverLooksClean (.ents [0, 1]) brokenDevice := by
  have hactions : Flush.actions brokenDevice (.ents [0, 1]) =
      [.write 0 5 [0, 1], .write 0 5 [0, 1]] := by decide +kernel
  have hiff := (never_looks_clean_iff (.ents [0, 1]) brokenDevice (by unfold Distinct; decide)).2
  refine hiff.2 ?_
  rw [hactions]
  exact ⟨trivial, trivial, trivial⟩

/-- A single block is clean after a write that has failed, and its contents are lost. -/
theorem single_looks_clean : (flushCacheEnt brokenDevice 0).1 = EBADF ∧
    ¬NeverLooksClean (.cacheEnt 0) brokenDevice := by
  refine ⟨by decide +kernel, fun h => ?_⟩
  have hbefore : Accounted brokenDevice [0] := by
    intro ce hmem hclean
    cases hclean
  have hafter := h.2 hbefore 0 (List.mem_singleton.2 rfl) (by decide +kernel)
  revert hafter
  decide +kernel

end Flushes

end FlushFailures
