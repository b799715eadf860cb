import Mathlib.Tactic
import FsKit.FlushCompleteness
import FsKit.RetryLoop

/-! Whether `flush_device` comes to an end when device writes fail (`cache.c`). Its two loops
collect batches from the lru end again after every full batch, and the result of `flush_ents`
is not looked at. -/
namespace FlushTermination

open BlockCache RetryLoop
open FlushFailures (settled settleEnt_self settleEnt_other writevPos_ents)
open FlushCompleteness (settles_same writeImages_same)

variable {β : Type}

section Batches

def batchOf (dev : ℤ) (cel : ListName) (s : Cache β) : List ℕ :=
  ((listNodes s cel).filter fun ce => wantedBy dev cel (s.ents ce)).take numFlushBlocks

def Full (dev : ℤ) (cel : ListName) (s : Cache β) : Prop :=
  numFlushBlocks ≤ (batchOf dev cel s).length

instance (dev : ℤ) (cel : ListName) : DecidablePred (Full dev cel : Cache β → Prop) :=
  fun _ => inferInstanceAs (Decidable (_ ≤ _))

def round (dev : ℤ) (cel : ListName) (s : Cache β) : Cache β := doFlush s (batchOf dev cel s)

def lastRound (dev : ℤ) (cel : ListName) (s : Cache β) : Cache β :=
  if batchOf dev cel s ≠ [] then round dev cel s else s

theorem flushList_iff (dev : ℤ) (cel : ListName) (n : ℕ) (s s' : Cache β) :
    flushList cel (wantedBy dev cel) n s = .ok s' ↔
      ∃ s₁, retry (Full dev cel) (round dev cel) n s = some s₁ ∧ lastRound dev cel s₁ = s' := by
  induction n generalizing s with
  | zero =>
    rw [flushList, retry]
    simp
  | succ n ih =>
    rw [flushList, retry]
    change (if numFlushBlocks ≤ (batchOf dev cel s).length then
        flushList cel (wantedBy dev cel) n (round dev cel s)
      else if batchOf dev cel s ≠ [] then .ok (round dev cel s) else .ok s) = .ok s' ↔ _
    by_cases hfull : Full dev cel s
    · rw [if_pos hfull, if_pos (show numFlushBlocks ≤ _ from hfull)]
      exact ih _
    · rw [if_neg hfull, if_neg (show ¬numFlushBlocks ≤ _ from hfull)]
      have hlast : (if batchOf dev cel s ≠ [] then .ok (round dev cel s) else .ok s) =
          (.ok (lastRound dev cel s) : Run β (Cache β)) := by
        unfold lastRound
        split <;> rfl
      rw [hlast]
      constructor
      · intro h
        exact ⟨s, rfl, Except.ok.inj h⟩
      · rintro ⟨s₁, hs₁, rfl⟩
        rw [Option.some.inj hs₁]

/-- Of how many blocks the first write consists that a flush of the entries makes: none if there
is nothing that may be written. -/
def firstWrite (s : Cache β) : List ℕ → ℕ
  | [] => 0
  | ce :: ents =>
    let c := s.ents ce
    if c.dirty = false ∧ c.clone = none then firstWrite s ents
    else if c.clone = none ∧ c.lock ≠ 0 then firstWrite s ents
    else runLength s c.dev (numFlushBlocks - 1) (c.blockNum + 1) ents + 1

/-- A full batch of which nothing may be written, or that begins with a run of blocks while the
device takes no write any more. -/
def Stuck (dev : ℤ) (cel : ListName) (s : Cache β) : Prop :=
  Full dev cel s ∧ (firstWrite s (qsort s (batchOf dev cel s)) = 0 ∨
    1 < firstWrite s (qsort s (batchOf dev cel s)) ∧ ∀ n, s.ios ≤ n → s.io n = false)

/-- The caches in which `flush_device` goes through a list for its next batch. -/
inductive Collects (dev : ℤ) (s : Cache β) : ListName → Cache β → Prop where
  | normal {s' : Cache β} (h : Reaches (Full dev .normal) (round dev .normal) s s') :
      Collects dev s .normal s'
  | locked {s₁ s' : Cache β} (h : Reaches (Full dev .normal) (round dev .normal) s s₁)
      (hrest : ¬Full dev .normal s₁)
      (k : Reaches (Full dev .locked) (round dev .locked) (lastRound dev .normal s₁) s') :
      Collects dev s .locked s'

def Finishes (dev : ℤ) (s : Cache β) : Prop := ∃ n s', flushDevice n s dev = .ok s'

end Batches

section Weights
variable {s s' s'' : Cache β} {ce : ℕ}

/-- What may still be written of an entry. -/
def weight (c : CacheEnt β) : ℕ := c.dirty.toNat + c.clone.isSome.toNat

theorem settled_weight (c : CacheEnt β) : weight (settled c) ≤ weight c := by
  unfold settled weight
  rcases c.clone with _ | v
  · exact Nat.add_le_add_right (Nat.zero_le _) _
  · exact Nat.add_le_add_left (Nat.zero_le _) _

theorem settled_lighter {c : CacheEnt β} (h : ¬(c.dirty = false ∧ c.clone = none)) :
    weight (settled c) < weight c := by
  unfold settled weight
  rcases hclone : c.clone with _ | v
  · have hdirty : c.dirty = true := by
      by_contra hne
      exact h ⟨Bool.eq_false_of_not_eq_true hne, hclone⟩
    rw [hdirty]
    exact Nat.zero_lt_one
  · exact Nat.lt_succ_self _

/-- Nothing but entries, disk and log has changed, and no entry has got more to be written. -/
structure Worn (s s' : Cache β) : Prop where
  same : s' = { s with ents := s'.ents, disk := s'.disk, ios := s'.ios, log := s'.log }
  weight : ∀ ce, weight (s'.ents ce) ≤ weight (s.ents ce)

theorem Worn.refl (s : Cache β) : Worn s s := ⟨rfl, fun _ => le_rfl⟩

theorem Worn.trans (h : Worn s s') (k : Worn s' s'') : Worn s s'' := by
  refine ⟨?_, fun ce => (k.weight ce).trans (h.weight ce)⟩
  rw [k.same, h.same]

theorem settleEnt_worn (s : Cache β) (ce : ℕ) : Worn s (settleEnt s ce) := by
  refine ⟨?_, fun ce' => ?_⟩
  · have hsame := settles_same s [ce]
    change settleEnt s ce = { s with ents := (settleEnt s ce).ents, log := (settleEnt s ce).log }
      at hsame
    rw [hsame]
  · by_cases h : ce' = ce
    · rw [h, settleEnt_self]
      exact settled_weight _
    · rw [settleEnt_other h]

theorem settles_worn (s : Cache β) (run : List ℕ) : Worn s (run.foldl settleEnt s) := by
  induction run generalizing s with
  | nil => exact .refl s
  | cons ce run ih => exact (settleEnt_worn s ce).trans (ih _)

theorem writevPos_worn (s : Cache β) (dev bnum : ℤ) (run : List ℕ) :
    Worn s (writevPos s dev bnum run).2 := by
  refine ⟨?_, fun ce => by rw [writevPos_ents]⟩
  unfold writevPos transfer
  dsimp only
  split
  · rw [writeImages_same]
  · rfl

/-- A block that is written and settled, whether the write succeeds or not. -/
theorem write_settle_worn (s : Cache β) (dev bnum : ℤ) (ce : ℕ) :
    Worn s (settleEnt (writevPos s dev bnum [ce]).2 ce) :=
  (writevPos_worn s dev bnum [ce]).trans (settleEnt_worn _ ce)

theorem flushCacheEnt_worn (s : Cache β) (ce : ℕ) : Worn s (flushCacheEnt s ce).2 := by
  unfold flushCacheEnt
  dsimp only
  split
  · exact .refl s
  split
  · exact .refl s
  split
  · exact (write_settle_worn s _ _ ce).trans (write_settle_worn _ _ _ ce)
  · exact write_settle_worn s _ _ ce

theorem flushCacheEnt_lighter (hneeds : ¬((s.ents ce).dirty = false ∧ (s.ents ce).clone = none))
    (hok : ¬((s.ents ce).clone = none ∧ (s.ents ce).lock ≠ 0)) :
    weight ((flushCacheEnt s ce).2.ents ce) < weight (s.ents ce) := by
  have hself : ∀ dev bnum, weight ((settleEnt (writevPos s dev bnum [ce]).2 ce).ents ce) <
      weight (s.ents ce) := by
    intro dev bnum
    rw [settleEnt_self, writevPos_ents]
    exact settled_lighter hneeds
  unfold flushCacheEnt
  dsimp only
  rw [if_neg hneeds, if_neg hok]
  split
  · exact lt_of_le_of_lt ((write_settle_worn _ _ _ ce).weight ce) (hself _ _)
  · exact hself _ _

theorem flushPass_worn (ret : ℤ) (skip : ℕ) (ents : List ℕ) (s : Cache β) :
    Worn s (flushPass ret s skip ents).2 := by
  induction ents generalizing ret skip s with
  | nil =>
    unfold flushPass
    exact .refl s
  | cons ce ents ih =>
    cases skip with
    | succ skip =>
      rw [flushPass]
      exact ih ret skip s
    | zero =>
      rw [flushPass]
      dsimp only
      split
      · exact ih ret 0 s
      split
      · exact ih ret 0 s
      split
      · split
        · exact flushCacheEnt_worn s ce
        · exact (flushCacheEnt_worn s ce).trans (ih _ _ _)
      · have hwrite := writevPos_worn s (s.ents ce).dev (s.ents ce).blockNum
          (ce :: ents.take (runLength s (s.ents ce).dev (numFlushBlocks - 1)
            ((s.ents ce).blockNum + 1) ents))
        split
        · exact (hwrite.trans (settles_worn _ _)).trans (ih _ _ _)
        · exact hwrite

theorem flushEnts_worn (s : Cache β) (ents : List ℕ) : Worn s (flushEnts s ents).2 := by
  unfold flushEnts
  dsimp only
  split
  · exact (flushPass_worn 0 0 ents s).trans (flushPass_worn _ 0 ents _)
  · exact flushPass_worn 0 0 ents s

end Weights

section Outcomes
variable {s s' : Cache β} {ents : List ℕ}

/-- Something that had to be written of an entry is settled. -/
def Lighter (ents : List ℕ) (s s' : Cache β) : Prop :=
  ∃ ce ∈ ents, weight (s'.ents ce) < weight (s.ents ce)

theorem Lighter.worn {s'' : Cache β} (h : Lighter ents s s') (k : Worn s' s'') :
    Lighter ents s s'' := by
  obtain ⟨ce, hce, hlt⟩ := h
  exact ⟨ce, hce, lt_of_le_of_lt (k.weight ce) hlt⟩

theorem Lighter.cons {ce : ℕ} (h : Lighter ents s s') : Lighter (ce :: ents) s s' := by
  obtain ⟨ce', hce', hlt⟩ := h
  exact ⟨ce', List.mem_cons_of_mem _ hce', hlt⟩

theorem flushPass_nothing (ret : ℤ) (h : firstWrite s ents = 0) :
    flushPass ret s 0 ents = (ret, s) := by
  induction ents with
  | nil =>
    unfold flushPass
    rfl
  | cons ce ents ih =>
    rw [firstWrite] at h
    rw [flushPass]
    dsimp only at h ⊢
    split_ifs at h ⊢ with h₁ h₂
    · exact ih h
    · exact ih h

/-- A single block is settled whatever comes of its write. -/
theorem flushPass_single (ret : ℤ) (h : firstWrite s ents = 1) :
    Lighter ents s (flushPass ret s 0 ents).2 := by
  induction ents with
  | nil => cases h
  | cons ce ents ih =>
    rw [firstWrite] at h
    rw [flushPass]
    dsimp only at h ⊢
    by_cases hneeds : (s.ents ce).dirty = false ∧ (s.ents ce).clone = none
    · rw [if_pos hneeds] at h ⊢
      exact (ih h).cons
    by_cases hok : (s.ents ce).clone = none ∧ (s.ents ce).lock ≠ 0
    · rw [if_neg hneeds, if_pos hok] at h ⊢
      exact (ih h).cons
    rw [if_neg hneeds, if_neg hok] at h ⊢
    have hone : Lighter (ce :: ents) s (flushCacheEnt s ce).2 :=
      ⟨ce, List.mem_cons_self, flushCacheEnt_lighter hneeds hok⟩
    rw [if_pos (Nat.succ.inj h)]
    split
    · exact hone
    · exact hone.worn (flushPass_worn _ 0 ents _)

theorem flushPass_taken (ret : ℤ) (h : 1 < firstWrite s ents) (hio : s.io s.ios = true) :
    Lighter ents s (flushPass ret s 0 ents).2 := by
  induction ents with
  | nil => cases h
  | cons ce ents ih =>
    rw [firstWrite] at h
    rw [flushPass]
    dsimp only at h ⊢
    by_cases hneeds : (s.ents ce).dirty = false ∧ (s.ents ce).clone = none
    · rw [if_pos hneeds] at h ⊢
      exact (ih h).cons
    by_cases hok : (s.ents ce).clone = none ∧ (s.ents ce).lock ≠ 0
    · rw [if_neg hneeds, if_pos hok] at h ⊢
      exact (ih h).cons
    rw [if_neg hneeds, if_neg hok] at h ⊢
    rw [if_neg (by omega)]
    have hwrite : (writevPos s (s.ents ce).dev (s.ents ce).blockNum (ce :: ents.take (runLength s
        (s.ents ce).dev (numFlushBlocks - 1) ((s.ents ce).blockNum + 1) ents))).1 = true := hio
    rw [if_pos hwrite]
    have hone : Lighter (ce :: ents) s (settleEnt (writevPos s (s.ents ce).dev (s.ents ce).blockNum
        (ce :: ents.take (runLength s (s.ents ce).dev (numFlushBlocks - 1)
          ((s.ents ce).blockNum + 1) ents))).2 ce) := by
      refine ⟨ce, List.mem_cons_self, ?_⟩
      rw [settleEnt_self, writevPos_ents]
      exact settled_lighter hneeds
    exact (hone.worn (settles_worn _ _)).worn (flushPass_worn 0 _ ents _)

/-- A run that the device refuses is left alone, and the pass ends with it. -/
theorem flushPass_refused (ret : ℤ) (h : 1 < firstWrite s ents) (hio : s.io s.ios = false) :
    flushPass ret s 0 ents = (EINVAL, { s with ios := s.ios + 1 }) := by
  induction ents with
  | nil => cases h
  | cons ce ents ih =>
    rw [firstWrite] at h
    rw [flushPass]
    dsimp only at h ⊢
    by_cases hneeds : (s.ents ce).dirty = false ∧ (s.ents ce).clone = none
    · rw [if_pos hneeds] at h ⊢
      exact ih h
    by_cases hok : (s.ents ce).clone = none ∧ (s.ents ce).lock ≠ 0
    · rw [if_neg hneeds, if_pos hok] at h ⊢
      exact ih h
    rw [if_neg hneeds, if_neg hok] at h ⊢
    rw [if_neg (by omega)]
    unfold writevPos transfer
    simp only [hio, Bool.false_eq_true, if_false]

/-- Whether entries are busy plays no role for what is written. -/
def SameButBusy (s s' : Cache β) : Prop :=
  ∀ ce, s'.ents ce = { s.ents ce with busy := (s'.ents ce).busy }

theorem runLength_congr (h : SameButBusy s s') (dev : ℤ) (n : ℕ) (bnum : ℤ) (ents : List ℕ) :
    runLength s' dev n bnum ents = runLength s dev n bnum ents := by
  induction n generalizing bnum ents with
  | zero => rfl
  | succ n ih =>
    cases ents with
    | nil => rfl
    | cons ce ents =>
      rw [runLength, runLength, h ce, ih]

theorem firstWrite_congr (h : SameButBusy s s') (ents : List ℕ) :
    firstWrite s' ents = firstWrite s ents := by
  induction ents with
  | nil => rfl
  | cons ce ents ih =>
    rw [firstWrite, firstWrite, ih, h ce]
    dsimp only
    rw [runLength_congr h]

/-- A flush that settles nothing has had only writes that failed, of runs of blocks. -/
structure InVain (ents : List ℕ) (s s' : Cache β) : Prop where
  several : firstWrite s ents ≠ 1
  same : ∃ k, s' = { s with ios := s.ios + k } ∧ (1 < firstWrite s ents → 0 < k) ∧
    ∀ n, s.ios ≤ n → n < s.ios + k → s.io n = false

/-- What lets a flush settle something. -/
def Gets (s : Cache β) (ents : List ℕ) : Prop :=
  firstWrite s ents = 1 ∨ 1 < firstWrite s ents ∧ ∃ n, s.ios ≤ n ∧ s.io n = true

theorem flushEnts_outcome (s : Cache β) (ents : List ℕ) :
    Lighter ents s (flushEnts s ents).2 ∧ Gets s ents ∨ InVain ents s (flushEnts s ents).2 := by
  unfold flushEnts
  dsimp only
  rcases Nat.lt_trichotomy (firstWrite s ents) 1 with hnone | hsingle | hrun
  · have hzero : firstWrite s ents = 0 := by omega
    rw [flushPass_nothing 0 hzero]
    dsimp only
    refine .inr ⟨by omega, 0, ?_, fun h => by omega, fun n h h' => by omega⟩
    split
    · rw [flushPass_nothing 0 hzero]
      rfl
    · rfl
  · refine .inl ⟨?_, .inl hsingle⟩
    have hone := flushPass_single 0 hsingle
    split
    · exact hone.worn (flushPass_worn _ 0 ents _)
    · exact hone
  rcases hio : s.io s.ios with _ | _
  swap
  · refine .inl ⟨?_, .inr ⟨hrun, s.ios, le_rfl, hio⟩⟩
    have hone := flushPass_taken 0 hrun hio
    split
    · exact hone.worn (flushPass_worn _ 0 ents _)
    · exact hone
  rw [flushPass_refused 0 hrun hio]
  dsimp only
  split
  swap
  · refine .inr ⟨by omega, 1, rfl, fun _ => Nat.zero_lt_one, fun n h h' => ?_⟩
    rw [show n = s.ios by omega]
    exact hio
  -- the second pass begins with the same run
  have hrun' : 1 < firstWrite { s with ios := s.ios + 1 } ents := by
    have hsame : SameButBusy s { s with ios := s.ios + 1 } := fun _ => rfl
    rw [firstWrite_congr hsame]
    exact hrun
  rcases hio' : s.io (s.ios + 1) with _ | _
  · rw [flushPass_refused EINVAL hrun' hio']
    refine .inr ⟨by omega, 2, rfl, fun _ => Nat.zero_lt_two, fun n h h' => ?_⟩
    rcases (show n = s.ios ∨ n = s.ios + 1 by omega) with rfl | rfl
    · exact hio
    · exact hio'
  · exact .inl ⟨flushPass_taken EINVAL hrun' hio', .inr ⟨hrun, s.ios + 1, Nat.le_succ _, hio'⟩⟩

theorem setBusy_all (busy : Bool) (s : Cache β) (ents : List ℕ) :
    ents.foldl (setBusy busy) s = { s with
      ents := fun ce => if ce ∈ ents then { s.ents ce with busy := busy } else s.ents ce } := by
  induction ents generalizing s with
  | nil => rfl
  | cons first ents ih =>
    rw [List.foldl_cons, ih]
    unfold setBusy setEnt
    dsimp only
    congr 1
    funext ce
    by_cases hfirst : ce = first
    · subst hfirst
      rw [Function.update_self, if_pos List.mem_cons_self]
      split <;> rfl
    · rw [Function.update_of_ne hfirst]
      simp only [List.mem_cons, hfirst, false_or]

theorem setBusy_worn (busy : Bool) (s : Cache β) (ents : List ℕ) :
    Worn s (ents.foldl (setBusy busy) s) := by
  rw [setBusy_all]
  refine ⟨rfl, fun ce => ?_⟩
  dsimp only
  split <;> exact le_rfl

theorem doFlush_worn (s : Cache β) (ents : List ℕ) : Worn s (doFlush s ents) :=
  ((setBusy_worn true s ents).trans (flushEnts_worn _ _)).trans (setBusy_worn false _ _)

theorem doFlush_outcome (hbusy : ∀ ce ∈ ents, (s.ents ce).busy = false) :
    Lighter ents s (doFlush s ents) ∧ Gets s (qsort s ents) ∨
      InVain (qsort s ents) s (doFlush s ents) := by
  have hmarked : SameButBusy s (ents.foldl (setBusy true) s) := by
    intro ce
    rw [setBusy_all]
    dsimp only
    split <;> rfl
  have hweight : ∀ ce, weight ((ents.foldl (setBusy true) s).ents ce) = weight (s.ents ce) := by
    intro ce
    rw [hmarked ce]
    rfl
  have hsort : qsort (ents.foldl (setBusy true) s) ents = qsort s ents := by
    have hcmp : ∀ a b, cacheEntCmp ((ents.foldl (setBusy true) s).ents a)
        ((ents.foldl (setBusy true) s).ents b) = cacheEntCmp (s.ents a) (s.ents b) := by
      intro a b
      rw [hmarked a, hmarked b]
      rfl
    unfold qsort
    simp only [hcmp]
  have hmem : ∀ ce, ce ∈ qsort s ents ↔ ce ∈ ents := fun ce =>
    (List.perm_insertionSort _ ents).mem_iff
  unfold doFlush flushBatch
  dsimp only
  rw [hsort]
  rcases flushEnts_outcome (ents.foldl (setBusy true) s) (qsort s ents) with ⟨hlight, hgets⟩ | hvain
  · obtain ⟨ce, hce, hlt⟩ := hlight.worn (setBusy_worn false _ (qsort s ents))
    rw [hweight] at hlt
    unfold Gets at hgets
    rw [firstWrite_congr hmarked, setBusy_all] at hgets
    exact .inl ⟨⟨ce, (hmem ce).mp hce, hlt⟩, hgets⟩
  · right
    obtain ⟨hseveral, k, hsame, hk, hio⟩ := hvain
    rw [firstWrite_congr hmarked] at hseveral hk
    refine ⟨hseveral, k, ?_, hk, ?_⟩
    · rw [hsame, setBusy_all, setBusy_all]
      dsimp only
      congr 1
      funext ce
      simp only [hmem]
      split
      · rename_i hce
        rw [← hbusy ce hce]
      · rfl
    · rw [setBusy_all] at hio
      exact hio

end Outcomes

section Rounds
variable {dev : ℤ} {cel : ListName} {s s' : Cache β}

def toWrite (cel : ListName) (s : Cache β) : ℕ :=
  ((listNodes s cel).map fun ce => weight (s.ents ce)).sum

theorem batchOf_idle {ce : ℕ} (h : ce ∈ batchOf dev cel s) : (s.ents ce).busy = false := by
  have hmem := List.mem_of_mem_take h
  rw [List.mem_filter] at hmem
  cases cel <;> simp_all [wantedBy]

theorem toWrite_lighter (hw : Worn s s') (hl : Lighter (batchOf dev cel s) s s') :
    toWrite cel s' < toWrite cel s := by
  have hnodes : listNodes s' cel = listNodes s cel := by
    rw [hw.same]
    rfl
  unfold toWrite
  rw [hnodes]
  obtain ⟨ce, hce, hlt⟩ := hl
  have hmem : ce ∈ listNodes s cel := (List.mem_filter.mp (List.mem_of_mem_take hce)).1
  exact List.sum_lt_sum _ _ (fun other _ => hw.weight other) ⟨ce, hmem, hlt⟩

theorem round_worn (dev : ℤ) (cel : ListName) (s : Cache β) : Worn s (round dev cel s) :=
  doFlush_worn s _

theorem round_outcome (dev : ℤ) (cel : ListName) (s : Cache β) :
    Lighter (batchOf dev cel s) s (round dev cel s) ∧ Gets s (qsort s (batchOf dev cel s)) ∨
      InVain (qsort s (batchOf dev cel s)) s (round dev cel s) :=
  doFlush_outcome fun _ => batchOf_idle

/-- Writes that have failed do not change the next batch. -/
theorem firstWrite_later (k : ℕ) : firstWrite { s with ios := s.ios + k }
    (qsort { s with ios := s.ios + k } (batchOf dev cel { s with ios := s.ios + k })) =
      firstWrite s (qsort s (batchOf dev cel s)) := by
  have hsame : SameButBusy s { s with ios := s.ios + k } := fun _ => rfl
  exact firstWrite_congr hsame _

/-- A stuck list is stuck again behind the next batch. -/
theorem stuck_round (h : Stuck dev cel s) : Full dev cel s ∧ Stuck dev cel (round dev cel s) := by
  obtain ⟨hfull, hstuck⟩ := h
  refine ⟨hfull, ?_⟩
  rcases round_outcome dev cel s with ⟨-, hgets⟩ | hvain
  · rcases hgets with hsingle | ⟨hrun, n, hn, htrue⟩
    · omega
    · rcases hstuck with hzero | ⟨-, hdead⟩
      · omega
      · rw [hdead n hn] at htrue
        cases htrue
  · obtain ⟨-, k, hsame, -, -⟩ := hvain
    rw [hsame]
    refine ⟨hfull, ?_⟩
    rw [firstWrite_later]
    exact hstuck.imp_right fun ⟨hrun, hdead⟩ => ⟨hrun, fun n hn => hdead n (by
      change s.ios + k ≤ n at hn
      omega)⟩

/-- The device takes a write at last, and the run at the front of the batch is settled. -/
theorem gets_on {n : ℕ} (hfull : Full dev cel s)
    (hrun : 1 < firstWrite s (qsort s (batchOf dev cel s))) (hn : s.ios ≤ n)
    (htrue : s.io n = true) : ∃ s', Reaches (Full dev cel) (round dev cel) s s' ∧
      toWrite cel s' < toWrite cel s := by
  induction hd : n - s.ios using Nat.strong_induction_on generalizing s with
  | _ d ih =>
    rcases round_outcome dev cel s with ⟨hlight, -⟩ | hvain
    · exact ⟨_, Reaches.start.step hfull, toWrite_lighter (round_worn dev cel s) hlight⟩
    · obtain ⟨-, k, hsame, hk, hfailed⟩ := hvain
      have hpos := hk hrun
      have hlater : s.ios + k ≤ n := by
        by_contra hlt
        rw [hfailed n hn (by omega)] at htrue
        cases htrue
      have hless : n - (s.ios + k) < d := by omega
      obtain ⟨s', hreach, hlt⟩ := ih (n - (s.ios + k)) hless (s := { s with ios := s.ios + k })
        hfull (by rw [firstWrite_later]; exact hrun) hlater htrue rfl
      refine ⟨s', ?_, hlt⟩
      have hfirst : Reaches (Full dev cel) (round dev cel) s (round dev cel s) :=
        Reaches.start.step hfull
      rw [hsame] at hfirst
      exact hfirst.trans hreach

theorem round_progress (hfull : Full dev cel s) (h : ¬Stuck dev cel s) :
    ∃ s', Reaches (Full dev cel) (round dev cel) s s' ∧ toWrite cel s' < toWrite cel s := by
  by_cases hrun : 1 < firstWrite s (qsort s (batchOf dev cel s))
  · have hsome : ∃ n, s.ios ≤ n ∧ s.io n = true := by
      by_contra hnone
      push Not at hnone
      exact h ⟨hfull, .inr ⟨hrun, fun n hn => Bool.eq_false_of_not_eq_true (hnone n hn)⟩⟩
    obtain ⟨n, hn, htrue⟩ := hsome
    exact gets_on hfull hrun hn htrue
  · rcases round_outcome dev cel s with ⟨hlight, -⟩ | hvain
    · exact ⟨_, Reaches.start.step hfull, toWrite_lighter (round_worn dev cel s) hlight⟩
    · refine absurd ⟨hfull, .inl ?_⟩ h
      have hseveral := hvain.several
      omega

/-- Going through a list comes to an end exactly if it never gets stuck. -/
theorem list_ends_iff (dev : ℤ) (cel : ListName) (s : Cache β) :
    Ends (Full dev cel) (round dev cel) s ↔
      ∀ s', Reaches (Full dev cel) (round dev cel) s s' → ¬Stuck dev cel s' :=
  ends_iff (toWrite cel) (fun _ => stuck_round) (fun _ hfull h => by
    obtain ⟨s', hreach, hlt⟩ := round_progress hfull h
    exact ⟨s', hreach, .inr hlt⟩) s

end Rounds

section Devices
variable {dev : ℤ} {s s' : Cache β}

theorem flushDevice_ok (n : ℕ) : flushDevice n s dev = .ok s' ↔
    ∃ s₁, flushList .normal (wantedBy dev .normal) n s = .ok s₁ ∧
      flushList .locked (wantedBy dev .locked) n s₁ = .ok s' := by
  unfold flushDevice
  rcases flushList .normal (wantedBy dev .normal) n s with f | s₁
  · constructor
    · intro h
      cases h
    · rintro ⟨_, h, -⟩
      cases h
  · constructor
    · intro h
      exact ⟨s₁, rfl, h⟩
    · rintro ⟨_, h, k⟩
      cases h
      exact k

/-- One list after the other. -/
theorem finishes_lists : Finishes dev s ↔
    ∃ s₁, EndsIn (Full dev .normal) (round dev .normal) s s₁ ∧
      Ends (Full dev .locked) (round dev .locked) (lastRound dev .normal s₁) := by
  constructor
  · rintro ⟨n, s', h⟩
    obtain ⟨s₁, hfirst, hsecond⟩ := (flushDevice_ok n).mp h
    obtain ⟨u, hu, rfl⟩ := (flushList_iff dev .normal n s s₁).mp hfirst
    obtain ⟨t, ht, -⟩ := (flushList_iff dev .locked n _ s').mp hsecond
    exact ⟨u, ⟨n, hu⟩, t, n, ht⟩
  · rintro ⟨u, ⟨n, hu⟩, t, k, ht⟩
    have hu' := retry_more hu (le_max_left n k)
    have ht' := retry_more ht (le_max_right n k)
    refine ⟨max n k, lastRound dev .locked t,
      (flushDevice_ok _).mpr ⟨lastRound dev .normal u, ?_, ?_⟩⟩
    · exact (flushList_iff dev .normal _ s _).mpr ⟨u, hu', rfl⟩
    · exact (flushList_iff dev .locked _ _ _).mpr ⟨t, ht', rfl⟩

/-- `flush_device` comes to an end exactly if it never collects a stuck batch. -/
theorem flushDevice_finishes_iff (dev : ℤ) (s : Cache β) :
    Finishes dev s ↔ ∀ cel s', Collects dev s cel s' → ¬Stuck dev cel s' := by
  rw [finishes_lists]
  constructor
  · rintro ⟨u, hends, hlocked⟩ cel s' hcollects
    cases hcollects with
    | normal h => exact (list_ends_iff dev .normal s).mp ⟨u, hends⟩ s' h
    | @locked s₁ _ h hrest k =>
      -- the first loop ends in one state only
      obtain ⟨n, hn⟩ := hends
      obtain ⟨m, hm⟩ := endsIn_iff.mpr ⟨h, hrest⟩
      have hn' := retry_more hn (le_max_left n m)
      have hm' := retry_more hm (le_max_right n m)
      obtain rfl : u = s₁ := Option.some.inj (hn'.symm.trans hm')
      exact (list_ends_iff dev .locked _).mp hlocked s' k
  · intro h
    obtain ⟨u, hends⟩ := (list_ends_iff dev .normal s).mpr fun s' hs' => h .normal s' (.normal hs')
    obtain ⟨hreach, hrest⟩ := endsIn_iff.mp hends
    exact ⟨u, hends, (list_ends_iff dev .locked _).mpr fun s' hs' =>
      h .locked s' (.locked hreach hrest hs')⟩

/-- Adjacent dirty blocks enough for one batch, on a device that takes no write. -/
def deadDevice : Cache ℕ :=
  { initBlockCache 64 0 (fun _ => 0) (fun _ => false) with
    ents := fun ce => ⟨0, 5 + ce, 512, true, false, 7, none, 0, none, 0, 0⟩
    made := 64
    links := ⟨fun ce => if ce < 63 then some (ce + 1) else none,
      fun ce => if 0 < ce then some (ce - 1) else none⟩
    lists := fun cel => match cel with
      | .normal => ⟨some 0, some 63⟩
      | .locked => ⟨none, none⟩ }

theorem flushDevice_never_finishes : ¬Finishes 0 deadDevice := by
  intro h
  have hbatch : numFlushBlocks ≤ (batchOf 0 .normal deadDevice).length ∧
      1 < firstWrite deadDevice (qsort deadDevice (batchOf 0 .normal deadDevice)) := by
    decide +kernel
  have hstuck : Stuck 0 .normal deadDevice := ⟨hbatch.1, .inr ⟨hbatch.2, fun _ _ => rfl⟩⟩
  have hends := (finishes_lists.mp h).imp fun _ hu => hu.1
  exact not_ends_of_stuck (fun _ => stuck_round) hstuck hends

end Devices

end FlushTermination
