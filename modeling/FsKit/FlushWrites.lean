import Mathlib.Tactic
import FsKit.FlushTermination

/-! A flush as the sequence of its device writes, each with what is settled behind it
(`flush_ents` of `cache.c`), and what becomes of a single entry of the array: whether the device
takes its contents, and whether it looks clean in the end. -/
namespace FlushWrites

open BlockCache TransitionTrace
open FlushFailures (Action Watched Consecutive Distinct apply settled settleEnt_self settleEnt_other
  settleEnt_block settles_cache flushCacheEntActions flushPassActions flushEntsActions
  flushCacheEnt_replay flushPass_replay flushEnts_replay runLength_consecutive writevPos_ents)
open FlushCompleteness (Kept settled_kept distinct_kept settles_ents settles_log writeImages_log)
open WriteBackStore (Obs)

variable {β : Type}

section Pieces

/-- The device takes the contents of the entry, and not those of its clone. -/
def Takes (ce : ℕ) (x : Watched β) : Action → Prop
  | .write _ _ run => ce ∈ run ∧ (x.cache.ents ce).clone = none ∧ x.cache.io x.cache.ios = true
  | .settle _ => False

/-- The contents of the entry are written by themselves. -/
def Alone (ce : ℕ) (x : Watched β) : Action → Prop
  | .write _ _ run => run = [ce] ∧ (x.cache.ents ce).clone = none
  | .settle _ => False

/-- The device writes that a flush of the array `all` consists of. A block that is written alone
is settled whatever comes of it, a run of blocks only if the device takes it. -/
inductive Writes (all : List ℕ) : Watched β → List Action → Prop where
  | done (x : Watched β) : Writes all x []
  | alone {x : Watched β} {dev bnum : ℤ} {ce : ℕ} {as : List Action} (hmem : ce ∈ all)
      (hblock : (x.cache.ents ce).block = ⟨dev, bnum⟩)
      (h : Writes all (apply (apply x (.write dev bnum [ce])) (.settle ce)) as) :
      Writes all x (.write dev bnum [ce] :: .settle ce :: as)
  | taken {x : Watched β} {dev bnum : ℤ} {run : List ℕ} {as : List Action}
      (hrun : run.Sublist all) (hlen : 1 < run.length)
      (hcons : Consecutive x.cache.ents dev bnum run) (hio : x.cache.io x.cache.ios = true)
      (h : Writes all (runTrace apply x (.write dev bnum run :: run.map .settle)) as) :
      Writes all x ((.write dev bnum run :: run.map .settle) ++ as)
  | refused {x : Watched β} {dev bnum : ℤ} {run : List ℕ} {as : List Action}
      (hlen : 1 < run.length) (hio : x.cache.io x.cache.ios = false)
      (h : Writes all (apply x (.write dev bnum run)) as) :
      Writes all x (.write dev bnum run :: as)

variable {all ents : List ℕ} {x : Watched β} {ce : ℕ} {as bs : List Action}

theorem Writes.append (h : Writes all x as) (k : Writes all (runTrace apply x as) bs) :
    Writes all x (as ++ bs) := by
  induction h with
  | done x => exact k
  | alone hmem hblock _ ih => exact .alone hmem hblock (ih k)
  | taken hrun hlen hcons hio _ ih =>
    rw [List.append_assoc]
    refine .taken hrun hlen hcons hio (ih ?_)
    rwa [runTrace_append] at k
  | refused hlen hio _ ih => exact .refused hlen hio (ih k)

theorem runLength_le (s : Cache β) (dev : ℤ) (n : ℕ) (bnum : ℤ) (ents : List ℕ) :
    runLength s dev n bnum ents ≤ ents.length := by
  induction n generalizing bnum ents with
  | zero => exact Nat.zero_le _
  | succ n ih =>
    cases ents with
    | nil => exact le_rfl
    | cons ce ents =>
      unfold runLength
      dsimp only
      split
      · exact Nat.zero_le _
      split
      · exact Nat.zero_le _
      · exact Nat.succ_le_succ (ih _ _)

theorem flushCacheEnt_writes (hmem : ce ∈ all) (x : Watched β) :
    Writes all x (flushCacheEntActions x.cache ce) := by
  unfold flushCacheEntActions
  dsimp only
  split
  · exact .done x
  split
  · exact .done x
  refine .alone hmem rfl ?_
  split
  · refine .alone hmem ?_ (.done _)
    change ((settleEnt (writevPos x.cache _ _ [ce]).2 ce).ents ce).block = _
    rw [settleEnt_block, writevPos_ents]
    rfl
  · exact .done _

theorem flushPass_writes (skip : ℕ) (ents : List ℕ) (x : Watched β) (hsub : ents.Sublist all) :
    Writes all x (flushPassActions x.cache skip ents) := by
  induction ents generalizing skip x with
  | nil =>
    unfold flushPassActions
    exact .done x
  | cons ce ents ih =>
    have htail := (List.sublist_cons_self ce ents).trans hsub
    have hmem : ce ∈ all := hsub.subset List.mem_cons_self
    cases skip with
    | succ skip =>
      rw [flushPassActions]
      exact ih skip x htail
    | zero =>
      rw [flushPassActions]
      dsimp only
      split
      · exact ih 0 x htail
      split
      · exact ih 0 x htail
      split
      · refine (flushCacheEnt_writes hmem x).append ?_
        split
        · exact .done _
        · rw [← flushCacheEnt_replay]
          exact ih 0 _ htail
      · rename_i hn
        have hle := runLength_le x.cache (x.cache.ents ce).dev (numFlushBlocks - 1)
          ((x.cache.ents ce).blockNum + 1) ents
        have hcons := runLength_consecutive x.cache (x.cache.ents ce).dev (numFlushBlocks - 1)
          ((x.cache.ents ce).blockNum + 1) ents
        generalize runLength x.cache (x.cache.ents ce).dev (numFlushBlocks - 1)
          ((x.cache.ents ce).blockNum + 1) ents = n at hn hle hcons
        have hlen : 1 < (ce :: ents.take n).length := by
          rw [List.length_cons, List.length_take]
          omega
        split
        · rename_i hio
          refine Writes.taken (((List.take_sublist n ents).cons_cons ce).trans hsub) hlen
            ⟨rfl, hcons⟩ hio ?_
          rw [runTrace_cons, settles_cache]
          exact ih n _ htail
        · rename_i hio
          exact .refused hlen (Bool.eq_false_iff.mpr hio) (.done _)

theorem flushEnts_writes (ents : List ℕ) (x : Watched β) :
    Writes ents x (flushEntsActions x.cache ents) := by
  unfold flushEntsActions
  dsimp only
  refine (flushPass_writes 0 ents x (List.Sublist.refl _)).append ?_
  split
  · rw [← flushPass_replay 0 0 ents x]
    exact flushPass_writes 0 ents _ (List.Sublist.refl _)
  · exact .done _

end Pieces

section Entries
variable {all run : List ℕ} {x : Watched β} {ce c : ℕ} {dev bnum : ℤ} {as : List Action}

theorem ents_alone (x : Watched β) (dev bnum : ℤ) (c ce : ℕ) :
    (apply (apply x (.write dev bnum [c])) (.settle c)).cache.ents ce =
      if ce = c then settled (x.cache.ents ce) else x.cache.ents ce := by
  change (settleEnt (writevPos x.cache dev bnum [c]).2 c).ents ce = _
  split
  · rename_i heq
    subst heq
    rw [settleEnt_self, writevPos_ents]
  · rename_i hne
    rw [settleEnt_other hne, writevPos_ents]

theorem ents_taken (x : Watched β) (dev bnum : ℤ) (hnodup : run.Nodup) (ce : ℕ) :
    (runTrace apply x (.write dev bnum run :: run.map .settle)).cache.ents ce =
      if ce ∈ run then settled (x.cache.ents ce) else x.cache.ents ce := by
  rw [runTrace_cons, settles_cache]
  change (run.foldl settleEnt (writevPos x.cache dev bnum run).2).ents ce = _
  rw [settles_ents _ hnodup, writevPos_ents]

theorem ents_refused (x : Watched β) (dev bnum : ℤ) (run : List ℕ) :
    (apply x (.write dev bnum run)).cache.ents = x.cache.ents :=
  writevPos_ents x.cache dev bnum run

theorem kept_settled {p : Prop} [Decidable p] (c : CacheEnt β) :
    Kept c (if p then settled c else c) := by
  split
  · exact settled_kept c
  · exact rfl

/-- What a flush changes of an entry, and that it leaves the others alone. -/
theorem Writes.kept (h : Writes all x as) (hnodup : all.Nodup) (ce : ℕ) :
    Kept (x.cache.ents ce) ((runTrace apply x as).cache.ents ce) ∧
      (ce ∉ all → (runTrace apply x as).cache.ents ce = x.cache.ents ce) := by
  induction h with
  | done x => exact ⟨rfl, fun _ => rfl⟩
  | @alone x dev bnum c as hmem hblock _ ih =>
    rw [ents_alone] at ih
    refine ⟨(kept_settled _).trans ih.1, fun hout => ?_⟩
    rw [runTrace_cons, runTrace_cons, ih.2 hout, if_neg]
    rintro rfl
    exact hout hmem
  | @taken x dev bnum run as hrun hlen hcons hio _ ih =>
    rw [ents_taken _ _ _ (hnodup.sublist hrun)] at ih
    rw [runTrace_append]
    refine ⟨(kept_settled _).trans ih.1, fun hout => ?_⟩
    rw [ih.2 hout, if_neg]
    exact fun hin => hout (hrun.subset hin)
  | refused hlen hio _ ih =>
    rw [ents_refused] at ih
    exact ih

/-- The entries of the array behind the flush. -/
theorem flushed_entry (t : Cache β) {ents : List ℕ} (hnodup : ents.Nodup) (ce : ℕ) :
    Kept (t.ents ce) ((flushEnts t ents).2.ents ce) ∧
      (ce ∉ ents → (flushEnts t ents).2.ents ce = t.ents ce) := by
  have hkept := (flushEnts_writes ents ⟨t, []⟩).kept hnodup ce
  rwa [flushEnts_replay] at hkept

theorem not_takes_settles (ce : ℕ) (x : Watched β) (run : List ℕ) :
    ¬SomeStep apply (Takes ce) x (run.map .settle) := by
  induction run generalizing x with
  | nil => exact id
  | cons c run ih => exact fun h => h.elim id (ih _)

theorem not_alone_settles (ce : ℕ) (x : Watched β) (run : List ℕ) :
    ¬SomeStep apply (Alone ce) x (run.map .settle) := by
  induction run generalizing x with
  | nil => exact id
  | cons c run ih => exact fun h => h.elim id (ih _)

theorem settled_dirty (c : CacheEnt β) :
    (settled c).dirty = true ↔ c.dirty = true ∧ c.clone ≠ none := by
  unfold settled
  split
  · rename_i hclone
    simp [hclone]
  · rename_i hclone
    simp [hclone]

/-- An entry is still dirty exactly if its contents have not been taken and it has not been
written alone. -/
theorem Writes.dirty_iff (h : Writes all x as) (hnodup : all.Nodup) (ce : ℕ) :
    ((runTrace apply x as).cache.ents ce).dirty = true ↔ (x.cache.ents ce).dirty = true ∧
      ¬SomeStep apply (Takes ce) x as ∧ ¬SomeStep apply (Alone ce) x as := by
  induction h with
  | done x => exact ⟨fun hd => ⟨hd, id, id⟩, And.left⟩
  | @alone x dev bnum c as hmem hblock _ ih =>
    rw [runTrace_cons, runTrace_cons, ih, ents_alone]
    simp only [SomeStep, Takes, Alone, List.mem_singleton, List.cons.injEq, and_true, false_or]
    by_cases hce : ce = c
    · subst hce
      rw [if_pos rfl, settled_dirty]
      tauto
    · rw [if_neg hce]
      have hce' : c ≠ ce := fun heq => hce heq.symm
      tauto
  | @taken x dev bnum run as hrun hlen hcons hio _ ih =>
    rw [runTrace_append, ih, ents_taken _ _ _ (hnodup.sublist hrun), someStep_append,
      someStep_append]
    have hrest := not_takes_settles ce (apply x (.write dev bnum run)) run
    have hrest' := not_alone_settles ce (apply x (.write dev bnum run)) run
    have hne : run ≠ [ce] := by
      rintro rfl
      exact absurd hlen (by simp)
    simp only [SomeStep, Takes, Alone, hrest, hrest', or_false, hne, false_and, false_or, hio,
      and_true]
    by_cases hce : ce ∈ run
    · rw [if_pos hce, settled_dirty]
      tauto
    · rw [if_neg hce]
      tauto
  | @refused x dev bnum run as hlen hio _ ih =>
    rw [runTrace_cons, ih, ents_refused]
    have hne : run ≠ [ce] := by
      rintro rfl
      exact absurd hlen (by simp)
    simp [SomeStep, Takes, Alone, hio, hne]

end Entries

section Logs
variable {all run : List ℕ} {x y z : Watched β} {ce : ℕ} {dev bnum : ℤ} {as : List Action}

/-- The contents of a block went to the disk, and not those of a clone. -/
def Logged (b : Block) (new : List (Obs Block β Callback)) : Prop :=
  ∃ v lock, .flushed b v false lock ∈ new

/-- The log has got longer, by the contents of the blocks with `p` among others. -/
def LogsMore (p : Block → Prop) (x y : Watched β) : Prop :=
  ∃ new, y.cache.log = x.cache.log ++ new ∧ ∀ b, Logged b new ↔ p b

theorem LogsMore.trans {p q : Block → Prop} (h : LogsMore p x y) (k : LogsMore q y z) :
    LogsMore (fun b => p b ∨ q b) x z := by
  obtain ⟨new, hnew, hp⟩ := h
  obtain ⟨new', hnew', hq⟩ := k
  refine ⟨new ++ new', ?_, fun b => ?_⟩
  · rw [hnew', hnew, List.append_assoc]
  · dsimp only
    rw [← hp, ← hq]
    simp only [Logged, List.mem_append, exists_or]

theorem logsMore_nothing (h : y.cache.log = x.cache.log) : LogsMore (fun _ => False) x y := by
  refine ⟨[], ?_, fun b => ⟨?_, False.elim⟩⟩
  · rw [h, List.append_nil]
  · rintro ⟨_, _, hin⟩
    cases hin

theorem write_logs (x : Watched β) (hcons : Consecutive x.cache.ents dev bnum run)
    (hio : x.cache.io x.cache.ios = true) :
    LogsMore (fun b => ∃ ce ∈ run, (x.cache.ents ce).block = b ∧ (x.cache.ents ce).clone = none) x
      (apply x (.write dev bnum run)) := by
  refine ⟨run.map fun ce => .flushed (x.cache.ents ce).block (x.cache.ents ce).image
    (x.cache.ents ce).clone.isSome (x.cache.ents ce).lock, ?_, fun b => ?_⟩
  · change (if x.cache.io x.cache.ios = true then writeImages _ dev bnum run else _).log = _
    rw [if_pos hio]
    exact writeImages_log (s := { x.cache with ios := x.cache.ios + 1 }) hcons
  · constructor
    · rintro ⟨v, lock, hin⟩
      obtain ⟨ce, hce, heq⟩ := List.mem_map.mp hin
      obtain ⟨hb, -, hclone, -⟩ := Obs.flushed.inj heq
      exact ⟨ce, hce, hb, by simpa using hclone⟩
    · rintro ⟨ce, hce, rfl, hclone⟩
      refine ⟨(x.cache.ents ce).image, (x.cache.ents ce).lock, List.mem_map.mpr ⟨ce, hce, ?_⟩⟩
      rw [hclone]
      rfl

theorem refused_logs (x : Watched β) (dev bnum : ℤ) (run : List ℕ)
    (hio : x.cache.io x.cache.ios = false) :
    LogsMore (fun _ => False) x (apply x (.write dev bnum run)) := by
  apply logsMore_nothing
  change (if x.cache.io x.cache.ios = true then writeImages _ dev bnum run else _).log = _
  rw [hio]
  rfl

theorem settles_logs (x : Watched β) (hnodup : run.Nodup) :
    LogsMore (fun _ => False) x (runTrace apply x (run.map .settle)) := by
  rw [settles_cache]
  refine ⟨_, settles_log x.cache hnodup, fun b => ⟨?_, False.elim⟩⟩
  rintro ⟨v, lock, hin⟩
  obtain ⟨ce, -, hce⟩ := List.mem_flatMap.mp hin
  obtain ⟨c, -, heq⟩ := Option.map_eq_some_iff.mp (Option.mem_toList.mp hce)
  cases heq

theorem Consecutive.single {e : ℕ → CacheEnt β} (h : (e ce).block = ⟨dev, bnum⟩) :
    Consecutive e dev bnum [ce] :=
  ⟨h, trivial⟩

/-- What the log says of the entries of the array. -/
theorem Writes.log (h : Writes all x as) (hd : Distinct x.cache.ents all) :
    ∃ p, LogsMore p x (runTrace apply x as) ∧
      ∀ ce ∈ all, (p (x.cache.ents ce).block ↔ SomeStep apply (Takes ce) x as) := by
  have hnodup : all.Nodup := hd.nodup
  induction h with
  | done x => exact ⟨_, logsMore_nothing rfl, fun _ _ => Iff.rfl⟩
  | @alone x dev bnum c as hmem hblock _ ih =>
    have hkept : ∀ ce, Kept (x.cache.ents ce)
        ((apply (apply x (.write dev bnum [c])) (.settle c)).cache.ents ce) := fun ce => by
      rw [ents_alone]
      exact kept_settled _
    obtain ⟨p, hp, hiff⟩ := ih (distinct_kept hd hkept)
    have hsettle := settles_logs (apply x (.write dev bnum [c])) (List.nodup_singleton c)
    by_cases hio : x.cache.io x.cache.ios = true
    · have hwrite := write_logs x (Consecutive.single hblock) hio
      refine ⟨_, (hwrite.trans hsettle).trans hp, fun ce hce => ?_⟩
      rw [← (hkept ce).block, hiff ce hce, (hkept ce).block]
      simp only [SomeStep, Takes, hio, and_true, false_or, or_false, List.mem_singleton,
        exists_eq_left]
      refine or_congr_left ⟨?_, ?_⟩
      · rintro ⟨hb, hclone⟩
        obtain rfl := List.inj_on_of_nodup_map hd hmem hce hb
        exact ⟨rfl, hclone⟩
      · rintro ⟨rfl, hclone⟩
        exact ⟨rfl, hclone⟩
    · have hwrite := refused_logs x dev bnum [c]
        (Bool.eq_false_iff.mpr hio)
      refine ⟨_, (hwrite.trans hsettle).trans hp, fun ce hce => ?_⟩
      rw [← (hkept ce).block, hiff ce hce]
      simp only [SomeStep, Takes, hio, Bool.false_eq_true, and_false, false_or]
  | @taken x dev bnum run as hrun hlen hcons hio _ ih =>
    have hrunNodup := hnodup.sublist hrun
    have hkept : ∀ ce, Kept (x.cache.ents ce)
        ((runTrace apply x (.write dev bnum run :: run.map .settle)).cache.ents ce) := fun ce => by
      rw [ents_taken _ _ _ hrunNodup]
      exact kept_settled _
    obtain ⟨p, hp, hiff⟩ := ih (distinct_kept hd hkept)
    have hpiece := (write_logs x hcons hio).trans (settles_logs (apply x (.write dev bnum run))
      hrunNodup)
    rw [runTrace_append]
    refine ⟨_, LogsMore.trans hpiece hp, fun ce hce => ?_⟩
    have hrest := not_takes_settles ce (apply x (.write dev bnum run)) run
    rw [someStep_append, ← hiff ce hce, (hkept ce).block]
    simp only [SomeStep, Takes, hio, hrest, and_true, or_false]
    refine or_congr_left ⟨?_, ?_⟩
    · rintro ⟨c, hc, hb, hclone⟩
      obtain rfl := List.inj_on_of_nodup_map hd (hrun.subset hc) hce hb
      exact ⟨hc, hclone⟩
    · rintro ⟨hin, hclone⟩
      exact ⟨ce, hin, rfl, hclone⟩
  | @refused x dev bnum run as hlen hio _ ih =>
    have hsame := ents_refused x dev bnum run
    rw [hsame] at ih
    obtain ⟨p, hp, hiff⟩ := ih hd
    refine ⟨_, (refused_logs x dev bnum run hio).trans hp, fun ce hce => ?_⟩
    rw [hiff ce hce]
    simp only [SomeStep, Takes, hio, Bool.false_eq_true, and_false]

end Logs

end FlushWrites
