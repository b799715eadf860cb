import Mathlib.Tactic
import FsKit.CacheCalls

/-! A miss of the block cache whose flush of the victims fails (`handle_err` in `cache_block_io`
of `cache.c`). The victims that were to get the new blocks are freed, the others go back to the
lru end of the normal list. -/
namespace FailedMiss

open LinkedList HashTable BlockCache CacheStructure CacheVictims CacheCalls TransitionTrace
open FlushWrites
open FlushFailures (Distinct apply flushEntsActions flushEnts_replay)
open FallibleRuns (map_ok)
open FlushCompleteness (Kept)
open FlushTermination (setBusy_all flushEnts_worn)

variable {β : Type}

section Backing
variable {s : Cache β} {xs : Members} {hand : List ℕ} {Old : Block → ℕ → Prop} {dev bnum : ℤ}

/-- The needed victims lose both their keys. -/
theorem abandonEnts_spec (ents : List ℕ) : ∀ (cur : ℕ) (s : Cache β),
    (Keys s.ht fun b ce => NewKeys dev bnum cur ents b ce ∨ Old b ce) →
    ents.Nodup → (∀ ce ∈ ents, Old (s.ents ce).block ce) →
    (∀ b, ∀ ce ∈ ents, Old b ce → b = (s.ents ce).block) →
    (∀ j, cur ≤ j → ∀ ce, j < cur + ents.length → ¬Old ⟨dev, bnum + j⟩ ce) →
    ∃ ht', abandonEnts dev bnum cur ents s =
        .ok { s with ht := ht', curBlocks := s.curBlocks - ents.length } ∧
      Keys ht' fun b ce => Old b ce ∧ ce ∉ ents := by
  induction ents generalizing Old with
  | nil =>
    intro cur s hk _ _ _ _
    exact ⟨s.ht, rfl, hk.congr fun b ce => by simp [not_newKeys_nil]⟩
  | cons ce ents ih =>
    intro cur s hk hnodup hold hblock hnew
    have hrest := List.nodup_cons.mp hnodup
    have hfirst : NewKeys dev bnum cur (ce :: ents) ⟨dev, bnum + cur⟩ ce :=
      (newKeys_cons ..).mpr (.inl ⟨rfl, rfl⟩)
    have hnone : ∀ ce', ¬Old ⟨dev, bnum + cur⟩ ce' := fun ce' =>
      hnew cur le_rfl ce' (by rw [List.length_cons]; omega)
    have hself := hold ce List.mem_cons_self
    obtain ⟨ht₁, hdel₁, hk₁⟩ := hk.delete (.inl hfirst)
    have hlast : (s.ents ce).block ≠ ⟨dev, bnum + cur⟩ ∧
        (NewKeys dev bnum cur (ce :: ents) (s.ents ce).block ce ∨ Old (s.ents ce).block ce) :=
      ⟨fun heq => hnone ce (heq ▸ hself), .inr hself⟩
    obtain ⟨ht₂, hdel₂, hk₂⟩ := hk₁.delete hlast
    have hk₃ : Keys ht₂ fun b ce' =>
        NewKeys dev bnum (cur + 1) ents b ce' ∨ (Old b ce' ∧ ce' ≠ ce) := by
      refine hk₂.congr fun b ce' => ⟨?_, ?_⟩
      · rintro ⟨hne, hne', hin | hin⟩
        · rcases (newKeys_cons ..).mp hin with ⟨heq, -⟩ | hin
          · exact absurd heq hne'
          · exact .inl hin
        · refine .inr ⟨hin, ?_⟩
          rintro rfl
          exact hne (hblock b ce' List.mem_cons_self hin)
      · rintro (hin | ⟨hin, hne⟩)
        · obtain ⟨i, hi, rfl⟩ := id hin
          have hlt := (List.getElem?_eq_some_iff.mp hi).1
          have hfree : ∀ ce, ¬Old ⟨dev, bnum + (cur + 1 + i : ℕ)⟩ ce := fun ce =>
            hnew (cur + 1 + i) (by omega) ce (by rw [List.length_cons]; omega)
          refine ⟨fun heq => hfree ce (heq ▸ hself), fun heq => ?_,
            .inl ((newKeys_cons ..).mpr (.inr hin))⟩
          have hbnum := congrArg Block.bnum heq
          dsimp only at hbnum
          omega
        · refine ⟨?_, fun heq => hnone ce' (heq ▸ hin), .inr hin⟩
          rintro rfl
          exact hne (hk.unique (.inr hin) (.inr hself))
    obtain ⟨ht', hrun, hkeys⟩ := ih (cur + 1)
      { s with ht := ht₂, curBlocks := s.curBlocks - 1 } hk₃ hrest.2
      (fun ce' hce' => ⟨hold ce' (List.mem_cons_of_mem _ hce'), fun heq => hrest.1 (heq ▸ hce')⟩)
      (fun b ce' hce' hin => hblock b ce' (List.mem_cons_of_mem _ hce') hin.1)
      (fun j hj ce' hlt hin => hnew j (by omega) ce' (by rw [List.length_cons]; omega) hin.1)
    refine ⟨ht', ?_, hkeys.congr fun b ce' => ?_⟩
    · rw [abandonEnts]
      dsimp only
      rw [hdel₁]
      dsimp only
      rw [if_neg (not_not.mpr rfl), hdel₂]
      dsimp only
      rw [if_neg (not_not.mpr rfl), hrun, List.length_cons, Nat.add_comm, ← Nat.sub_sub]
    · rw [List.mem_cons, not_or, and_assoc]

/-- An entry that has never been in the table is not found there, and `panic` is called. -/
theorem abandonEnts_fresh {cur ce : ℕ} {ents : List ℕ} {K : Block → ℕ → Prop} (hk : Keys s.ht K)
    (hnew : K ⟨dev, bnum + cur⟩ ce) (hnone : ∀ ce', ¬K (s.ents ce).block ce') :
    ∃ t, abandonEnts dev bnum cur (ce :: ents) s = .error (.hashDeleteFailed, t) := by
  obtain ⟨ht₁, hdel₁, hk₁⟩ := hk.delete hnew
  have hdel₂ := hk₁.delete_absent (b := (s.ents ce).block) fun ce' hin => hnone ce' hin.2
  refine ⟨{ s with ht := (hashDelete ht₁ (s.ents ce).block).2 }, ?_⟩
  rw [abandonEnts]
  dsimp only
  rw [hdel₁]
  dsimp only
  rw [if_neg (not_not.mpr rfl), hdel₂, if_pos (Option.some_ne_none ce).symm]

/-- The others go back to the lru end, one behind another. -/
theorem restoreEnts_spec (ents : List ℕ) : ∀ (s : Cache β) (xs : Members), Lists s xs ents →
    (∀ ce ∈ ents, (s.ents ce).lock = 0) →
    ∃ s' xs', restoreEnts ents s = .ok s' ∧ Lists s' xs' [] ∧
      (∀ ce, Listed xs' ce ↔ Listed xs ce ∨ ce ∈ ents) ∧
      s' = { s with
        ents := fun ce => if ce ∈ ents then { s.ents ce with busy := false } else s.ents ce
        links := s'.links
        lists := s'.lists } := by
  induction ents with
  | nil =>
    intro s xs hl _
    exact ⟨s, xs, rfl, hl, fun ce => by simp, by simp⟩
  | cons ce ents ih =>
    intro s xs hl hlock
    have hrest := List.nodup_cons.mp hl.nodup
    have hself : (setBusy false s ce).ents ce = { s.ents ce with busy := false } :=
      Function.update_self ..
    have hlock₁ : ((setBusy false s ce).ents ce).lock = 0 := by
      rw [setBusy_lock]
      exact hlock ce List.mem_cons_self
    have hname : lockedName ((setBusy false s ce).ents ce).lock = .normal := by
      rw [hlock₁]
      rfl
    have hl₁ : Lists (setBusy false s ce) xs (ce :: ents) := setBusy_lists hl false [ce]
    obtain ⟨l', e', hadd, hl₂⟩ := hl₁.addToTail
    rw [hname] at hadd hl₂
    have hother : ∀ ce' ∈ ents, (setBusy false s ce).ents ce' = s.ents ce' := fun ce' hce' =>
      setBusy_other fun heq => hrest.1 (heq ▸ hce')
    obtain ⟨s', xs', hrun, hl', hlisted, hsame⟩ := ih _ _ hl₂ fun ce' hce' => by
      dsimp only
      rw [hother ce' hce']
      exact hlock ce' (List.mem_cons_of_mem _ hce')
    refine ⟨s', xs', ?_, hl', fun ce' => ?_, ?_⟩
    · rw [restoreEnts, hadd]
      exact hrun
    · rw [hlisted, listed_update, List.mem_cons, List.mem_cons]
      constructor
      · rintro (((rfl | hin) | ⟨cel, -, hin⟩) | hin)
        · exact .inr (.inl rfl)
        · exact .inl ⟨_, hin⟩
        · exact .inl ⟨cel, hin⟩
        · exact .inr (.inr hin)
      · rintro (⟨cel, hin⟩ | rfl | hin)
        · by_cases hcel : cel = .normal
          · exact .inl (.inl (.inr (hcel ▸ hin)))
          · exact .inl (.inr ⟨cel, hcel, hin⟩)
        · exact .inl (.inl (.inl rfl))
        · exact .inr hin
    · rw [hsame]
      congr 1
      funext ce'
      dsimp only
      by_cases hce : ce' = ce
      · subst hce
        simp [hself, hrest.1]
      · simp [setBusy_other hce, hce]

end Backing

section Harm
variable {s t : Cache β} {xs xs' : Members} {ents : List ℕ} {dev bnum : ℤ} {needed : ℕ}

/-- The flush of the victims `ents` of a miss fails, in the cache `t`. -/
def FlushFails (s : Cache β) (dev bnum : ℤ) (needed : ℕ) (ents : List ℕ) (t : Cache β) : Prop :=
  (∃ got s₁ numDirty, getEnts s needed numFlushBlocks = .ok (got, s₁) ∧ ents = qsort s₁ got ∧
    claimEnts dev bnum needed 0 ents s₁ = .ok (numDirty, t) ∧ numDirty ≠ 0) ∧
  (flushEnts t ents).1 ≠ 0

/-- The block is in the cache with the contents `v`, and dirty. -/
def DirtyBlock (s : Cache β) (b : Block) (v : β) : Prop :=
  ∃ ce, hashLookup s.ht b = some ce ∧ (s.ents ce).dirty = true ∧ (s.ents ce).data = v

/-- The call returns an error, the cache is as sound as it was, and what was dirty has been
written or is still there. -/
def Harmless (s : Cache β) (r : Run β (Reply β × Cache β)) : Prop :=
  ∃ reply u new, r = .ok (reply, u) ∧ reply.err ≠ 0 ∧ Structured u ∧ u.log = s.log ++ new ∧
    ∀ b v, DirtyBlock s b v → Logged b new ∨ DirtyBlock u b v

/-- The device takes the contents of the entry in the flush. -/
def TakenBy (t : Cache β) (ents : List ℕ) (ce : ℕ) : Prop :=
  SomeStep apply (Takes ce) ⟨t, []⟩ (flushEntsActions t ents)

/-- The flush writes the contents of the entry by themselves. -/
def WrittenAlone (t : Cache β) (ents : List ℕ) (ce : ℕ) : Prop :=
  SomeStep apply (Alone ce) ⟨t, []⟩ (flushEntsActions t ents)

/-- The cache is full, and the device takes every dirty victim that is to be replaced and every
other one that is written alone. -/
def Spared (s t : Cache β) (needed : ℕ) (ents : List ℕ) : Prop :=
  s.maxBlocks ≤ s.curBlocks ∧
    (∀ ce ∈ ents.take needed, (s.ents ce).dirty = true → TakenBy t ents ce) ∧
    ∀ ce ∈ ents.drop needed, (s.ents ce).dirty = true → WrittenAlone t ents ce → TakenBy t ents ce

/-- What has been backed out of is a cache at rest again, without the entries that were to be
replaced. -/
theorem backed_out (h : Intact s xs) (hin : InHand s xs dev bnum needed ents t xs')
    (hfull : newEnts s needed = 0)
    (hfree : ∀ j < needed, hashLookup s.ht ⟨dev, bnum + j⟩ = none) :
    ∃ v xs'', ((abandonEnts dev bnum 0 (ents.take needed) (flushEnts t ents).2).bind
        (restoreEnts (ents.drop needed))) = .ok v ∧ Intact v xs'' ∧
      (∀ ce, Listed xs'' ce ↔ Listed xs ce ∧ ce ∉ ents.take needed) ∧
      (∀ ce, Listed xs'' ce → v.ents ce = { (flushEnts t ents).2.ents ce with busy := false }) ∧
      v.log = (flushEnts t ents).2.log := by
  have hnodup := hin.lists.nodup
  have hkept := fun ce => (flushed_entry t hnodup ce).1
  have hother := fun ce => (flushed_entry t hnodup ce).2
  have hsame := (flushEnts_worn t ents).same
  generalize (flushEnts t ents).2 = u at hkept hother hsame ⊢
  have hlisted : ∀ ce ∈ ents, Listed xs ce := fun ce hce => ⟨_, hin.old hfull ce hce⟩
  have hblock : ∀ ce, Listed xs ce → (u.ents ce).block = (s.ents ce).block := by
    intro ce hce
    rw [(hkept ce).block, hin.entries ce hce]
    rfl
  have hlock : ∀ ce, (u.ents ce).lock = (t.ents ce).lock := fun ce =>
    (hkept ce).lock
  have hl : Lists u xs' ents := hin.lists.congr (by rw [hsame]) (by rw [hsame]) (by rw [hsame])
    (by rw [hsame]) fun ce _ => hlock ce
  have hk : Keys u.ht fun b ce => NewKeys dev bnum 0 (ents.take needed) b ce ∨
      (Listed xs ce ∧ (s.ents ce).block = b) := by
    rw [hsame]
    exact hin.keys
  obtain ⟨ht', habandon, hkeys⟩ := abandonEnts_spec (ents.take needed) 0 u hk
    (hnodup.sublist (List.take_sublist _ _))
    (fun ce hce => ⟨hlisted ce (List.mem_of_mem_take hce),
      (hblock ce (hlisted ce (List.mem_of_mem_take hce))).symm⟩)
    (fun b ce hce hold => by rw [hblock ce hold.1, hold.2])
    (fun j _ ce hj => h.keys.absent.mp (hfree j (by
      have hle := List.length_take_le needed ents
      omega)) ce)
  rw [habandon]
  rw [← List.take_append_drop needed ents] at hl
  have hl' : Lists { u with ht := ht', curBlocks := u.curBlocks - (ents.take needed).length } xs'
      (ents.drop needed) :=
    (hl.freeAll (ents.take needed)).congr rfl rfl rfl rfl fun _ _ => rfl
  obtain ⟨v, xs'', hrestore, hlv, hlistedv, hsamev⟩ := restoreEnts_spec (ents.drop needed) _ xs' hl'
    fun ce hce => by
      have hnormal := hin.old hfull ce (List.mem_of_mem_drop hce)
      dsimp only
      rw [hlock, hin.entries ce ⟨_, hnormal⟩]
      exact h.lists.normal_unlocked ce hnormal
  have hmem : ∀ ce, Listed xs'' ce ↔ Listed xs ce ∧ ce ∉ ents.take needed := by
    intro ce
    have hdisjoint := List.disjoint_take_drop hnodup (le_refl needed)
    rw [hlistedv, hin.listed]
    constructor
    · rintro (⟨hce, hnot⟩ | hce)
      · exact ⟨hce, fun hin => hnot (List.mem_of_mem_take hin)⟩
      · exact ⟨hlisted ce (List.mem_of_mem_drop hce), fun hin => hdisjoint hin hce⟩
    · rintro ⟨hce, hnot⟩
      by_cases hdrop : ce ∈ ents.drop needed
      · exact .inr hdrop
      · refine .inl ⟨hce, fun hin => ?_⟩
        rw [← List.take_append_drop needed ents] at hin
        exact (List.mem_append.mp hin).elim hnot hdrop
  have hentries : ∀ ce, Listed xs'' ce → v.ents ce = { u.ents ce with busy := false } := by
    intro ce hce
    rw [hsamev]
    dsimp only
    split
    · rfl
    · rename_i hdrop
      have hnot : ce ∉ ents := fun hin => by
        rw [← List.take_append_drop needed ents] at hin
        exact (List.mem_append.mp hin).elim ((hmem ce).mp hce).2 hdrop
      have hbusy : (u.ents ce).busy = false := by
        rw [hother ce hnot, hin.entries ce ((hmem ce).mp hce).1]
        exact decide_eq_false hnot
      rw [← hbusy]
  refine ⟨v, xs'', hrestore, ⟨hlv, ?_, ?_, ?_, ?_⟩, hmem, hentries, by rw [hsamev]⟩
  · intro ce hce
    rw [hentries ce hce]
  · intro ce hce
    have hold := ((hmem ce).mp hce).1
    have hdev : (u.ents ce).dev = (s.ents ce).dev := congrArg Block.dev (hblock ce hold)
    rw [hentries ce hce]
    dsimp only
    rw [hdev]
    exact h.dev ce hold
  · have hkeysv : Keys v.ht fun b ce => (Listed xs ce ∧ (s.ents ce).block = b) ∧
        ce ∉ ents.take needed := by
      rw [hsamev]
      exact hkeys
    refine hkeysv.congr fun b ce => ?_
    rw [hmem]
    constructor
    · rintro ⟨⟨hold, hb⟩, hnot⟩
      refine ⟨⟨hold, hnot⟩, ?_⟩
      rw [hentries ce ((hmem ce).mpr ⟨hold, hnot⟩), ← hb]
      exact hblock ce hold
    · rintro ⟨⟨hold, hnot⟩, hb⟩
      refine ⟨⟨hold, ?_⟩, hnot⟩
      rw [← hb, hentries ce ((hmem ce).mpr ⟨hold, hnot⟩)]
      exact (hblock ce hold).symm
  · have hcap := h.cap
    have hcur := hin.curBlocks
    have hmax := hin.maxBlocks
    rw [hsamev, hsame]
    dsimp only
    omega

/-- Nothing but the cleaning up is left of a miss whose flush has failed. -/
theorem missBlocks_failing (h : Intact s xs) (hmiss : hashLookup s.ht ⟨dev, bnum⟩ = none)
    (data : Option (List β)) (numBlocks bsize : ℕ) (op : Op) [Zero β]
    (hfail : FlushFails s dev bnum (chooseBlocks s dev bnum numBlocks bsize op).2 ents t) :
    missBlocks s dev bnum data numBlocks bsize op =
      ((abandonEnts dev bnum 0 (ents.take (chooseBlocks s dev bnum numBlocks bsize op).2)
        (flushEnts t ents).2).bind
          (restoreEnts (ents.drop (chooseBlocks s dev bnum numBlocks bsize op).2))).bind
        fun v => .ok (0, ⟨ENOMEM, [], none⟩, v) := by
  obtain ⟨⟨got, s₁, numDirty, hget, rfl, hclaim, hdirty⟩, herr⟩ := hfail
  have hpos := (chooseBlocks_free numBlocks bsize op hmiss).1
  have henough := (getEnts_spec h.lists (fun ce hce => h.idle ce ⟨_, hce⟩) hpos hget).enough
  unfold missBlocks
  generalize chooseBlocks s dev bnum numBlocks bsize op = needed at hget hclaim henough ⊢
  obtain ⟨cur, needed⟩ := needed
  dsimp only at hget hclaim henough ⊢
  rw [hget]
  change (if got.length < needed then _ else _ : Run β _) = _
  rw [if_neg (not_lt.mpr henough)]
  dsimp only
  rw [hclaim]
  change loadEnts t dev bnum data bsize op cur needed numDirty (qsort s₁ got) = _
  unfold loadEnts
  rw [if_pos hdirty]
  dsimp only
  rw [if_pos herr]
  cases abandonEnts dev bnum 0 ((qsort s₁ got).take needed) (flushEnts t (qsort s₁ got)).2 with
  | error e => rfl
  | ok u => rfl

/-- With an entry that is new the cleaning up ends in a `panic`. -/
theorem fresh_panics (hdev : 0 ≤ dev) (h : Intact s xs)
    (hin : InHand s xs dev bnum needed ents t xs') (hpos : 0 < needed)
    (hnew : newEnts s needed ≠ 0) :
    ∃ e, abandonEnts dev bnum 0 (ents.take needed) (flushEnts t ents).2 = .error e := by
  obtain ⟨ce, rest, hents, hce⟩ := hin.fresh hnew
  obtain ⟨m, rfl⟩ := Nat.exists_eq_add_one.mpr hpos
  have hkept := (flushed_entry t hin.lists.nodup ce).1
  have hsame := (flushEnts_worn t ents).same
  generalize (flushEnts t ents).2 = u at hkept hsame ⊢
  have hk := hin.keys
  rw [hents, List.take_succ_cons] at hk ⊢
  have hlive : Keys u.ht fun b ce' => NewKeys dev bnum 0 (ce :: rest.take m) b ce' ∨
      (Listed xs ce' ∧ (s.ents ce').block = b) := by
    rw [hsame]
    exact hk
  have hfirst : NewKeys dev bnum 0 (ce :: rest.take m) ⟨dev, bnum + (0 : ℕ)⟩ ce :=
    (newKeys_cons ..).mpr (.inl ⟨rfl, rfl⟩)
  obtain ⟨v, hv⟩ := abandonEnts_fresh hlive (.inl hfirst) fun ce' hin' => by
    rw [hkept.block, hce] at hin'
    rcases hin' with ⟨i, -, heq⟩ | ⟨hold, heq⟩
    · have hd := congrArg Block.dev heq
      dsimp only at hd
      omega
    · have hd := congrArg Block.dev heq
      have hpos := h.dev ce' hold
      dsimp only [CacheEnt.block] at hd
      omega
  exact ⟨_, hv⟩

theorem intact_dirty_iff (h : Intact s xs) (b : Block) (v : β) : DirtyBlock s b v ↔
    ∃ ce, Listed xs ce ∧ (s.ents ce).block = b ∧ (s.ents ce).dirty = true ∧
      (s.ents ce).data = v := by
  unfold DirtyBlock
  simp only [h.keys.iff, and_assoc]

/-- The victims that stay in the cache, and what was no victim. -/
theorem dirty_after_iff (h : Intact s xs) (hin : InHand s xs dev bnum needed ents t xs')
    {v : Cache β} {xs'' : Members} (hv : Intact v xs'')
    (hlisted : ∀ ce, Listed xs'' ce ↔ Listed xs ce ∧ ce ∉ ents.take needed)
    (hentries : ∀ ce, Listed xs'' ce →
      v.ents ce = { (flushEnts t ents).2.ents ce with busy := false })
    {ce : ℕ} (hce : Listed xs ce) (hdirty : (s.ents ce).dirty = true) :
    DirtyBlock v (s.ents ce).block (s.ents ce).data ↔ ce ∉ ents.take needed ∧
      (ce ∈ ents → ¬TakenBy t ents ce ∧ ¬WrittenAlone t ents ce) := by
  have hflushed := flushed_entry t hin.lists.nodup
  have hentry : ∀ ce, Listed xs'' ce → (v.ents ce).block = (s.ents ce).block ∧
      (v.ents ce).data = (s.ents ce).data := by
    intro ce hce
    have hold := hin.entries ce ((hlisted ce).mp hce).1
    have hkept := (hflushed ce).1
    rw [hentries ce hce]
    refine ⟨hkept.block.trans ?_, hkept.data.trans ?_⟩
    · rw [hold]
      rfl
    · rw [hold]
  have hstill : ((flushEnts t ents).2.ents ce).dirty = true ↔
      (ce ∈ ents → ¬TakenBy t ents ce ∧ ¬WrittenAlone t ents ce) := by
    have hdirty' : (t.ents ce).dirty = true := by
      rw [hin.entries ce hce]
      exact hdirty
    by_cases hmem : ce ∈ ents
    · have hiff := (flushEnts_writes ents ⟨t, []⟩).dirty_iff hin.lists.nodup ce
      rw [flushEnts_replay] at hiff
      rw [hiff]
      exact ⟨fun hd _ => hd.2, fun hd => ⟨hdirty', hd hmem⟩⟩
    · rw [(hflushed ce).2 hmem]
      exact ⟨fun _ hin => absurd hin hmem, fun _ => hdirty'⟩
  rw [intact_dirty_iff hv, ← hstill]
  constructor
  · rintro ⟨ce', hce', hblock, hd, -⟩
    obtain ⟨hold', hnot⟩ := (hlisted ce').mp hce'
    obtain rfl : ce' = ce := h.keys.unique ⟨hold', (hentry ce' hce').1.symm.trans hblock⟩ ⟨hce, rfl⟩
    rw [hentries ce' hce'] at hd
    exact ⟨hnot, hd⟩
  · rintro ⟨hnot, hd⟩
    have hce' := (hlisted ce).mpr ⟨hce, hnot⟩
    refine ⟨ce, hce', (hentry ce hce').1, ?_, (hentry ce hce').2⟩
    rw [hentries ce hce']
    exact hd

theorem failing_miss_iff (hdev : 0 ≤ dev) (h : Structured s)
    (hmiss : hashLookup s.ht ⟨dev, bnum⟩ = none) (data : Option (List β)) (numBlocks bsize : ℕ)
    (op : Op) [Zero β]
    (hfail : FlushFails s dev bnum (chooseBlocks s dev bnum numBlocks bsize op).2 ents t) :
    Harmless s ((missBlocks s dev bnum data numBlocks bsize op).map Prod.snd) ↔
      Spared s t (chooseBlocks s dev bnum numBlocks bsize op).2 ents := by
  obtain ⟨xs, hi⟩ := h
  rw [missBlocks_failing hi hmiss data numBlocks bsize op hfail]
  obtain ⟨hpos, hfree⟩ := chooseBlocks_free numBlocks bsize op hmiss
  generalize (chooseBlocks s dev bnum numBlocks bsize op).2 = needed at hfail hpos hfree ⊢
  obtain ⟨⟨got, s₁, numDirty, hget, hsort, hclaim, -⟩, -⟩ := hfail
  rw [hsort] at hclaim
  obtain ⟨xs', hin⟩ := inHand_of_miss hi hpos hfree hget hclaim
  rw [← hsort] at hin
  have hfull : newEnts s needed = 0 ↔ s.maxBlocks ≤ s.curBlocks := by
    unfold newEnts
    omega
  by_cases hnew : newEnts s needed = 0
  · obtain ⟨v, xs'', hrun, hv, hlisted, hentries, hlog⟩ := backed_out hi hin hnew hfree
    rw [hrun]
    obtain ⟨p, ⟨new, hgrown, hlogged⟩, htaken⟩ :=
      (flushEnts_writes ents ⟨t, []⟩).log (hin.distinct hi hnew)
    rw [flushEnts_replay] at hgrown
    have hlogv : v.log = s.log ++ new := by rw [hlog, hgrown, hin.log]
    have hafter := fun ce (hce : Listed xs ce) hd =>
      dirty_after_iff hi hin hv hlisted hentries hce hd
    have hvictims : ∀ ce ∈ ents, Listed xs ce := fun ce hce => ⟨_, hin.old hnew ce hce⟩
    have hwritten : ∀ ce ∈ ents, (Logged (s.ents ce).block new ↔ TakenBy t ents ce) := by
      intro ce hce
      have hiff := htaken ce hce
      rw [hlogged, TakenBy, ← hiff]
      dsimp only
      rw [hin.entries ce (hvictims ce hce)]
      rfl
    have hharm : Harmless s ((Except.bind (.ok v) fun v =>
        .ok (0, ⟨ENOMEM, [], none⟩, v) : Run β (ℕ × Reply β × Cache β)).map Prod.snd) ↔
          ∀ b w, DirtyBlock s b w → Logged b new ∨ DirtyBlock v b w := by
      constructor
      · rintro ⟨reply, u, new', hr, -, -, hlog', hall⟩
        obtain ⟨-, rfl⟩ := Prod.mk.inj (Except.ok.inj hr)
        obtain rfl := List.append_cancel_left (hlogv.symm.trans hlog')
        exact hall
      · intro hall
        have herr : ENOMEM ≠ 0 := by decide
        exact ⟨⟨ENOMEM, [], none⟩, v, new, rfl, herr, ⟨xs'', hv⟩, hlogv, hall⟩
    rw [hharm]
    constructor
    · intro hall
      refine ⟨hfull.mp hnew, fun ce hce hd => ?_, fun ce hce hd halone => ?_⟩
      · have hmem := List.mem_of_mem_take hce
        have hl := hvictims ce hmem
        rcases hall _ _ ((intact_dirty_iff hi _ _).mpr ⟨ce, hl, rfl, hd, rfl⟩) with hw | hw
        · exact (hwritten ce hmem).mp hw
        · exact absurd hce ((hafter ce hl hd).mp hw).1
      · have hmem := List.mem_of_mem_drop hce
        have hl := hvictims ce hmem
        rcases hall _ _ ((intact_dirty_iff hi _ _).mpr ⟨ce, hl, rfl, hd, rfl⟩) with hw | hw
        · exact (hwritten ce hmem).mp hw
        · exact absurd halone (((hafter ce hl hd).mp hw).2 hmem).2
    · rintro ⟨-, htake, hdrop⟩ b w hdirty
      obtain ⟨ce, hl, rfl, hd, rfl⟩ := (intact_dirty_iff hi _ _).mp hdirty
      by_cases hmem : ce ∈ ents
      · by_cases ht : TakenBy t ents ce
        · exact .inl ((hwritten ce hmem).mpr ht)
        · have hnot : ce ∉ ents.take needed := fun hin => ht (htake ce hin hd)
          have hin' : ce ∈ ents.drop needed := by
            rw [← List.take_append_drop needed ents] at hmem
            exact (List.mem_append.mp hmem).resolve_left hnot
          exact .inr ((hafter ce hl hd).mpr ⟨hnot, fun _ =>
            ⟨ht, fun halone => ht (hdrop ce hin' hd halone)⟩⟩)
      · refine .inr ((hafter ce hl hd).mpr ⟨fun hin => hmem (List.mem_of_mem_take hin), ?_⟩)
        exact fun hin => absurd hin hmem
  · obtain ⟨e, hpanic⟩ := fresh_panics hdev hi hin hpos hnew
    rw [hpanic]
    refine ⟨?_, fun hspared => absurd (hfull.mpr hspared.1) hnew⟩
    rintro ⟨_, _, _, hr, -⟩
    cases hr

theorem Harmless.continues {x y : Run β (Reply β × Cache β)} (h : Continues x y) :
    Harmless s x ↔ Harmless s y := by
  obtain ⟨f, hf, rfl⟩ := h
  constructor
  · rintro ⟨reply, u, new, hr, herr, hrest⟩
    obtain ⟨⟨r, u'⟩, rfl, heq⟩ := map_ok hr
    obtain ⟨rfl, rfl⟩ := Prod.mk.inj heq
    exact ⟨r, u', new, rfl, (hf r) ▸ herr, hrest⟩
  · rintro ⟨reply, u, new, rfl, herr, hrest⟩
    exact ⟨f reply, u, new, rfl, (hf reply).symm ▸ herr, hrest⟩

end Harm

section Calls
variable [Zero β] {s₀ t : Cache β} {q : Turn β} {ents : List ℕ} {dev bnum : ℤ}
  {data : Option (List β)} {numBlocks bsize : ℕ} {op : Op} {dataptr : Bool}

/-- The call ends with the miss whose flush fails. -/
theorem blockLoop_failing (h : Structured q.cache) (hmore : q.numBlocks ≠ 0)
    (hmiss : hashLookup q.cache.ht ⟨dev, q.bnum⟩ = none)
    (hfail : FlushFails q.cache dev q.bnum
      (chooseBlocks q.cache dev q.bnum q.numBlocks bsize op).2 ents t)
    {fuel : ℕ} (hfuel : q.numBlocks ≤ fuel) :
    blockLoop dev bsize op fuel q.bnum q.data q.numBlocks q.cache =
      (missBlocks q.cache dev q.bnum q.data q.numBlocks bsize op).map Prod.snd := by
  obtain ⟨xs, hi⟩ := h
  have hfailing := missBlocks_failing hi hmiss q.data q.numBlocks bsize op hfail
  obtain ⟨n, hn⟩ := Nat.exists_eq_succ_of_ne_zero hmore
  obtain ⟨fuel, rfl⟩ : ∃ m, fuel = m + 1 := ⟨fuel - 1, by omega⟩
  have hlookup : blockLookup q.cache ⟨dev, q.bnum⟩ = .ok none := by
    unfold blockLookup
    rw [hmiss]
  rw [hn] at hfailing ⊢
  rw [blockLoop, hlookup]
  change (missBlocks q.cache dev q.bnum q.data (n + 1) bsize op).bind _ = _
  rw [hfailing]
  generalize (abandonEnts dev q.bnum 0 _ _).bind _ = x
  cases x with
  | error e => rfl
  | ok v => rfl

/-- A call whose miss fails to flush its victims does no harm exactly if the cache was full and no
dirty victim was lost: the device has taken those that were to be replaced, and those of the others
that were written alone. -/
theorem failing_miss_harmless_iff (hdev : 0 ≤ dev) (h : Structured s₀)
    (haccepted : Accepted s₀ dev bnum data numBlocks bsize op dataptr)
    (harr : Arrives dev bsize op ⟨bnum, data, numBlocks, s₀⟩ q) (hmore : q.numBlocks ≠ 0)
    (hmiss : hashLookup q.cache.ht ⟨dev, q.bnum⟩ = none)
    (hfail : FlushFails q.cache dev q.bnum
      (chooseBlocks q.cache dev q.bnum q.numBlocks bsize op).2 ents t) :
    Harmless q.cache (cacheBlockIo s₀ dev bnum data numBlocks bsize op dataptr) ↔
      Spared q.cache t (chooseBlocks q.cache dev q.bnum q.numBlocks bsize op).2 ents := by
  have hq := arrives_structured hdev h harr
  obtain ⟨fuel, hfuel, hcont⟩ := arrives_loop hdev h harr le_rfl
  rw [cacheBlockIo_loop haccepted, Harmless.continues hcont,
    blockLoop_failing hq hmore hmiss hfail hfuel]
  exact failing_miss_iff hdev hq hmiss q.data q.numBlocks bsize op hfail

/-- A full cache of a single block, number 5, on a device that takes no write. -/
def oneEntry (dirty : Bool) (clone : Option ℕ) : Cache ℕ :=
  { initBlockCache 1 0 (fun _ => 0) (fun _ => false) with
    ents := fun _ => ⟨0, 5, 1024, dirty, false, 7, clone, 0, none, 0, 0⟩
    made := 1
    lists := fun cel => match cel with
      | .normal => ⟨some 0, some 0⟩
      | .locked => ⟨none, none⟩
    ht := (hashInsert (initTable HT_DEFAULT_MAX) ⟨0, 5⟩ 0).2
    curBlocks := 1
    maxDeviceBlocks := fun _ => 7 }

def oneMember : Members
  | .normal => [0]
  | .locked => []

theorem oneEntry_structured (dirty : Bool) (clone : Option ℕ) :
    Structured (oneEntry dirty clone) := by
  have hlisted : ∀ ce, Listed oneMember ce ↔ ce = 0 := by
    intro ce
    constructor
    · rintro ⟨_ | _, hce⟩
      · exact List.mem_singleton.mp hce
      · cases hce
    · rintro rfl
      exact ⟨.normal, List.mem_singleton_self 0⟩
  refine ⟨oneMember, ⟨⟨fun cel => ?_, fun {i j v} hi hj => ?_⟩, fun ce hce => ?_,
    fun cel ce hce => ?_,
    List.nodup_nil, fun ce hce => absurd hce List.not_mem_nil, rfl⟩, fun _ _ => rfl,
    fun _ _ => le_rfl, ?_, le_rfl⟩
  · cases cel with
    | normal => exact ⟨List.nodup_singleton 0, rfl, rfl, rfl, rfl, trivial⟩
    | locked => exact ⟨List.nodup_nil, rfl, rfl, trivial⟩
  · cases i with
    | normal =>
      cases j with
      | normal => rfl
      | locked => cases hj
    | locked => cases hi
  · have hzero := (hlisted ce).mp (hce.resolve_right List.not_mem_nil)
    rw [hzero]
    exact Nat.one_pos
  · cases cel with
    | normal => rfl
    | locked => cases hce
  · have hempty : Keys (initTable HT_DEFAULT_MAX : Table Block ℕ) fun _ _ => False :=
      ⟨initTable_wf 7, fun b ce => by simp [hashLookup]⟩
    obtain ⟨ht', hins, hk⟩ := hempty.insert (b := ⟨0, 5⟩) (fun _ => id) 0
    have hht : (oneEntry dirty clone).ht = ht' := congrArg Prod.snd hins
    rw [hht]
    refine hk.congr fun b ce => ?_
    rw [hlisted, or_false]
    constructor
    · rintro ⟨rfl, rfl⟩
      exact ⟨rfl, rfl⟩
    · rintro ⟨rfl, rfl⟩
      exact ⟨rfl, rfl⟩

/-- A full cache of a dirty block, number 2, and a block with a clone, number 5, on a device that
takes one write. -/
def twoEntries : Cache ℕ :=
  { initBlockCache 2 0 (fun _ => 0) (fun n => n = 0) with
    ents := fun ce =>
      if ce = 0 then ⟨0, 2, 1024, true, false, 7, none, 0, none, 0, 0⟩
      else ⟨0, 5, 1024, false, false, 8, some 6, 0, none, 0, 0⟩
    made := 2
    links := ⟨fun ce => if ce = 0 then some 1 else none, fun ce => if ce = 1 then some 0 else none⟩
    lists := fun cel => match cel with
      | .normal => ⟨some 0, some 1⟩
      | .locked => ⟨none, none⟩
    ht := (hashInsert (hashInsert (initTable HT_DEFAULT_MAX) ⟨0, 2⟩ 0).2 ⟨0, 5⟩ 1).2
    curBlocks := 2
    maxDeviceBlocks := fun _ => 8 }

def twoMembers : Members
  | .normal => [0, 1]
  | .locked => []

theorem twoEntries_structured : Structured twoEntries := by
  have hlisted : ∀ ce, Listed twoMembers ce ↔ ce = 0 ∨ ce = 1 := by
    intro ce
    constructor
    · rintro ⟨_ | _, hce⟩
      · simpa [twoMembers] using hce
      · cases hce
    · intro hce
      exact ⟨.normal, by simpa [twoMembers] using hce⟩
  refine ⟨twoMembers, ⟨⟨fun cel => ?_, fun {i j v} hi hj => ?_⟩, fun ce hce => ?_,
    fun cel ce hce => ?_, List.nodup_nil, fun ce hce => absurd hce List.not_mem_nil, rfl⟩,
    fun ce hce => ?_, fun ce hce => ?_, ?_, le_rfl⟩
  · cases cel with
    | normal => exact ⟨by decide, rfl, rfl, rfl, rfl, rfl, rfl, trivial⟩
    | locked => exact ⟨List.nodup_nil, rfl, rfl, trivial⟩
  · cases i with
    | normal =>
      cases j with
      | normal => rfl
      | locked => cases hj
    | locked => cases hi
  · change ce < 2
    rcases (hlisted ce).mp (hce.resolve_right List.not_mem_nil) with rfl | rfl <;> decide
  · cases cel with
    | normal => rcases (hlisted ce).mp ⟨_, hce⟩ with rfl | rfl <;> rfl
    | locked => cases hce
  · rcases (hlisted ce).mp hce with rfl | rfl <;> rfl
  · rcases (hlisted ce).mp hce with rfl | rfl <;> exact le_rfl
  · have hempty : Keys (initTable HT_DEFAULT_MAX : Table Block ℕ) fun _ _ => False :=
      ⟨initTable_wf 7, fun b ce => by simp [hashLookup]⟩
    obtain ⟨ht₁, hins₁, hk₁⟩ := hempty.insert (b := ⟨0, 2⟩) (fun _ => id) 0
    obtain ⟨ht₂, hins₂, hk₂⟩ := hk₁.insert (b := ⟨0, 5⟩)
      (fun _ hk => by rcases hk with ⟨hb, -⟩ | hk <;> simp at *) 1
    have hht : twoEntries.ht = ht₂ := by
      change (hashInsert (hashInsert (initTable HT_DEFAULT_MAX) ⟨0, 2⟩ 0).2 ⟨0, 5⟩ 1).2 = ht₂
      rw [hins₁, hins₂]
    rw [hht]
    refine hk₂.congr fun b ce => ?_
    rw [hlisted, or_false]
    constructor
    · rintro (⟨rfl, rfl⟩ | ⟨rfl, rfl⟩)
      · exact ⟨.inr rfl, rfl⟩
      · exact ⟨.inl rfl, rfl⟩
    · rintro ⟨rfl | rfl, rfl⟩
      · exact .inr ⟨rfl, rfl⟩
      · exact .inl ⟨rfl, rfl⟩

/-- A read of block 7 writes the dirty block, and then the clone cannot be written. It is dropped,
and no dirty block is lost. -/
theorem failing_miss_harmless_cloned : ∃ ents t,
    FlushFails twoEntries 0 7 1 ents t ∧ DirtyBlock twoEntries ⟨0, 2⟩ 7 ∧ Harmless twoEntries
      (cacheBlockIo twoEntries 0 7 (some []) 1 1024 ⟨.read, false, true⟩ false) := by
  have hneeded : (chooseBlocks twoEntries 0 7 1 1024 ⟨.read, false, true⟩).2 = 1 := rfl
  have hfail : ∃ t, FlushFails twoEntries 0 7 1 [0, 1] t ∧ TakenBy t [0, 1] 0 :=
    ⟨_, ⟨⟨_, _, _, rfl, rfl, rfl, by decide⟩, by decide⟩, .inl ⟨List.mem_cons_self, rfl, rfl⟩⟩
  obtain ⟨t, hfail, htaken⟩ := hfail
  have haccepted : Accepted twoEntries 0 7 (some []) 1 1024 ⟨.read, false, true⟩ false :=
    ⟨by decide, by decide, fun hnone => absurd hnone (Option.some_ne_none _), le_rfl, by decide⟩
  refine ⟨[0, 1], t, hfail, ⟨0, rfl, rfl, rfl⟩, (failing_miss_harmless_iff le_rfl
    twoEntries_structured haccepted .refl Nat.one_ne_zero rfl (hneeded ▸ hfail)).mpr
    ⟨le_rfl, fun ce hce _ => ?_, fun ce hce hdirty => ?_⟩⟩
  · rwa [List.mem_singleton.mp hce]
  · rw [List.mem_singleton.mp hce] at hdirty
    cases hdirty

/-- The dirty block is neither written nor kept. -/
theorem failing_miss_loses_block :
    (Structured (oneEntry true none) ∧ ∃ ents t, FlushFails (oneEntry true none) 0 6 1 ents t) ∧
    ¬Harmless (oneEntry true none)
      (cacheBlockIo (oneEntry true none) 0 6 (some []) 1 1024 ⟨.read, false, true⟩ false) := by
  refine ⟨⟨oneEntry_structured _ _, [0], _, ⟨_, _, _, rfl, rfl, rfl, by decide⟩, by decide⟩, ?_⟩
  have hrun : ∃ r v, cacheBlockIo (oneEntry true none) 0 6 (some []) 1 1024
      ⟨.read, false, true⟩ false = .ok (r, v) ∧ hashLookup v.ht ⟨0, 5⟩ = none ∧ v.log = [] :=
    ⟨_, _, rfl, rfl, rfl⟩
  obtain ⟨r, v, hrun, hgone, hlog⟩ := hrun
  rintro ⟨reply, u, new, hr, -, -, hgrown, hall⟩
  obtain ⟨-, rfl⟩ := Prod.mk.inj (Except.ok.inj (hrun.symm.trans hr))
  have hnew : new = [] := hgrown.symm.trans hlog
  rcases hall ⟨0, 5⟩ 7 ⟨0, rfl, rfl, rfl⟩ with ⟨w, lock, hin⟩ | ⟨ce, hfind, -⟩
  · rw [hnew] at hin
    cases hin
  · rw [hgone] at hfind
    cases hfind

end Calls

end FailedMiss
