import Mathlib.Tactic
import FsKit.CacheStores
import FsKit.CacheCalls

/-! The victims of a miss (`cache.c`). With enough room in the cache `get_ents` finds as many
entries as a miss asks for, and once they have been flushed there is nothing left in them that
anybody would miss. -/
namespace MissVictims

open HashTable BlockCache WriteBackStore CacheStructure CacheVictims CacheStores FallibleRuns
open FlushCompleteness (bufOf Kept Works Flushed)
open FlushTermination (setBusy_all weight flushPass_worn)

variable {β : Type}

section Getting
variable {s s₁ : Cache β} {xs : Members} {needed max : ℕ}

/-- There are entries enough on the normal list, together with those that may still be made. -/
def Enough (s : Cache β) (xs : Members) (needed : ℕ) : Prop :=
  needed ≤ newEnts s needed + (xs .normal).length

/-- What is not locked can be had: there is room for as many blocks as there are locked ones and
needed ones. -/
theorem enough_of_room (h : Lists s xs []) (hcap : s.curBlocks ≤ s.maxBlocks)
    (hroom : (xs .locked).length + needed ≤ s.maxBlocks) : Enough s xs needed := by
  have hcount := h.count
  rw [List.length_nil] at hcount
  unfold Enough newEnts
  omega

theorem getEnts_ok (h : Lists s xs []) (hidle : ∀ ce ∈ xs .normal, (s.ents ce).busy = false)
    (hpos : 0 < needed) (hmax : needed ≤ max) (henough : Enough s xs needed) :
    ∃ got s₁, getEnts s needed max = .ok (got, s₁) := by
  obtain ⟨sa, halloc, hla, hentsa, -⟩ := allocEnts_spec needed h
  rw [List.append_nil] at hla
  have hidlea : ∀ ce ∈ xs .normal, (sa.ents ce).busy = false := by
    intro ce hce
    rw [hentsa, if_neg]
    · exact hidle ce hce
    · intro hin
      exact absurd (h.made ce (.inl ⟨_, hce⟩)) (not_lt.mpr (mem_fresh hin))
  obtain ⟨m, hm⟩ : ∃ m, needed * 256 = m + 1 := ⟨needed * 256 - 1, by omega⟩
  have hb := setBusy_lists hla true ((xs .normal).take (needed - newEnts s needed))
  unfold getEnts
  rw [if_neg (not_lt.mpr hmax)]
  dsimp only
  rw [halloc]
  dsimp only
  rw [hm, pluckLoop_spec hla needed m _ hidlea, List.length_range']
  dsimp only [bind, Except.bind]
  rw [if_neg]
  · split
    · exact ⟨_, _, rfl⟩
    · rename_i last hlast
      split
      · rename_i hmore
        -- the rest of the normal list, behind the last one that was taken
        have hunlocked : ∀ ce ∈ (xs .normal).drop (needed - newEnts s needed),
            ((((xs .normal).take (needed - newEnts s needed)).foldl (setBusy true) sa).ents
              ce).lock = 0 := fun ce hce => hb.normal_unlocked ce (List.mem_of_mem_drop hce)
        have hbusy : ∀ ce ∈ (xs .normal).drop (needed - newEnts s needed),
            ((((xs .normal).take (needed - newEnts s needed)).foldl (setBusy true) sa).ents
              ce).busy = false := by
          intro ce hce
          have hnot : ce ∉ (xs .normal).take (needed - newEnts s needed) := fun hin =>
            List.disjoint_take_drop (h.family.isList .normal).nodup le_rfl hin hce
          rw [setBusy_all]
          dsimp only
          rw [if_neg hnot]
          exact hidlea ce (List.mem_of_mem_drop hce)
        have hn : 0 < needed - newEnts s needed := by
          by_contra hzero
          have hnil : (xs .normal).take (needed - newEnts s needed) = [] := by
            rw [Nat.eq_zero_of_not_pos hzero, List.take_zero]
          rw [hnil, List.append_nil] at hlast
          rw [hnil, List.foldl_nil, hentsa, if_pos (List.mem_of_getLast? hlast)] at hmore
          exact Bool.false_ne_true hmore.2
        have hlast' : ((xs .normal).take (needed - newEnts s needed)).getLast? = some last := by
          rw [List.getLast?_append] at hlast
          rcases ht : ((xs .normal).take (needed - newEnts s needed)).getLast? with _ | last'
          · exfalso
            have hnil := List.getLast?_eq_none_iff.mp ht
            rw [List.take_eq_nil_iff] at hnil
            have hempty := hnil.resolve_left hn.ne'
            unfold Enough at henough
            rw [hempty, List.length_nil] at henough
            omega
          · rw [ht, Option.some_or] at hlast
            exact hlast
        rw [nodes_after hb hn hlast', pluckMore_eq _ hunlocked, pluckEnts_idle _
          ((h.family.isList .normal).nodup.sublist (List.drop_sublist _ _)) hunlocked hbusy]
        exact ⟨_, _, rfl⟩
      · exact ⟨_, _, rfl⟩
  · rw [List.length_append, List.length_range', List.length_take]
    unfold Enough at henough
    omega

end Getting

section Claiming
variable {s s₁ t : Cache β} {xs : Members} {ents got : List ℕ} {dev bnum : ℤ} {needed max n : ℕ}

/-- One victim that is claimed, and then the others. -/
theorem claimEnts_step {cur ce : ℕ} {ents : List ℕ}
    (h : claimEnts dev bnum needed cur (ce :: ents) s = .ok (n, t)) :
    ∃ ht, (if (s.ents ce).dev = -1 then
        claimEnts dev bnum needed (cur + 1) ents { setBusy true s ce with ht := ht }
      else (claimEnts dev bnum needed (cur + 1) ents
        (deleteFromList { setBusy true s ce with ht := ht } .normal ce)).bind fun r =>
          .ok (if (s.ents ce).unwritten then r.1 + 1 else r.1, r.2)) = .ok (n, t) := by
  have hself : (setBusy true s ce).ents ce = { s.ents ce with busy := true } :=
    Function.update_self ..
  have hcont : ∀ ht, (if (s.ents ce).dev = -1 then
        claimEnts dev bnum needed (cur + 1) ents { setBusy true s ce with ht := ht }
      else if (s.ents ce).lock ≠ 0 then
        .error (.lockedVictim, { setBusy true s ce with ht := ht })
      else (claimEnts dev bnum needed (cur + 1) ents
        (deleteFromList { setBusy true s ce with ht := ht } .normal ce)).bind fun r =>
          .ok (if (s.ents ce).unwritten then r.1 + 1 else r.1, r.2)) = .ok (n, t) →
      (if (s.ents ce).dev = -1 then
        claimEnts dev bnum needed (cur + 1) ents { setBusy true s ce with ht := ht }
      else (claimEnts dev bnum needed (cur + 1) ents
        (deleteFromList { setBusy true s ce with ht := ht } .normal ce)).bind fun r =>
          .ok (if (s.ents ce).unwritten then r.1 + 1 else r.1, r.2)) = .ok (n, t) := by
    intro ht hrun
    split at hrun
    · rename_i hnew
      rw [if_pos hnew]
      exact hrun
    · rename_i hold
      rw [if_neg hold]
      split at hrun
      · cases hrun
      · exact hrun
  rw [claimEnts] at h
  by_cases hcur : cur < needed
  · rw [if_pos hcur] at h
    dsimp only at h
    split at h
    · cases h
    · simp only [bind, Except.bind, hself] at h
      exact ⟨_, hcont _ h⟩
  · rw [if_neg hcur] at h
    simp only [bind, Except.bind, hself] at h
    exact ⟨s.ht, hcont s.ht h⟩

/-- Claiming an entry changes only the lists, the hash table and which entries are busy, and counts
what has to be written. -/
theorem claimEnts_frame (ents : List ℕ) : ∀ {cur : ℕ} {s : Cache β} {n : ℕ} {t : Cache β},
    claimEnts dev bnum needed cur ents s = .ok (n, t) →
    t = { s with ents := t.ents, links := t.links, lists := t.lists, ht := t.ht } ∧
      (∀ ce, t.ents ce = { s.ents ce with busy := (t.ents ce).busy }) ∧
      (n = 0 → ∀ ce ∈ ents, (s.ents ce).dev ≠ -1 → (s.ents ce).unwritten = false) := by
  induction ents with
  | nil =>
    intro cur s n t h
    cases h
    exact ⟨rfl, fun _ => rfl, fun _ _ hce => (List.not_mem_nil hce).elim⟩
  | cons ce ents ih =>
    intro cur s n t h
    obtain ⟨ht, h⟩ := claimEnts_step h
    have hents : ∀ c, (setBusy true s ce).ents c =
        { s.ents c with busy := ((setBusy true s ce).ents c).busy } := by
      intro c
      by_cases hc : c = ce
      · subst hc
        simp [setBusy, setEnt]
      · rw [setBusy_other hc]
    -- the rest of the entries, from a cache that has been changed like this
    have hrest : ∀ {s₂ : Cache β} {k : ℕ} {t : Cache β},
        s₂ = { setBusy true s ce with ht := s₂.ht, links := s₂.links, lists := s₂.lists } →
        claimEnts dev bnum needed (cur + 1) ents s₂ = .ok (k, t) →
        t = { s with ents := t.ents, links := t.links, lists := t.lists, ht := t.ht } ∧
          (∀ c, t.ents c = { s.ents c with busy := (t.ents c).busy }) ∧
          (k = 0 → ∀ c ∈ ents, (s.ents c).dev ≠ -1 → (s.ents c).unwritten = false) := by
      intro s₂ k t hs₂ hrun
      obtain ⟨hsame, hbusy, hclean⟩ := ih hrun
      have hents₂ : s₂.ents = (setBusy true s ce).ents := by rw [hs₂]
      refine ⟨?_, fun c => ?_, fun hk c hc hdev => ?_⟩
      · rw [hsame, hs₂]
        rfl
      · rw [hbusy c, hents₂, hents c]
      · have hun := hclean hk c hc
        rw [hents₂, hents c] at hun
        exact hun hdev
    split at h
    · rename_i hnew
      obtain ⟨hsame, hbusy, hclean⟩ := hrest (by rfl) h
      refine ⟨hsame, hbusy, fun hn c hc hdev => ?_⟩
      rcases List.mem_cons.mp hc with rfl | hc
      · exact absurd hnew hdev
      · exact hclean hn c hc hdev
    · obtain ⟨⟨k, t'⟩, hrun, h⟩ := bind_ok h
      cases h
      obtain ⟨hsame, hbusy, hclean⟩ := hrest (by rfl) hrun
      refine ⟨hsame, hbusy, fun hn c hc hdev => ?_⟩
      split at hn
      · cases hn
      · rename_i hclean'
        rcases List.mem_cons.mp hc with rfl | hc
        · exact Bool.eq_false_iff.mpr hclean'
        · exact hclean hn c hc hdev

theorem claimEnts_ok (h : Intact s xs) (hpos : 0 < needed)
    (hfree : ∀ j < needed, hashLookup s.ht ⟨dev, bnum + j⟩ = none)
    (hget : getEnts s needed max = .ok (got, s₁)) :
    ∃ n t, claimEnts dev bnum needed 0 (qsort s₁ got) s₁ = .ok (n, t) := by
  have hob := getEnts_spec h.lists (fun ce hce => h.idle ce ⟨_, hce⟩) hpos hget
  have hold : ∀ ce, Listed xs ce → ce ∉ List.range' s.made (newEnts s needed) := fun ce hce hin =>
    absurd (h.lists.made ce (.inl hce)) (not_lt.mpr (mem_fresh hin))
  have hnodup : (qsort s₁ got).Nodup := by
    rw [(qsort_perm s₁ got).nodup_iff, hob.ents_eq]
    refine List.nodup_append.mpr ⟨List.nodup_range', ?_, ?_⟩
    · exact (h.lists.family.isList .normal).nodup.sublist (List.take_sublist _ _)
    · rintro a ha b hb rfl
      exact hold a ⟨_, List.mem_of_mem_take hb⟩ ha
  have hk : Keys s₁.ht fun b ce => Listed xs ce ∧ (s.ents ce).block = b := by
    rw [hob.same]
    exact h.keys
  have hkinds : ∀ ce ∈ qsort s₁ got, (s₁.ents ce).dev = -1 ∧
      ce ∈ List.range' s.made (newEnts s needed) ∨ (s₁.ents ce).dev ≠ -1 ∧ ce ∈ xs .normal := by
    intro ce hce
    rw [(qsort_perm s₁ got).mem_iff, hob.ents_eq, List.mem_append] at hce
    rcases hce with hin | hin
    · exact .inl ⟨by rw [hob.entries, if_pos hin]; rfl, hin⟩
    · have hlisted : Listed xs ce := ⟨_, List.mem_of_mem_take hin⟩
      have hdev := h.dev ce hlisted
      refine .inr ⟨?_, List.mem_of_mem_take hin⟩
      rw [hob.entries, if_neg (hold ce hlisted)]
      dsimp only
      omega
  obtain ⟨n, t, -, -, hrun, -⟩ := claimEnts_spec dev bnum needed (qsort s₁ got) 0 s₁ xs
    (List.range' s.made (newEnts s needed)) _ hob.lists hk hnodup hkinds
    fun j _ hj => h.keys.absent.mp (hfree j hj)
  exact ⟨n, t, hrun⟩

/-- A miss has claimed its victims: those that are new hold nothing, those that are old what they
held before, and nothing else has changed but the lists, the hash table and the busy marks. -/
structure Taken (s : Cache β) (xs : Members) (ents : List ℕ) (n : ℕ) (t : Cache β) : Prop where
  same : t = { s with
    ents := t.ents
    links := t.links
    lists := t.lists
    ht := t.ht
    made := t.made
    curBlocks := t.curBlocks }
  split : ∃ fs os, ents = fs ++ os ∧
    (∀ ce ∈ fs, t.ents ce = { freshEnt s.junk with busy := (t.ents ce).busy }) ∧
    ∀ ce ∈ os, ce ∈ xs .normal
  clean : n = 0 → ∀ ce ∈ ents, (t.ents ce).unwritten = false

theorem taken_of_miss {xs' : Members} (h : Intact s xs) (hpos : 0 < needed)
    (hget : getEnts s needed max = .ok (got, s₁))
    (hclaim : claimEnts dev bnum needed 0 (qsort s₁ got) s₁ = .ok (n, t))
    (hin : InHand s xs dev bnum needed (qsort s₁ got) t xs') :
    Taken s xs (qsort s₁ got) n t := by
  have hob := getEnts_spec h.lists (fun ce hce => h.idle ce ⟨_, hce⟩) hpos hget
  obtain ⟨hsame, hbusy, hclean⟩ := claimEnts_frame _ hclaim
  obtain ⟨fs, os, hents, -, hfs, hos⟩ := hin.sorted
  have hfresh : ∀ ce ∈ fs, t.ents ce = { freshEnt s.junk with busy := (t.ents ce).busy } := by
    intro ce hce
    have hmem : ce ∈ qsort s₁ got := hents ▸ List.mem_append_left _ hce
    rw [(qsort_perm s₁ got).mem_iff, hob.ents_eq, List.mem_append] at hmem
    rcases hmem with hr | hr
    · rw [hbusy ce, hob.entries, if_pos hr]
    · have hlisted : Listed xs ce := ⟨_, List.mem_of_mem_take hr⟩
      have hdev := (Block.mk.inj (hfs ce hce).1).1
      have hpos := h.dev ce hlisted
      rw [hin.entries ce hlisted] at hdev
      dsimp only at hdev
      omega
  refine ⟨?_, ⟨fs, os, hents, hfresh, hos⟩, fun hn ce hce => ?_⟩
  · rw [hsame, hob.same]
  · have hmem := hce
    rw [hents, List.mem_append] at hmem
    rcases hmem with hf | ho
    · rw [hfresh ce hf]
      rfl
    · have hlisted : Listed xs ce := ⟨_, hos ce ho⟩
      have hdev := h.dev ce hlisted
      have hent := hin.entries ce hlisted
      have hun : (t.ents ce).unwritten = (s₁.ents ce).unwritten := by
        rw [hbusy ce]
        rfl
      rw [hun]
      refine hclean hn ce hce ?_
      have hsd : (t.ents ce).dev = (s₁.ents ce).dev := by rw [hbusy ce]
      rw [← hsd, hent]
      dsimp only
      omega

end Claiming

section Emptying
variable {s t u : Cache β} {xs xs' : Members} {fs os ents : List ℕ} {dev bnum : ℤ} {needed n : ℕ}
  {size : ℤ → ℕ}

/-- There is nothing to write of an entry. -/
def Clean (c : CacheEnt β) : Prop := c.dirty = false ∧ c.clone = none

theorem clean_iff_unwritten (c : CacheEnt β) : Clean c ↔ c.unwritten = false := by
  unfold Clean CacheEnt.unwritten
  rw [Bool.or_eq_false_iff, Option.isSome_eq_false_iff, Option.isNone_iff_eq_none]

theorem clean_iff_weight (c : CacheEnt β) : Clean c ↔ weight c = 0 := by
  unfold Clean weight
  cases c.dirty <;> cases c.clone <;> simp

theorem flushPass_clean (ret : ℤ) (hfs : ∀ ce ∈ fs, Clean (s.ents ce)) :
    flushPass ret s 0 (fs ++ os) = flushPass ret s 0 os := by
  induction fs with
  | nil => rfl
  | cons ce fs ih =>
    have hce : (s.ents ce).dirty = false ∧ (s.ents ce).clone = none := hfs ce List.mem_cons_self
    rw [List.cons_append, flushPass]
    dsimp only
    rw [if_pos hce]
    exact ih fun c hc => hfs c (List.mem_cons_of_mem _ hc)

/-- Entries that have nothing to be written make no difference to a flush. -/
theorem flushEnts_clean (hfs : ∀ ce ∈ fs, Clean (s.ents ce)) :
    flushEnts s (fs ++ os) = flushEnts s os := by
  unfold flushEnts
  rw [flushPass_clean 0 hfs]
  have hworn := flushPass_worn 0 0 os s
  generalize flushPass 0 s 0 os = r at hworn ⊢
  obtain ⟨ret, s₁⟩ := r
  dsimp only at hworn ⊢
  have hfs₁ : ∀ ce ∈ fs, Clean (s₁.ents ce) := by
    intro ce hce
    have hzero := (clean_iff_weight _).mp (hfs ce hce)
    have hle := hworn.weight ce
    rw [hzero] at hle
    exact (clean_iff_weight _).mpr (Nat.le_zero.mp hle)
  have hany : (fs.any fun ce => decide ((s₁.ents ce).dirty = true ∧ (s₁.ents ce).lock = 0)) =
      false := by
    refine List.any_eq_false.mpr fun ce hce => ?_
    simp [(hfs₁ ce hce).1]
  rw [List.any_append, hany, Bool.false_or, flushPass_clean ret hfs₁]

/-- The victims have been flushed, and nothing is left in them. -/
structure Emptied (s : Cache β) (ents : List ℕ) (t u : Cache β) : Prop where
  same : u = { t with ents := u.ents, disk := u.disk, ios := u.ios, log := u.log }
  ios : t.ios ≤ u.ios
  kept : ∀ ce, Kept (t.ents ce) (u.ents ce)
  clean : ∀ ce ∈ ents, Clean (u.ents ce) ∧ (u.ents ce).func = none
  others : ∀ ce ∉ ents, u.ents ce = t.ents ce
  performs : Performs [] [] (cacheStore s) (storeOn s.ht u)

/-- While the victims are in hand, the hash table of before still leads to the buffers. -/
theorem storeOn_inHand (h : Rests size s xs) (hin : InHand s xs dev bnum needed ents t xs')
    (ht : Taken s xs ents n t) : storeOn s.ht t = cacheStore s := by
  refine storeOn_congr (fun b ce hb => ?_) (by rw [ht.same]) (by rw [ht.same])
  rw [hin.entries ce (h.listed hb).1]
  rfl

theorem emptied_of_taken (h : Rests size s xs) (hin : InHand s xs dev bnum needed ents t xs')
    (ht : Taken s xs ents n t) :
    ∃ u, (if n ≠ 0 then flushEnts t ents else (0, t)) = (0, u) ∧ Emptied s ents t u := by
  obtain ⟨fs, os, hents, hfs, hos⟩ := ht.split
  have hlisted : ∀ ce ∈ os, Listed xs ce := fun ce hce => ⟨_, hos ce hce⟩
  have hnodup := hin.lists.nodup
  rw [hents] at hnodup
  have hfresh : ∀ ce ∈ fs, Clean (t.ents ce) ∧ (t.ents ce).func = none := by
    intro ce hce
    rw [hfs ce hce]
    exact ⟨⟨rfl, rfl⟩, rfl⟩
  have hcalls : ∀ ce ∈ os, (t.ents ce).clone = none ↔ (t.ents ce).func = none := by
    intro ce hce
    rw [hin.entries ce (hlisted ce hce)]
    exact h.calls ce (hlisted ce hce)
  have hleads : Leads s.ht t.ents os := by
    have hl := h.leads (List.nodup_append.mp hnodup).2.1 hlisted
    refine ⟨hl.nodup, fun ce hce => ?_, fun b ce hce hb => ?_⟩
    · rw [hin.entries ce (hlisted ce hce)]
      exact hl.lookup ce hce
    · rw [hin.entries ce (hlisted ce hce)]
      exact hl.own b ce hce hb
  have hworks : Works t := by
    have hio : t.io = s.io := by rw [ht.same]
    have hios : t.ios = s.ios := by rw [ht.same]
    intro k hk
    rw [hio]
    exact h.works k (hios ▸ hk)
  have hstore := storeOn_inHand h hin ht
  by_cases hn : n = 0
  · -- nothing has to be written
    rw [if_neg (not_not.mpr hn)]
    refine ⟨t, rfl, rfl, le_rfl, fun _ => rfl, fun ce hce => ?_, fun _ _ => rfl, ?_⟩
    · have hclean := (clean_iff_unwritten _).mpr (ht.clean hn ce hce)
      refine ⟨hclean, ?_⟩
      rw [hents, List.mem_append] at hce
      rcases hce with hce | hce
      · exact (hfresh ce hce).2
      · exact (hcalls ce hce).mp hclean.2
    · rw [hstore]
      exact Performs.refl _
  · obtain ⟨u, hflush, hflushed, hperforms, hclean⟩ := flushEnts_cleans hleads hworks hcalls
    rw [if_pos hn, hents, flushEnts_clean fun ce hce => (hfresh ce hce).1]
    refine ⟨u, hflush, hflushed.same, hflushed.ios, hflushed.kept, fun ce hce => ?_,
      fun ce hce => hflushed.others ce fun ho => hce (List.mem_append_right _ ho), ?_⟩
    · rcases List.mem_append.mp hce with hce | hce
      · rw [hflushed.others ce fun ho => (List.nodup_append.mp hnodup).2.2 ce hce ce ho rfl]
        exact hfresh ce hce
      · obtain ⟨hclone, hfunc, hdirty⟩ := hclean ce hce
        refine ⟨⟨hdirty ?_, hclone⟩, hfunc⟩
        rw [(hflushed.kept ce).lock, hin.entries ce (hlisted ce hce)]
        exact h.lists.normal_unlocked ce (hos ce hce)
    · rw [← hstore]
      exact hperforms

end Emptying

end MissVictims
