import Mathlib.Tactic
import FsKit.CacheFlushes

/-! What the users of the cache do with blocks that they have locked (`cache.c`): they store into
them, mark them as dirty, set them aside with a callback, and give their locks up. -/
namespace CacheUsers

open MachineIntegers HashTable BlockCache WriteBackStore TransitionTrace CacheStructure CacheStores
open CacheTransfers CacheRequests CacheFlushes
open FlushCompleteness (bufOf Kept)

variable {β : Type}

section Entries
variable {s s' s'' : Cache β} {xs : Members} {size : ℤ → ℕ} {ce : ℕ} {k : Block}
  {acts acts' : List (Act Block β Callback)}

/-- The cache is at rest again, and as a store it has gone through the acts. -/
structure Became (size : ℤ → ℕ) (acts : List (Act Block β Callback)) (s s' : Cache β) : Prop where
  rests : ∃ xs', Rests size s' xs'
  allowed : EveryStep apply Allowed (cacheStore s) acts
  store : runTrace apply (cacheStore s) acts = cacheStore s'
  maxBlocks : s'.maxBlocks = s.maxBlocks
  maxDeviceBlocks : s'.maxDeviceBlocks = s.maxDeviceBlocks
  ht : s'.ht = s.ht

theorem Became.refl (h : Rests size s xs) : Became size [] s s :=
  ⟨⟨xs, h⟩, trivial, rfl, rfl, rfl, rfl⟩

theorem Became.trans (h : Became size acts s s') (k : Became size acts' s' s'') :
    Became size (acts ++ acts') s s'' where
  rests := k.rests
  allowed := by
    rw [everyStep_append, h.store]
    exact ⟨h.allowed, k.allowed⟩
  store := by rw [runTrace_append, h.store, k.store]
  maxBlocks := k.maxBlocks.trans h.maxBlocks
  maxDeviceBlocks := k.maxDeviceBlocks.trans h.maxDeviceBlocks
  ht := k.ht.trans h.ht

/-- The entry of a block that is locked. -/
theorem locked_entry (h : Rests size s xs) (hk : 0 < lockOf (cacheStore s) k) :
    ∃ ce, hashLookup s.ht k = some ce ∧ Listed xs ce ∧ (s.ents ce).block = k ∧
      0 < (s.ents ce).lock := by
  cases hlook : hashLookup s.ht k with
  | none =>
    have hnone : (cacheStore s).buf k = none := storeOn_none hlook
    unfold lockOf at hk
    rw [hnone] at hk
    exact absurd hk (lt_irrefl _)
  | some ce =>
    obtain ⟨hce, rfl⟩ := h.listed hlook
    rw [lockOf_entry h hce] at hk
    exact ⟨ce, rfl, hce, rfl, hk⟩

theorem unlock_fits {lock : ℤ} (hfits : lock < 2 ^ 31) (hpos : 0 < lock) :
    toInt32 (lock - 1) = lock - 1 :=
  toInt32_of_lt (Int.sub_nonneg_of_le hpos) (by omega)

/-- One lock of an entry is given up; with the last one the entry changes lists. -/
theorem unlockEnt_ok (h : Rests size s xs) (hce : Listed xs ce) {f : CacheEnt β → CacheEnt β}
    (hf : Fits (s.ents ce) (f (s.ents ce))) (hpos : 0 < (s.ents ce).lock) :
    ∃ s' xs', (if ((setEnt s ce f).ents ce).lock = 0 then
        addToHead (deleteFromList (setEnt s ce f) .locked ce) .normal ce
        else .ok (setEnt s ce f)) = .ok s' ∧ Rests size s' xs' ∧
      s' = { setEnt s ce f with links := s'.links, lists := s'.lists } := by
  have hself : (setEnt s ce f).ents ce = f (s.ents ce) := Function.update_self ..
  have hold : lockedName (s.ents ce).lock = .locked := if_neg hpos.ne'
  rw [hself]
  split
  · rename_i hzero
    obtain ⟨s', xs', hadd, hrests, hsame⟩ := rests_rehead h hce hf
    rw [hold, hzero] at hadd
    exact ⟨s', xs', hadd, hrests, hsame⟩
  · rename_i hmore
    exact ⟨_, xs, rfl, rests_setEnt h hce hf (by rw [hold]; exact if_neg hmore), rfl⟩

/-- What a change of the buffer of one block makes of the store. -/
theorem onBuf_entry (h : Rests size s xs) (hce : Listed xs ce)
    (f : Buf β Callback → Buf β Callback) :
    onBuf (cacheStore s) (s.ents ce).block f = { cacheStore s with
      buf := Function.update (cacheStore s).buf (s.ents ce).block
        (some (f (bufOf (s.ents ce)))) } := by
  have hbuf : (cacheStore s).buf (s.ents ce).block = some (bufOf (s.ents ce)) :=
    storeOn_buf (h.lookup hce)
  unfold onBuf
  rw [hbuf]
  rfl

theorem modifyBlock_ok (h : Rests size s xs) {dev bnum : ℤ} (v : β)
    (hk : 0 < lockOf (cacheStore s) ⟨dev, bnum⟩) :
    Became size [.modify ⟨dev, bnum⟩ v] s (modifyBlock s dev bnum v) := by
  obtain ⟨ce, hlook, hce, hblock, hpos⟩ := locked_entry h hk
  have hrun : modifyBlock s dev bnum v = setEnt s ce fun c => { c with data := v } := by
    unfold modifyBlock
    rw [hlook]
  have hbuf : (cacheStore s).buf ⟨dev, bnum⟩ = some (bufOf (s.ents ce)) := storeOn_buf hlook
  rw [hrun]
  refine ⟨⟨xs, rests_setEnt h hce ⟨rfl, h.idle ce hce, rfl, h.lock ce hce, h.calls ce hce⟩ rfl⟩,
    ⟨⟨_, hbuf, hpos⟩, trivial⟩, ?_, rfl, rfl, rfl⟩
  rw [store_setEnt h hce]
  change onBuf (cacheStore s) ⟨dev, bnum⟩ _ = _
  rw [← hblock, onBuf_entry h hce]
  rfl

theorem releaseBlock_ok (h : Rests size s xs) {dev bnum : ℤ}
    (hk : 0 < lockOf (cacheStore s) ⟨dev, bnum⟩) :
    ∃ s', releaseBlock s dev bnum = .ok (0, s') ∧ Became size [.unlock ⟨dev, bnum⟩] s s' := by
  obtain ⟨ce, hlook, hce, hblock, hpos⟩ := locked_entry h hk
  have hbnum : (s.ents ce).blockNum = bnum := congrArg Block.bnum hblock
  have hdev : (s.ents ce).dev = dev := congrArg Block.dev hblock
  have hbuf : (cacheStore s).buf ⟨dev, bnum⟩ = some (bufOf (s.ents ce)) := storeOn_buf hlook
  have hlock := unlock_fits (h.lock ce hce) hpos
  obtain ⟨s', xs', hunlock, hrests, hsame⟩ := unlockEnt_ok h hce
    (f := fun c => { c with lock := toInt32 (c.lock - 1) })
    ⟨rfl, h.idle ce hce, rfl, toInt32_lt _, h.calls ce hce⟩ hpos
  refine ⟨s', ?_, ⟨xs', hrests⟩, ⟨⟨_, hbuf, hpos⟩, trivial⟩, ?_, ?_, ?_, ?_⟩
  · unfold releaseBlock
    rw [blockLookup_idle h, hlook]
    simp only [bind, Except.bind, hbnum, hdev, ne_eq, not_true_eq_false, or_self, if_false]
    split at hunlock
    · rename_i hzero
      rw [if_pos hzero, hunlock]
    · rename_i hmore
      rw [if_neg hmore, Except.ok.inj hunlock]
  · rw [store_change h hce hsame, hlock]
    change onBuf (cacheStore s) ⟨dev, bnum⟩ _ = _
    rw [← hblock, onBuf_entry h hce]
    rfl
  · rw [hsame]
    rfl
  · rw [hsame]
    rfl
  · rw [hsame]
    rfl

theorem markBlocksDirty_ok {dev : ℤ} (n : ℕ) : ∀ {bnum : ℤ} {s : Cache β} {xs : Members},
    Rests size s xs → (∀ i < n, 0 < lockOf (cacheStore s) ⟨dev, bnum + (i : ℕ)⟩) →
    ∃ s', markBlocksDirty dev bnum n s = .ok (0, s') ∧
      Became size ((newBlocks dev bnum n).map .mark) s s' := by
  induction n with
  | zero => exact fun h _ => ⟨_, rfl, .refl h⟩
  | succ n ih =>
    intro bnum s xs h hlocked
    have hfirst := hlocked 0 (Nat.succ_pos n)
    rw [Nat.cast_zero, add_zero] at hfirst
    obtain ⟨ce, hlook, hce, hblock, hpos⟩ := locked_entry h hfirst
    have hbuf : (cacheStore s).buf ⟨dev, bnum⟩ = some (bufOf (s.ents ce)) := storeOn_buf hlook
    have hrests := rests_setEnt h hce (f := fun c => { c with dirty := true })
      ⟨rfl, h.idle ce hce, rfl, h.lock ce hce, h.calls ce hce⟩ rfl
    have hmark : Became size [.mark ⟨dev, bnum⟩] s
        (setEnt s ce fun c => { c with dirty := true }) := by
      refine ⟨⟨xs, hrests⟩, ⟨⟨_, hbuf⟩, trivial⟩, ?_, rfl, rfl, rfl⟩
      rw [store_setEnt h hce]
      change onBuf (cacheStore s) ⟨dev, bnum⟩ _ = _
      rw [← hblock, onBuf_entry h hce]
      rfl
    have hnext : ∀ i : ℕ, bnum + 1 + (i : ℤ) = bnum + (i + 1 : ℕ) := fun i => by
      push_cast
      ring
    obtain ⟨s', hrun, hbecame⟩ := ih hrests fun i hi => by
      have hi' := hlocked (i + 1) (Nat.succ_lt_succ hi)
      rw [hnext, ← hmark.store]
      exact hi'.trans_eq (lockOf_onBuf (f := fun b => { b with dirty := true }) _ fun _ => rfl).symm
    refine ⟨s', ?_, ?_⟩
    · rw [markBlocksDirty, blockLookup_idle h, hlook]
      exact hrun
    · have hblocks : newBlocks dev bnum (n + 1) = ⟨dev, bnum⟩ :: newBlocks dev (bnum + 1) n := by
        unfold newBlocks
        rw [List.range_succ_eq_map, List.map_cons, List.map_map, Nat.cast_zero, add_zero]
        refine congrArg _ (List.map_congr_left fun i _ => ?_)
        simp only [Function.comp_apply, hnext, Nat.succ_eq_add_one]
      rw [hblocks, List.map_cons]
      exact hmark.trans hbecame

end Entries

section Claiming
variable {s s' : Cache β} {xs : Members} {size : ℤ → ℕ} {dev : ℤ}

theorem heldDirty_entry (h : Rests size s xs) {k : Block} (hk : HeldDirty (cacheStore s) k) :
    ∃ ce, hashLookup s.ht k = some ce ∧ Listed xs ce ∧ (s.ents ce).block = k ∧
      0 < (s.ents ce).lock ∧ (s.ents ce).dirty = true := by
  obtain ⟨b, hb, hdirty, hlock⟩ := hk
  obtain ⟨ce, hlook, hce, hblock, hpos⟩ := locked_entry (k := k) h (by
    unfold lockOf
    rw [hb]
    exact hlock)
  rw [show (cacheStore s).buf k = some (bufOf (s.ents ce)) from storeOn_buf hlook] at hb
  obtain rfl := Option.some.inj hb
  exact ⟨ce, hlook, hce, hblock, hpos, hdirty⟩

/-- Some blocks have been claimed: their entries are marked, and those whose clones have to be
flushed are in the batch. -/
structure Claimed (s : Cache β) (xs : Members) (dev : ℤ) (rest : List ℤ) (p : ℕ → Bool)
    (ents : List ℕ) : Prop where
  nodup : ents.Nodup
  listed : ∀ ce ∈ ents, Listed xs ce ∧ p ce = true
  before : ∀ ce, p ce = true → ∀ b ∈ rest, (s.ents ce).block ≠ ⟨dev, b⟩

theorem Claimed.swept {swept ents : List ℕ} {rest : List ℤ} {p : ℕ → Bool}
    (h : Claimed s xs dev rest p ents) (hs : Swept size xs swept s s') :
    Claimed s' xs dev rest (fun ce => p ce && ce ∉ ents) [] := by
  refine ⟨List.nodup_nil, fun _ hce => (List.not_mem_nil hce).elim, fun ce hce b hb => ?_⟩
  rw [(hs.kept ce).block]
  exact h.before ce (Bool.and_eq_true_iff.mp hce).1 b hb

/-- One more block is claimed. -/
theorem Claimed.cons {ents : List ℕ} {rest : List ℤ} {p : ℕ → Bool} {b : ℤ} {ce : ℕ}
    (h : Claimed s xs dev (b :: rest) p ents) (hb : b ∉ rest) (hce : (s.ents ce).block = ⟨dev, b⟩) :
    Claimed s xs dev rest (fun c => p c || c = ce) ents := by
  refine ⟨h.nodup, fun c hc => ⟨(h.listed c hc).1, ?_⟩, fun c hc b' hb' heq => ?_⟩
  · rw [(h.listed c hc).2, Bool.true_or]
  · rcases Bool.or_eq_true_iff.mp hc with hc | hc
    · exact h.before c hc b' (List.mem_cons_of_mem _ hb') heq
    · rw [of_decide_eq_true hc, hce] at heq
      obtain rfl : b = b' := congrArg Block.bnum heq
      exact hb hb'

theorem Claimed.snoc {ents : List ℕ} {rest : List ℤ} {p : ℕ → Bool} {ce : ℕ}
    (h : Claimed s xs dev rest (fun c => p c || c = ce) ents) (hce : Listed xs ce)
    (hnot : ce ∉ ents) : Claimed s xs dev rest (fun c => p c || c = ce) (ents ++ [ce]) := by
  refine ⟨?_, fun c hc => ?_, h.before⟩
  · refine List.nodup_append.mpr ⟨h.nodup, List.nodup_singleton ce, ?_⟩
    rintro a ha c hc rfl
    rw [List.mem_singleton.mp hc] at ha
    exact hnot ha
  · rcases List.mem_append.mp hc with hc | hc
    · exact h.listed c hc
    · rw [List.mem_singleton.mp hc]
      exact ⟨hce, by simp⟩

/-- One block is claimed, and if the batch is full it is flushed. -/
theorem claimBlocks_step (nblocks : ℕ) (blocks : List ℤ) {p : ℕ → Bool} {ents : List ℕ} {b : ℤ}
    {ce : ℕ} (h : Rests size s xs) (hb : b ∉ blocks) (hlook : hashLookup s.ht ⟨dev, b⟩ = some ce)
    (hpos : 0 < (s.ents ce).lock) (hdirty : (s.ents ce).dirty = true)
    (hcl : Claimed s xs dev (b :: blocks) p ents) :
    ∃ p₁ ents₁ swept s₁, claimBlocks dev nblocks (b :: blocks) ents (marked p s) =
        claimBlocks dev nblocks blocks ents₁ (marked p₁ s₁) ∧ Swept size xs swept s s₁ ∧
      Claimed s₁ xs dev blocks p₁ ents₁ ∧ (∀ c, p₁ c = true → p c = true ∨ c = ce) ∧
      ∀ c, Listed xs c → c ∈ ents ∨ (s.ents c).clone = none ∨ c = ce →
        c ∈ ents₁ ∨ (s₁.ents c).clone = none := by
  obtain ⟨hce, hblock⟩ := h.listed hlook
  have hbnum : (s.ents ce).blockNum = b := congrArg Block.bnum hblock
  have hdev : (s.ents ce).dev = dev := congrArg Block.dev hblock
  have hfree : p ce = false := by
    by_contra hp
    exact hcl.before ce (Bool.not_eq_false _ ▸ hp) b List.mem_cons_self hblock
  have hself : (marked p s).ents ce = s.ents ce := by simp [marked, hfree]
  have hnext := hcl.cons hb hblock
  have hmark : ∀ c, (p c || decide (c = ce)) = true → p c = true ∨ c = ce := fun c hc =>
    (Bool.or_eq_true_iff.mp hc).imp id of_decide_eq_true
  have hlookup : blockLookup (marked p s) ⟨dev, b⟩ = .ok (some ce) := by
    rw [blockLookup_marked h, hlook]
    intro c hc
    rwa [Option.some.inj (hc.symm.trans hlook)]
  rw [claimBlocks, hlookup]
  simp only [bind, Except.bind, hself, hbnum, hdev, ne_eq, not_true_eq_false, or_self, if_false,
    hpos.ne', hdirty, Bool.true_eq_false, setBusy_marked]
  split
  · rename_i hcloned
    have hnot : ce ∉ ents := fun hin => by
      rw [(hcl.listed ce hin).2] at hfree
      cases hfree
    have hsnoc := hnext.snoc hce hnot
    split
    · obtain ⟨s₁, hflush, hswept⟩ := flushBatch_swept h (fun c => p c || decide (c = ce))
        hsnoc.nodup fun c hc => (hsnoc.listed c hc).1
      rw [hflush]
      refine ⟨_, _, _, s₁, rfl, hswept, hsnoc.swept hswept, fun c hc => ?_, fun c hc hany =>
        .inr ?_⟩
      · exact hmark c (Bool.and_eq_true_iff.mp hc).1
      · by_cases hin : c ∈ ents ++ [ce]
        · exact (hswept.done c hin).1
        · rw [hswept.others c hin]
          rw [List.mem_append, List.mem_singleton, not_or] at hin
          exact (hany.resolve_left hin.1).resolve_right hin.2
    · refine ⟨_, _, _, s, rfl, .refl h, hsnoc, hmark, fun c _ hany => ?_⟩
      rcases hany with hin | hnone | rfl
      · exact .inl (List.mem_append_left _ hin)
      · exact .inr hnone
      · exact .inl (List.mem_append_right _ List.mem_cons_self)
  · rename_i hplain
    refine ⟨_, _, _, s, rfl, .refl h, hnext, hmark, fun c hc hany => ?_⟩
    rcases hany with hin | hnone | rfl
    · exact .inl hin
    · exact .inr hnone
    · refine .inr ?_
      by_contra hclone
      have hfunc := mt (h.calls c hce).mpr hclone
      exact hplain ⟨Option.isSome_iff_ne_none.mpr hclone, Option.isSome_iff_ne_none.mpr hfunc⟩

/-- All the blocks are claimed, and the clones that they have are flushed batch by batch. -/
theorem claimBlocks_swept (nblocks : ℕ) (blocks : List ℤ) :
    ∀ {p : ℕ → Bool} {ents : List ℕ} {s : Cache β}, Rests size s xs → blocks.Nodup →
      (∀ b ∈ blocks, HeldDirty (cacheStore s) ⟨dev, b⟩) → Claimed s xs dev blocks p ents →
      ∃ ents' p' swept s', claimBlocks dev nblocks blocks ents (marked p s) =
          .ok (ents', marked p' s') ∧ Swept size xs swept s s' ∧ Claimed s' xs dev [] p' ents' ∧
        (∀ ce, p' ce = true → p ce = true ∨
          Listed xs ce ∧ ∃ b ∈ blocks, (s'.ents ce).block = ⟨dev, b⟩) ∧
        ∀ ce, Listed xs ce → ce ∈ ents ∨ (s.ents ce).clone = none ∨
            (∃ b ∈ blocks, (s.ents ce).block = ⟨dev, b⟩) →
          ce ∈ ents' ∨ (s'.ents ce).clone = none := by
  induction blocks with
  | nil =>
    intro p ents s h _ _ hcl
    refine ⟨ents, p, [], s, rfl, .refl h, hcl, fun ce hce => .inl hce, fun ce _ hany => ?_⟩
    rcases hany with hin | hnone | hb
    · exact .inl hin
    · exact .inr hnone
    · simp at hb
  | cons b blocks ih =>
    intro p ents s h hnodup hheld hcl
    obtain ⟨hb, hnodup'⟩ := List.nodup_cons.mp hnodup
    obtain ⟨ce, hlook, hce, hblock, hpos, hdirty⟩ :=
      heldDirty_entry h (hheld b List.mem_cons_self)
    have honly : ∀ c, Listed xs c → (s.ents c).block = ⟨dev, b⟩ → c = ce := by
      intro c hc heq
      have hfound := h.lookup hc
      rw [heq, hlook] at hfound
      exact (Option.some.inj hfound).symm
    obtain ⟨p₁, ents₁, swept₁, s₁, hstep, hswept₁, hcl₁, hmarks, hthis⟩ :=
      claimBlocks_step nblocks blocks h hb hlook hpos hdirty hcl
    -- the other blocks, once this one has been dealt with
    obtain ⟨ents', p', swept, s', hrun, hswept, hcl', hmarks', hclones⟩ :=
      ih hswept₁.rests hnodup' (fun b' hb' =>
        (hheld b' (List.mem_cons_of_mem _ hb')).reaches hswept₁.performs.reaches) hcl₁
    refine ⟨ents', p', _, s', hstep.trans hrun, hswept₁.trans hswept, hcl', fun c hc => ?_,
      fun c hc hany => ?_⟩
    · rcases hmarks' c hc with hp | ⟨hlisted, b', hb', heq⟩
      · refine (hmarks c hp).imp id fun heq => ?_
        subst heq
        refine ⟨hce, b, List.mem_cons_self, ?_⟩
        rw [((hswept₁.kept c).trans (hswept.kept c)).block, hblock]
      · exact .inr ⟨hlisted, b', List.mem_cons_of_mem _ hb', heq⟩
    · refine hclones c hc ?_
      have hfirst : c ∈ ents ∨ (s.ents c).clone = none ∨ c = ce →
          c ∈ ents₁ ∨ (s₁.ents c).clone = none ∨
            ∃ b' ∈ blocks, (s₁.ents c).block = ⟨dev, b'⟩ := fun hc' =>
        (hthis c hc hc').imp id .inl
      rcases hany with hin | hnone | ⟨b', hb', heq⟩
      · exact hfirst (.inl hin)
      · exact hfirst (.inr (.inl hnone))
      · rcases List.mem_cons.mp hb' with rfl | hb'
        · exact hfirst (.inr (.inr (honly c hc heq)))
        · exact .inr (.inr ⟨b', hb', (hswept₁.kept c).block.trans heq⟩)

/-- A block that is locked but not dirty stops them. -/
theorem claimBlocks_stops (nblocks : ℕ) (blocks : List ℤ) :
    ∀ {p : ℕ → Bool} {ents : List ℕ} {s : Cache β}, Rests size s xs → blocks.Nodup →
      (∀ b ∈ blocks, 0 < lockOf (cacheStore s) ⟨dev, b⟩) →
      (∃ b ∈ blocks, ¬HeldDirty (cacheStore s) ⟨dev, b⟩) → Claimed s xs dev blocks p ents →
      ∃ s', claimBlocks dev nblocks blocks ents (marked p s) = .error (.infoNotDirty, s') := by
  induction blocks with
  | nil =>
    rintro p ents s - - - ⟨b, hb, -⟩ -
    exact (List.not_mem_nil hb).elim
  | cons b blocks ih =>
    intro p ents s h hnodup hheld hclean hcl
    obtain ⟨hb, hnodup'⟩ := List.nodup_cons.mp hnodup
    obtain ⟨ce, hlook, hce, hblock, hpos⟩ := locked_entry h (hheld b List.mem_cons_self)
    have hbuf : (cacheStore s).buf ⟨dev, b⟩ = some (bufOf (s.ents ce)) := storeOn_buf hlook
    by_cases hdirty : (s.ents ce).dirty = true
    · obtain ⟨p₁, ents₁, swept₁, s₁, hstep, hswept₁, hcl₁, -, -⟩ :=
        claimBlocks_step nblocks blocks h hb hlook hpos hdirty hcl
      rw [hstep]
      refine ih hswept₁.rests hnodup' (fun b' hb' => ?_) ?_ hcl₁
      · exact (hheld b' (List.mem_cons_of_mem _ hb')).trans_le
          (hswept₁.performs.reaches.lockOf_le _)
      · obtain ⟨b', hb', hnot⟩ := hclean
        rcases List.mem_cons.mp hb' with rfl | hb'
        · exact absurd ⟨_, hbuf, hdirty, hpos⟩ hnot
        · exact ⟨b', hb', fun hheld' => hnot (hheld'.before hswept₁.performs)⟩
    · have hfree : p ce = false := by
        by_contra hp
        exact hcl.before ce (Bool.not_eq_false _ ▸ hp) b List.mem_cons_self hblock
      have hself : (marked p s).ents ce = s.ents ce := by simp [marked, hfree]
      have hbnum : (s.ents ce).blockNum = b := congrArg Block.bnum hblock
      have hdev : (s.ents ce).dev = dev := congrArg Block.dev hblock
      have hlookup : blockLookup (marked p s) ⟨dev, b⟩ = .ok (some ce) := by
        rw [blockLookup_marked h, hlook]
        intro c hc
        rwa [Option.some.inj (hc.symm.trans hlook)]
      refine ⟨marked p s, ?_⟩
      rw [claimBlocks, hlookup]
      simp only [bind, Except.bind, hself, hbnum, hdev, ne_eq, not_true_eq_false, or_self, if_false,
        hpos.ne', Bool.not_eq_true _ ▸ hdirty, if_true]

end Claiming

section Registering
variable {s s' : Cache β} {xs : Members} {size : ℤ → ℕ} {dev : ℤ} {p : ℕ → Bool} {ce : ℕ}

/-- The contents of the entry are set aside, and one lock is given up. -/
def registered (f : ℕ) (b : ℤ) (arg : ℕ) (c : CacheEnt β) : CacheEnt β :=
  { c with
    dirty := false
    busy := false
    clone := some c.data
    func := some f
    arg := arg
    loggedBnum := b
    lock := toInt32 (c.lock - 1) }

theorem registered_buf (f : ℕ) (b : ℤ) (arg : ℕ) {c : CacheEnt β} (hfits : c.lock < 2 ^ 31)
    (hpos : 0 < c.lock) : bufOf (registered f b arg c) = { bufOf c with
      clone := some c.data
      func := some ⟨f, b, arg⟩
      dirty := false
      lock := c.lock - 1 } := by
  unfold registered bufOf FlushCompleteness.callback
  dsimp only
  rw [unlock_fits hfits hpos]
  rfl

theorem addToHead_marked {cel : ListName} (h : addToHead s cel ce = .ok s') (p : ℕ → Bool) :
    addToHead (marked p s) cel ce = .ok (marked p s') := by
  unfold addToHead at h ⊢
  split at h
  · cases h
  · rename_i hlinks
    obtain rfl := Except.ok.inj h
    exact if_neg hlinks

theorem deleteFromList_marked (p : ℕ → Bool) (s : Cache β) (cel : ListName) (ce : ℕ) :
    deleteFromList (marked p s) cel ce = marked p (deleteFromList s cel ce) := rfl

/-- The cache has noted that a block is registered. -/
def noted (s : Cache β) (o : Obs Block β Callback) : Cache β := { s with log := s.log ++ [o] }

/-- What the loop of `set_blocks_info` makes of one entry. -/
theorem setEnt_registered (ce : ℕ) (s : Cache β) (p : ℕ → Bool) (f : ℕ) (b : ℤ) (arg : ℕ)
    (o : Obs Block β Callback) :
    noted (setEnt (setEnt (marked p s) ce fun c => { c with dirty := false, busy := false }) ce
        fun c => { c with
          clone := some c.data
          func := some f
          arg := arg
          loggedBnum := b
          lock := toInt32 (c.lock - 1) }) o =
      marked (fun c => p c && c ≠ ce) (setEnt (noted s o) ce (registered f b arg)) := by
  unfold noted marked setEnt
  dsimp only
  congr 1
  funext c
  by_cases hc : c = ce
  · subst hc
    by_cases hp : p c = true <;> simp [hp, registered]
  · simp [hc]

/-- One block of `set_blocks_info`, and then the others. -/
theorem setInfo_step (h : Rests size s xs) {b : ℤ} (hlook : hashLookup s.ht ⟨dev, b⟩ = some ce)
    (hpos : 0 < (s.ents ce).lock) (hclone : (s.ents ce).clone = none) (f arg : ℕ)
    (blocks : List ℤ) :
    ∃ s₁, setInfo dev (some f) arg (b :: blocks) (marked p s) =
        setInfo dev (some f) arg blocks (marked (fun c => p c && c ≠ ce) s₁) ∧
      Became size [.register ⟨dev, b⟩ ⟨f, b, arg⟩] s s₁ ∧ ∀ c, c ≠ ce → s₁.ents c = s.ents c := by
  obtain ⟨hce, hblock⟩ := h.listed hlook
  have hfunc := (h.calls ce hce).mp hclone
  have hbuf : (cacheStore s).buf ⟨dev, b⟩ = some (bufOf (s.ents ce)) := storeOn_buf hlook
  have hnoted : Rests size (noted s (.registered ⟨dev, b⟩ (s.ents ce).data ⟨f, b, arg⟩)) xs :=
    h.congr rfl le_rfl fun c hc => ⟨rfl, rfl, rfl, h.idle c hc, h.calls c hc⟩
  obtain ⟨s₁, xs₁, hunlock, hrests, hsame⟩ := unlockEnt_ok hnoted hce (f := registered f b arg)
    ⟨rfl, rfl, rfl, toInt32_lt _, by simp [registered]⟩ hpos
  have hself : (setEnt (marked p s) ce fun c => { c with dirty := false, busy := false }).ents ce =
      { s.ents ce with dirty := false, busy := false } := by
    refine (Function.update_self ..).trans ?_
    unfold marked
    dsimp only
    split <;> rfl
  have hstate := setEnt_registered ce s p f b arg
    (.registered ⟨dev, b⟩ (s.ents ce).data ⟨f, b, arg⟩)
  have hlock : ((marked (fun c => p c && c ≠ ce) (setEnt (noted s (.registered ⟨dev, b⟩
      (s.ents ce).data ⟨f, b, arg⟩)) ce (registered f b arg))).ents ce).lock =
        ((setEnt (noted s (.registered ⟨dev, b⟩ (s.ents ce).data ⟨f, b, arg⟩)) ce
          (registered f b arg)).ents ce).lock := by simp [marked]
  generalize hcode : noted (setEnt (setEnt (marked p s) ce fun c =>
      { c with dirty := false, busy := false }) ce fun c => { c with
        clone := some c.data
        func := some f
        arg := arg
        loggedBnum := b
        lock := toInt32 (c.lock - 1) })
      (.registered ⟨dev, b⟩ (s.ents ce).data ⟨f, b, arg⟩) = t at hstate
  have hrun : setInfo dev (some f) arg (b :: blocks) (marked p s) = if (t.ents ce).lock = 0 then
      (addToHead (deleteFromList t .locked ce) .normal ce).bind (setInfo dev (some f) arg blocks)
      else setInfo dev (some f) arg blocks t := by
    rw [setInfo, marked_ht, hlook, ← hcode]
    simp only [hself, hfunc, hclone, ne_eq, not_true_eq_false, if_false]
    rfl
  refine ⟨s₁, ?_, ⟨⟨xs₁, hrests⟩, ⟨⟨_, hbuf, hpos, hclone⟩, trivial⟩, ?_, ?_, ?_, ?_⟩,
    fun c hc => ?_⟩
  · rw [hrun, hstate, hlock]
    split at hunlock
    · rename_i hzero
      rw [if_pos hzero]
      rw [deleteFromList_marked, addToHead_marked hunlock]
      rfl
    · rename_i hmore
      rw [if_neg hmore, Except.ok.inj hunlock]
  · rw [store_change hnoted hce hsame, registered_buf f b arg (hnoted.lock ce hce) hpos,
      runTrace_cons, runTrace_nil]
    simp only [apply, hbuf]
    rw [← hblock, onBuf_entry h hce]
    rfl
  · rw [hsame]
    rfl
  · rw [hsame]
    rfl
  · rw [hsame]
    rfl
  · rw [hsame]
    exact Function.update_of_ne hc _ _

theorem setInfo_ok (f arg : ℕ) (blocks : List ℤ) : ∀ {p : ℕ → Bool} {s : Cache β} {xs : Members},
    Rests size s xs → blocks.Nodup →
    (∀ b ∈ blocks, ∃ ce, hashLookup s.ht ⟨dev, b⟩ = some ce ∧ 0 < (s.ents ce).lock ∧
      (s.ents ce).clone = none) →
    (∀ ce, p ce = true → ∃ b ∈ blocks, hashLookup s.ht ⟨dev, b⟩ = some ce) →
    ∃ s', setInfo dev (some f) arg blocks (marked p s) = .ok s' ∧
      Became size (blocks.map fun b => .register ⟨dev, b⟩ ⟨f, b, arg⟩) s s' := by
  induction blocks with
  | nil =>
    intro p s xs h _ _ hmarks
    have hnone : p = fun _ => false := by
      funext ce
      by_contra hp
      obtain ⟨b, hb, -⟩ := hmarks ce (Bool.not_eq_false _ ▸ hp)
      exact List.not_mem_nil hb
    rw [hnone, marked_none]
    exact ⟨s, rfl, .refl h⟩
  | cons b blocks ih =>
    intro p s xs h hnodup hents hmarks
    obtain ⟨hb, hnodup'⟩ := List.nodup_cons.mp hnodup
    obtain ⟨ce, hlook, hpos, hclone⟩ := hents b List.mem_cons_self
    obtain ⟨s₁, hstep, hbecame, hothers⟩ := setInfo_step (p := p) h hlook hpos hclone f arg blocks
    obtain ⟨xs₁, hrests⟩ := hbecame.rests
    obtain ⟨s', hrun, hbecame'⟩ := ih (p := fun c => p c && c ≠ ce) hrests hnodup'
      (fun b' hb' => by
        obtain ⟨ce', hlook', hpos', hclone'⟩ := hents b' (List.mem_cons_of_mem _ hb')
        have hne : ce' ≠ ce := by
          rintro rfl
          have heq : b' = b :=
            congrArg Block.bnum ((h.listed hlook').2.symm.trans (h.listed hlook).2)
          exact hb (heq ▸ hb')
        refine ⟨ce', ?_, ?_, ?_⟩
        · rw [hbecame.ht]
          exact hlook'
        · rw [hothers ce' hne]
          exact hpos'
        · rw [hothers ce' hne]
          exact hclone')
      fun c hc => by
        obtain ⟨hp, hne⟩ := Bool.and_eq_true_iff.mp hc
        obtain ⟨b', hb', hlook'⟩ := hmarks c hp
        rcases List.mem_cons.mp hb' with rfl | hb'
        · exact absurd (Option.some.inj (hlook'.symm.trans hlook)) (of_decide_eq_true hne)
        · rw [hbecame.ht]
          exact ⟨b', hb', hlook'⟩
    rw [hstep]
    refine ⟨s', hrun, ?_⟩
    rw [List.map_cons]
    exact hbecame.trans hbecame'

/-- `set_blocks_info` panics over a block that is locked but not dirty. -/
theorem setBlocksInfo_stops (h : Rests size s xs) {blocks : List ℤ} (hnodup : blocks.Nodup)
    (hheld : ∀ b ∈ blocks, 0 < lockOf (cacheStore s) ⟨dev, b⟩)
    (hclean : ∃ b ∈ blocks, ¬HeldDirty (cacheStore s) ⟨dev, b⟩) (f arg : ℕ) :
    ∃ s', setBlocksInfo s dev blocks (some f) arg = .error (.infoNotDirty, s') := by
  obtain ⟨s', hclaim⟩ := claimBlocks_stops (p := fun _ => false) blocks.length blocks h hnodup hheld
    hclean ⟨List.nodup_nil, fun _ hce => (List.not_mem_nil hce).elim, fun _ hp => by cases hp⟩
  refine ⟨s', ?_⟩
  have hstart : marked (fun _ => false) s = s := marked_none s
  unfold setBlocksInfo
  rw [hstart] at hclaim
  rw [hclaim]
  rfl

/-- `set_blocks_info` flushes the clones that the blocks have and then registers the blocks. -/
theorem setBlocksInfo_ok (h : Rests size s xs) {blocks : List ℤ} (hnodup : blocks.Nodup)
    (hheld : ∀ b ∈ blocks, HeldDirty (cacheStore s) ⟨dev, b⟩) (f arg : ℕ) :
    ∃ ents s₁ s', setBlocksInfo s dev blocks (some f) arg = .ok (0, s') ∧
      Swept size xs ents s s₁ ∧
      Became size (blocks.map fun b => .register ⟨dev, b⟩ ⟨f, b, arg⟩) s₁ s' := by
  obtain ⟨ents, p, swept, s₁, hclaim, hswept, hclaimed, hmarks, hclones⟩ :=
    claimBlocks_swept (p := fun _ => false) blocks.length blocks h hnodup hheld
      ⟨List.nodup_nil, fun _ hce => (List.not_mem_nil hce).elim, fun _ hp => by cases hp⟩
  obtain ⟨s₂, hflush, hswept₂⟩ := flushBatch_swept hswept.rests p hclaimed.nodup fun ce hce =>
    (hclaimed.listed ce hce).1
  have hboth := hswept.trans hswept₂
  have hlast : (if ents = [] then marked p s₁ else flushBatch (marked p s₁) ents) =
      marked (fun ce => p ce && ce ∉ ents) s₂ := by
    split
    · rename_i hnil
      rw [← hflush, hnil]
      rfl
    · exact hflush
  have hentry : ∀ b ∈ blocks, ∃ ce, hashLookup s₂.ht ⟨dev, b⟩ = some ce ∧ 0 < (s₂.ents ce).lock ∧
      (s₂.ents ce).clone = none := by
    intro b hb
    obtain ⟨ce, hlook, hce, hblock, hpos, -⟩ := heldDirty_entry h (hheld b hb)
    refine ⟨ce, ?_, ?_, ?_⟩
    · rw [hboth.same]
      exact hlook
    · rw [(hboth.kept ce).lock]
      exact hpos
    · rcases hclones ce hce (.inr (.inr ⟨b, hb, hblock⟩)) with hin | hnone
      · exact (hswept₂.done ce hin).1
      · by_cases hin : ce ∈ ents
        · exact (hswept₂.done ce hin).1
        · rw [hswept₂.others ce hin]
          exact hnone
  obtain ⟨s', hrun, hbecame⟩ := setInfo_ok (p := fun ce => p ce && ce ∉ ents) f arg blocks
    hboth.rests hnodup hentry fun ce hce => by
      obtain ⟨hp, -⟩ := Bool.and_eq_true_iff.mp hce
      rcases hmarks ce hp with hfalse | ⟨hce, b, hb, hblock⟩
      · cases hfalse
      · rw [← (hswept₂.kept ce).block] at hblock
        exact ⟨b, hb, hblock ▸ hboth.rests.lookup hce⟩
  refine ⟨_, s₂, s', ?_, hboth, hbecame⟩
  have hstart : marked (fun _ => false) s = s := marked_none s
  unfold setBlocksInfo
  rw [hstart] at hclaim
  rw [hclaim]
  simp only [bind, Except.bind, hlast]
  rw [hrun]

end Registering

end CacheUsers
