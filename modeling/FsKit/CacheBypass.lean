import Mathlib.Tactic
import FsKit.CacheTransfers
import FsKit.PhysicalTransfers

/-! Transfers that go past the cache, and the calls of `cache_block_io` as a whole (`cache.c`).
What a large read finds in the cache takes the place of what it has read; before a large write the
clones of its blocks are flushed and the cached blocks get their new contents. -/
namespace CacheBypass

open MachineIntegers HashTable BlockCache WriteBackStore TransitionTrace CacheStructure CacheStores
open CacheRequests CacheTransfers
open FlushCompleteness (bufOf Works Kept Flushed flushCacheEnt_passed)

variable {β : Type}

section Reading
variable {s s' : Cache β} {xs : Members} {size : ℤ → ℕ} {m : Mirror Block β} {dev : ℤ}

/-- What the caller's buffer has for a block after a large read: what is cached, or else what has
been moved. -/
def overlaid (s : Cache β) (moved : Bool) (k : Block) : β :=
  match hashLookup s.ht k with
  | some ce => (s.ents ce).data
  | none => if moved then s.disk k else s.junk

theorem overlayBlocks_eq (h : Rests size s xs) (n : ℕ) : ∀ bnum moved,
    overlayBlocks s dev bnum moved n =
      .ok ((List.range n).map fun i : ℕ => overlaid s (decide (i < moved)) ⟨dev, bnum + i⟩) := by
  induction n with
  | zero => exact fun _ _ => rfl
  | succ n ih =>
    intro bnum moved
    have hsplit : ((List.range (n + 1)).map fun i : ℕ =>
          overlaid s (decide (i < moved)) ⟨dev, bnum + i⟩) =
        overlaid s (decide (0 < moved)) ⟨dev, bnum⟩ :: (List.range n).map fun i : ℕ =>
          overlaid s (decide (i < moved - 1)) ⟨dev, bnum + 1 + i⟩ := by
      rw [List.range_succ_eq_map, List.map_cons, List.map_map, Nat.cast_zero, add_zero]
      refine congrArg _ (List.map_congr_left fun i _ => ?_)
      simp only [Function.comp_apply, Nat.succ_eq_add_one, Nat.cast_add, Nat.cast_one,
        Nat.lt_sub_iff_add_lt]
      rw [add_assoc, add_comm (1 : ℤ)]
    rw [overlayBlocks, blockLookup_idle h, hsplit]
    unfold overlaid
    cases hfind : hashLookup s.ht ⟨dev, bnum⟩ with
    | none =>
      simp only [bind, Except.bind, ih]
      by_cases hmoved : moved = 0
      · simp [hmoved, overlaid]
      · simp [hmoved, Nat.pos_of_ne_zero hmoved, overlaid]
    | some ce =>
      obtain ⟨-, hblock⟩ := h.listed hfind
      have hbnum : (s.ents ce).blockNum = bnum := congrArg Block.bnum hblock
      have hdev : (s.ents ce).dev = dev := congrArg Block.dev hblock
      simp only [bind, Except.bind, ih, hbnum, hdev, ne_eq, not_true_eq_false, or_self, if_false,
        overlaid]

/-- What has been moved, overlaid with what is cached, is what the users of the cache see. -/
theorem overlaid_coherent (hc : Coherent (cacheStore s) m) (k : Block) :
    overlaid s true k = m.blocks k := by
  unfold overlaid
  cases hfind : hashLookup s.ht k with
  | none => exact coherent_disk hc (storeOn_none hfind)
  | some ce =>
    have hat := hc k
    rw [show (cacheStore s).buf k = some (bufOf (s.ents ce)) from storeOn_buf hfind] at hat
    exact hat.1

end Reading

section Writing
variable {s s' : Cache β} {xs : Members} {size : ℤ → ℕ} {m : Mirror Block β} {dev : ℤ} {ce : ℕ}

/-- Contents for the blocks from `bnum` on. -/
def numbered (dev : ℤ) : ℤ → List β → List (Block × β)
  | _, [] => []
  | bnum, v :: vs => (⟨dev, bnum⟩, v) :: numbered dev (bnum + 1) vs

theorem mem_numbered {vs : List β} : ∀ {bnum : ℤ} {w : Block × β}, w ∈ numbered dev bnum vs →
    w.1.dev = dev ∧ bnum ≤ w.1.bnum := by
  induction vs with
  | nil => exact fun hw => (List.not_mem_nil hw).elim
  | cons v vs ih =>
    intro bnum w hw
    rcases List.mem_cons.mp hw with rfl | hw
    · exact ⟨rfl, le_rfl⟩
    · obtain ⟨hdev, hle⟩ := ih hw
      exact ⟨hdev, by omega⟩

/-- The clone of a cached block is written, and what is newer with it if nobody has it locked. -/
theorem flushClone_ok (h : Rests size s xs) (hce : Listed xs ce) :
    ∃ s', (if (s.ents ce).clone.isSome then (flushCacheEnt s ce).2 else s) = s' ∧
      Flushed [ce] s s' ∧ (s'.ents ce).clone = none ∧ (s'.ents ce).func = none := by
  have hleads := h.leads (List.nodup_singleton ce) (List.forall_mem_singleton.mpr hce)
  by_cases hclone : (s.ents ce).clone.isSome
  · have hsome : (s.ents ce).clone ≠ none := Option.isSome_iff_ne_none.mp hclone
    obtain ⟨s', hrun, hpassed⟩ := flushCacheEnt_passed hleads.distinct List.mem_cons_self
      (fun hclean => hsome hclean.2) (.inl hsome) h.works
    have hnone := (hpassed.passed ce List.mem_cons_self).1
    refine ⟨s', by rw [if_pos hclone, hrun], hpassed.flushed, hnone, ?_⟩
    exact (flushed_calls hpassed.flushed hleads.distinct List.mem_cons_self
      (h.calls ce hce)).mp hnone
  · have hnone := Option.not_isSome_iff_eq_none.mp hclone
    exact ⟨s, if_neg hclone, .refl _ _, hnone, (h.calls ce hce).mp hnone⟩

/-- The blocks of a large write are ready: the clones have been flushed, and the cached blocks have
the new contents. -/
structure Updated (size : ℤ → ℕ) (xs : Members) (ws : List (Block × β)) (s s' : Cache β) :
    Prop where
  rests : Rests size s' xs
  same : s' = { s with ents := s'.ents, disk := s'.disk, ios := s'.ios, log := s'.log }
  store : ∃ kss : List (List Block), (∀ ks ∈ kss, ∀ k ∈ ks, k ∈ ws.map Prod.fst) ∧
    EveryStep apply Allowed (cacheStore s) (kss.map .flush) ∧
    cacheStore s' = setAll (runTrace apply (cacheStore s) (kss.map .flush)) ws
  block : ∀ ce, (s'.ents ce).block = (s.ents ce).block
  clones : ∀ ce, Listed xs ce → (s.ents ce).block ∈ ws.map Prod.fst → (s'.ents ce).clone = none
  others : ∀ ce, (s.ents ce).block ∉ ws.map Prod.fst → s'.ents ce = s.ents ce

theorem setData_absent {t : Store Block β Callback} {k : Block} (hk : t.buf k = none) (v : β) :
    setData t k v = t := by
  unfold setData onBuf
  rw [hk, Option.map_none, ← hk, Function.update_eq_self]

/-- A block that is not cached has nothing to update. -/
theorem Updated.skip {ws : List (Block × β)} (h : Updated size xs ws s s') (hr : Rests size s xs)
    {k : Block} (hk : hashLookup s.ht k = none) (v : β) : Updated size xs ((k, v) :: ws) s s' where
  rests := h.rests
  same := h.same
  store := by
    obtain ⟨kss, hcover, hallowed, hstore⟩ := h.store
    have hnone := (flushes_absent hallowed (storeOn_none hk)).2
    refine ⟨kss, fun ks hks k' hk' => List.mem_cons_of_mem _ (hcover ks hks k' hk'), hallowed, ?_⟩
    rw [hstore]
    change _ = setAll (setData _ k v) ws
    rw [setData_absent hnone]
  block := h.block
  clones ce hce hmem := by
    refine h.clones ce hce ((List.mem_cons.mp hmem).resolve_left fun heq => ?_)
    have hlook := hr.lookup hce
    rw [heq, hk] at hlook
    cases hlook
  others ce hce := h.others ce fun hmem => hce (List.mem_cons_of_mem _ hmem)

/-- The cached block is flushed if it has a clone, gets its new contents, and the others follow. -/
theorem Updated.cons {ws : List (Block × β)} {v : β} {s₁ : Cache β} (h : Rests size s xs)
    (hce : Listed xs ce) (hf : Flushed [ce] s s₁) (hclone : (s₁.ents ce).clone = none)
    (hnot : (s.ents ce).block ∉ ws.map Prod.fst)
    (hrest : Updated size xs ws (setEnt s₁ ce fun c => { c with data := v }) s') :
    Updated size xs (((s.ents ce).block, v) :: ws) s s' := by
  have hleads := h.leads (List.nodup_singleton ce) (List.forall_mem_singleton.mpr hce)
  have h₁ := h.flushed hf (List.nodup_singleton ce) (List.forall_mem_singleton.mpr hce)
  have hblock₁ : ∀ c, (s₁.ents c).block = (s.ents c).block := fun c => (hf.kept c).block
  have hself : (setEnt s₁ ce fun c => { c with data := v }).ents ce =
    { s₁.ents ce with data := v } :=
    Function.update_self ..
  have hother : ∀ c, c ≠ ce → (setEnt s₁ ce fun c => { c with data := v }).ents c = s₁.ents c :=
    fun c hc => Function.update_of_ne hc _ _
  have hblock₂ : ∀ c, ((setEnt s₁ ce fun c => { c with data := v }).ents c).block =
      (s.ents c).block := by
    intro c
    rw [← hblock₁ c]
    by_cases hc : c = ce
    · subst hc
      rw [hself]
      rfl
    · rw [hother c hc]
  refine ⟨hrest.rests, ?_, ?_, fun c => (hrest.block c).trans (hblock₂ c), fun c hc hmem => ?_,
    fun c hc => ?_⟩
  · rw [hrest.same, hf.same]
    rfl
  · obtain ⟨kss, hcover, hallowed, hstore⟩ := hrest.store
    obtain ⟨kss₀, hcover₀, hallowed₀, hrun₀⟩ := flushed_flushes hf hleads
    have hdata : cacheStore (setEnt s₁ ce fun c => { c with data := v }) =
        setData (cacheStore s₁) (s.ents ce).block v := by
      have hlook := h₁.lookup hce
      have hbuf : (cacheStore s₁).buf (s.ents ce).block = some (bufOf (s₁.ents ce)) := by
        rw [← hblock₁ ce]
        exact storeOn_buf hlook
      rw [store_setEnt h₁ hce, hblock₁ ce]
      unfold setData onBuf
      rw [hbuf]
      rfl
    rw [hdata] at hallowed hstore
    obtain ⟨hallowed', hrun⟩ :=
      flushes_setData (fun ks hks hin => hnot (hcover ks hks _ hin)) hallowed
    refine ⟨kss₀ ++ kss, fun ks hks k hk => ?_, ?_, ?_⟩
    · rcases List.mem_append.mp hks with hks | hks
      · obtain ⟨c, hc, rfl⟩ := hcover₀ ks hks k hk
        rw [List.mem_singleton.mp hc]
        exact List.mem_cons_self
      · exact List.mem_cons_of_mem _ (hcover ks hks k hk)
    · rw [List.map_append, everyStep_append]
      refine ⟨hallowed₀, ?_⟩
      change EveryStep apply Allowed (runTrace apply (storeOn s.ht s) _) _
      have hht : s₁.ht = s.ht := by rw [hf.same]
      rw [hrun₀, ← hht]
      exact hallowed'
    · have hht : s₁.ht = s.ht := by rw [hf.same]
      rw [hstore, hrun, List.map_append, runTrace_append]
      change _ = setAll (setData (runTrace apply (runTrace apply (storeOn s.ht s) _) _) _ v) ws
      rw [hrun₀, ← hht]
      rfl
  · by_cases heq : c = ce
    · subst heq
      rw [hrest.others c (by rw [hblock₂]; exact hnot), hself]
      exact hclone
    · refine hrest.clones c hc ?_
      rw [hblock₂]
      refine (List.mem_cons.mp hmem).resolve_left fun hb => heq ?_
      exact Option.some.inj ((h.lookup hc).symm.trans ((congrArg _ hb).trans (h.lookup hce)))
  · have hne : c ≠ ce := by
      rintro rfl
      exact hc List.mem_cons_self
    rw [hrest.others c (by rw [hblock₂]; exact fun hmem => hc (List.mem_cons_of_mem _ hmem)),
      hother c hne, hf.others c (by simpa using hne)]

theorem updateBlocks_ok (dev : ℤ) (vs : List β) : ∀ (bnum : ℤ) {s : Cache β}, Rests size s xs →
    ∃ s', updateBlocks dev bnum vs s = .ok s' ∧ Updated size xs (numbered dev bnum vs) s s' := by
  induction vs with
  | nil =>
    intro bnum s h
    refine ⟨s, rfl, h, rfl, ⟨[], ?_, trivial, rfl⟩, fun _ => rfl, ?_, fun _ _ => rfl⟩
    · exact fun _ hks => (List.not_mem_nil hks).elim
    · exact fun _ _ hmem => (List.not_mem_nil hmem).elim
  | cons v vs ih =>
    intro bnum s h
    rw [updateBlocks, blockLookup_idle h, numbered]
    cases hfind : hashLookup s.ht ⟨dev, bnum⟩ with
    | none =>
      obtain ⟨s', hrun, hupdated⟩ := ih (bnum + 1) h
      exact ⟨s', hrun, hupdated.skip h hfind v⟩
    | some ce =>
      obtain ⟨hce, hblock⟩ := h.listed hfind
      have hbnum : (s.ents ce).blockNum = bnum := congrArg Block.bnum hblock
      have hdev : (s.ents ce).dev = dev := congrArg Block.dev hblock
      obtain ⟨s₁, hflush, hf, hclone, hfunc⟩ := flushClone_ok h hce
      have h₁ := h.flushed hf (List.nodup_singleton ce) (List.forall_mem_singleton.mpr hce)
      obtain ⟨s', hrun, hupdated⟩ := ih (bnum + 1) (rests_setEnt h₁ hce
        (f := fun c => { c with data := v })
        ⟨rfl, h₁.idle ce hce, rfl, h₁.lock ce hce, h₁.calls ce hce⟩ rfl)
      refine ⟨s', ?_, ?_⟩
      · simp only [bind, Except.bind, hbnum, hdev, ne_eq, not_true_eq_false, or_self, if_false]
        rw [hflush]
        exact hrun
      · rw [← hblock]
        refine Updated.cons h hce hf hclone (fun hmem => ?_) hupdated
        obtain ⟨w, hw, heq⟩ := List.mem_map.mp hmem
        have hle := (mem_numbered hw).2
        rw [heq, hblock] at hle
        dsimp only at hle
        omega

theorem writeBlocks_eq (vs : List β) : ∀ (bnum : ℤ) (s : Cache β),
    writeBlocks dev bnum vs s = { s with
    disk := writeAll s.disk (numbered dev bnum vs)
    log := s.log ++ (numbered dev bnum vs).map fun w => .direct w.1 w.2 } := by
  induction vs with
  | nil =>
    intro bnum s
    rw [writeBlocks, numbered, List.map_nil, List.append_nil]
    rfl
  | cons v vs ih =>
    intro bnum s
    rw [writeBlocks, numbered, ih, List.map_cons]
    dsimp only
    rw [List.append_assoc]
    rfl

/-- The blocks `ws` of a large write have gone to the disk, the blocks `vs` have not. -/
theorem Updated.written {ws vs : List (Block × β)} (h : Updated size xs (ws ++ vs) s s') (ios : ℕ)
    (hios : s'.ios ≤ ios) :
    Rests size { s' with
        ios := ios
        disk := writeAll s'.disk ws
        log := s'.log ++ ws.map fun w => .direct w.1 w.2 } xs ∧
      ∃ t, Performs ws [] (cacheStore s) t ∧ cacheStore { s' with
        ios := ios
        disk := writeAll s'.disk ws
        log := s'.log ++ ws.map fun w => .direct w.1 w.2 } = setAll t vs := by
  obtain ⟨kss, -, hallowed, hstore⟩ := h.store
  refine ⟨h.rests.congr rfl hios fun ce hce => ⟨rfl, rfl, rfl, h.rests.idle ce hce,
    h.rests.calls ce hce⟩, _, (performs_flushes hallowed).trans (performs_directs ws ?_), ?_⟩
  · have hkept := setAll_kept (runTrace apply (cacheStore s) (kss.map .flush)) (ws ++ vs)
    intro w hw b hb
    obtain ⟨v, hv⟩ := hkept.2.2 w.1 b hb
    rw [← hstore] at hv
    cases hlook : hashLookup s'.ht w.1 with
    | none =>
      rw [show (cacheStore s').buf w.1 = none from storeOn_none hlook] at hv
      cases hv
    | some ce =>
      obtain ⟨hce, hblock⟩ := h.rests.listed hlook
      rw [show (cacheStore s').buf w.1 = some (bufOf (s'.ents ce)) from storeOn_buf hlook] at hv
      have hnone := h.clones ce hce (by
        rw [← h.block ce, hblock]
        exact List.mem_map_of_mem (List.mem_append_left _ hw))
      have hclone := congrArg Buf.clone (Option.some.inj hv)
      exact hclone.symm.trans hnone
  · have hkept := setAll_kept (runTrace apply (cacheStore s) (kss.map .flush)) (ws ++ vs)
    have hdisk : s'.disk = (runTrace apply (cacheStore s) (kss.map .flush)).disk := by
      rw [← hkept.1, ← hstore]
      rfl
    have hlog : s'.log = (runTrace apply (cacheStore s) (kss.map .flush)).log := by
      rw [← hkept.2.1, ← hstore]
      rfl
    rw [setAll_directAll]
    unfold directAll
    rw [← hstore, ← hdisk, ← hlog]
    rfl

end Writing

section Requests
variable [Zero β] {s : Cache β} {xs : Members} {size : ℤ → ℕ} {ls : List Block} {m : Mirror Block β}
  {op : Op} {dev bnum : ℤ} {data : Option (List β)} {numBlocks bsize : ℕ}

theorem writesOf_numbered (hkind : op.kind = .write) (n : ℕ) : ∀ (bnum : ℤ) (vs : List β),
    n ≤ vs.length → writesOf op dev bnum (some vs) n = numbered dev bnum (vs.take n) := by
  induction n with
  | zero =>
    intro bnum vs _
    rw [List.take_zero, writesOf, List.range_zero, List.map_nil, ite_self]
    rfl
  | succ n ih =>
    intro bnum vs hlen
    obtain ⟨v, vs, rfl⟩ := List.exists_cons_of_length_pos (Nat.zero_lt_of_lt hlen)
    rw [Nat.add_comm, writesOf_add, Nat.add_comm, List.take_succ_cons, numbered,
      show (some (v :: vs)).map (List.drop 1) = some vs from rfl,
      ih _ vs (Nat.le_of_succ_le_succ hlen), Nat.cast_one]
    have hone : writesOf op dev bnum (some (v :: vs)) 1 = [(⟨dev, bnum⟩, v)] := by
      simp [writesOf, contents, hkind, List.range_one]
    rw [hone]
    rfl

omit [Zero β] in
theorem numbered_append (dev : ℤ) (vs : List β) : ∀ (bnum : ℤ) (us : List β),
    numbered dev bnum (vs ++ us) = numbered dev bnum vs ++ numbered dev (bnum + vs.length) us := by
  induction vs with
  | nil =>
    intro bnum us
    simp [numbered]
  | cons v vs ih =>
    intro bnum us
    rw [List.cons_append, numbered, numbered, ih, List.length_cons, List.cons_append]
    push_cast
    rw [add_assoc bnum, add_comm (1 : ℤ)]

theorem movedBlocks_of_lt {numBlocks bsize : ℕ} (hpos : 0 < bsize)
    (h : numBlocks * bsize < 2 ^ 32) :
    movedBlocks numBlocks bsize = numBlocks := by
  unfold movedBlocks
  rw [toUint32_of_lt h, Nat.mul_div_cancel _ hpos]

/-- These are the whole blocks among what `read_phys_blocks` and `write_phys_blocks` move. -/
theorem movedBlocks_eq (toDisk : Bool) {replies : ℕ → PhysicalTransfers.Reply} (bnum : ℕ)
    {numBlocks bsize : ℕ} (h : ¬PhysicalTransfers.SomeFails replies numBlocks bsize) :
    movedBlocks numBlocks bsize = ((PhysicalTransfers.physBlocks replies toDisk bnum numBlocks
      bsize).2.moved.map PhysicalTransfers.Transfer.nbytes).sum / bsize := by
  rw [PhysicalTransfers.physBlocks_bytes toDisk bnum h]
  rfl

/-- A request has been answered: the cache is at rest again, and has done nothing to locks but
taken `ls`. Contents may have got lost. -/
structure Returned (size : ℤ → ℕ) (ls : List Block) (s : Cache β) (r : Reply β) (s' : Cache β) :
    Prop where
  rests : ∃ xs', Rests size s' xs'
  reaches : Reaches ls (cacheStore s) (cacheStore s')
  maxBlocks : s'.maxBlocks = s.maxBlocks
  maxDeviceBlocks : s'.maxDeviceBlocks = s.maxDeviceBlocks
  err : r.err = 0
  stays : Stays s s'

theorem served_returned {n : ℕ} {r : Reply β} {s' : Cache β}
    (h : Served size op dev bnum data n s r s') :
    Returned size (locksOf op dev bnum n) s r s' :=
  ⟨h.rests, h.performs.reaches, h.maxBlocks, h.maxDeviceBlocks, h.err, h.stays⟩

/-- A large read: what could be moved is in the caller's buffer. -/
theorem largeRead_ok (hw : Wellformed size op dev data numBlocks bsize) (h : Rests size s xs)
    (hlocked : op.locked = false) (hsome : data ≠ none) (hkind : op.kind = .read) :
    ∃ r s', largeIo s dev bnum data numBlocks bsize op = .ok (r, s') ∧ Returned size [] s r s' ∧
      (numBlocks * bsize < 2 ^ 32 → Served size op dev bnum data numBlocks s r s') := by
  obtain ⟨vs, rfl⟩ := Option.ne_none_iff_exists'.mp hsome
  have hio : s.io s.ios = true := h.works _ le_rfl
  have hrests : Rests size { s with ios := s.ios + 1 } xs :=
    h.congr rfl (Nat.le_succ _) fun ce hce => ⟨rfl, rfl, rfl, h.idle ce hce, h.calls ce hce⟩
  refine ⟨⟨0, (List.range numBlocks).map fun i : ℕ =>
      overlaid s (decide (i < movedBlocks numBlocks bsize)) ⟨dev, bnum + i⟩, none⟩,
    { s with ios := s.ios + 1 }, ?_, ⟨⟨xs, hrests⟩, .refl _, rfl, rfl, rfl, stays_of_ht rfl⟩,
    fun hshort => ⟨⟨xs, hrests⟩, ?_, rfl, rfl, rfl, fun m hc => ?_, fun hnone => absurd hnone hsome,
      fun hwrites => absurd hkind hwrites, stays_of_ht rfl⟩⟩
  · unfold largeIo transfer
    dsimp only
    rw [hlocked, if_neg Bool.false_ne_true, hkind]
    dsimp only
    rw [hio, if_pos rfl, overlayBlocks_eq hrests]
    rfl
  · have hlocks : locksOf op dev bnum numBlocks = [] := by
      unfold locksOf
      rw [hlocked]
      rfl
    rw [hlocks, show writesOf op dev bnum (some vs) numBlocks = [] from if_pos hkind]
    exact Performs.refl _
  · rw [show copied op dev bnum (some vs) numBlocks m.blocks = _ from if_pos ⟨rfl, hkind⟩]
    refine List.map_congr_left fun i hi => ?_
    rw [movedBlocks_of_lt (Nat.lt_of_lt_of_le (by decide) hw.big) hshort,
      decide_eq_true (List.mem_range.mp hi)]
    exact overlaid_coherent hc _

/-- A large write: what could be moved is on the disk, and all of it is in the cached blocks. -/
theorem largeWrite_ok (hw : Wellformed size op dev data numBlocks bsize) (h : Rests size s xs)
    (hlocked : op.locked = false) (hkind : op.kind = .write) :
    ∃ r s', largeIo s dev bnum data numBlocks bsize op = .ok (r, s') ∧ Returned size [] s r s' ∧
      (numBlocks * bsize < 2 ^ 32 → Served size op dev bnum data numBlocks s r s') := by
  obtain ⟨vs, rfl, hlen⟩ := hw.brings hkind
  obtain ⟨s₁, hrun, hupdated⟩ := updateBlocks_ok dev (vs.take numBlocks) bnum h
  have hio : s₁.io s₁.ios = true := hupdated.rests.works _ le_rfl
  have hsplit := numbered_append dev ((vs.take numBlocks).take (movedBlocks numBlocks bsize)) bnum
    ((vs.take numBlocks).drop (movedBlocks numBlocks bsize))
  rw [List.take_append_drop] at hsplit
  have hht : s₁.ht = s.ht := by rw [hupdated.same]
  have hmax : s₁.maxBlocks = s.maxBlocks := by rw [hupdated.same]
  have hlimit : s₁.maxDeviceBlocks = s.maxDeviceBlocks := by rw [hupdated.same]
  rw [hsplit] at hupdated
  obtain ⟨hrests, t, hperforms, hstore⟩ := hupdated.written (s₁.ios + 1) (Nat.le_succ _)
  refine ⟨⟨0, [], none⟩, _, ?_, ⟨⟨xs, hrests⟩, ?_, hmax, hlimit, rfl, stays_of_ht hht⟩,
    fun hshort => ⟨⟨xs, hrests⟩, ?_, hmax, hlimit, rfl, fun m _ => ?_,
      fun hnone => absurd hnone (Option.some_ne_none vs), fun _ hlocks => ?_, stays_of_ht hht⟩⟩
  · unfold largeIo
    dsimp only
    rw [hlocked, if_neg Bool.false_ne_true, hkind]
    dsimp only
    rw [hrun]
    unfold transfer
    simp only [bind, Except.bind, hio, if_true, writeBlocks_eq]
  · rw [hstore]
    exact hperforms.reaches.trans (reaches_setAll t _)
  · have hall : (vs.take numBlocks).take numBlocks = vs.take numBlocks := List.take_of_length_le
      (List.length_take_le _ _)
    have hnone : (vs.take numBlocks).drop numBlocks = [] := List.drop_eq_nil_of_le
      (List.length_take_le _ _)
    have hlocks : locksOf op dev bnum numBlocks = [] := by
      unfold locksOf
      rw [hlocked]
      rfl
    have hmoved := movedBlocks_of_lt (Nat.lt_of_lt_of_le (by decide) hw.big) hshort
    rw [hstore, hlocks, writesOf_numbered hkind _ _ _ hlen, hmoved, hnone]
    rw [hmoved, hall] at hperforms
    exact hperforms
  · exact (if_neg fun hread => by
      rw [hkind] at hread
      cases hread.2).symm
  · rw [hlocked] at hlocks
    cases hlocks

theorem largeIo_ok (hw : Wellformed size op dev data numBlocks bsize) (h : Rests size s xs)
    (hlocked : op.locked = false) (hsome : data ≠ none) :
    ∃ r s', largeIo s dev bnum data numBlocks bsize op = .ok (r, s') ∧ Returned size [] s r s' ∧
      (numBlocks * bsize < 2 ^ 32 → Served size op dev bnum data numBlocks s r s') := by
  cases hkind : op.kind with
  | noop => exact absurd (hw.empty hkind) hsome
  | read => exact largeRead_ok hw h hlocked hsome hkind
  | write => exact largeWrite_ok hw h hlocked hkind

/-- A request that the checks of `cache_block_io` let through, in a cache with room for it: no
call panics, waits or fails. -/
structure Welcome (size : ℤ → ℕ) (s : Cache β) (ls : List Block) (op : Op) (dev bnum : ℤ)
    (data : Option (List β)) (numBlocks bsize : ℕ) (dataptr : Bool) : Prop where
  wellformed : Wellformed size op dev data numBlocks bsize
  asked : 0 < numBlocks
  target : data = none → dataptr = true
  inside : bnum + numBlocks ≤ s.maxDeviceBlocks dev
  small : op.locked = true ∨ data = none → numBlocks * bsize < 64 * 1024
  room : ls.length + (if op.locked then numBlocks else 0) + numFlushBlocks ≤ s.maxBlocks
  lockable : op.locked = true → ∀ i < numBlocks, Lockable s ⟨dev, bnum + (i : ℕ)⟩

/-- Below 4 GB the request is also served. -/
theorem cacheBlockIo_ok {dataptr : Bool}
    (hw : Welcome size s ls op dev bnum data numBlocks bsize dataptr) (h : Rests size s xs)
    (hls : Holds s ls) :
    ∃ r s', cacheBlockIo s dev bnum data numBlocks bsize op dataptr = .ok (r, s') ∧
      Returned size (locksOf op dev bnum numBlocks) s r s' ∧
      (numBlocks * bsize < 2 ^ 32 → Served size op dev bnum data numBlocks s r s') := by
  have hbig := hw.wellformed.big
  unfold cacheBlockIo
  rw [if_neg (by omega), if_neg hw.asked.ne', if_neg, if_neg, if_neg, if_neg (not_lt.mpr hw.inside)]
  · split
    · rename_i hlarge
      have hsmall := mt hw.small (not_lt.mpr hlarge)
      rw [not_or, Bool.not_eq_true] at hsmall
      have hlocks : locksOf op dev bnum numBlocks = [] := by
        unfold locksOf
        rw [hsmall.1]
        rfl
      rw [hlocks]
      exact largeIo_ok hw.wellformed h hsmall.1 hsmall.2
    · obtain ⟨r, s', hrun, hserved⟩ := blockLoop_served numBlocks hw.wellformed ⟨xs, h⟩ hw.asked
        le_rfl hls hw.room hw.lockable
      exact ⟨r, s', hrun, served_returned hserved, fun _ => hserved⟩
  · rintro ⟨hnone, hwrite⟩
    obtain ⟨vs, hvs, -⟩ := hw.wellformed.brings hwrite
    rw [hnone] at hvs
    cases hvs
  · exact fun hcall => hcall.2 (hw.wellformed.target hcall.1)
  · intro hcall
    rw [hw.target hcall.1] at hcall
    exact Bool.noConfusion hcall.2

end Requests

end CacheBypass
