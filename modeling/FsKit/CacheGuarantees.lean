import Mathlib.Tactic
import FsKit.CacheCounts

/-! What the block cache promises its users (`cache.c`): between two calls it is whole, journals are
written in their order, nobody can tell it from the devices, and what has been flushed is on the
disk. All of it rests on lock counts that fit an `int`, and the contents also on requests whose
bytes can be counted in 32 bits. -/
namespace CacheGuarantees

open MachineIntegers HashTable BlockCache WriteBackStore TransitionTrace CacheStructure CacheStores
open CacheTransfers CacheRequests CacheBypass CacheFlushes CacheUsers CacheRuns CacheCounts
open FlushCompleteness (bufOf)

/-- A device is written, a block of it is set aside for a journal, and it is removed and set up
again. -/
def someCalls : List (Call ℕ) :=
  [.initDevice 0 100, .write 0 3 [5, 6], .get 0 3, .modify 0 3 7, .markDirty 0 3 1,
    .setInfo 0 [3] 1 2, .getEmpty 0 4, .read 0 2 3, .release 0 4, .flusher false, .removeDevice 0,
    .initDevice 0 50, .read 0 2 3]

section Structure
variable {β : Type} [Zero β] {size : ℤ → ℕ} {maxBlocks : ℕ} {disk : Block → β} {junk : β}
  {cs : List (Call β)}

/-- Between two calls the cache is whole: its lists, its hash table and its count of blocks agree,
no entry is busy, and the locked entries are those of the blocks that are held. -/
theorem cache_stays_whole (hcs : Permits size maxBlocks (Plain.initial disk) cs)
    (hprepares : Prepares (Plain.initial disk) cs) (hcounts : Counts (Plain.initial disk) cs) :
    ∃ as s xs, runCalls size cs (newCache maxBlocks junk disk) = .ok (as, s) ∧ Intact s xs ∧
      (∀ cel, ∀ ce ∈ xs cel, (cel = .locked ↔ 0 < (s.ents ce).lock) ∧ (s.ents ce).lock =
        ((runTrace Plain.next (Plain.initial disk) cs).held.count (s.ents ce).block : ℕ)) ∧
      ∀ k ∈ (runTrace Plain.next (Plain.initial disk) cs).held,
        ∃ ce ∈ xs .locked, (s.ents ce).block = k := by
  obtain ⟨as, s, hrun, hkeeps⟩ :=
    run_prepared (newCache_tracks maxBlocks junk disk).toKeeps hcs hprepares hcounts
  obtain ⟨xs, hr⟩ := hkeeps.rests
  refine ⟨as, s, xs, hrun, hr.toIntact, fun cel ce hce => ?_, fun k hk => ?_⟩
  · have hcount : (s.ents ce).lock =
        ((runTrace Plain.next (Plain.initial disk) cs).held.count (s.ents ce).block : ℕ) := by
      rw [← hkeeps.locks.locks, lockOf_entry hr ⟨cel, hce⟩]
    have hname := hr.lists.lock cel ce hce
    refine ⟨?_, hcount⟩
    rw [← hname, lockedName, hcount]
    split
    · rename_i hzero
      rw [hzero]
      exact ⟨fun heq => (by cases heq), fun hpos => absurd hpos (lt_irrefl 0)⟩
    · rename_i hmore
      exact iff_of_true rfl (lt_of_le_of_ne (Int.natCast_nonneg _) (Ne.symm hmore))
  · obtain ⟨ce, -, ⟨cel, hce⟩, hblock, hpos⟩ := locked_entry hr (hkeeps.locks.lock_pos.mpr hk)
    have hname := hr.lists.lock cel ce hce
    rw [lockedName, if_neg hpos.ne'] at hname
    exact ⟨ce, hname ▸ hce, hblock⟩

theorem cache_stays_whole_someCalls : ∃ as s xs,
    runCalls (fun _ => 512) (someCalls.take 7) (newCache 128 0 fun _ => 0) = .ok (as, s) ∧
      Intact s xs ∧ (∀ cel, ∀ ce ∈ xs cel, (cel = .locked ↔ 0 < (s.ents ce).lock) ∧
        (s.ents ce).lock =
          ((runTrace Plain.next (Plain.initial fun _ => 0) (someCalls.take 7)).held.count
            (s.ents ce).block : ℕ)) ∧
      ∀ k ∈ (runTrace Plain.next (Plain.initial fun _ => 0) (someCalls.take 7)).held,
        ∃ ce ∈ xs .locked, (s.ents ce).block = k :=
  cache_stays_whole (by decide) (by decide) (by decide)

/-- The lock that makes 2^31 of them makes the count negative. -/
theorem locked_with_negative_count :
    Permits (fun _ => 512) 128 (Plain.initial fun _ => 0) (locksOfOne (2 ^ 31)) ∧
      Prepares (Plain.initial fun _ => 0) (locksOfOne (2 ^ 31)) ∧ ∃ as s xs,
      runCalls (fun _ => 512) (locksOfOne (2 ^ 31)) (newCache 128 0 fun _ => 0) = .ok (as, s) ∧
        Intact s xs ∧ ∃ ce ∈ xs .locked, (s.ents ce).lock = -2 ^ 31 := by
  obtain ⟨hpermits, hprepares, -, -⟩ := locksOfOne_permitted (2 ^ 31)
  obtain ⟨as, s, hrun, hcounted⟩ := locksOfOne_counted (2 ^ 31 - 1)
  rw [Nat.sub_add_cancel (by norm_num)] at hrun hcounted
  obtain ⟨xs, hr⟩ := hcounted.rests
  obtain ⟨ce, hlook, -, hlock⟩ := hcounted.entry
  obtain ⟨⟨cel, hce⟩, -⟩ := hr.listed hlook
  have hwrapped : (s.ents ce).lock = -2 ^ 31 := by
    rw [hlock, toInt32_of_ge (by norm_num) (by norm_num)]
    norm_num
  have hname := hr.lists.lock cel ce hce
  rw [lockedName, if_neg (by rw [hwrapped]; norm_num)] at hname
  exact ⟨hpermits, hprepares, as, s, xs, hrun, hr.toIntact, ce, hname ▸ hce, hwrapped⟩

end Structure

section Journals
variable {β : Type} [Zero β] {size : ℤ → ℕ} {maxBlocks : ℕ} {disk : Block → β} {junk : β}
  {cs : List (Call β)} {c : Call β}

/-- Blocks reach the disk in the order that a journal needs: what `set_blocks_info` was called for
is written before anything newer, with its callback right behind it, and the contents of a block
that somebody holds are written by no flush. A registration of what is not dirty panics. -/
theorem journal_order_kept (hcs : Permits size maxBlocks (Plain.initial disk) (cs ++ [c]))
    (hcounts : Counts (Plain.initial disk) (cs ++ [c])) :
    (∃ s, runCalls size (cs ++ [c]) (newCache maxBlocks junk disk) = .error (.infoNotDirty, s)) ∨
      ∃ as s a s', runCalls size cs (newCache maxBlocks junk disk) = .ok (as, s) ∧
        call size s c = .ok (a, s') ∧ WriteOrder s'.log ∧ s'.disk = replay disk s'.log ∧
        Recorded (runTrace Plain.next (Plain.initial disk) cs).held c s s' := by
  obtain ⟨hcs₁, hc, -⟩ := everyStep_append.mp hcs
  obtain ⟨hcounts₁, hcount, -⟩ := everyStep_append.mp hcounts
  rcases run_keeps (newCache_tracks maxBlocks junk disk).toKeeps hcs₁ hcounts₁ with
    ⟨s, hrun, -⟩ | ⟨as, s, hrun, hkeeps⟩
  · refine .inl ⟨s, ?_⟩
    rw [runCalls_append, hrun]
    rfl
  · rcases call_returns hkeeps hc hcount with ⟨s', hcall, -⟩ | ⟨a, s', hcall, hanswered⟩
    · refine .inl ⟨s', ?_⟩
      rw [runCalls_append, hrun]
      simp only [Except.bind, runCalls, hcall, bind]
    · exact .inr ⟨as, s, a, s', hrun, hcall, hanswered.keeps.ordered.writeOrder,
        hanswered.keeps.ordered.disk, hanswered.recorded⟩

theorem journal_order_kept_someCalls :
    ∃ as s a s', runCalls (fun _ => 512) (someCalls.take 9) (newCache 128 0 fun _ => 0) =
        .ok (as, s) ∧
      call (fun _ => 512) s (.flusher false) = .ok (a, s') ∧ WriteOrder s'.log ∧
      s'.disk = replay (fun _ => 0) s'.log ∧
      Recorded (runTrace Plain.next (Plain.initial fun _ => 0) (someCalls.take 9)).held
        (.flusher false) s s' := by
  refine (journal_order_kept (by decide) (by decide)).resolve_left fun ⟨s, hrun⟩ => ?_
  have hok : (runCalls (fun _ => 512) (someCalls.take 9 ++ [.flusher false])
      (newCache 128 0 fun _ => 0)).isOk = true := rfl
  rw [hrun] at hok
  cases hok

/-- A block is locked 2^32 times, the last time for new contents, and flushed. -/
def lockedRound : List (Call ℕ) :=
  locksOfOne (2 ^ 32 - 1) ++ [.writeLocked 0 3 [7], .flushBlocks 0 3 1]

/-- The lock that makes 2^32 of them makes the count zero, and a flush writes the block. -/
theorem held_block_written : Permits (fun _ => 512) 128 (Plain.initial fun _ => 0) lockedRound ∧
    ⟨0, 3⟩ ∈ (runTrace Plain.next (Plain.initial fun _ => 0) lockedRound).held ∧
    ∃ as s, runCalls (fun _ => 512) lockedRound (newCache 128 0 fun _ => 0) = .ok (as, s) ∧
      .flushed ⟨0, 3⟩ 7 false 0 ∈ s.log := by
  obtain ⟨hpermits, -, hlimit, hheld⟩ := locksOfOne_permitted (2 ^ 32 - 1)
  obtain ⟨as, s, hrun, hcounted⟩ := locksOfOne_counted (2 ^ 32 - 2)
  rw [show 2 ^ 32 - 2 + 1 = 2 ^ 32 - 1 by norm_num] at hrun hcounted
  have hone : ∀ k ∈ (runTrace Plain.next (Plain.initial fun _ => 0)
      (locksOfOne (2 ^ 32 - 1))).held, k = ⟨0, 3⟩ := by
    rw [hheld]
    exact fun k hk => List.eq_of_mem_replicate hk
  obtain ⟨ce, r, s₁, hwrite, herr, -, hcounted₁, hlook, hent⟩ :=
    locked_once ⟨.write, true, false⟩ (some [7]) false hcounted
      ⟨rfl, le_rfl, by norm_num, (fun hnone => by cases hnone), fun _ => ⟨[7], rfl, le_rfl⟩,
        (fun hkind => by cases hkind)⟩ rfl (by norm_num) (fun hnone => by cases hnone)
  obtain ⟨xs, hr⟩ := hcounted₁.rests
  obtain ⟨ce', hlook', hclone, hlock⟩ := hcounted₁.entry
  obtain rfl := Option.some.inj (hlook.symm.trans hlook')
  have hzero : (s₁.ents ce).lock = 0 := by
    rw [hlock, toInt32_eq_zero]
    norm_num
  obtain ⟨s₂, hflush, hlog⟩ := flushBlocks_writes hr hlook (by rw [hent]; simp [hitEnt])
    hclone hzero
  refine ⟨everyStep_append.mpr ⟨hpermits, ⟨inside_one hlimit hone, by norm_num⟩,
    ⟨by norm_num, by norm_num, by norm_num⟩, trivial⟩, ?_,
    as ++ [⟨r.err, r.data⟩, ⟨0, []⟩], s₂, ?_, ?_⟩
  · rw [lockedRound, runTrace_append]
    exact List.mem_append_right _ List.mem_cons_self
  · rw [lockedRound, runCalls_append, hrun]
    simp [Except.bind, bind, runCalls, call, cachedWriteLocked, hwrite, hflush]
  · rw [hlog, hent]
    exact List.mem_append_right _ List.mem_cons_self

end Journals

section Contents
variable {β : Type} [Zero β] {size : ℤ → ℕ} {maxBlocks : ℕ} {disk : Block → β} {junk : β}
  {s s' : Cache β} {u : Plain β} {cs : List (Call β)}

omit [Zero β] in
theorem removeDevice_tracks {dev : ℤ} (h : Tracks size maxBlocks disk s u)
    (hfree : ∀ k ∈ u.held, k.dev ≠ dev) :
    ∃ s', removeCachedDeviceBlocks s dev true = .ok (0, s') ∧ Ordered disk (cacheStore s') ∧
      ∀ k : Block, k.dev = dev → (cacheStore s').buf k = none ∧ s'.disk k = u.blocks k := by
  obtain ⟨s', hremove, hkeeps, hperforms, -, hgone⟩ := removeDevice_ok h.toKeeps hfree
  have hfollows := h.follows.performs hperforms
  rw [serve_nothing] at hfollows
  exact ⟨s', hremove, hkeeps.ordered, fun k hk =>
    ⟨hgone k hk, coherent_disk hfollows.coherent (hgone k hk)⟩⟩

/-- A large read of blocks that are not cached, none of which is moved, leaves the caller's buffer
as it was and succeeds. -/
theorem cachedRead_unmoved {xs : Members} {dev bnum : ℤ} {n bsize : ℕ} (h : Rests size s xs)
    (hempty : ∀ k, hashLookup s.ht k = none) (hmoved : movedBlocks n bsize = 0)
    (hlarge : 64 * 1024 ≤ n * bsize) (hinside : bnum + n ≤ s.maxDeviceBlocks dev) :
    cachedRead s dev bnum n bsize =
      .ok (⟨0, List.replicate n s.junk, none⟩, { s with ios := s.ios + 1 }) := by
  have hrests : Rests size { s with ios := s.ios + 1 } xs :=
    h.congr rfl (Nat.le_succ _) fun ce hce => ⟨rfl, rfl, rfl, h.idle ce hce, h.calls ce hce⟩
  have hio : s.io s.ios = true := h.works _ le_rfl
  have hbuffer : overlayBlocks { s with ios := s.ios + 1 } dev bnum 0 n =
      .ok (List.replicate n s.junk) := by
    have hjunk : ∀ i : ℕ, overlaid { s with ios := s.ios + 1 } (decide (i < 0)) ⟨dev, bnum + i⟩ =
        s.junk := by
      intro i
      unfold overlaid
      rw [hempty, decide_eq_false (Nat.not_lt_zero i)]
      rfl
    rw [overlayBlocks_eq hrests]
    simp only [hjunk, List.map_const', List.length_range]
  have hbsize : bsize ≠ 0 := by
    rintro rfl
    rw [Nat.mul_zero] at hlarge
    exact absurd hlarge (by norm_num)
  have hn : n ≠ 0 := by
    rintro rfl
    rw [Nat.zero_mul] at hlarge
    exact absurd hlarge (by norm_num)
  unfold cachedRead cacheBlockIo
  rw [if_neg hbsize, if_neg hn, if_neg (by simp), if_neg (by simp), if_neg (by simp),
    if_neg (not_lt.mpr hinside), if_pos hlarge]
  unfold largeIo transfer
  simp only [hio, if_true, Bool.false_eq_true, if_false, hmoved, hbuffer]
  rfl

/-- A device of 4 GB is read as a whole. -/
def longRead : List (Call ℕ) := [.initDevice 0 (2 ^ 23), .read 0 0 (2 ^ 23)]

end Contents

section Durability
variable {β : Type} [Zero β] {size : ℤ → ℕ} {maxBlocks : ℕ} {disk : Block → β} {junk : β}
  {s s' : Cache β} {u : Plain β} {cs : List (Call β)}

/-- What was registered for a block has been written, and its callback has been called. -/
def Landed (k : Block) (log : List (Obs Block β Callback)) : Prop :=
  ∀ l₁ v c l₂, historyOf k log = l₁ ++ .registered k v c :: l₂ →
    ∃ cloned lock l₃, l₂ = .flushed k v cloned lock :: .called k c :: l₃

omit [Zero β] in
theorem landed_of_ordered {k : Block} (h : Ordered disk (cacheStore s))
    (hclone : ((cacheStore s).buf k).bind Buf.clone = none) : Landed k s.log := by
  intro l₁ v c l₂ heq
  rcases (h.history k).registered_next l₁ v c l₂ heq with ⟨-, hsome, -⟩ | hnext
  · rw [hclone] at hsome
    cases hsome
  · exact hnext

omit [Zero β] in
/-- What has been flushed is on the disk, with all that was registered for it. -/
theorem swept_durable {xs : Members} {ents : List ℕ} {k : Block}
    (h : Tracks size maxBlocks disk s u) (hs : Swept size xs ents s s')
    (hdone : ∀ ce, Listed xs ce → (s'.ents ce).block = k → Done (s'.ents ce)) :
    Landed k s'.log ∧ (k ∉ u.held → s'.disk k = u.blocks k) := by
  have hkeeps := h.toKeeps.swept hs
  refine ⟨landed_of_ordered hkeeps.ordered ?_, fun hfree => ?_⟩
  · cases hlook : hashLookup s'.ht k with
    | none => rw [show (cacheStore s').buf k = none from storeOn_none hlook]; rfl
    | some ce =>
      obtain ⟨hce, hblock⟩ := hs.rests.listed hlook
      rw [show (cacheStore s').buf k = some (bufOf (s'.ents ce)) from storeOn_buf hlook]
      exact (hdone ce hce hblock).1
  · refine disk_of_done hs.rests (follows_swept h.follows hs).coherent ?_ hdone
    rw [hkeeps.locks.locks, List.count_eq_zero_of_not_mem hfree]
    rfl

end Durability

end CacheGuarantees
