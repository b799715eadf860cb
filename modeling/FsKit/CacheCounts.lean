import Mathlib.Tactic
import FsKit.CacheRuns

/-! How the cache counts the locks of a block (`cache.c`). The count is an `int`, and nothing looks
at its size: a block that is locked again and again is found with a negative count, and at last with
none, while all its locks are still held. -/
namespace CacheCounts

open MachineIntegers HashTable BlockCache WriteBackStore TransitionTrace CacheStructure CacheStores
open CacheTransfers CacheRequests CacheRuns
open FlushCompleteness (Works)

variable {β : Type}

section Hits
variable [Zero β] {size : ℤ → ℕ} {s : Cache β} {dev bnum : ℤ} {m : ℕ}

/-- A block is in the cache, without a clone, and has been locked `m` times. -/
structure CountedTo (size : ℤ → ℕ) (dev bnum : ℤ) (m : ℕ) (s : Cache β) : Prop where
  rests : ∃ xs, Rests size s xs
  entry : ∃ ce, hashLookup s.ht ⟨dev, bnum⟩ = some ce ∧ (s.ents ce).clone = none ∧
    (s.ents ce).lock = toInt32 m
  inside : bnum + 1 ≤ s.maxDeviceBlocks dev

/-- A request that locks the block finds it. -/
theorem locked_once (op : Op) (data : Option (List β)) (dataptr : Bool)
    (h : CountedTo size dev bnum m s) (hw : Wellformed size op dev data 1 (size dev))
    (hlocked : op.locked = true) (hsmall : size dev < 64 * 1024)
    (htarget : data = none → dataptr = true) :
    ∃ ce r s', cacheBlockIo s dev bnum data 1 (size dev) op dataptr = .ok (r, s') ∧ r.err = 0 ∧
      r.dataptr = some ce ∧ CountedTo size dev bnum (m + 1) s' ∧
      hashLookup s'.ht ⟨dev, bnum⟩ = some ce ∧ s'.ents ce = hitEnt op data (s.ents ce) := by
  obtain ⟨xs, hr⟩ := h.rests
  obtain ⟨ce, hfind, hclone, hlock⟩ := h.entry
  obtain ⟨s', xs', hrun, hrests, hsame⟩ := hitBlock_ok hw hr hfind
  have hents : s'.ents ce = hitEnt op data (s.ents ce) := by
    rw [hsame]
    exact Function.update_self ..
  have hfound : hashLookup s'.ht ⟨dev, bnum⟩ = some ce := by
    rw [hsame]
    exact hfind
  have hbig := hw.big
  refine ⟨ce, ⟨0, copyOut op data (s'.ents ce).data ++ [], some ce⟩, s', ?_, rfl, rfl,
    ⟨⟨xs', hrests⟩, ⟨ce, hfound, ?_, ?_⟩, ?_⟩, hfound, hents⟩
  · unfold cacheBlockIo
    rw [if_neg (by omega), if_neg one_ne_zero, if_neg, if_neg, if_neg,
      if_neg (by have := h.inside; push_cast; omega), if_neg (by omega)]
    · rw [blockLoop, blockLookup_idle hr, hfind]
      simp only [bind, Except.bind, hrun, blockLoop]
      rfl
    · rintro ⟨hnone, hwrite⟩
      obtain ⟨vs, hvs, -⟩ := hw.brings hwrite
      rw [hnone] at hvs
      cases hvs
    · exact fun hmany => hmany.2 rfl
    · intro hcall
      rw [htarget hcall.1] at hcall
      exact Bool.noConfusion hcall.2
  · rw [hents]
    exact hclone
  · rw [hents]
    change (if op.locked = true then toInt32 ((s.ents ce).lock + 1) else (s.ents ce).lock) = _
    rw [if_pos hlocked, hlock, toInt32_add, Nat.cast_succ]
  · rw [hsame]
    exact h.inside

theorem get_counted (h : CountedTo size dev bnum m s) (hdev : 0 ≤ dev) (hbig : 512 ≤ size dev)
    (hsmall : size dev < 64 * 1024) : ∃ a s', call size s (.get dev bnum) = .ok (a, s') ∧
      CountedTo size dev bnum (m + 1) s' := by
  obtain ⟨ce, r, s', hrun, herr, hptr, hcounted, -, -⟩ :=
    locked_once ⟨.read, true, true⟩ none true h
      ⟨rfl, hdev, hbig, fun _ => rfl, (fun hkind => by cases hkind), fun _ => rfl⟩ rfl
      hsmall fun _ => rfl
  refine ⟨⟨0, [(s'.ents ce).data]⟩, s', ?_, hcounted⟩
  simp only [call, getBlock, hrun, bind, Except.bind, herr, hptr, ne_eq, not_true_eq_false,
    if_false, Option.toList_some, List.map_cons, List.map_nil]

theorem gets_counted (hdev : 0 ≤ dev) (hbig : 512 ≤ size dev) (hsmall : size dev < 64 * 1024)
    (n : ℕ) : ∀ {m : ℕ} {s : Cache β}, CountedTo size dev bnum m s →
      ∃ as s', runCalls size (List.replicate n (.get dev bnum)) s = .ok (as, s') ∧
        CountedTo size dev bnum (m + n) s' := by
  induction n with
  | zero => exact fun h => ⟨[], _, rfl, h⟩
  | succ n ih =>
    intro m s h
    obtain ⟨a, s₁, hcall, hcounted⟩ := get_counted h hdev hbig hsmall
    obtain ⟨as, s', hrun, hcounted'⟩ := ih hcounted
    refine ⟨a :: as, s', ?_, ?_⟩
    · rw [List.replicate_succ]
      simp only [runCalls, hcall, bind, Except.bind, hrun]
    · rwa [Nat.add_right_comm, Nat.add_assoc] at hcounted'

end Hits

section Flushes
variable {size : ℤ → ℕ} {s : Cache β} {xs : Members} {dev bnum : ℤ} {ce : ℕ}

/-- `flush_blocks` writes the contents of a block whose count is zero. -/
theorem flushBlocks_writes (h : Rests size s xs) (hfind : hashLookup s.ht ⟨dev, bnum⟩ = some ce)
    (hdirty : (s.ents ce).dirty = true) (hclone : (s.ents ce).clone = none)
    (hlock : (s.ents ce).lock = 0) : ∃ s', flushBlocks s dev bnum 1 = .ok (0, s') ∧
      s'.log = s.log ++ [.flushed ⟨dev, bnum⟩ (s.ents ce).data false 0] := by
  obtain ⟨hce, hblock⟩ := h.listed hfind
  have hbnum : (s.ents ce).blockNum = bnum := congrArg Block.bnum hblock
  have hdev : (s.ents ce).dev = dev := congrArg Block.dev hblock
  have hfunc := (h.calls ce hce).mp hclone
  have hio : s.io s.ios = true := h.works _ le_rfl
  refine ⟨flushBatch (setBusy true s ce) [ce], ?_, ?_⟩
  · unfold flushBlocks
    rw [if_neg one_ne_zero, collectBlocks, blockLookup_idle h, hfind]
    simp [bind, Except.bind, collectBlocks, hbnum, hdev, hdirty, numFlushBlocks]
  · simp [flushBatch, qsort, flushEnts, flushPass, flushCacheEnt, writevPos, transfer,
      writeImages, settleEnt, setBusy, setEnt, CacheEnt.image, hbnum, hdev, hdirty, hclone, hlock,
      hfunc, hio]

end Flushes

section Runs
variable {u : Plain ℕ}

/-- The block 3 of a small device is locked `n` times. -/
def locksOfOne (n : ℕ) : List (Call ℕ) := .initDevice 0 4 :: List.replicate n (.get 0 3)

theorem inside_one (hlimit : u.limit 0 = 4) (hheld : ∀ k ∈ u.held, k = ⟨0, 3⟩) :
    u.Inside (fun _ => 512) 128 0 3 1 1 := by
  have hfew : u.held.dedup.length ≤ 1 := by
    have hsub : u.held.dedup ⊆ [⟨0, 3⟩] := fun k hk =>
      List.mem_singleton.mpr (hheld k (List.mem_dedup.mp hk))
    exact ((List.nodup_dedup _).subperm hsub).length_le
  refine ⟨by norm_num, by norm_num, by norm_num, by norm_num, by norm_num, by norm_num,
    .inl (by norm_num), ?_, ?_⟩
  · rw [hlimit]
    norm_num
  · unfold numFlushBlocks
    omega

theorem gets_permitted (n : ℕ) : ∀ {u : Plain ℕ}, u.limit 0 = 4 → (∀ k ∈ u.held, k = ⟨0, 3⟩) →
    Permits (fun _ => 512) 128 u (List.replicate n (.get 0 3)) ∧
      Prepares u (List.replicate n (.get 0 3)) ∧
      (runTrace Plain.next u (List.replicate n (.get 0 3))).limit 0 = 4 ∧
      (runTrace Plain.next u (List.replicate n (.get 0 3))).held =
        u.held ++ List.replicate n ⟨0, 3⟩ := by
  induction n with
  | zero => exact fun hlimit _ => ⟨trivial, trivial, hlimit, (List.append_nil _).symm⟩
  | succ n ih =>
    intro u hlimit hheld
    obtain ⟨hpermits, hprepares, hlimit', hheld'⟩ := ih (u := u.next (.get 0 3)) hlimit fun k hk =>
      (List.mem_append.mp hk).elim (hheld k) List.mem_singleton.mp
    rw [List.replicate_succ]
    refine ⟨⟨⟨inside_one hlimit hheld, by norm_num⟩, hpermits⟩, ⟨trivial, hprepares⟩, hlimit', ?_⟩
    rw [runTrace_cons, hheld', List.replicate_succ, List.append_cons]
    rfl

theorem locksOfOne_permitted (n : ℕ) :
    Permits (fun _ => 512) 128 (Plain.initial fun _ => 0) (locksOfOne n) ∧
      Prepares (Plain.initial fun _ => 0) (locksOfOne n) ∧
      (runTrace Plain.next (Plain.initial fun _ => 0) (locksOfOne n)).limit 0 = 4 ∧
      (runTrace Plain.next (Plain.initial fun _ => 0) (locksOfOne n)).held =
        List.replicate n ⟨0, 3⟩ := by
  obtain ⟨hpermits, hprepares, hlimit, hheld⟩ := gets_permitted n
    (u := (Plain.initial fun _ => 0).next (.initDevice 0 4)) rfl
    fun _ hk => (List.not_mem_nil hk).elim
  exact ⟨⟨by decide, hpermits⟩, ⟨trivial, hprepares⟩, hlimit, hheld⟩

theorem locksOfOne_counted (n : ℕ) : ∃ as s,
    runCalls (fun _ => 512) (locksOfOne (n + 1)) (newCache 128 0 fun _ => 0) = .ok (as, s) ∧
      CountedTo (fun _ => 512) 0 3 (n + 1) s := by
  have hstart : Keeps (fun _ => 512) 128 (fun _ => 0) (newCache 128 0 fun _ => 0)
      (Plain.initial fun _ => 0) := (newCache_tracks 128 0 fun _ => 0).toKeeps
  obtain ⟨as₁, s₁, hrun₁, hkeeps⟩ :=
    run_prepared hstart (show Permits _ _ _ (locksOfOne 1) by decide) (by decide) (by decide)
  have hfirst : (runCalls (fun _ => 512) (locksOfOne 1) (newCache 128 0 fun _ => 0)).toOption.map
      (fun p => (hashLookup p.2.ht ⟨0, 3⟩, (p.2.ents 0).clone, (p.2.ents 0).lock)) =
      some (some 0, none, 1) := rfl
  simp only [hrun₁, Except.toOption, Option.map_some, Option.some.injEq, Prod.mk.injEq] at hfirst
  have hcounted : CountedTo (fun _ => 512) 0 3 1 s₁ := by
    refine ⟨hkeeps.rests, ⟨0, hfirst.1, hfirst.2.1, hfirst.2.2⟩, ?_⟩
    rw [hkeeps.limit]
    decide
  obtain ⟨as₂, s₂, hrun₂, hcounted₂⟩ :=
    gets_counted le_rfl (by norm_num) (by norm_num) n hcounted
  refine ⟨as₁ ++ as₂, s₂, ?_, ?_⟩
  · have hsplit : locksOfOne (n + 1) = locksOfOne 1 ++ List.replicate n (.get 0 3) := by
      rw [locksOfOne, List.replicate_succ]
      rfl
    rw [hsplit, runCalls_append, hrun₁]
    simp only [Except.bind, hrun₂]
  · rwa [Nat.add_comm] at hcounted₂

end Runs

end CacheCounts
