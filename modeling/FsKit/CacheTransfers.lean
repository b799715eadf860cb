import Mathlib.Tactic
import FsKit.CacheRequests

/-! Requests that go through the cache (`cache.c`). With room for the blocks that are locked and
for one batch more no turn of the loop of `cache_block_io` fails, and a request does to the store
what it asks for and nothing else. -/
namespace CacheTransfers

open MachineIntegers LinkedList HashTable BlockCache WriteBackStore TransitionTrace CacheStructure
open CacheVictims
open CacheCalls CacheStores MissVictims MissFilling CacheRequests FallibleRuns
open FlushCompleteness (bufOf Works Kept)

variable {β : Type}

section Room
variable {s s' : Cache β} {xs : Members} {size : ℤ → ℕ} {ls ls' : List Block}
  {ws : List (Block × β)}

/-- All the blocks that are locked are among these. -/
def Holds (s : Cache β) (ls : List Block) : Prop := ∀ k, lockOf (cacheStore s) k ≠ 0 → k ∈ ls

/-- One lock more of the block is still an `int`. -/
def Lockable (s : Cache β) (k : Block) : Prop :=
  0 ≤ lockOf (cacheStore s) k ∧ lockOf (cacheStore s) k + 1 < 2 ^ 31

theorem lockOf_entry (h : Rests size s xs) {ce : ℕ} (hce : Listed xs ce) :
    lockOf (cacheStore s) (s.ents ce).block = (s.ents ce).lock := by
  have hbuf : (cacheStore s).buf (s.ents ce).block = some (bufOf (s.ents ce)) :=
    storeOn_buf (h.lookup hce)
  unfold lockOf
  rw [hbuf]
  rfl

theorem Holds.length_locked (hls : Holds s ls) (h : Rests size s xs) :
    (xs .locked).length ≤ ls.length := by
  have hnodup : ((xs .locked).map fun ce => (s.ents ce).block).Nodup :=
    (h.leads (h.lists.family.isList .locked).nodup fun ce hce => ⟨_, hce⟩).distinct
  have hsub : ((xs .locked).map fun ce => (s.ents ce).block) ⊆ ls := by
    intro k hk
    obtain ⟨ce, hce, rfl⟩ := List.mem_map.mp hk
    refine hls _ ?_
    rw [lockOf_entry h ⟨_, hce⟩]
    intro hzero
    have hname := h.lists.lock .locked ce hce
    rw [hzero] at hname
    cases hname
  have hlen := (hnodup.subperm hsub).length_le
  rwa [List.length_map] at hlen

theorem Holds.performs (hls : Holds s ls) (hp : Performs ws ls' (cacheStore s) (cacheStore s')) :
    Holds s' (ls ++ ls') := by
  intro k hk
  rw [hp.reaches.lockOf] at hk
  by_contra hnot
  rw [List.mem_append, not_or] at hnot
  rw [List.count_eq_zero_of_not_mem hnot.2] at hk
  exact hnot.1 (hls k (by simpa using hk))

theorem countBlocks_le (stop : ℕ → Bool) (limit : ℕ) :
    ∀ n, countBlocks stop n limit ≤ n + limit := by
  induction limit with
  | zero => exact fun n => le_rfl
  | succ limit ih =>
    intro n
    unfold countBlocks
    split
    · exact Nat.le_add_right _ _
    · exact (ih (n + 1)).trans (by omega)

/-- A miss gets at most one batch of blocks, and reads ahead only when it reads. -/
theorem chooseBlocks_limits (s : Cache β) (dev bnum : ℤ) {numBlocks bsize : ℕ} (op : Op)
    (hpos : 0 < numBlocks) (hbig : 512 ≤ bsize) :
    (chooseBlocks s dev bnum numBlocks bsize op).1 ≤ numBlocks ∧
      (chooseBlocks s dev bnum numBlocks bsize op).2 ≤ numFlushBlocks ∧
      (op.kind ≠ .read → (chooseBlocks s dev bnum numBlocks bsize op).1 =
        (chooseBlocks s dev bnum numBlocks bsize op).2) := by
  have hcur := countBlocks_le (fun n => (hashLookup s.ht ⟨dev, bnum + n⟩).isSome)
    (min numBlocks numFlushBlocks - 1) 1
  unfold chooseBlocks
  dsimp only
  generalize countBlocks (fun n => (hashLookup s.ht ⟨dev, bnum + n⟩).isSome) 1
    (min numBlocks numFlushBlocks - 1) = cur at hcur ⊢
  have hbatch : numFlushBlocks = 64 := rfl
  split
  · rename_i hread
    have hmore := countBlocks_le (fun n => decide (s.maxDeviceBlocks dev ≤ bnum + n ∨
      (hashLookup s.ht ⟨dev, bnum + n⟩).isSome = true)) (readAheadSize / bsize - cur) cur
    have hahead : readAheadSize / bsize ≤ 64 := by
      refine Nat.div_le_of_le_mul ?_
      unfold readAheadSize
      omega
    dsimp only
    exact ⟨by omega, by omega, fun hkind => absurd hread.1 hkind⟩
  · dsimp only
    exact ⟨by omega, by omega, fun _ => rfl⟩

theorem blockLookup_idle (h : Rests size s xs) (b : Block) :
    blockLookup s b = .ok (hashLookup s.ht b) := by
  unfold blockLookup
  split
  · rename_i hb
    rw [hb]
  · rename_i ce hb
    rw [hb, if_neg]
    rw [h.idle ce (h.listed hb).1]
    decide

end Room

section Entries
variable {s s' : Cache β} {xs xs' : Members} {size : ℤ → ℕ} {ce : ℕ} {m : Mirror Block β}

/-- A change of an entry that leaves it fit for the cache. -/
structure Fits (c c' : CacheEnt β) : Prop where
  block : c'.block = c.block
  busy : c'.busy = false
  bsize : c'.bsize = c.bsize
  lock : c'.lock < 2 ^ 31
  calls : c'.clone = none ↔ c'.func = none

theorem rests_of_intact (h : Rests size s xs) (hi : Intact s' xs') {f : CacheEnt β → CacheEnt β}
    (hf : Fits (s.ents ce) (f (s.ents ce)))
    (hsame : s' = { setEnt s ce f with links := s'.links, lists := s'.lists }) :
    Rests size s' xs' := by
  have hlisted : ∀ c, Listed xs' c → Listed xs c := fun c hc => by
    have hlook := (hi.keys.iff _ _).mpr ⟨hc, rfl⟩
    have hht : s'.ht = s.ht := by
      rw [hsame]
      rfl
    rw [hht] at hlook
    exact (h.listed hlook).1
  have hents : s'.ents = (setEnt s ce f).ents := by rw [hsame]
  have hent : ∀ c, c ≠ ce → s'.ents c = s.ents c := fun c hc => by
    rw [hents]
    exact Function.update_of_ne hc _ _
  have hself : s'.ents ce = f (s.ents ce) := by
    rw [hents]
    exact Function.update_self ..
  refine ⟨hi, fun c hc => ?_, fun c hc => ?_, fun c hc => ?_, ?_⟩
  · by_cases hne : c = ce
    · subst hne
      have hdev : (f (s.ents c)).dev = (s.ents c).dev := congrArg Block.dev hf.block
      rw [hself, hf.bsize, hdev]
      exact h.sized c (hlisted c hc)
    · rw [hent c hne]
      exact h.sized c (hlisted c hc)
  · by_cases hne : c = ce
    · subst hne
      rw [hself]
      exact hf.lock
    · rw [hent c hne]
      exact h.lock c (hlisted c hc)
  · by_cases hne : c = ce
    · subst hne
      rw [hself]
      exact hf.calls
    · rw [hent c hne]
      exact h.calls c (hlisted c hc)
  · rw [hsame]
    exact h.works

/-- An entry of the cache is changed and put at the mru end of the list that its lock asks for. -/
theorem rests_rehead (h : Rests size s xs) (hce : Listed xs ce) {f : CacheEnt β → CacheEnt β}
    (hf : Fits (s.ents ce) (f (s.ents ce))) :
    ∃ s' xs', addToHead (setEnt (deleteFromList s (lockedName (s.ents ce).lock) ce) ce f)
        (lockedName (f (s.ents ce)).lock) ce = .ok s' ∧ Rests size s' xs' ∧
      s' = { setEnt s ce f with links := s'.links, lists := s'.lists } := by
  obtain ⟨xs₁, hl⟩ := taken_in_hand h.toIntact hce
  have hdev : (f (s.ents ce)).dev = (s.ents ce).dev := congrArg Block.dev hf.block
  obtain ⟨s', xs', hadd, hl', hsame⟩ := hl.addToHead f
    (fun b => by
      refine ⟨fun hb => hf.block.trans hb.2, fun hb => ⟨hce, hf.block.symm.trans hb⟩⟩)
    hf.busy (by
      change 0 ≤ (f (s.ents ce)).dev
      rw [hdev]
      exact h.dev ce hce)
  have hsame' : s' = { setEnt s ce f with links := s'.links, lists := s'.lists } := by
    rw [hsame]
    rfl
  refine ⟨s', xs', hadd, rests_of_intact h (hl'.intact ?_) hf hsame', hsame'⟩
  rw [hsame']
  exact h.cap

/-- An entry is changed where it is. -/
theorem rests_setEnt (h : Rests size s xs) (hce : Listed xs ce) {f : CacheEnt β → CacheEnt β}
    (hf : Fits (s.ents ce) (f (s.ents ce)))
    (hname : lockedName (f (s.ents ce)).lock = lockedName (s.ents ce).lock) :
    Rests size (setEnt s ce f) xs := by
  have hself : (setEnt s ce f).ents ce = f (s.ents ce) := Function.update_self ..
  have hent : ∀ c, c ≠ ce → (setEnt s ce f).ents c = s.ents c := fun c hc =>
    Function.update_of_ne hc _ _
  have hblock : ∀ c, ((setEnt s ce f).ents c).block = (s.ents c).block := by
    intro c
    by_cases hne : c = ce
    · subst hne
      rw [hself, hf.block]
    · rw [hent c hne]
  refine rests_of_intact (f := f) h ⟨⟨h.lists.family, h.lists.made, fun cel c hc => ?_,
    h.lists.nodup, h.lists.loose, h.lists.count⟩, fun c hc => ?_, fun c hc => ?_, ?_, h.cap⟩ hf rfl
  · by_cases hne : c = ce
    · subst hne
      rw [hself]
      exact hname.trans (h.lists.lock cel c hc)
    · rw [hent c hne]
      exact h.lists.lock cel c hc
  · by_cases hne : c = ce
    · subst hne
      rw [hself]
      exact hf.busy
    · rw [hent c hne]
      exact h.idle c hc
  · have hdev : ((setEnt s ce f).ents c).dev = (s.ents c).dev :=
      congrArg Block.dev (hblock c)
    rw [hdev]
    exact h.dev c hc
  · refine h.keys.congr fun b c => and_congr_right fun _ => ?_
    rw [hblock c]

/-- What a change of an entry makes of the store. -/
theorem store_change (h : Rests size s xs) (hce : Listed xs ce) {f : CacheEnt β → CacheEnt β}
    (hsame : s' = { setEnt s ce f with links := s'.links, lists := s'.lists }) :
    cacheStore s' = { cacheStore s with
      buf := Function.update (cacheStore s).buf (s.ents ce).block
        (some (bufOf (f (s.ents ce)))) } := by
  have hents : s'.ents = (setEnt s ce f).ents := by rw [hsame]
  have hht : s'.ht = s.ht := by
    rw [hsame]
    rfl
  have hdisk : s'.disk = s.disk := by
    rw [hsame]
    rfl
  have hlog : s'.log = s.log := by
    rw [hsame]
    rfl
  unfold cacheStore storeOn
  rw [hht, hdisk, hlog]
  congr 1
  funext b
  dsimp only
  by_cases hb : b = (s.ents ce).block
  · subst hb
    rw [Function.update_self, h.lookup hce, hents]
    exact congrArg (fun c => some (bufOf c)) (Function.update_self ..)
  · rw [Function.update_of_ne hb]
    cases hlook : hashLookup s.ht b with
    | none => rfl
    | some c =>
      have hne : c ≠ ce := by
        rintro rfl
        exact hb (h.listed hlook).2.symm
      rw [hents]
      exact congrArg (fun c => some (bufOf c)) (Function.update_of_ne hne _ _)

theorem store_setEnt (h : Rests size s xs) (hce : Listed xs ce) (f : CacheEnt β → CacheEnt β) :
    cacheStore (setEnt s ce f) = { cacheStore s with
      buf := Function.update (cacheStore s).buf (s.ents ce).block
        (some (bufOf (f (s.ents ce)))) } :=
  store_change h hce rfl

end Entries

section Misses
variable [Zero β] {s s' : Cache β} {xs : Members} {size : ℤ → ℕ} {ls : List Block}
  {m : Mirror Block β} {op : Op} {dev bnum : ℤ} {data : Option (List β)} {numBlocks bsize : ℕ}

/-- What a request must be like to be served, whatever the cache holds. -/
structure Wellformed (size : ℤ → ℕ) (op : Op) (dev : ℤ) (data : Option (List β))
    (numBlocks bsize : ℕ) : Prop where
  sized : bsize = size dev
  dev : 0 ≤ dev
  big : 512 ≤ bsize
  target : data = none → numBlocks = 1
  brings : Brings op data numBlocks
  empty : op.kind = .noop → data = none

omit [Zero β] in
/-- A block that is not cached is on the disk. -/
theorem coherent_disk {t : Store Block β Callback} (hc : Coherent t m) {k : Block}
    (hk : t.buf k = none) : t.disk k = m.blocks k := by
  have hat := hc k
  rw [hk] at hat
  exact hat.1

theorem missBlocks_served (hw : Wellformed size op dev data numBlocks bsize) (h : Rests size s xs)
    (hmiss : hashLookup s.ht ⟨dev, bnum⟩ = none) (hpos : 0 < numBlocks) (hls : Holds s ls)
    (hroom : ls.length + numFlushBlocks ≤ s.maxBlocks) :
    ∃ n r s', missBlocks s dev bnum data numBlocks bsize op = .ok (n, r, s') ∧ 0 < n ∧
      n ≤ numBlocks ∧ Served size op dev bnum data n s r s' := by
  obtain ⟨hneeded, hfree⟩ := chooseBlocks_free numBlocks bsize op hmiss
  obtain ⟨hcur, hle⟩ := chooseBlocks_le s dev bnum numBlocks bsize op
  obtain ⟨hfew, hmax, hkind⟩ := chooseBlocks_limits s dev bnum op hpos hw.big
  unfold missBlocks
  generalize chooseBlocks s dev bnum numBlocks bsize op = chosen
    at hneeded hfree hcur hle hfew hmax hkind ⊢
  obtain ⟨curNblocks, needed⟩ := chosen
  dsimp only at hneeded hfree hcur hle hfew hmax hkind ⊢
  have hlocked := hls.length_locked h
  obtain ⟨got, s₁, hget⟩ := getEnts_ok h.lists (fun ce hce => h.idle ce ⟨_, hce⟩) hneeded hmax
    (enough_of_room h.lists h.cap (by omega))
  obtain ⟨numDirty, t, hclaim⟩ := claimEnts_ok h.toIntact hneeded hfree hget
  obtain ⟨xs', hin⟩ := inHand_of_miss h.toIntact hneeded hfree hget hclaim
  have htaken := taken_of_miss h.toIntact hneeded hget hclaim hin
  obtain ⟨u, hflush, hemptied⟩ := emptied_of_taken h hin htaken
  obtain ⟨out, s', xs'', hload, hloaded, hintact, hout⟩ := loadEnts_loaded op bsize
    hw.dev h hin htaken hemptied hflush hfree hle fun hnone => by
      have hone := hw.target hnone
      omega
  have hbrings : Brings op data curNblocks := fun hwrite => by
    obtain ⟨vs, hvs, hlen⟩ := hw.brings hwrite
    exact ⟨vs, hvs, hfew.trans hlen⟩
  have hlen : (qsort s₁ got).length = got.length := (qsort_perm s₁ got).length_eq
  have henough := hin.enough
  rw [hlen] at henough
  refine ⟨curNblocks, ⟨0, out, ((qsort s₁ got).take curNblocks).getLast?⟩, s', ?_, hcur, hfew,
    ⟨xs'', ?_⟩, ?_, ?_, ?_, rfl, ?_, ?_, ?_, loaded_stays h hin htaken hemptied hloaded⟩
  · rw [hget]
    simp only [bind, Except.bind]
    rw [if_neg (not_lt.mpr henough), hclaim]
    exact hload
  · exact loaded_rests h hin htaken hemptied hloaded hw.sized hintact
  · exact loaded_performs h hin htaken hemptied hloaded hfree hle hkind hbrings
  · rw [hloaded.same, hemptied.same, htaken.same]
  · rw [hloaded.same, hemptied.same, htaken.same]
  · intro m hc
    have hu : Coherent (storeOn s.ht u) m := hemptied.performs.coherent hc
    change out = _
    rw [hout]
    unfold copied
    by_cases hread : data.isSome = true ∧ op.kind = .read
    · rw [if_pos hread, if_pos ⟨hread.1, by rw [hread.2]; decide⟩]
      have hlong : ((qsort s₁ got).take curNblocks).length = curNblocks := by
        rw [List.length_take, hlen]
        omega
      refine List.ext_getElem (by rw [List.length_map, List.length_map, hlong, List.length_range])
        fun i hi _ => ?_
      rw [List.length_map, hlong] at hi
      have hi' : ((qsort s₁ got).take needed)[i]? = some ((qsort s₁ got).take curNblocks)[i] := by
        rw [List.getElem_take, List.getElem?_take_of_lt (hi.trans_le hle), List.getElem?_eq_getElem]
      obtain ⟨c, hent, hdisk⟩ := hloaded.asked i _ hi' hi
      rw [List.getElem_map, List.getElem_map, List.getElem_range, hent]
      change contents op _ c.data = _
      rw [contents_read hread.2, hdisk hread.2]
      exact coherent_disk hu (storeOn_none (hfree i (hi.trans_le hle)))
    · rw [if_neg hread, if_neg]
      rintro ⟨hsome, hwrite⟩
      cases hk : op.kind with
      | read => exact hread ⟨hsome, hk⟩
      | write => exact hwrite hk
      | noop =>
        rw [hw.empty hk] at hsome
        cases hsome
  · intro hnone
    have hone := hw.target hnone
    obtain rfl : curNblocks = 1 := by omega
    obtain ⟨ce, rest, hents⟩ : ∃ ce rest, qsort s₁ got = ce :: rest :=
      List.exists_cons_of_length_pos (by omega)
    have hfirst : ((qsort s₁ got).take needed)[0]? = some ce := by
      rw [List.getElem?_take_of_lt hneeded, hents]
      rfl
    refine ⟨ce, ?_, ?_⟩
    · change ((qsort s₁ got).take 1).getLast? = _
      rw [hents]
      rfl
    · have hlook := loaded_lookup h hin htaken hemptied hloaded hfree hneeded hfirst
      rwa [Nat.cast_zero, add_zero] at hlook
  · intro hwrites hlocks i hi
    have hlong : i < (qsort s₁ got).length := by omega
    have hi' : ((qsort s₁ got).take needed)[i]? = some (qsort s₁ got)[i] := by
      rw [List.getElem?_take_of_lt (hi.trans_le hle), List.getElem?_eq_getElem]
    have hlook := loaded_lookup h hin htaken hemptied hloaded hfree (hi.trans_le hle) hi'
    obtain ⟨c, hent, -⟩ := hloaded.asked i _ hi' hi
    refine ⟨_, storeOn_buf hlook, ?_, ?_⟩
    · rw [hent]
      exact decide_eq_true hwrites
    · rw [hent]
      change 0 < if op.locked = true then (1 : ℤ) else 0
      rw [hlocks]
      exact one_pos

/-- What a hit makes of the entry. -/
def hitEnt (op : Op) (data : Option (List β)) (c : CacheEnt β) : CacheEnt β :=
  { c with
    data := contents op data c.data
    dirty := c.dirty || op.kind ≠ .read
    lock := if op.locked then toInt32 (c.lock + 1) else c.lock }

/-- A hit changes its entry, which goes to the list of its lock. -/
theorem hitBlock_ok (hw : Wellformed size op dev data numBlocks bsize) (h : Rests size s xs)
    {ce : ℕ} (hfind : hashLookup s.ht ⟨dev, bnum⟩ = some ce) :
    ∃ s' xs', hitBlock s ce dev bnum data bsize op =
        .ok (copyOut op data (s'.ents ce).data, some ce, s') ∧ Rests size s' xs' ∧
      s' = { setEnt s ce (hitEnt op data) with links := s'.links, lists := s'.lists } := by
  obtain ⟨hce, hblock⟩ := h.listed hfind
  have hbnum : (s.ents ce).blockNum = bnum := congrArg Block.bnum hblock
  have hdev : (s.ents ce).dev = dev := congrArg Block.dev hblock
  have hbsize : bsize = (s.ents ce).bsize := by
    rw [h.sized ce hce, hdev]
    exact hw.sized
  have hfits : Fits (s.ents ce) (hitEnt op data (s.ents ce)) := by
    refine ⟨rfl, h.idle ce hce, rfl, ?_, h.calls ce hce⟩
    unfold hitEnt
    dsimp only
    split
    · exact toInt32_lt _
    · exact h.lock ce hce
  obtain ⟨s', xs', hadd, hrests, hsame⟩ := rests_rehead h hce hfits
  have hself : (setEnt (deleteFromList s (lockedName (s.ents ce).lock) ce) ce (hitEnt op data)).ents
      ce = hitEnt op data (s.ents ce) := Function.update_self ..
  refine ⟨s', xs', ?_, hrests, hsame⟩
  unfold hitBlock
  dsimp only
  rw [if_neg (by simp [hbnum, hdev]), if_neg (not_not.mpr hbsize)]
  change (addToHead (setEnt (deleteFromList s (lockedName (s.ents ce).lock) ce) ce
    (hitEnt op data)) (lockedName ((setEnt (deleteFromList s (lockedName (s.ents ce).lock) ce) ce
      (hitEnt op data)).ents ce).lock) ce).bind _ = _
  rw [hself, hadd]
  rfl

theorem hitBlock_served (hw : Wellformed size op dev data numBlocks bsize) (h : Rests size s xs)
    {ce : ℕ} (hfind : hashLookup s.ht ⟨dev, bnum⟩ = some ce) (hpos : 0 < numBlocks)
    (hlockable : op.locked = true → Lockable s ⟨dev, bnum⟩) :
    ∃ out dataptr s', hitBlock s ce dev bnum data bsize op = .ok (out, dataptr, s') ∧
      Served size op dev bnum data 1 s ⟨0, out, dataptr⟩ s' := by
  obtain ⟨hce, hblock⟩ := h.listed hfind
  have hlock : op.locked = true →
      toInt32 ((s.ents ce).lock + 1) = (s.ents ce).lock + 1 ∧ 0 ≤ (s.ents ce).lock := by
    intro hlocked
    have hcount := hlockable hlocked
    rw [Lockable, ← hblock, lockOf_entry h hce] at hcount
    exact ⟨toInt32_of_lt (by omega) hcount.2, hcount.1⟩
  have hcounted : (if op.locked = true then toInt32 ((s.ents ce).lock + 1) else (s.ents ce).lock) =
      if op.locked = true then (s.ents ce).lock + 1 else (s.ents ce).lock :=
    if_ctx_congr Iff.rfl (fun hlocked => (hlock hlocked).1) fun _ => rfl
  obtain ⟨s', xs', hrun, hrests, hsame⟩ := hitBlock_ok hw h hfind
  have hents : s'.ents ce = hitEnt op data (s.ents ce) := by
    rw [hsame]
    exact Function.update_self ..
  have hbuf : (cacheStore s).buf ⟨dev, bnum⟩ = some (bufOf (s.ents ce)) := storeOn_buf hfind
  have hstore := store_change h hce hsame
  have hzero : (⟨dev, bnum⟩ : Block) = ⟨dev, bnum + (0 : ℕ)⟩ := by simp
  have hmap : data.map (List.drop 0) = data := by cases data <;> rfl
  have hfound : hashLookup s'.ht ⟨dev, bnum⟩ = some ce := by
    rw [hsame]
    exact hfind
  refine ⟨copyOut op data (s'.ents ce).data, some ce, s', hrun, ⟨xs', hrests⟩, ?_, ?_, ?_, rfl, ?_,
    fun _ => ⟨ce, rfl, hfound⟩, fun hwrites hlocks i hi => ?_, ?_⟩
  · have hrun := requestActs_run op (contents op data 0) hbuf
    have hgroups := performs_groups (requestActs_quiet op (contents op data 0))
      (List.nodup_singleton _) fun k hk => by
        rw [List.mem_singleton] at hk
        rw [hk]
        exact hrun.1
    have hend : { cacheStore s with
        buf := fun k => if k ∈ [(⟨dev, bnum⟩ : Block)] then
          (runTrace apply (cacheStore s) (requestActs op (contents op data 0) k)).buf k
          else (cacheStore s).buf k } = cacheStore s' := by
      rw [hstore, hblock]
      dsimp only
      congr 1
      funext k
      by_cases hk : k = ⟨dev, bnum⟩
      · subst hk
        rw [if_pos List.mem_cons_self, hrun.2, Function.update_self]
        unfold hitEnt
        by_cases hkind : op.kind = .read
        · simp [requested, bufOf, FlushCompleteness.callback, hkind, contents_read hkind, hcounted]
        · have hcontents := contents_eq (i := 0) hw.brings hpos hkind (s.ents ce).data
          rw [hmap] at hcontents
          simp [requested, bufOf, FlushCompleteness.callback, hkind, hcontents, hcounted]
      · rw [if_neg (by simpa using hk), Function.update_of_ne hk]
    rw [hend, List.flatMap_singleton, List.flatMap_singleton, requestActs_written,
      requestActs_locked] at hgroups
    unfold writesOf locksOf
    rw [List.range_one, List.map_singleton, List.map_singleton, hmap, ← hzero]
    exact hgroups
  · rw [hsame]
    rfl
  · rw [hsame]
    rfl
  · intro m hc
    have hdata : (s.ents ce).data = m.blocks ⟨dev, bnum⟩ := by
      have hat := hc ⟨dev, bnum⟩
      rw [hbuf] at hat
      exact hat.1
    change copyOut op data (s'.ents ce).data = _
    unfold copyOut copied
    by_cases hread : data.isSome = true ∧ op.kind = .read
    · rw [if_pos hread, if_pos ⟨hread.1, by rw [hread.2]; decide⟩, hents]
      unfold hitEnt
      dsimp only
      rw [contents_read hread.2, hdata, List.range_one, List.map_singleton, ← hzero]
    · rw [if_neg hread, if_neg]
      rintro ⟨hsome, hwrite⟩
      cases hk : op.kind with
      | read => exact hread ⟨hsome, hk⟩
      | write => exact hwrite hk
      | noop =>
        rw [hw.empty hk] at hsome
        cases hsome
  · obtain rfl := Nat.lt_one_iff.mp hi
    rw [← hzero]
    refine ⟨_, storeOn_buf hfound, ?_, ?_⟩
    · rw [hents]
      change ((s.ents ce).dirty || decide (op.kind ≠ .read)) = true
      rw [decide_eq_true hwrites, Bool.or_true]
    · rw [hents]
      change 0 < if op.locked = true then toInt32 ((s.ents ce).lock + 1) else (s.ents ce).lock
      rw [hcounted, hlocks]
      exact Int.lt_add_one_of_le (hlock hlocks).2
  · exact stays_of_ht (by rw [hsame]; rfl)

end Misses

section Loop
variable [Zero β] {s s₁ s₂ : Cache β} {xs : Members} {size : ℤ → ℕ} {ls : List Block}
  {m : Mirror Block β} {op : Op} {dev bnum : ℤ} {data : Option (List β)} {numBlocks bsize j n : ℕ}
  {r r' : Reply β}

omit [Zero β] in
theorem copied_add (blocks : Block → β) : copied op dev bnum data (j + n) blocks =
    copied op dev bnum data j blocks ++
      copied op dev (bnum + j) (data.map (List.drop j)) n blocks := by
  unfold copied
  rw [Option.isSome_map]
  split
  · rw [List.range_add, List.map_append, List.map_map]
    refine congrArg _ (List.map_congr_left fun i _ => ?_)
    simp only [Function.comp_apply, Nat.cast_add, add_assoc]
  · rfl

theorem copied_after (blocks : Block → β) (bnum' : ℤ) (data' : Option (List β)) :
    copied op dev bnum data n (writeAll blocks (writesOf op dev bnum' data' j)) =
      copied op dev bnum data n blocks := by
  unfold copied
  split
  · rename_i hread
    rw [show writesOf op dev bnum' data' j = [] from if_pos hread.2]
    rfl
  · rfl

/-- What is left of a request is served behind what has been served before. -/
theorem Served.append (hsome : data ≠ none) (h : Served size op dev bnum data j s r s₁)
    (h' : Served size op dev (bnum + j) (data.map (List.drop j)) n s₁ r' s₂) :
    Served size op dev bnum data (j + n) s
      ⟨r'.err, r.data ++ r'.data, r'.dataptr.or r.dataptr⟩ s₂ where
  rests := h'.rests
  performs := by
    rw [writesOf_add, locksOf_add]
    exact h.performs.trans h'.performs
  maxBlocks := h'.maxBlocks.trans h.maxBlocks
  maxDeviceBlocks := h'.maxDeviceBlocks.trans h.maxDeviceBlocks
  err := h'.err
  answer m hc := by
    have hrest := h'.answer _ (h.performs.coherent hc)
    rw [copied_after] at hrest
    rw [copied_add]
    exact congrArg₂ _ (h.answer m hc) hrest
  dataptr hnone := absurd hnone hsome
  held hwrites hlocks i hi := by
    rcases Nat.lt_or_ge i j with hlt | hge
    · exact (h.held hwrites hlocks i hlt).reaches h'.performs.reaches
    · obtain ⟨k, rfl⟩ := Nat.exists_eq_add_of_le hge
      have hheld := h'.held hwrites hlocks k (by omega)
      rwa [add_assoc, ← Nat.cast_add] at hheld
  stays k ce hlock hlook := h'.stays k ce (hlock.trans_le (h.performs.reaches.lockOf_le k))
    (h.stays k ce hlock hlook)

omit [Zero β] in
theorem Wellformed.drop (hw : Wellformed size op dev data numBlocks bsize) (hsome : data ≠ none) :
    Wellformed size op dev (data.map (List.drop j)) (numBlocks - j) bsize where
  sized := hw.sized
  dev := hw.dev
  big := hw.big
  target hnone := absurd (Option.map_eq_none_iff.mp hnone) hsome
  brings hwrite := by
    obtain ⟨vs, rfl, hlen⟩ := hw.brings hwrite
    refine ⟨vs.drop j, rfl, ?_⟩
    rw [List.length_drop]
    omega
  empty hnoop := absurd (hw.empty hnoop) hsome

/-- One turn of the loop serves at least one block. -/
theorem turn_served (bnum : ℤ) (hw : Wellformed size op dev data numBlocks bsize)
    (h : Rests size s xs) (hpos : 0 < numBlocks) (hls : Holds s ls)
    (hroom : ls.length + numFlushBlocks ≤ s.maxBlocks)
    (hlockable : op.locked = true → Lockable s ⟨dev, bnum⟩) (fuel : ℕ) :
    ∃ j r s₁, 0 < j ∧ j ≤ numBlocks ∧ Served size op dev bnum data j s r s₁ ∧
      blockLoop dev bsize op (fuel + 1) bnum data numBlocks s =
        (blockLoop dev bsize op fuel (bnum + j) (data.map (List.drop j)) (numBlocks - j) s₁).bind
          fun p => .ok (⟨p.1.err, r.data ++ p.1.data, p.1.dataptr.or r.dataptr⟩, p.2) := by
  obtain ⟨n, rfl⟩ := Nat.exists_eq_add_one.mpr hpos
  rw [blockLoop, blockLookup_idle h]
  cases hfind : hashLookup s.ht ⟨dev, bnum⟩ with
  | some ce =>
    obtain ⟨out, dataptr, s₁, hrun, hserved⟩ := hitBlock_served hw h hfind hpos hlockable
    have htail : data.map List.tail = data.map (List.drop 1) := by
      cases data with
      | none => rfl
      | some vs => exact congrArg some List.drop_one.symm
    refine ⟨1, _, s₁, one_pos, hpos, hserved, ?_⟩
    change (hitBlock s ce dev bnum data bsize op).bind _ = _
    rw [hrun, ← htail, Nat.cast_one, Nat.add_sub_cancel]
    rfl
  | none =>
    obtain ⟨j, r, s₁, hrun, hj, hle, hserved⟩ :=
      missBlocks_served hw h hfind hpos hls hroom
    refine ⟨j, r, s₁, hj, hle, hserved, ?_⟩
    change (missBlocks s dev bnum data (n + 1) bsize op).bind _ = _
    rw [hrun]
    change (if r.err ≠ 0 then (.ok (r, s₁) : Run β (Reply β × Cache β)) else
      (blockLoop dev bsize op fuel (bnum + j) (data.map (List.drop j)) (n + 1 - j) s₁).bind
        fun p => .ok (⟨p.1.err, r.data ++ p.1.data, p.1.dataptr.or r.dataptr⟩, p.2)) = _
    rw [if_neg (not_not.mpr hserved.err)]

/-- The locks on the blocks behind those that have been served are as before. -/
theorem served_lockable (h : Served size op dev bnum data j s r s₁) {i : ℕ}
    (hlockable : Lockable s ⟨dev, bnum + (j + i : ℕ)⟩) :
    Lockable s₁ ⟨dev, bnum + j + (i : ℕ)⟩ := by
  have hfree : (⟨dev, bnum + j + (i : ℕ)⟩ : Block) ∉ locksOf op dev bnum j := by
    unfold locksOf
    split
    · intro hmem
      obtain ⟨a, ha, heq⟩ := List.mem_map.mp hmem
      have hbnum : bnum + (a : ℤ) = bnum + j + i := congrArg Block.bnum heq
      have hlt := List.mem_range.mp ha
      omega
    · exact List.not_mem_nil
  rw [Nat.cast_add, ← add_assoc] at hlockable
  unfold Lockable
  rw [h.performs.reaches.lockOf, List.count_eq_zero_of_not_mem hfree, Nat.cast_zero, add_zero]
  exact hlockable

theorem blockLoop_served (fuel : ℕ) : ∀ {bnum : ℤ} {data : Option (List β)} {numBlocks : ℕ}
    {s : Cache β} {ls : List Block},
    Wellformed size op dev data numBlocks bsize → (∃ xs, Rests size s xs) →
    0 < numBlocks → numBlocks ≤ fuel → Holds s ls →
    ls.length + (if op.locked then numBlocks else 0) + numFlushBlocks ≤ s.maxBlocks →
    (op.locked = true → ∀ i < numBlocks, Lockable s ⟨dev, bnum + (i : ℕ)⟩) →
    ∃ r s', blockLoop dev bsize op fuel bnum data numBlocks s = .ok (r, s') ∧
      Served size op dev bnum data numBlocks s r s' := by
  induction fuel with
  | zero => exact fun _ _ hpos hfuel => absurd hpos (not_lt.mpr hfuel)
  | succ fuel ih =>
    intro bnum data numBlocks s ls hw hrests hpos hfuel hls hroom hlockable
    obtain ⟨xs, h⟩ := hrests
    have hfirst : op.locked = true → Lockable s ⟨dev, bnum⟩ := fun hlocked => by
      have hzero := hlockable hlocked 0 hpos
      rwa [Nat.cast_zero, add_zero] at hzero
    obtain ⟨j, r, s₁, hj, hle, hserved, hrun⟩ :=
      turn_served bnum hw h hpos hls (by omega) hfirst fuel
    rw [hrun]
    obtain ⟨rest, rfl⟩ := Nat.exists_eq_add_of_le hle
    rw [Nat.add_sub_cancel_left]
    rcases Nat.eq_zero_or_pos rest with rfl | hrest
    · refine ⟨r, s₁, ?_, hserved⟩
      have herr := hserved.err
      cases fuel <;> simp [blockLoop, Except.bind, ← herr]
    · have hsome : data ≠ none := fun hnone => by
        have hone := hw.target hnone
        omega
      have hw' := hw.drop (j := j) hsome
      rw [Nat.add_sub_cancel_left] at hw'
      have hroom' : (ls ++ locksOf op dev bnum j).length + (if op.locked then rest else 0) +
          numFlushBlocks ≤ s₁.maxBlocks := by
        rw [hserved.maxBlocks, List.length_append]
        unfold locksOf
        split
        · rename_i hlocked
          rw [if_pos hlocked] at hroom
          rw [List.length_map, List.length_range]
          omega
        · rename_i hlocked
          rw [if_neg hlocked] at hroom
          rw [List.length_nil]
          omega
      obtain ⟨r', s₂, hrun', hserved'⟩ := @ih (bnum + j) _ _ _ _ hw' hserved.rests hrest
        (by omega) (hls.performs hserved.performs) hroom' fun hlocked i hi =>
          served_lockable hserved (hlockable hlocked (j + i) (Nat.add_lt_add_left hi j))
      rw [hrun']
      exact ⟨_, s₂, rfl, Served.append hsome hserved hserved'⟩

end Loop

end CacheTransfers
