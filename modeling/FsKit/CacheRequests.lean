import Mathlib.Tactic
import FsKit.MissFilling

/-! What a request makes of the cache as a store (`cache.c`). A block that is found is stored into
and locked; for blocks that are not there the miss flushes and evicts its victims and loads the
blocks in their place, those that it reads ahead included. -/
namespace CacheRequests

open LinkedList HashTable BlockCache WriteBackStore TransitionTrace CacheStructure CacheVictims
open CacheCalls CacheStores MissVictims MissFilling FallibleRuns
open FlushCompleteness (bufOf Works Kept)

variable {β : Type}

section Acts
variable {op : Op} {v : β} {k : Block} {t : Store Block β Callback} {b : Buf β Callback}

/-- The acts of a request on a block that has a buffer. -/
def requestActs (op : Op) (v : β) (k : Block) : List (Act Block β Callback) :=
  (if op.kind = .read then [] else [.store k v]) ++ if op.locked then [.lock k] else []

/-- The buffer after the request. -/
def requested (op : Op) (v : β) (b : Buf β Callback) : Buf β Callback :=
  { b with
    data := if op.kind = .read then b.data else v
    dirty := b.dirty || op.kind ≠ .read
    lock := if op.locked then b.lock + 1 else b.lock }

theorem requestActs_quiet (op : Op) (v : β) (k : Block) :
    ∀ a ∈ requestActs op v k, a.QuietAt k := by
  unfold requestActs
  intro a ha
  rcases List.mem_append.mp ha with ha | ha
  · split at ha
    · cases ha
    · rw [List.mem_singleton.mp ha]
      rfl
  · split at ha
    · rw [List.mem_singleton.mp ha]
      rfl
    · cases ha

theorem requestActs_run (op : Op) (v : β) (hb : t.buf k = some b) :
    EveryStep apply Allowed t (requestActs op v k) ∧
      (runTrace apply t (requestActs op v k)).buf k = some (requested op v b) := by
  unfold requestActs requested
  obtain ⟨kind, locked, ahead⟩ := op
  cases kind <;> cases locked <;>
    simp [EveryStep, Allowed, apply, onBuf_self, hb, -ne_eq]

theorem requestActs_written (op : Op) (v : β) (k : Block) :
    (requestActs op v k).filterMap Act.written = if op.kind = .read then [] else [(k, v)] := by
  unfold requestActs
  obtain ⟨kind, locked, ahead⟩ := op
  cases kind <;> cases locked <;> rfl

theorem requestActs_locked (op : Op) (v : β) (k : Block) :
    (requestActs op v k).filterMap Act.locked = if op.locked then [k] else [] := by
  unfold requestActs
  obtain ⟨kind, locked, ahead⟩ := op
  cases kind <;> cases locked <;> rfl

/-- A block that is loaded for the request. -/
theorem load_run (op : Op) (v : β) (hb : t.buf k = none) :
    EveryStep apply Allowed t (.load k :: requestActs op v k) ∧
      (runTrace apply t (.load k :: requestActs op v k)).buf k =
        some (requested op v ⟨t.disk k, false, none, none, 0⟩) := by
  have hload : (apply t (.load k)).buf k = some ⟨t.disk k, false, none, none, 0⟩ :=
    Function.update_self ..
  obtain ⟨hallowed, hrun⟩ := requestActs_run op v hload
  exact ⟨⟨hb, hallowed⟩, hrun⟩

end Acts

section Requests
variable [Zero β] {op : Op} {dev bnum : ℤ} {data : Option (List β)}

/-- The blocks that a request for `n` blocks writes, and with what. -/
def writesOf (op : Op) (dev bnum : ℤ) (data : Option (List β)) (n : ℕ) : List (Block × β) :=
  if op.kind = .read then []
  else (List.range n).map fun i : ℕ => (⟨dev, bnum + i⟩, contents op (data.map (List.drop i)) 0)

omit [Zero β] in
/-- The blocks that it locks. -/
def locksOf (op : Op) (dev bnum : ℤ) (n : ℕ) : List Block :=
  if op.locked then (List.range n).map fun i : ℕ => ⟨dev, bnum + i⟩ else []

theorem writesOf_add (m n : ℕ) : writesOf op dev bnum data (m + n) =
    writesOf op dev bnum data m ++ writesOf op dev (bnum + m) (data.map (List.drop m)) n := by
  unfold writesOf
  split
  · rfl
  · rw [List.range_add, List.map_append, List.map_map]
    refine congrArg _ (List.map_congr_left fun i _ => ?_)
    simp only [Function.comp_apply, Option.map_map, Function.comp_def, List.drop_drop, Nat.cast_add,
      add_assoc]

theorem locksOf_add (m n : ℕ) :
    locksOf op dev bnum (m + n) = locksOf op dev bnum m ++ locksOf op dev (bnum + m) n := by
  unfold locksOf
  split
  · rw [List.range_add, List.map_append, List.map_map]
    refine congrArg _ (List.map_congr_left fun i _ => ?_)
    simp only [Function.comp_apply, Nat.cast_add, add_assoc]
  · rfl

omit [Zero β] in
/-- What a request for `n` blocks hands back. -/
def copied (op : Op) (dev bnum : ℤ) (data : Option (List β)) (n : ℕ) (blocks : Block → β) :
    List β :=
  if data.isSome ∧ op.kind = .read then (List.range n).map fun i : ℕ => blocks ⟨dev, bnum + i⟩
  else []

omit [Zero β] in
/-- The caller brings the contents that are to be written. -/
def Brings (op : Op) (data : Option (List β)) (n : ℕ) : Prop :=
  op.kind = .write → ∃ vs, data = some vs ∧ n ≤ vs.length

omit [Zero β] in
/-- Whoever has locked a block finds it in the same entry. -/
def Stays (s s' : Cache β) : Prop :=
  ∀ k ce, 0 < lockOf (cacheStore s) k → hashLookup s.ht k = some ce → hashLookup s'.ht k = some ce

omit [Zero β] in
theorem stays_of_ht {s s' : Cache β} (h : s'.ht = s.ht) : Stays s s' := fun k ce _ hk => by
  rw [h]
  exact hk

/-- A request for blocks has been served: the cache is at rest again, and as a store it has gone
through what the request asks for. -/
structure Served (size : ℤ → ℕ) (op : Op) (dev bnum : ℤ) (data : Option (List β)) (n : ℕ)
    (s : Cache β) (r : Reply β) (s' : Cache β) : Prop where
  rests : ∃ xs', Rests size s' xs'
  performs : Performs (writesOf op dev bnum data n) (locksOf op dev bnum n) (cacheStore s)
    (cacheStore s')
  maxBlocks : s'.maxBlocks = s.maxBlocks
  maxDeviceBlocks : s'.maxDeviceBlocks = s.maxDeviceBlocks
  err : r.err = 0
  answer : ∀ m, Coherent (cacheStore s) m → r.data = copied op dev bnum data n m.blocks
  dataptr : data = none → ∃ ce, r.dataptr = some ce ∧ hashLookup s'.ht ⟨dev, bnum⟩ = some ce
  held : op.kind ≠ .read → op.locked = true →
    ∀ i < n, HeldDirty (cacheStore s') ⟨dev, bnum + (i : ℕ)⟩
  stays : Stays s s'

end Requests

section Loads
variable [Zero β] {size : ℤ → ℕ} {s t u s' : Cache β} {xs xs' : Members} {ents : List ℕ} {op : Op}
  {dev bnum : ℤ} {data : Option (List β)} {bsize curNblocks needed n : ℕ}

/-- The victims of a miss have their new blocks: those that were asked for are filled, those that
are read ahead have what is on the disk, the others are back. -/
structure Loaded (s : Cache β) (xs : Members) (op : Op) (dev bnum : ℤ) (bsize : ℕ)
    (data : Option (List β)) (curNblocks needed : ℕ) (ents : List ℕ) (u s' : Cache β) : Prop where
  same : s' = { u with
    ents := s'.ents
    links := s'.links
    lists := s'.lists
    ht := s'.ht
    ios := s'.ios }
  ios : u.ios ≤ s'.ios
  asked : ∀ i ce, (ents.take needed)[i]? = some ce → i < curNblocks →
    ∃ c, s'.ents ce = filledEnt dev bnum bsize op data i c ∧
      (op.kind = .read → c.data = u.disk ⟨dev, bnum + i⟩)
  ahead : ∀ i ce, (ents.take needed)[i]? = some ce → curNblocks ≤ i →
    s'.ents ce = { u.ents ce with
      dev := dev
      blockNum := bnum + i
      busy := false
      bsize := bsize
      data := (s'.ents ce).data } ∧ (op.kind = .read → (s'.ents ce).data = u.disk ⟨dev, bnum + i⟩)
  extras : ∀ ce ∈ ents.drop needed, s'.ents ce = { u.ents ce with busy := false }
  others : ∀ ce ∉ ents, s'.ents ce = u.ents ce
  keys : Keys s'.ht fun b c =>
    (∀ ce ∈ ents.take needed, (u.ents ce).dev ≠ -1 → (u.ents ce).block ≠ b) ∧
      HandKeys s xs dev bnum needed ents b c

omit [Zero β] in
theorem emptied_reloaded (he : Emptied s ents t u) : Reloaded ents t u where
  same := he.same
  block ce := (he.kept ce).block
  lock ce := (he.kept ce).lock
  others := he.others

omit [Zero β] in
theorem prepared_reloaded {w : Cache β} (hp : Prepared op dev bnum bsize (ents.take needed) u w) :
    Reloaded ents u w := by
  have hent : ∀ ce, ∃ v k, w.ents ce = { u.ents ce with data := v, bsize := k } := by
    intro ce
    by_cases hce : ce ∈ ents.take needed
    · obtain ⟨i, hi⟩ := List.getElem?_of_mem hce
      exact ⟨_, _, (along_get hp.victims hi).1⟩
    · exact ⟨_, _, hp.others ce hce⟩
  refine ⟨?_, fun ce => ?_, fun ce => ?_, fun ce hce => hp.others ce fun h => hce ?_⟩
  · rw [hp.same]
  · obtain ⟨v, k, h⟩ := hent ce
    rw [h]
    rfl
  · obtain ⟨v, k, h⟩ := hent ce
    rw [h]
  · exact List.mem_of_mem_take h

theorem loadEnts_loaded (op : Op) (bsize : ℕ) (hdev : 0 ≤ dev) (h : Rests size s xs)
    (hin : InHand s xs dev bnum needed ents t xs') (ht : Taken s xs ents n t)
    (he : Emptied s ents t u)
    (hflush : (if n ≠ 0 then flushEnts t ents else (0, t)) = (0, u))
    (hfree : ∀ j < needed, hashLookup s.ht ⟨dev, bnum + j⟩ = none) (hle : curNblocks ≤ needed)
    (hone : data = none → curNblocks = 1) :
    ∃ out s' xs'', loadEnts t dev bnum data bsize op curNblocks needed n ents =
        .ok (curNblocks, ⟨0, out, (ents.take curNblocks).getLast?⟩, s') ∧
      Loaded s xs op dev bnum bsize data curNblocks needed ents u s' ∧ Intact s' xs'' ∧
      out = if data.isSome ∧ op.kind ≠ .write then
        (ents.take curNblocks).map fun ce => (s'.ents ce).data else [] := by
  have hnodup := hin.lists.nodup
  have hworks : Works u := by
    intro k hk
    have hio : u.io = s.io := by rw [he.same, ht.same]
    have hios : t.ios = s.ios := by rw [ht.same]
    rw [hio]
    exact h.works k (hios ▸ he.ios.trans hk)
  obtain ⟨w, hprep, hp⟩ := prepared_of_clean dev bnum bsize op hworks
    (hnodup.sublist (List.take_sublist needed ents))
    fun ce hce => (he.clean ce (List.mem_of_mem_take hce)).1.2
  have hr : Reloaded ents t w := (emptied_reloaded he).trans (prepared_reloaded hp)
  have hl : Loading w xs' (ents.take needed ++ ents.drop needed)
      (HandKeys s xs dev bnum needed ents) := by
    rw [List.take_append_drop]
    exact inHand_loading h.toIntact hin hr
  -- the loops, one after another
  obtain ⟨w₁, xs₁, K₁, hrekey, hturned⟩ := rekeyEnts_spec curNblocks hdev
    (ents.take needed) 0 w xs' (ents.drop needed) _ hl (inHand_turns h.toIntact hin hfree hr)
  have hextras := inHand_extras h.toIntact hin hr
  obtain ⟨w₂, xs₂, hputBack, hl₂, hcur₂, hmax₂⟩ := putBackEnts_spec (ents.drop needed) w₁ xs₁ _
    (hturned.loading.perm List.perm_append_comm) fun ce hce => by
      obtain ⟨hent, hkey⟩ := hturned.others ce hce
      obtain ⟨hlock, hpos, hown⟩ := hextras ce hce
      rw [hent]
      exact ⟨hlock, hpos, fun b => (hkey b).trans (hown b)⟩
  have htake : (ents.take needed).take (curNblocks - 0) = ents.take curNblocks := by
    rw [Nat.sub_zero, List.take_take, min_eq_left hle]
  have hkeyed := hturned.keyed
  rw [htake] at hl₂ hkeyed
  have hzero : bnum = bnum + (0 : ℕ) := by simp
  have hdrop : data = data.map (List.drop 0) := by cases data <;> rfl
  have hfills : ∃ r, fillEnts dev bsize op curNblocks (bnum + (0 : ℕ)) (data.map (List.drop 0))
      (ents.take curNblocks) w₂ = .ok r := fillEnts_ok hdev hone _ hl₂ hkeyed
  obtain ⟨⟨out, dataptr, w₃⟩, hfill⟩ := hfills
  have hfill' := hfill
  rw [← hdrop, ← hzero] at hfill'
  obtain ⟨xs₃, hl₃, hcur₃, hmax₃⟩ := fillEnts_spec hdev _ 0 _ _ _ _ _ _ hl₂ hkeyed hfill
  have hfirst := hnodup.sublist (List.take_sublist curNblocks ents)
  obtain ⟨hsame₁, halong₁, hothers₁, hkeys₁⟩ :=
    rekeyEnts_frame _ (hnodup.sublist (List.take_sublist needed ents)) hrekey
  obtain ⟨hsame₂, hents₂⟩ := putBackEnts_frame _ hputBack
  obtain ⟨hsame₃, halong₃, hothers₃, hout, hptr⟩ := fillEnts_frame _ hfirst hfill
  have hback : ∀ (i ce : ℕ), (ents.take needed)[i]? = some ce → w₂.ents ce = w₁.ents ce := by
    intro i ce hi
    rw [hents₂, if_neg]
    exact fun hd => List.disjoint_take_drop hnodup le_rfl (List.mem_of_getElem? hi) hd
  have hgot : ∀ ce ∈ ents.take needed, (w.ents ce).dev = (u.ents ce).dev ∧
      (w.ents ce).block = (u.ents ce).block := fun ce _ => by
    have hblock := (prepared_reloaded hp).block ce
    exact ⟨congrArg Block.dev hblock, hblock⟩
  refine ⟨out, w₃, xs₃, ?_, ⟨?_, ?_, fun i ce hi hlt => ?_, fun i ce hi hge => ?_, fun ce hce => ?_,
    fun ce hce => ?_, ?_⟩, ?_, hout⟩
  · unfold loadEnts
    rw [hflush]
    dsimp only
    rw [if_neg (not_not.mpr rfl), hprep]
    simp only [hrekey, hputBack, hfill', bind, Except.bind, ne_eq, not_true_eq_false, if_false]
    rw [hptr]
  · rw [hsame₃, hsame₂, hsame₁, hp.same]
  · rw [hsame₃, hsame₂, hsame₁]
    exact hp.ios
  · have hi' : (ents.take curNblocks)[i]? = some ce := by
      rw [List.getElem?_take_of_lt hlt]
      rwa [List.getElem?_take_of_lt (hlt.trans_le hle)] at hi
    have hfilled := along_get halong₃ hi'
    have hkept := along_get halong₁ hi
    have hread := (along_get hp.victims hi).2
    rw [Nat.zero_add] at hfilled hkept hread
    rw [if_neg (not_le.mpr hlt)] at hkept
    refine ⟨w₂.ents ce, hfilled, fun hop => ?_⟩
    rw [hback i ce hi, hkept]
    exact hread hop
  · have hnot : ce ∉ ents.take curNblocks := by
      intro hmem
      obtain ⟨j, hj⟩ := List.getElem?_of_mem hmem
      have hjlt := (List.getElem?_eq_some_iff.mp hj).1
      rw [List.length_take] at hjlt
      rw [List.getElem?_take_of_lt (by omega)] at hj
      have hilt := (List.getElem?_eq_some_iff.mp hi).1
      rw [List.length_take] at hilt
      rw [List.getElem?_take_of_lt (by omega)] at hi
      have heq := (List.getElem?_inj (by omega) hnodup).mp (hi.trans hj.symm)
      omega
    have hturn := along_get halong₁ hi
    have hvictim := along_get hp.victims hi
    rw [Nat.zero_add] at hturn hvictim
    rw [if_pos hge] at hturn
    rw [hothers₃ ce hnot, hback i ce hi, hturn]
    refine ⟨?_, hvictim.2⟩
    conv_lhs => rw [hvictim.1]
  · have hnot : ce ∉ ents.take needed := fun hmem =>
      List.disjoint_take_drop hnodup le_rfl hmem hce
    rw [hothers₃ ce fun hmem => hnot (List.take_subset_take_left ents hle hmem), hents₂, if_pos hce,
      hothers₁ ce hnot, hp.others ce hnot]
  · rw [hothers₃ ce fun hmem => hce (List.mem_of_mem_take hmem), hents₂,
      if_neg fun hmem => hce (List.mem_of_mem_drop hmem),
      hothers₁ ce fun hmem => hce (List.mem_of_mem_take hmem),
      hp.others ce fun hmem => hce (List.mem_of_mem_take hmem)]
  · have hkeys := hkeys₁ _ hl.keys
    have hht : w₃.ht = w₁.ht := by rw [hsame₃, hsame₂]
    rw [hht]
    refine hkeys.congr fun b c => and_congr_left fun _ => forall₂_congr fun ce hce => ?_
    rw [(hgot ce hce).1, (hgot ce hce).2]
  · refine hl₃.intact ?_
    have hcap := h.cap
    have hcur := hin.curBlocks
    have hmax := hin.maxBlocks
    have hcurw : w.curBlocks = t.curBlocks := by rw [hr.same]
    have hmaxw : w.maxBlocks = t.maxBlocks := by rw [hr.same]
    have hcurTurned := hturned.curBlocks
    have hmaxTurned := hturned.maxBlocks
    unfold newEnts at hcur
    omega

/-- The acts by which a block gets its buffer in a miss. -/
def loadActs (op : Op) (bnum : ℤ) (data : Option (List β)) (curNblocks : ℕ) (k : Block) :
    List (Act Block β Callback) :=
  if (k.bnum - bnum).toNat < curNblocks then
    .load k :: requestActs op (contents op (data.map (List.drop (k.bnum - bnum).toNat)) 0) k
  else [.load k]

theorem loadActs_quiet (k : Block) :
    ∀ a ∈ loadActs op bnum data curNblocks k, a.QuietAt k := by
  unfold loadActs
  split
  · exact List.forall_mem_cons.mpr ⟨rfl, requestActs_quiet _ _ k⟩
  · exact List.forall_mem_singleton.mpr rfl

/-- What a write or an empty block puts in does not depend on what was there. -/
theorem contents_eq (hbrings : Brings op data curNblocks) {i : ℕ} (hi : i < curNblocks)
    (hkind : op.kind ≠ .read) (v : β) :
    contents op (data.map (List.drop i)) v = contents op (data.map (List.drop i)) 0 := by
  unfold contents
  split
  · rename_i hread
    exact absurd hread hkind
  · rename_i hwrite
    obtain ⟨vs, rfl, hlen⟩ := hbrings hwrite
    obtain ⟨x, rest, hdrop⟩ : ∃ x rest, vs.drop i = x :: rest := by
      refine List.exists_cons_of_ne_nil fun hnil => ?_
      rw [List.drop_eq_nil_iff] at hnil
      omega
    simp [hdrop]
  · rfl

theorem contents_read (hkind : op.kind = .read) (data : Option (List β)) (v : β) :
    contents op data v = v := by
  unfold contents
  rw [hkind]

/-- The entries that lose their blocks, and the blocks. -/
def oldBlocks (u : Cache β) (es : List ℕ) : List Block :=
  (es.filter fun ce => (u.ents ce).dev ≠ -1).map fun ce => (u.ents ce).block

def newBlocks (dev bnum : ℤ) (needed : ℕ) : List Block :=
  (List.range needed).map fun i : ℕ => ⟨dev, bnum + i⟩

omit [Zero β] in
theorem mem_oldBlocks {es : List ℕ} {b : Block} : b ∈ oldBlocks u es ↔
    ∃ ce ∈ es, (u.ents ce).dev ≠ -1 ∧ (u.ents ce).block = b := by
  simp [oldBlocks, and_assoc]

omit [Zero β] in
theorem mem_newBlocks {b : Block} :
    b ∈ newBlocks dev bnum needed ↔ ∃ i < needed, b = ⟨dev, bnum + (i : ℕ)⟩ := by
  simp [newBlocks, eq_comm]

omit [Zero β] in
theorem newBlocks_nodup (dev bnum : ℤ) (needed : ℕ) : (newBlocks dev bnum needed).Nodup := by
  refine List.Nodup.map (fun i j hij => ?_) List.nodup_range
  have hb := congrArg Block.bnum hij
  dsimp only at hb
  omega

/-- The blocks that are only read ahead are neither written nor locked. -/
theorem flatMap_newBlocks {α : Type} (hle : curNblocks ≤ needed) {f : Block → List α}
    {g : ℕ → List α} (hf : ∀ i < curNblocks, f ⟨dev, bnum + i⟩ = g i)
    (hnil : ∀ i < needed, curNblocks ≤ i → f ⟨dev, bnum + (i : ℕ)⟩ = []) :
    (newBlocks dev bnum needed).flatMap f = (List.range curNblocks).flatMap g := by
  obtain ⟨rest, rfl⟩ := Nat.exists_eq_add_of_le hle
  unfold newBlocks
  rw [List.flatMap_map, List.range_add, List.flatMap_append, List.flatMap_map]
  have hfirst : (List.range curNblocks).flatMap (fun i : ℕ => f ⟨dev, bnum + i⟩) =
      (List.range curNblocks).flatMap g :=
    List.flatMap_congr fun i hi => hf i (List.mem_range.mp hi)
  have hlast : (List.range rest).flatMap (fun i : ℕ => f ⟨dev, bnum + (curNblocks + i : ℕ)⟩) = [] :=
    List.flatMap_eq_nil_iff.mpr fun i hi =>
      hnil _ (Nat.add_lt_add_left (List.mem_range.mp hi) _) (Nat.le_add_right _ _)
  rw [hfirst, hlast, List.append_nil]

theorem loads_written (hle : curNblocks ≤ needed) :
    (newBlocks dev bnum needed).flatMap
        (fun k => (loadActs op bnum data curNblocks k).filterMap Act.written) =
      writesOf op dev bnum data curNblocks := by
  have hindex : ∀ i : ℕ, (bnum + i - bnum).toNat = i := by omega
  rw [flatMap_newBlocks (g := fun i => if op.kind = .read then []
      else [(⟨dev, bnum + i⟩, contents op (data.map (List.drop i)) 0)]) hle]
  · unfold writesOf
    split
    · exact List.flatMap_eq_nil_iff.mpr fun _ _ => rfl
    · exact List.map_eq_flatMap.symm
  · intro i hi
    unfold loadActs
    dsimp only
    rw [hindex, if_pos hi, List.filterMap_cons_none rfl, requestActs_written]
  · intro i _ hge
    unfold loadActs
    dsimp only
    rw [hindex, if_neg (not_lt.mpr hge)]
    rfl

theorem loads_locked (hle : curNblocks ≤ needed) :
    (newBlocks dev bnum needed).flatMap
        (fun k => (loadActs op bnum data curNblocks k).filterMap Act.locked) =
      locksOf op dev bnum curNblocks := by
  have hindex : ∀ i : ℕ, (bnum + i - bnum).toNat = i := by omega
  rw [flatMap_newBlocks (g := fun i => if op.locked then [⟨dev, bnum + i⟩] else []) hle]
  · unfold locksOf
    split
    · exact List.map_eq_flatMap.symm
    · exact List.flatMap_eq_nil_iff.mpr fun _ _ => rfl
  · intro i hi
    unfold loadActs
    dsimp only
    rw [hindex, if_pos hi, List.filterMap_cons_none rfl, requestActs_locked]
  · intro i _ hge
    unfold loadActs
    dsimp only
    rw [hindex, if_neg (not_lt.mpr hge)]
    rfl

omit [Zero β] in
/-- The victims that were in the cache before. -/
theorem old_emptied (h : Rests size s xs) (hin : InHand s xs dev bnum needed ents t xs')
    (ht : Taken s xs ents n t) (he : Emptied s ents t u) {ce : ℕ} (hce : ce ∈ ents)
    (hdev : (u.ents ce).dev ≠ -1) :
    Listed xs ce ∧ (u.ents ce).block = (s.ents ce).block ∧ (u.ents ce).lock = 0 := by
  obtain ⟨fs, os, hents, hfs, hos⟩ := ht.split
  have hblock := (he.kept ce).block
  rw [hents, List.mem_append] at hce
  rcases hce with hf | ho
  · rw [hfs ce hf] at hblock
    exact absurd (congrArg Block.dev hblock) hdev
  · have hlisted : Listed xs ce := ⟨_, hos ce ho⟩
    have hentry := hin.entries ce hlisted
    refine ⟨hlisted, ?_, ?_⟩
    · rw [hblock, hentry]
      rfl
    · rw [(he.kept ce).lock, hentry]
      exact h.lists.normal_unlocked ce (hos ce ho)

omit [Zero β] in
theorem emptied_unlocked (h : Rests size s xs) (hin : InHand s xs dev bnum needed ents t xs')
    (ht : Taken s xs ents n t) (he : Emptied s ents t u) {ce : ℕ} (hce : ce ∈ ents) :
    (u.ents ce).lock = 0 := by
  obtain ⟨fs, os, hents, hfs, hos⟩ := ht.split
  rw [(he.kept ce).lock]
  rw [hents, List.mem_append] at hce
  rcases hce with hf | ho
  · rw [hfs ce hf]
    rfl
  · rw [hin.entries ce ⟨_, hos ce ho⟩]
    exact h.lists.normal_unlocked ce (hos ce ho)

omit [Zero β] in
theorem mem_old (h : Rests size s xs) (hin : InHand s xs dev bnum needed ents t xs')
    (he : Emptied s ents t u) {ce : ℕ} (hce : ce ∈ ents.take needed) (hlisted : Listed xs ce) :
    (s.ents ce).block ∈ oldBlocks u (ents.take needed) := by
  have hblock : (u.ents ce).block = (s.ents ce).block := by
    rw [(he.kept ce).block, hin.entries ce hlisted]
    rfl
  refine mem_oldBlocks.mpr ⟨ce, hce, fun hdev => ?_, hblock⟩
  have hpos := h.dev ce hlisted
  have heq : (u.ents ce).dev = (s.ents ce).dev := congrArg Block.dev hblock
  omega

omit [Zero β] in
theorem olds_evicted (h : Rests size s xs) (hin : InHand s xs dev bnum needed ents t xs')
    (ht : Taken s xs ents n t) (he : Emptied s ents t u) :
    Performs [] [] (storeOn s.ht u) { storeOn s.ht u with
      buf := fun k => if k ∈ oldBlocks u (ents.take needed) then none
        else (storeOn s.ht u).buf k } := by
  have hnodup := hin.lists.nodup.sublist (List.take_sublist needed ents)
  have hold : ∀ ce ∈ ents.take needed, (u.ents ce).dev ≠ -1 →
      Listed xs ce ∧ (u.ents ce).block = (s.ents ce).block ∧ (u.ents ce).lock = 0 := fun ce hce =>
    old_emptied h hin ht he (List.mem_of_mem_take hce)
  refine performs_evicts ?_ fun k hk => ?_
  · refine List.Nodup.map_on (fun a ha b hb heq => ?_) (hnodup.filter _)
    rw [List.mem_filter, decide_eq_true_iff] at ha hb
    obtain ⟨hla, hba, -⟩ := hold a ha.1 ha.2
    obtain ⟨hlb, hbb, -⟩ := hold b hb.1 hb.2
    rw [hba, hbb] at heq
    exact Option.some.inj ((h.lookup hla).symm.trans ((congrArg _ heq).trans (h.lookup hlb)))
  · obtain ⟨ce, hce, hdev, rfl⟩ := mem_oldBlocks.mp hk
    obtain ⟨hlisted, hblock, hlock⟩ := hold ce hce hdev
    obtain ⟨⟨hdirty, hclone⟩, -⟩ := he.clean ce (List.mem_of_mem_take hce)
    refine ⟨bufOf (u.ents ce), storeOn_buf ?_, hdirty, hclone, hlock⟩
    rw [hblock]
    exact h.lookup hlisted

/-- A victim is not locked. -/
theorem loaded_stays (h : Rests size s xs) (hin : InHand s xs dev bnum needed ents t xs')
    (ht : Taken s xs ents n t) (he : Emptied s ents t u)
    (hl : Loaded s xs op dev bnum bsize data curNblocks needed ents u s') : Stays s s' := by
  intro k ce hlock hlook
  obtain ⟨hlisted, rfl⟩ := h.listed hlook
  refine (hl.keys.iff _ _).mpr ⟨fun c hc hdev heq => ?_, .inr ⟨hlisted, rfl⟩⟩
  obtain ⟨hold, hblock, hzero⟩ := old_emptied h hin ht he (List.mem_of_mem_take hc) hdev
  rw [hblock] at heq
  obtain rfl := Option.some.inj ((h.lookup hold).symm.trans ((congrArg _ heq).trans hlook))
  have hbuf : (cacheStore s).buf (s.ents c).block = some (bufOf (s.ents c)) := storeOn_buf hlook
  have hsame : (u.ents c).lock = (s.ents c).lock := by
    rw [(he.kept c).lock, hin.entries c hold]
  unfold lockOf at hlock
  rw [hbuf] at hlock
  exact absurd hlock (by rw [← hzero, hsame]; exact lt_irrefl _)

theorem loaded_lookup (h : Rests size s xs) (hin : InHand s xs dev bnum needed ents t xs')
    (ht : Taken s xs ents n t) (he : Emptied s ents t u)
    (hl : Loaded s xs op dev bnum bsize data curNblocks needed ents u s')
    (hfree : ∀ j < needed, hashLookup s.ht ⟨dev, bnum + j⟩ = none) {i ce : ℕ} (hi : i < needed)
    (hget : (ents.take needed)[i]? = some ce) :
    hashLookup s'.ht ⟨dev, bnum + i⟩ = some ce := by
  refine (hl.keys.iff _ _).mpr ⟨fun c hc hdev heq => ?_, .inl ⟨i, hget, by rw [Nat.zero_add]⟩⟩
  obtain ⟨hlisted, hblock, -⟩ := old_emptied h hin ht he (List.mem_of_mem_take hc) hdev
  have hfound := h.lookup hlisted
  rw [← hblock, heq, hfree i hi] at hfound
  cases hfound

/-- The buffer of one of the new blocks. -/
theorem loaded_buf (h : Rests size s xs) (hin : InHand s xs dev bnum needed ents t xs')
    (ht : Taken s xs ents n t) (he : Emptied s ents t u)
    (hl : Loaded s xs op dev bnum bsize data curNblocks needed ents u s')
    (hfree : ∀ j < needed, hashLookup s.ht ⟨dev, bnum + j⟩ = none)
    (hkind : op.kind ≠ .read → curNblocks = needed) (hbrings : Brings op data curNblocks) {i : ℕ}
    (hi : i < needed) {v : Store Block β Callback} (hnone : v.buf ⟨dev, bnum + i⟩ = none)
    (hdisk : v.disk = u.disk) :
    EveryStep apply Allowed v (loadActs op bnum data curNblocks ⟨dev, bnum + i⟩) ∧
      (runTrace apply v (loadActs op bnum data curNblocks ⟨dev, bnum + i⟩)).buf ⟨dev, bnum + i⟩ =
        (cacheStore s').buf ⟨dev, bnum + i⟩ := by
  have hlen : i < ents.length := hi.trans_le hin.enough
  have hget : (ents.take needed)[i]? = some ents[i] := by
    rw [List.getElem?_take_of_lt hi, List.getElem?_eq_getElem]
  generalize ents[i] = ce at hget
  have hce : ce ∈ ents := List.mem_of_mem_take (List.mem_of_getElem? hget)
  have hlook := loaded_lookup h hin ht he hl hfree hi hget
  have hindex : (bnum + i - bnum).toNat = i := by omega
  have hbuf : (cacheStore s').buf ⟨dev, bnum + i⟩ = some (bufOf (s'.ents ce)) := storeOn_buf hlook
  unfold loadActs
  dsimp only
  rw [hindex, hbuf]
  by_cases hlt : i < curNblocks
  · rw [if_pos hlt]
    obtain ⟨c, hent, hread⟩ := hl.asked i ce hget hlt
    obtain ⟨hallowed, hrun⟩ :=
      load_run op (contents op (data.map (List.drop i)) 0) hnone
    refine ⟨hallowed, ?_⟩
    rw [hrun, hent, hdisk]
    by_cases hkind' : op.kind = .read
    · simp [requested, bufOf, filledEnt, FlushCompleteness.callback, hkind',
        contents_read hkind', hread hkind']
    · simp [requested, bufOf, filledEnt, FlushCompleteness.callback, hkind',
        contents_eq hbrings hlt hkind' c.data]
  · rw [if_neg hlt]
    have hread : op.kind = .read := by
      by_contra hne
      exact hlt (hkind hne ▸ hi)
    obtain ⟨hent, hdata⟩ := hl.ahead i ce hget (not_lt.mp hlt)
    obtain ⟨⟨hdirty, hclone⟩, hfunc⟩ := he.clean ce hce
    refine ⟨⟨hnone, trivial⟩, ?_⟩
    have hload : (runTrace apply v [.load ⟨dev, bnum + i⟩]).buf ⟨dev, bnum + i⟩ =
        some ⟨v.disk ⟨dev, bnum + i⟩, false, none, none, 0⟩ := Function.update_self ..
    rw [hload, hent, hdata hread, hdisk]
    simp [bufOf, FlushCompleteness.callback, hdirty, hclone, hfunc,
      emptied_unlocked h hin ht he hce]

/-- A miss as acts of the store: its victims are flushed and evicted, and the blocks loaded. -/
theorem loaded_performs (h : Rests size s xs) (hin : InHand s xs dev bnum needed ents t xs')
    (ht : Taken s xs ents n t) (he : Emptied s ents t u)
    (hl : Loaded s xs op dev bnum bsize data curNblocks needed ents u s')
    (hfree : ∀ j < needed, hashLookup s.ht ⟨dev, bnum + j⟩ = none) (hle : curNblocks ≤ needed)
    (hkind : op.kind ≠ .read → curNblocks = needed) (hbrings : Brings op data curNblocks) :
    Performs (writesOf op dev bnum data curNblocks) (locksOf op dev bnum curNblocks) (cacheStore s)
      (cacheStore s') := by
  have hevicts := olds_evicted h hin ht he
  generalize hv : { storeOn s.ht u with
    buf := fun k => if k ∈ oldBlocks u (ents.take needed) then none
      else (storeOn s.ht u).buf k } = v at hevicts
  have hbuf : ∀ k, v.buf k = if k ∈ oldBlocks u (ents.take needed) then none
      else (storeOn s.ht u).buf k := fun k => by rw [← hv]
  have hdisk : v.disk = u.disk := by rw [← hv]; rfl
  have hlog : v.log = u.log := by rw [← hv]; rfl
  have hnone : ∀ i < needed, v.buf ⟨dev, bnum + (i : ℕ)⟩ = none := by
    intro i hi
    rw [hbuf, storeOn_none (hfree i hi), ite_self]
  have hloads := performs_groups (t := v) (f := loadActs op bnum data curNblocks) loadActs_quiet
    (newBlocks_nodup dev bnum needed) fun k hk => by
      obtain ⟨i, hi, rfl⟩ := mem_newBlocks.mp hk
      exact (loaded_buf h hin ht he hl hfree hkind hbrings hi (hnone i hi) hdisk).1
  rw [loads_written hle, loads_locked hle] at hloads
  have hend : { v with
      buf := fun k => if k ∈ newBlocks dev bnum needed then
        (runTrace apply v (loadActs op bnum data curNblocks k)).buf k else v.buf k } =
      cacheStore s' := by
    unfold cacheStore storeOn
    rw [hdisk, hlog, hl.same]
    congr 1
    funext k
    split
    · rename_i hk
      obtain ⟨i, hi, rfl⟩ := mem_newBlocks.mp hk
      exact (loaded_buf h hin ht he hl hfree hkind hbrings hi (hnone i hi) hdisk).2
    · rename_i hnew
      rw [hbuf]
      split
      · -- the block of a victim
        rename_i hold
        obtain ⟨ce, hce, hdev, hblock⟩ := mem_oldBlocks.mp hold
        exact (storeOn_none (hl.keys.absent.mpr fun c hc => hc.1 ce hce hdev hblock)).symm
      · rename_i hold
        have hkeys : ∀ ce, HandKeys s xs dev bnum needed ents k ce ↔
            Listed xs ce ∧ (s.ents ce).block = k := by
          refine fun ce => ⟨?_, .inr⟩
          rintro (⟨i, hi, rfl⟩ | hkey)
          · have hlt := (List.getElem?_eq_some_iff.mp hi).1
            rw [List.length_take] at hlt
            refine absurd (mem_newBlocks.mpr ⟨i, by omega, ?_⟩) hnew
            rw [Nat.zero_add]
          · exact hkey
        cases hlook : hashLookup s.ht k with
        | none =>
          have hgone : hashLookup s'.ht k = none := hl.keys.absent.mpr fun c hc =>
            h.keys.absent.mp hlook c ((hkeys c).mp hc.2)
          rw [storeOn_none hlook]
          exact (storeOn_none hgone).symm
        | some ce =>
          obtain ⟨hlisted, rfl⟩ := h.listed hlook
          have hnot : ce ∉ ents.take needed := fun hce => hold (mem_old h hin he hce hlisted)
          have hstill : hashLookup s'.ht (s.ents ce).block = some ce :=
            (hl.keys.iff _ _).mpr ⟨fun c hc hdev heq => hold (mem_oldBlocks.mpr ⟨c, hc, hdev, heq⟩),
              .inr ⟨hlisted, rfl⟩⟩
          have hent : bufOf (s'.ents ce) = bufOf (u.ents ce) := by
            by_cases hce : ce ∈ ents
            · rw [← List.take_append_drop needed ents, List.mem_append] at hce
              rw [hl.extras ce (hce.resolve_left hnot)]
              rfl
            · rw [hl.others ce hce]
          rw [storeOn_buf hlook, ← hent]
          exact (storeOn_buf hstill).symm
  rw [hend] at hloads
  have hall := (he.performs.trans hevicts).trans hloads
  exact hall

/-- The cache is at rest again behind a miss. -/
theorem loaded_rests (h : Rests size s xs) (hin : InHand s xs dev bnum needed ents t xs')
    (ht : Taken s xs ents n t) (he : Emptied s ents t u)
    (hl : Loaded s xs op dev bnum bsize data curNblocks needed ents u s')
    (hsize : bsize = size dev) {xs'' : Members} (hi : Intact s' xs'') : Rests size s' xs'' := by
  have hent : ∀ ce, Listed xs'' ce → (s'.ents ce).bsize = size (s'.ents ce).dev ∧
      (s'.ents ce).lock < 2 ^ 31 ∧ ((s'.ents ce).clone = none ↔ (s'.ents ce).func = none) := by
    intro ce hce
    have hlook := (hi.keys.iff _ _).mpr ⟨hce, rfl⟩
    obtain ⟨-, hkey⟩ := (hl.keys.iff _ _).mp hlook
    by_cases htake : ce ∈ ents.take needed
    · obtain ⟨i, hget⟩ := List.getElem?_of_mem htake
      obtain ⟨⟨-, hclone⟩, hfunc⟩ := he.clean ce (List.mem_of_mem_take htake)
      by_cases hlt : i < curNblocks
      · obtain ⟨c, hc, -⟩ := hl.asked i ce hget hlt
        rw [hc]
        refine ⟨hsize, ?_, iff_of_true rfl rfl⟩
        unfold filledEnt
        dsimp only
        split <;> norm_num
      · rw [(hl.ahead i ce hget (not_lt.mp hlt)).1]
        refine ⟨hsize, ?_, iff_of_true hclone hfunc⟩
        dsimp only
        rw [emptied_unlocked h hin ht he (List.mem_of_mem_take htake)]
        norm_num
    · have hlisted : Listed xs ce := by
        rcases hkey with ⟨i, hget, -⟩ | hkey
        · exact absurd (List.mem_of_getElem? hget) htake
        · exact hkey.1
      have hkept := he.kept ce
      have hentry := hin.entries ce hlisted
      have hbsize : (u.ents ce).bsize = (s.ents ce).bsize := by rw [hkept, hentry]
      have hdev : (u.ents ce).dev = (s.ents ce).dev := by rw [hkept, hentry]
      have hlock : (u.ents ce).lock = (s.ents ce).lock := by rw [hkept, hentry]
      by_cases hmem : ce ∈ ents
      · obtain ⟨⟨-, hclone⟩, hfunc⟩ := he.clean ce hmem
        rw [← List.take_append_drop needed ents, List.mem_append] at hmem
        rw [hl.extras ce (hmem.resolve_left htake)]
        dsimp only
        rw [hbsize, hdev, hlock]
        exact ⟨h.sized ce hlisted, h.lock ce hlisted, iff_of_true hclone hfunc⟩
      · rw [hl.others ce hmem, hbsize, hdev, hlock, he.others ce hmem, hentry]
        exact ⟨h.sized ce hlisted, h.lock ce hlisted, h.calls ce hlisted⟩
  refine ⟨hi, fun ce hce => (hent ce hce).1, fun ce hce => (hent ce hce).2.1,
    fun ce hce => (hent ce hce).2.2, fun k hk => ?_⟩
  have hio : s'.io = s.io := by rw [hl.same, he.same, ht.same]
  have hios : t.ios = s.ios := by rw [ht.same]
  rw [hio]
  exact h.works k (hios ▸ (he.ios.trans hl.ios).trans hk)

end Loads

end CacheRequests
