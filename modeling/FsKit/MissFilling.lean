import Mathlib.Tactic
import FsKit.MissVictims

/-! How the victims of a miss get their new blocks (`cache.c`): what each of the loops behind the
flush makes of the entries, the hash table and the lists. -/
namespace MissFilling

open LinkedList HashTable BlockCache WriteBackStore CacheStructure CacheVictims CacheCalls
open CacheStores MissVictims FallibleRuns
open FlushCompleteness (Works)

variable {β : Type}

section Preparing
variable {s s' u w : Cache β} {ents : List ℕ} {dev bnum : ℤ} {needed bsize : ℕ}

theorem along_get {P : ℕ → ℕ → Prop} {cur i ce : ℕ} {ents : List ℕ} (h : Along P cur ents)
    (hi : ents[i]? = some ce) : P (cur + i) ce := by
  induction ents generalizing cur i with
  | nil => cases hi
  | cons c ents ih =>
    cases i with
    | zero =>
      obtain rfl := Option.some.inj hi
      exact h.1
    | succ i =>
      have hrest := ih h.2 hi
      rwa [Nat.add_assoc, Nat.add_comm 1 i] at hrest

theorem reallocEnts_frame (bsize : ℕ) (es : List ℕ) (s : Cache β) :
    es.foldl (reallocEnt bsize) s = { s with
      ents := fun ce =>
        if ce ∈ es ∧ (s.ents ce).bsize ≠ bsize then
          { s.ents ce with data := s.junk, clone := none, bsize := bsize }
        else s.ents ce } := by
  induction es generalizing s with
  | nil => simp
  | cons c es ih =>
    have hone : reallocEnt bsize s c = { s with
        ents := fun ce =>
          if ce = c ∧ (s.ents ce).bsize ≠ bsize then
            { s.ents ce with data := s.junk, clone := none, bsize := bsize }
          else s.ents ce } := by
      unfold reallocEnt setEnt
      split
      · rename_i hne
        congr 1
        funext ce
        by_cases hce : ce = c
        · subst hce
          rw [Function.update_self, if_pos ⟨rfl, hne⟩]
        · rw [Function.update_of_ne hce, if_neg fun h => hce h.1]
      · rename_i heq
        have hents : (fun ce => if ce = c ∧ (s.ents ce).bsize ≠ bsize then
            { s.ents ce with data := s.junk, clone := none, bsize := bsize } else s.ents ce) =
              s.ents := by
          funext ce
          rw [if_neg]
          rintro ⟨rfl, hne⟩
          exact heq hne
        rw [hents]
    rw [List.foldl_cons, ih, hone]
    congr 1
    funext ce
    dsimp only
    by_cases hce : ce = c
    · subst hce
      by_cases hb : (s.ents ce).bsize = bsize <;> simp [hb]
    · simp [hce]

theorem readBlocks_frame (dev bnum : ℤ) (es : List ℕ) : ∀ (cur : ℕ) (s : Cache β), es.Nodup →
    readBlocks dev (bnum + cur) es s =
        { s with ents := (readBlocks dev (bnum + cur) es s).ents } ∧
      Along (fun i ce => (readBlocks dev (bnum + cur) es s).ents ce =
        { s.ents ce with data := s.disk ⟨dev, bnum + i⟩ }) cur es ∧
      ∀ ce ∉ es, (readBlocks dev (bnum + cur) es s).ents ce = s.ents ce := by
  induction es with
  | nil => exact fun cur s _ => ⟨rfl, trivial, fun _ _ => rfl⟩
  | cons c es ih =>
    intro cur s hnodup
    obtain ⟨hc, hrest⟩ := List.nodup_cons.mp hnodup
    have hnext : bnum + cur + 1 = bnum + (cur + 1 : ℕ) := by
      push_cast
      exact add_assoc ..
    obtain ⟨hsame, hread, hothers⟩ := ih (cur + 1)
      (setEnt s c fun e => { e with data := s.disk ⟨dev, bnum + cur⟩ }) hrest
    rw [readBlocks, hnext]
    refine ⟨hsame, ⟨?_, hread.imp fun i ce hce h => ?_⟩, fun ce hce => ?_⟩
    · dsimp only
      rw [hothers c hc]
      exact Function.update_self ..
    · rw [h]
      have hne : ce ≠ c := fun heq => hc (heq ▸ hce)
      have hother : (setEnt s c fun e => { e with data := s.disk ⟨dev, bnum + cur⟩ }).ents ce =
          s.ents ce := Function.update_of_ne hne _ _
      rw [hother]
      rfl
    · rw [List.mem_cons, not_or] at hce
      rw [hothers ce hce.2]
      exact Function.update_of_ne hce.1 _ _

/-- The needed victims have room for a block, and a read has filled them. -/
structure Prepared (op : Op) (dev bnum : ℤ) (bsize : ℕ) (es : List ℕ) (u w : Cache β) : Prop where
  same : w = { u with ents := w.ents, ios := w.ios }
  ios : u.ios ≤ w.ios
  victims : Along (fun i ce =>
    w.ents ce = { u.ents ce with data := (w.ents ce).data, bsize := bsize } ∧
      (op.kind = .read → (w.ents ce).data = u.disk ⟨dev, bnum + i⟩)) 0 es
  others : ∀ ce ∉ es, w.ents ce = u.ents ce

variable (dev bnum bsize) in
theorem prepared_of_clean (op : Op) (hw : Works u) {es : List ℕ} (hnodup : es.Nodup)
    (hclean : ∀ ce ∈ es, (u.ents ce).clone = none) :
    ∃ w, (if op.kind = .read then readIntoEnts (es.foldl (reallocEnt bsize) u) dev bnum es
        else (0, es.foldl (reallocEnt bsize) u)) = (0, w) ∧
      Prepared op dev bnum bsize es u w := by
  have hrealloc := reallocEnts_frame bsize es u
  generalize es.foldl (reallocEnt bsize) u = v at hrealloc ⊢
  have hroom : ∀ ce ∈ es,
      v.ents ce = { u.ents ce with data := (v.ents ce).data, bsize := bsize } := by
    intro ce hce
    rw [hrealloc]
    dsimp only
    by_cases hb : (u.ents ce).bsize = bsize
    · rw [if_neg fun h => h.2 hb, ← hb]
    · rw [if_pos ⟨hce, hb⟩, hclean ce hce]
  have hkept : ∀ ce ∉ es, v.ents ce = u.ents ce := by
    intro ce hce
    rw [hrealloc]
    exact if_neg fun h => hce h.1
  have hsame : v = { u with ents := v.ents } := by rw [hrealloc]
  by_cases hread : op.kind = .read
  · rw [if_pos hread]
    have hio : v.io v.ios = true := by
      rw [hsame]
      exact hw _ le_rfl
    obtain ⟨hframe, hblocks, hothers⟩ := readBlocks_frame dev bnum es 0
      { v with ios := v.ios + 1 } hnodup
    unfold readIntoEnts transfer
    dsimp only
    rw [hio, if_pos rfl]
    have hzero : bnum = bnum + (0 : ℕ) := by simp
    rw [← hzero] at hframe hblocks hothers
    generalize readBlocks dev bnum es { v with ios := v.ios + 1 } = w at hframe hblocks hothers ⊢
    refine ⟨w, rfl, ?_, ?_, hblocks.imp fun i ce hce h => ?_, fun ce hce => ?_⟩
    · rw [hframe, hsame]
    · rw [hframe, hsame]
      exact Nat.le_succ _
    · rw [h]
      dsimp only
      rw [hroom ce hce, hsame]
      exact ⟨rfl, fun _ => rfl⟩
    · rw [hothers ce hce]
      exact hkept ce hce
  · rw [if_neg hread]
    refine ⟨v, rfl, by rw [hsame], ?_, ?_, hkept⟩
    · rw [hsame]
    · refine along_of_getElem fun i ce hi => ⟨hroom ce (List.mem_of_getElem? hi), fun h => ?_⟩
      exact absurd h hread

end Preparing

section Turning
variable {s s' : Cache β} {ents : List ℕ} {dev bnum : ℤ} {curNblocks : ℕ} {ce : ℕ}

theorem addToHead_frame {cel : ListName} (h : addToHead s cel ce = .ok s') :
    s' = { s with links := s'.links, lists := s'.lists } := by
  unfold addToHead at h
  split at h
  · cases h
  · cases h
    rfl

theorem addToTail_frame {cel : ListName} (h : addToTail s cel ce = .ok s') :
    s' = { s with links := s'.links, lists := s'.lists } := by
  unfold addToTail at h
  split at h
  · cases h
  · cases h
    rfl

/-- One victim forgets its old block; one that was read ahead then has its new one. -/
theorem rekeyEnts_step {cur : ℕ} (h : rekeyEnts 0 dev bnum curNblocks cur (ce :: ents) s = .ok s') :
    ∃ s₁, rekeyEnts 0 dev bnum curNblocks (cur + 1) ents s₁ = .ok s' ∧
      s₁ = { s with ents := s₁.ents, links := s₁.links, lists := s₁.lists, ht := s₁.ht } ∧
      (s₁.ents = if curNblocks ≤ cur then
        Function.update s.ents ce
          { s.ents ce with dev := dev, blockNum := bnum + cur, busy := false } else s.ents) ∧
      ∀ K, Keys s.ht K →
        Keys s₁.ht fun b c => ((s.ents ce).dev ≠ -1 → (s.ents ce).block ≠ b) ∧ K b c := by
  -- the rest of the step, once the old key is gone
  have hcont : ∀ ht, (∀ K, Keys s.ht K →
        Keys ht fun b c => ((s.ents ce).dev ≠ -1 → (s.ents ce).block ≠ b) ∧ K b c) →
      ((if (0 : ℤ) = 0 ∧ curNblocks ≤ cur then
        (addToHead (setEnt { s with ht := ht } ce fun c =>
          { c with dev := dev, blockNum := bnum + cur, busy := false }) .normal ce).bind
            (rekeyEnts 0 dev bnum curNblocks (cur + 1) ents)
        else rekeyEnts 0 dev bnum curNblocks (cur + 1) ents { s with ht := ht }) = .ok s') →
      ∃ s₁, rekeyEnts 0 dev bnum curNblocks (cur + 1) ents s₁ = .ok s' ∧
        s₁ = { s with ents := s₁.ents, links := s₁.links, lists := s₁.lists, ht := s₁.ht } ∧
        (s₁.ents = if curNblocks ≤ cur then
          Function.update s.ents ce
            { s.ents ce with dev := dev, blockNum := bnum + cur, busy := false } else s.ents) ∧
        ∀ K, Keys s.ht K →
          Keys s₁.ht fun b c => ((s.ents ce).dev ≠ -1 → (s.ents ce).block ≠ b) ∧ K b c := by
    intro ht hkeys hrun
    by_cases hcur : curNblocks ≤ cur
    · rw [if_pos ⟨rfl, hcur⟩] at hrun
      obtain ⟨s₁, hadd, hrun⟩ := bind_ok hrun
      have hsame := addToHead_frame hadd
      refine ⟨s₁, hrun, by rw [hsame]; rfl, ?_, ?_⟩
      · rw [if_pos hcur, hsame]
        rfl
      · rw [hsame]
        exact hkeys
    · rw [if_neg fun h => hcur h.2] at hrun
      exact ⟨_, hrun, rfl, by rw [if_neg hcur], hkeys⟩
  rw [rekeyEnts] at h
  by_cases hdev : (s.ents ce).dev = -1
  · rw [if_neg (not_not.mpr hdev)] at h
    refine hcont s.ht (fun K hk => hk.congr fun b c => ?_) h
    exact ⟨fun hkey => ⟨fun hne => absurd hdev hne, hkey⟩, And.right⟩
  · rw [if_pos hdev] at h
    dsimp only at h
    split at h
    · cases h
    · rename_i hfound
      rw [not_not] at hfound
      refine hcont (hashDelete s.ht (s.ents ce).block).2 (fun K hk => ?_) h
      have hkey : K (s.ents ce).block ce := by
        by_contra hnone
        by_cases hother : ∃ c, K (s.ents ce).block c
        · obtain ⟨c, hc⟩ := hother
          obtain ⟨ht', hdel, -⟩ := hk.delete hc
          rw [hdel] at hfound
          obtain rfl := Option.some.inj hfound
          exact hnone hc
        · rw [hk.delete_absent fun c hc => hother ⟨c, hc⟩] at hfound
          cases hfound
      obtain ⟨ht', hdel, hk'⟩ := hk.delete hkey
      rw [hdel]
      refine hk'.congr fun b c => and_congr_left fun _ => ?_
      exact ⟨fun hne _ heq => hne heq.symm, fun hne heq => hne hdev heq.symm⟩

theorem rekeyEnts_frame (ents : List ℕ) : ∀ {cur : ℕ} {s s' : Cache β}, ents.Nodup →
    rekeyEnts 0 dev bnum curNblocks cur ents s = .ok s' →
    s' = { s with ents := s'.ents, links := s'.links, lists := s'.lists, ht := s'.ht } ∧
      Along (fun i ce => s'.ents ce = if curNblocks ≤ i then
        { s.ents ce with dev := dev, blockNum := bnum + i, busy := false } else s.ents ce)
        cur ents ∧
      (∀ ce ∉ ents, s'.ents ce = s.ents ce) ∧
      ∀ K, Keys s.ht K → Keys s'.ht fun b c =>
        (∀ ce ∈ ents, (s.ents ce).dev ≠ -1 → (s.ents ce).block ≠ b) ∧ K b c := by
  induction ents with
  | nil =>
    intro cur s s' _ h
    cases h
    exact ⟨rfl, trivial, fun _ _ => rfl, fun K hk => hk.congr fun b c => by simp⟩
  | cons ce ents ih =>
    intro cur s s' hnodup h
    obtain ⟨hce, hrest⟩ := List.nodup_cons.mp hnodup
    obtain ⟨s₁, hrun, hsame₁, hents₁, hkeys₁⟩ := rekeyEnts_step h
    obtain ⟨hsame, halong, hothers, hkeys⟩ := ih hrest hrun
    have hother : ∀ c, c ≠ ce → s₁.ents c = s.ents c := by
      intro c hc
      rw [hents₁]
      split
      · exact Function.update_of_ne hc _ _
      · rfl
    have hin : ∀ c ∈ ents, c ≠ ce := fun c hc heq => hce (heq ▸ hc)
    refine ⟨by rw [hsame, hsame₁], ⟨?_, halong.imp fun i c hc heq => ?_⟩, fun c hc => ?_,
      fun K hk => (hkeys _ (hkeys₁ K hk)).congr fun b c => ?_⟩
    · dsimp only
      rw [hothers ce hce, hents₁]
      split
      · exact Function.update_self ..
      · rfl
    · rw [heq, hother c (hin c hc)]
    · rw [List.mem_cons, not_or] at hc
      rw [hothers c hc.2, hother c hc.1]
    · rw [List.forall_mem_cons, ← and_assoc, and_comm (a := ∀ x ∈ ents, _)]
      refine and_congr_left fun _ => and_congr_right fun _ => forall₂_congr fun c' hc' => ?_
      rw [hother c' (hin c' hc')]

theorem putBackEnts_frame (ents : List ℕ) : ∀ {s s' : Cache β}, putBackEnts ents s = .ok s' →
    s' = { s with ents := s'.ents, links := s'.links, lists := s'.lists } ∧
      ∀ ce, s'.ents ce = if ce ∈ ents then { s.ents ce with busy := false } else s.ents ce := by
  induction ents with
  | nil =>
    intro s s' h
    cases h
    exact ⟨rfl, fun ce => by simp⟩
  | cons c ents ih =>
    intro s s' h
    rw [putBackEnts] at h
    split at h
    · cases h
    obtain ⟨s₁, hadd, hrun⟩ := bind_ok h
    have hsame₁ := addToTail_frame hadd
    obtain ⟨hsame, hents⟩ := ih hrun
    have hents₁ : s₁.ents = (setBusy false s c).ents := by rw [hsame₁]
    refine ⟨?_, fun ce => ?_⟩
    · rw [hsame, hsame₁]
      rfl
    · rw [hents ce, hents₁]
      by_cases hce : ce = c
      · subst hce
        simp [setBusy, setEnt]
      · rw [setBusy_other hce]
        simp [hce]

end Turning

section Filling
variable [Zero β] {s s' : Cache β} {xs : Members} {ents : List ℕ} {K : Block → ℕ → Prop}
  {dev bnum : ℤ} {curNblocks bsize : ℕ} {op : Op} {data : Option (List β)}

/-- An entry with the block `bnum + i` of the request. -/
def filledEnt (dev bnum : ℤ) (bsize : ℕ) (op : Op) (data : Option (List β)) (i : ℕ)
    (c : CacheEnt β) : CacheEnt β where
  dev := dev
  blockNum := bnum + i
  bsize := bsize
  dirty := op.kind ≠ .read
  busy := false
  data := contents op (data.map (List.drop i)) c.data
  clone := none
  lock := if op.locked then 1 else 0
  func := none
  loggedBnum := c.loggedBnum
  arg := 0

omit [Zero β] in
theorem map_tail_drop (cur : ℕ) :
    (data.map (List.drop cur)).map List.tail = data.map (List.drop (cur + 1)) := by
  cases data with
  | none => rfl
  | some vs => exact congrArg some List.tail_drop

theorem fillEnts_frame (ents : List ℕ) : ∀ {cur : ℕ} {s s' : Cache β} {out : List β}
    {dataptr : Option ℕ}, ents.Nodup →
    fillEnts dev bsize op curNblocks (bnum + cur) (data.map (List.drop cur)) ents s =
      .ok (out, dataptr, s') →
    s' = { s with ents := s'.ents, links := s'.links, lists := s'.lists } ∧
      Along (fun i ce => s'.ents ce = filledEnt dev bnum bsize op data i (s.ents ce)) cur ents ∧
      (∀ ce ∉ ents, s'.ents ce = s.ents ce) ∧
      out = (if data.isSome ∧ op.kind ≠ .write then ents.map fun ce => (s'.ents ce).data else []) ∧
      dataptr = ents.getLast? := by
  induction ents with
  | nil =>
    intro cur s s' out dataptr _ h
    cases h
    exact ⟨rfl, trivial, fun _ _ => rfl, by simp, rfl⟩
  | cons ce ents ih =>
    intro cur s s' out dataptr hnodup h
    obtain ⟨hce, hrest⟩ := List.nodup_cons.mp hnodup
    rw [fillEnts] at h
    split at h
    · cases h
    dsimp only at h
    obtain ⟨s₁, hadd, h⟩ := bind_ok h
    split at h
    · cases h
    obtain ⟨⟨out', dataptr', s₂⟩, hrun, h⟩ := bind_ok h
    cases h
    have hsame₁ := addToHead_frame hadd
    have hself : s₁.ents ce = filledEnt dev bnum bsize op data cur (s.ents ce) := by
      rw [hsame₁]
      exact Function.update_self ..
    have hother : ∀ c, c ≠ ce → s₁.ents c = s.ents c := by
      intro c hc
      rw [hsame₁]
      exact Function.update_of_ne hc _ _
    have hnext : bnum + cur + 1 = bnum + (cur + 1 : ℕ) := by
      push_cast
      exact add_assoc ..
    rw [hnext, map_tail_drop] at hrun
    obtain ⟨hsame, halong, hothers, hout, hptr⟩ := ih hrest hrun
    have hkept : s₂.ents ce = s₁.ents ce := hothers ce hce
    refine ⟨?_, ⟨hkept.trans hself, halong.imp fun i c hc heq => ?_⟩, fun c hc => ?_, ?_, ?_⟩
    · rw [hsame, hsame₁]
      rfl
    · rw [heq, hother c fun h => hce (h ▸ hc)]
    · rw [List.mem_cons, not_or] at hc
      rw [hothers c hc.2, hother c hc.1]
    · rw [hout]
      unfold copyOut
      rw [Option.isSome_map]
      split
      · rw [List.map_cons, hkept]
        rfl
      · rfl
    · rw [hptr]
      cases ents with
      | nil => rfl
      | cons c ents =>
        rw [List.getLast?_cons_cons, List.getLast?_eq_some_getLast (List.cons_ne_nil c ents)]
        rfl

/-- Nothing is in the way of filling the entries. -/
theorem fillEnts_ok (hdev : 0 ≤ dev) (hone : data = none → curNblocks = 1) (ents : List ℕ) :
    ∀ {cur : ℕ} {s : Cache β} {xs : Members}, Loading s xs ents K →
      Along (fun i ce => ∀ b, K b ce ↔ b = ⟨dev, bnum + i⟩) cur ents →
      ∃ r, fillEnts dev bsize op curNblocks (bnum + cur) (data.map (List.drop cur)) ents s =
        .ok r := by
  induction ents with
  | nil => exact fun _ _ => ⟨_, rfl⟩
  | cons ce ents ih =>
    intro cur s xs hl hkeyed
    have hloose := hl.lists.loose ce List.mem_cons_self
    have hlinks : ∀ f : CacheEnt β → CacheEnt β, ({ setEnt s ce f with
        links := ((setEnt s ce f).links.setNext ce none).setPrev ce none } : Cache β) =
          setEnt s ce f := fun f => by
      change
        ({ setEnt s ce f with links := (s.links.setNext ce none).setPrev ce none } : Cache β) = _
      rw [loose_links hl.lists List.mem_cons_self]
      rfl
    obtain ⟨s₁, xs₁, hadd, hl₁, -⟩ := hl.addToHead (filledEnt dev bnum bsize op data cur)
      (fun b => (hkeyed.1 b).trans eq_comm) rfl
      hdev
    have hname : lockedName (filledEnt dev bnum bsize op data cur (s.ents ce)).lock =
        if op.locked then ListName.locked else ListName.normal := by
      unfold filledEnt
      dsimp only
      split <;> rfl
    rw [hname] at hadd
    have hnext : bnum + cur + 1 = bnum + (cur + 1 : ℕ) := by
      push_cast
      exact add_assoc ..
    obtain ⟨r, hrun⟩ := ih hl₁ hkeyed.2
    rw [fillEnts, if_neg (by simp [hloose.2])]
    change ∃ r, (addToHead { setEnt s ce (filledEnt dev bnum bsize op data cur) with
      links := ((setEnt s ce (filledEnt dev bnum bsize op data cur)).links.setNext ce none).setPrev
        ce none } (if op.locked then ListName.locked else ListName.normal) ce).bind _ = .ok r
    rw [hlinks, hadd, hnext, map_tail_drop]
    change ∃ r, (if data.map (List.drop cur) = none ∧ curNblocks ≠ 1 then _ else
      (fillEnts dev bsize op curNblocks (bnum + (cur + 1 : ℕ)) (data.map (List.drop (cur + 1))) ents
        s₁).bind _) = .ok r
    rw [if_neg fun h => h.2 (hone (Option.map_eq_none_iff.mp h.1)), hrun]
    exact ⟨_, rfl⟩

end Filling

end MissFilling
