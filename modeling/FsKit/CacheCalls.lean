import Mathlib.Tactic
import Mathlib.Logic.Relation
import FsKit.CacheVictims
import FsKit.FlushWrites
import FsKit.FallibleRuns

/-! What a call of `cache_block_io` leaves of the cache (`cache.c`). A block that is found, and a
miss that gets its blocks, take entries in hand and put all of them back under the keys of their
new blocks, so that the cache is at rest again in every turn of the loop. -/
namespace CacheCalls

open MachineIntegers LinkedList HashTable BlockCache CacheStructure CacheVictims FallibleRuns
open FlushCompleteness (Kept)
open FlushTermination (setBusy_all flushEnts_worn)
open FlushWrites (flushed_entry)

variable {β : Type}

section Hands
variable {s s' : Cache β} {xs xs' : Members} {hand : List ℕ} {K K' : Block → ℕ → Prop} {ce : ℕ}

/-- A cache with entries in hand: those on the lists have the keys of their blocks and no others,
and there are no keys but theirs and those of the entries in hand. -/
structure Loading (s : Cache β) (xs : Members) (hand : List ℕ) (K : Block → ℕ → Prop) : Prop where
  lists : Lists s xs hand
  keys : Keys s.ht K
  idle : ∀ ce, Listed xs ce → (s.ents ce).busy = false
  dev : ∀ ce, Listed xs ce → 0 ≤ (s.ents ce).dev
  own : ∀ b ce, Listed xs ce → (K b ce ↔ (s.ents ce).block = b)
  held : ∀ b ce, K b ce → Listed xs ce ∨ ce ∈ hand

theorem Loading.perm {hand' : List ℕ} (h : Loading s xs hand K) (hp : hand.Perm hand') :
    Loading s xs hand' K :=
  ⟨h.lists.perm hp, h.keys, h.idle, h.dev, h.own,
    fun b ce hk => (h.held b ce hk).imp id hp.mem_iff.mp⟩

/-- When nothing is in hand, the cache is at rest. -/
theorem Loading.intact (h : Loading s xs [] K) (hcap : s.curBlocks ≤ s.maxBlocks) :
    Intact s xs where
  lists := h.lists
  idle := h.idle
  dev := h.dev
  keys := h.keys.congr fun b ce => ⟨fun hk => by
    have hce := (h.held b ce hk).resolve_right List.not_mem_nil
    exact ⟨hce, (h.own b ce hce).mp hk⟩, fun hk => (h.own b ce hk.1).mpr hk.2⟩
  cap := hcap

/-- What is in hand may be changed. -/
theorem Loading.congr (h : Loading s xs hand K) (hlinks : s'.links = s.links)
    (hlists : s'.lists = s.lists) (hmade : s'.made = s.made) (hcur : s'.curBlocks = s.curBlocks)
    (hht : s'.ht = s.ht) (hents : ∀ ce, ce ∉ hand → s'.ents ce = s.ents ce) :
    Loading s' xs hand K := by
  have hsame : ∀ ce, Listed xs ce → s'.ents ce = s.ents ce := fun ce hce =>
    hents ce fun hin => (h.lists.loose ce hin).1 hce
  refine ⟨h.lists.congr hlinks hlists hmade hcur fun ce hce => by rw [hsame ce hce], ?_, ?_, ?_, ?_,
    h.held⟩
  · rw [hht]
    exact h.keys
  · intro ce hce
    rw [hsame ce hce]
    exact h.idle ce hce
  · intro ce hce
    rw [hsame ce hce]
    exact h.dev ce hce
  · intro b ce hce
    rw [hsame ce hce]
    exact h.own b ce hce

/-- A key of an entry in hand is taken away. -/
theorem Loading.delete (h : Loading s xs hand K) (hce : ce ∈ hand) {b : Block} (hk : K b ce) :
    ∃ ht', hashDelete s.ht b = (some ce, ht') ∧
      Loading { s with ht := ht' } xs hand fun b' ce' => b' ≠ b ∧ K b' ce' := by
  obtain ⟨ht', hdel, hkeys⟩ := h.keys.delete hk
  refine ⟨ht', hdel, h.lists.congr rfl rfl rfl rfl fun _ _ => rfl, hkeys, h.idle, h.dev,
    fun b' ce' hce' => ?_, fun b' ce' hk' => h.held b' ce' hk'.2⟩
  rw [← h.own b' ce' hce']
  refine ⟨And.right, fun hk' => ⟨?_, hk'⟩⟩
  rintro rfl
  obtain rfl := h.keys.unique hk hk'
  exact (h.lists.loose ce hce).1 hce'

/-- An entry in hand is put on the list that its lock asks for, with the block whose key it has. -/
theorem Loading.put (h : Loading s xs (ce :: hand) K) (hl : Lists s' xs' hand)
    (hlisted : ∀ c, Listed xs' c ↔ c = ce ∨ Listed xs c)
    (hsame : ∀ c, c ≠ ce → s'.ents c = s.ents c) (hht : s'.ht = s.ht)
    (hblock : ∀ b, K b ce ↔ (s'.ents ce).block = b) (hbusy : (s'.ents ce).busy = false)
    (hdev : 0 ≤ (s'.ents ce).dev) : Loading s' xs' hand K := by
  have hne : ∀ c, Listed xs c → c ≠ ce := by
    rintro c hc rfl
    exact (h.lists.loose c List.mem_cons_self).1 hc
  refine ⟨hl, ?_, ?_, ?_, ?_, ?_⟩
  · rw [hht]
    exact h.keys
  · intro c hc
    rcases (hlisted c).mp hc with rfl | hc
    · exact hbusy
    · rw [hsame c (hne c hc)]
      exact h.idle c hc
  · intro c hc
    rcases (hlisted c).mp hc with rfl | hc
    · exact hdev
    · rw [hsame c (hne c hc)]
      exact h.dev c hc
  · intro b c hc
    rcases (hlisted c).mp hc with rfl | hc
    · exact hblock b
    · rw [hsame c (hne c hc)]
      exact h.own b c hc
  · intro b c hk
    rw [hlisted]
    rcases h.held b c hk with hc | hc
    · exact .inl (.inr hc)
    · rcases List.mem_cons.mp hc with rfl | hc
      · exact .inl (.inl rfl)
      · exact .inr hc

/-- The two ends of a list at which an entry can be put. -/
theorem listed_put {cel : ListName} {ys : List ℕ} (hys : ∀ c, c ∈ ys ↔ c = ce ∨ c ∈ xs cel)
    (c : ℕ) : Listed (Function.update xs cel ys) c ↔ c = ce ∨ Listed xs c := by
  rw [listed_update, hys]
  constructor
  · rintro ((hc | hc) | ⟨cel', -, hc⟩)
    · exact .inl hc
    · exact .inr ⟨cel, hc⟩
    · exact .inr ⟨cel', hc⟩
  · rintro (hc | ⟨cel', hc⟩)
    · exact .inl (.inl hc)
    · by_cases hcel : cel' = cel
      · exact .inl (.inr (hcel ▸ hc))
      · exact .inr ⟨cel', hcel, hc⟩

/-- An entry in hand is changed and put at the mru end of the list that its lock asks for. -/
theorem Loading.addToHead (h : Loading s xs (ce :: hand) K) (f : CacheEnt β → CacheEnt β)
    (hblock : ∀ b, K b ce ↔ (f (s.ents ce)).block = b) (hbusy : (f (s.ents ce)).busy = false)
    (hdev : 0 ≤ (f (s.ents ce)).dev) :
    ∃ s' xs', BlockCache.addToHead (setEnt s ce f) (lockedName (f (s.ents ce)).lock) ce = .ok s' ∧
      Loading s' xs' hand K ∧
      s' = { setEnt s ce f with links := s'.links, lists := s'.lists } := by
  have hself : (setEnt s ce f).ents ce = f (s.ents ce) := Function.update_self ..
  have hl : Lists (setEnt s ce f) xs (ce :: hand) := by
    refine h.lists.congr rfl rfl rfl rfl fun c hc => congrArg CacheEnt.lock ?_
    refine Function.update_of_ne ?_ _ _
    rintro rfl
    exact (h.lists.loose c List.mem_cons_self).1 hc
  rw [← hself] at hblock hbusy hdev ⊢
  obtain ⟨l', e', hadd, hl'⟩ := hl.addToHead
  refine ⟨_, _, hadd,
    h.put hl' (listed_put fun c => ?_) (fun c hc => ?_) rfl hblock hbusy hdev, rfl⟩
  · rw [List.mem_append, List.mem_singleton, or_comm]
  · exact Function.update_of_ne hc _ _

theorem Loading.addToTail (h : Loading s xs (ce :: hand) K) (f : CacheEnt β → CacheEnt β)
    (hblock : ∀ b, K b ce ↔ (f (s.ents ce)).block = b) (hbusy : (f (s.ents ce)).busy = false)
    (hdev : 0 ≤ (f (s.ents ce)).dev) :
    ∃ s' xs', BlockCache.addToTail (setEnt s ce f) (lockedName (f (s.ents ce)).lock) ce = .ok s' ∧
      Loading s' xs' hand K ∧
      s' = { setEnt s ce f with links := s'.links, lists := s'.lists } := by
  have hself : (setEnt s ce f).ents ce = f (s.ents ce) := Function.update_self ..
  have hl : Lists (setEnt s ce f) xs (ce :: hand) := by
    refine h.lists.congr rfl rfl rfl rfl fun c hc => congrArg CacheEnt.lock ?_
    refine Function.update_of_ne ?_ _ _
    rintro rfl
    exact (h.lists.loose c List.mem_cons_self).1 hc
  rw [← hself] at hblock hbusy hdev ⊢
  obtain ⟨l', e', hadd, hl'⟩ := hl.addToTail
  refine ⟨_, _, hadd,
    h.put hl' (listed_put fun c => ?_) (fun c hc => ?_) rfl hblock hbusy hdev, rfl⟩
  · rw [List.mem_cons]
  · exact Function.update_of_ne hc _ _

/-- An entry that is in the cache is taken in hand. -/
theorem taken_in_hand (h : Intact s xs) (hce : Listed xs ce) :
    ∃ xs', Loading (deleteFromList s (lockedName (s.ents ce).lock) ce) xs' [ce]
      fun b c => Listed xs c ∧ (s.ents c).block = b := by
  obtain ⟨cel, hcel⟩ := hce
  have hname := h.lists.lock cel ce hcel
  rw [hname]
  have hl := h.lists.takeOut hcel
  have hlisted : ∀ c, Listed (Function.update xs cel ((xs cel).erase ce)) c → Listed xs c := by
    intro c hc
    rcases (listed_update _ _ _ _).mp hc with hc | ⟨cel', -, hc⟩
    · exact ⟨cel, List.mem_of_mem_erase hc⟩
    · exact ⟨cel', hc⟩
  refine ⟨_, hl, h.keys, fun c hc => h.idle c (hlisted c hc), fun c hc => h.dev c (hlisted c hc),
    fun b c hc => ⟨And.right, fun hb => ⟨hlisted c hc, hb⟩⟩, fun b c hk => ?_⟩
  by_cases hc : c = ce
  · exact .inr (hc ▸ List.mem_cons_self)
  · obtain ⟨⟨cel', hmem⟩, -⟩ := hk
    refine .inl ((listed_update _ _ _ _).mpr ?_)
    by_cases heq : cel' = cel
    · subst heq
      exact .inl ((List.mem_erase_of_ne hc).mpr hmem)
    · exact .inr ⟨cel', heq, hmem⟩

end Hands

section Hits
variable [Zero β] {s s' : Cache β} {xs : Members} {ce : ℕ}

/-- A block that is found. -/
theorem hitBlock_intact (h : Intact s xs) (hce : Listed xs ce) {dev bnum : ℤ}
    {data : Option (List β)} {bsize : ℕ} {op : Op} {out : List β} {dataptr : Option ℕ}
    (hrun : hitBlock s ce dev bnum data bsize op = .ok (out, dataptr, s')) : Structured s' := by
  unfold hitBlock at hrun
  dsimp only at hrun
  split at hrun
  · cases hrun
  split at hrun
  · cases hrun
  obtain ⟨s₂, hadd, hrun⟩ := bind_ok hrun
  cases hrun
  obtain ⟨xs₁, hl⟩ := taken_in_hand h hce
  obtain ⟨s₃, xs₃, hadd', hl₃, hsame⟩ := hl.addToHead (fun c =>
    { c with
      data := contents op data c.data
      dirty := c.dirty || op.kind ≠ .read
      lock := if op.locked then toInt32 (c.lock + 1) else c.lock })
    (fun b => ⟨And.right, fun hb => ⟨hce, hb⟩⟩) (h.idle ce hce) (h.dev ce hce)
  have hself : (setEnt (deleteFromList s (lockedName (s.ents ce).lock) ce) ce fun c =>
      { c with
        data := contents op data c.data
        dirty := c.dirty || op.kind ≠ .read
        lock := if op.locked then toInt32 (c.lock + 1) else c.lock }).ents ce = _ :=
    Function.update_self ..
  rw [hself] at hadd
  obtain rfl := Except.ok.inj (hadd.symm.trans hadd')
  refine ⟨xs₃, hl₃.intact ?_⟩
  rw [hsame]
  exact h.cap

end Hits

section Turns
variable {s : Cache β} {xs : Members} {rest : List ℕ} {K : Block → ℕ → Prop} {dev bnum : ℤ}
  {curNblocks : ℕ}

/-- The numbered entries of a list, the first one with number `cur`. -/
def Along (P : ℕ → ℕ → Prop) : ℕ → List ℕ → Prop
  | _, [] => True
  | cur, ce :: ents => P cur ce ∧ Along P (cur + 1) ents

theorem Along.imp {P Q : ℕ → ℕ → Prop} {cur : ℕ} {ents : List ℕ} (h : Along P cur ents)
    (hpq : ∀ i, ∀ ce ∈ ents, P i ce → Q i ce) : Along Q cur ents := by
  induction ents generalizing cur with
  | nil => trivial
  | cons ce ents ih =>
    exact ⟨hpq _ _ List.mem_cons_self h.1, ih h.2 fun i c hc => hpq i c (List.mem_cons_of_mem _ hc)⟩

theorem along_of_getElem {P : ℕ → ℕ → Prop} {cur : ℕ} {ents : List ℕ}
    (h : ∀ i ce, ents[i]? = some ce → P (cur + i) ce) : Along P cur ents := by
  induction ents generalizing cur with
  | nil => trivial
  | cons ce ents ih =>
    refine ⟨h 0 ce rfl, ih fun i c hc => ?_⟩
    rw [Nat.add_assoc, Nat.add_comm 1 i]
    exact h (i + 1) c hc

/-- The entry has the key of the new block with its number, and the one of its old block unless
it was made for this miss. -/
structure Turns (dev bnum : ℤ) (s : Cache β) (K : Block → ℕ → Prop) (cur ce : ℕ) : Prop where
  lock : (s.ents ce).lock = 0
  key : ∀ b, K b ce ↔ b = ⟨dev, bnum + cur⟩ ∨ ((s.ents ce).dev ≠ -1 ∧ b = (s.ents ce).block)
  differ : (s.ents ce).dev ≠ -1 → (s.ents ce).block ≠ ⟨dev, bnum + cur⟩

/-- An entry forgets its old block, and is ready if it is one that was read ahead. -/
theorem rekeyEnts_cons {cur ce : ℕ} (ents : List ℕ) {hand : List ℕ}
    (h : Loading s xs (ce :: hand) K)
    (ht : Turns dev bnum s K cur ce) : ∃ ht' K₁, Loading { s with ht := ht' } xs (ce :: hand) K₁ ∧
      (∀ b, K₁ b ce ↔ b = ⟨dev, bnum + cur⟩) ∧ (∀ c ∈ hand, ∀ b, K₁ b c ↔ K b c) ∧
      rekeyEnts 0 dev bnum curNblocks cur (ce :: ents) s =
        if curNblocks ≤ cur then
          (BlockCache.addToHead (setEnt { s with ht := ht' } ce fun c =>
            { c with dev := dev, blockNum := bnum + cur, busy := false }) .normal ce).bind
              (rekeyEnts 0 dev bnum curNblocks (cur + 1) ents)
        else rekeyEnts 0 dev bnum curNblocks (cur + 1) ents { s with ht := ht' } := by
  by_cases hdev : (s.ents ce).dev = -1
  · refine ⟨s.ht, K, h, fun b => ?_, fun _ _ _ => Iff.rfl, ?_⟩
    · rw [ht.key]
      simp [hdev]
    · rw [rekeyEnts]
      simp only [hdev, ne_eq, not_true_eq_false, if_false, true_and]
      split <;> rfl
  · have hold : K (s.ents ce).block ce := (ht.key _).mpr (.inr ⟨hdev, rfl⟩)
    obtain ⟨ht', hdel, hl⟩ := h.delete List.mem_cons_self hold
    refine ⟨ht', _, hl, fun b => ?_, fun c hc b => ?_, ?_⟩
    · rw [ht.key]
      constructor
      · rintro ⟨hne, rfl | ⟨-, rfl⟩⟩
        · rfl
        · exact absurd rfl hne
      · rintro rfl
        exact ⟨fun heq => ht.differ hdev heq.symm, .inl rfl⟩
    · refine ⟨And.right, fun hk => ⟨?_, hk⟩⟩
      rintro rfl
      obtain rfl := h.keys.unique hk hold
      exact (List.nodup_cons.mp h.lists.nodup).1 hc
    · rw [rekeyEnts]
      simp only [hdev, ne_eq, not_false_eq_true, if_true, hdel, not_true_eq_false, if_false,
        true_and]
      split <;> rfl

theorem Turns.congr {s' : Cache β} {K' : Block → ℕ → Prop} {cur ce : ℕ}
    (h : Turns dev bnum s K cur ce) (hent : s'.ents ce = s.ents ce) (hk : ∀ b, K' b ce ↔ K b ce) :
    Turns dev bnum s' K' cur ce := by
  refine ⟨?_, fun b => ?_, ?_⟩
  · rw [hent]
    exact h.lock
  · rw [hent, hk, h.key]
  · rw [hent]
    exact h.differ

/-- What the entries have been made of that were to be turned. -/
structure Turned (dev bnum : ℤ) (curNblocks cur : ℕ) (ents rest : List ℕ) (s : Cache β)
    (K : Block → ℕ → Prop) (s' : Cache β) (xs' : Members) (K' : Block → ℕ → Prop) : Prop where
  loading : Loading s' xs' (ents.take (curNblocks - cur) ++ rest) K'
  keyed : Along (fun i ce => ∀ b, K' b ce ↔ b = ⟨dev, bnum + i⟩) cur
    (ents.take (curNblocks - cur))
  others : ∀ ce ∈ rest, s'.ents ce = s.ents ce ∧ ∀ b, K' b ce ↔ K b ce
  curBlocks : s'.curBlocks = s.curBlocks
  maxBlocks : s'.maxBlocks = s.maxBlocks

theorem rekeyEnts_spec (curNblocks : ℕ) (hdev : 0 ≤ dev) (ents : List ℕ) :
    ∀ (cur : ℕ) (s : Cache β) (xs : Members) (rest : List ℕ) (K : Block → ℕ → Prop),
      Loading s xs (ents ++ rest) K →
    Along (Turns dev bnum s K) cur ents →
    ∃ s' xs' K', rekeyEnts 0 dev bnum curNblocks cur ents s = .ok s' ∧
      Turned dev bnum curNblocks cur ents rest s K s' xs' K' := by
  induction ents with
  | nil =>
    intro cur s xs rest K hl _
    refine ⟨s, xs, K, rfl, ?_, ?_, fun _ _ => ⟨rfl, fun _ => Iff.rfl⟩, rfl, rfl⟩
    · rw [List.take_nil]
      exact hl
    · rw [List.take_nil]
      trivial
  | cons ce ents ih =>
    intro cur s xs rest K hl hturn
    obtain ⟨ht', K₁, hl₁, hself, hothers, hstep⟩ := rekeyEnts_cons ents hl hturn.1
    have hnodup := List.nodup_cons.mp hl.lists.nodup
    rw [hstep]
    by_cases hcur : curNblocks ≤ cur
    · rw [if_pos hcur]
      obtain ⟨s₂, xs₂, hadd, hl₂, hsame⟩ := hl₁.addToHead (fun c =>
        { c with dev := dev, blockNum := bnum + cur, busy := false })
        (fun b => (hself b).trans eq_comm) rfl hdev
      have hents : ∀ c ∈ ents ++ rest, s₂.ents c = s.ents c := by
        intro c hc
        rw [hsame]
        refine Function.update_of_ne ?_ _ _
        rintro rfl
        exact hnodup.1 hc
      have hname : lockedName (s.ents ce).lock = .normal := by
        rw [hturn.1.lock]
        rfl
      dsimp only at hadd
      rw [hname] at hadd
      rw [hadd]
      obtain ⟨s', xs', K', hrun, h⟩ := ih (cur + 1) s₂ xs₂ rest K₁ hl₂ (hturn.2.imp
        fun i c hc ht => ht.congr (hents c (List.mem_append_left _ hc))
          (hothers c (List.mem_append_left _ hc)))
      have hzero : curNblocks - (cur + 1) = 0 := by omega
      have hzero' : curNblocks - cur = 0 := by omega
      have hloading := h.loading
      rw [hzero] at hloading
      refine ⟨s', xs', K', hrun, ?_, ?_, fun c hc => ?_, ?_, ?_⟩
      · rw [hzero']
        exact hloading
      · rw [hzero']
        trivial
      · have hin := List.mem_append_right ents hc
        exact ⟨(h.others c hc).1.trans (hents c hin),
          fun b => ((h.others c hc).2 b).trans (hothers c hin b)⟩
      · rw [h.curBlocks, hsame]
        rfl
      · rw [h.maxBlocks, hsame]
        rfl
    · rw [if_neg hcur]
      obtain ⟨m, hm⟩ : ∃ m, curNblocks - cur = m + 1 := ⟨curNblocks - cur - 1, by omega⟩
      have hm' : curNblocks - (cur + 1) = m := by omega
      obtain ⟨s', xs', K', hrun, h⟩ := ih (cur + 1) { s with ht := ht' } xs (ce :: rest) K₁
        (hl₁.perm List.perm_middle.symm) (hturn.2.imp fun i c hc ht => ht.congr rfl
          (hothers c (List.mem_append_left _ hc)))
      have hloading := h.loading
      have hkeyed := h.keyed
      rw [hm'] at hloading hkeyed
      refine ⟨s', xs', K', hrun, ?_, ?_, fun c hc => ?_, h.curBlocks, h.maxBlocks⟩
      · rw [hm, List.take_succ_cons]
        exact hloading.perm List.perm_middle
      · rw [hm, List.take_succ_cons]
        exact ⟨fun b => ((h.others ce List.mem_cons_self).2 b).trans (hself b), hkeyed⟩
      · have hin := h.others c (List.mem_cons_of_mem _ hc)
        exact ⟨hin.1, fun b => (hin.2 b).trans (hothers c (List.mem_append_right _ hc) b)⟩

/-- The entries that are not needed go back under their old blocks. -/
theorem putBackEnts_spec (ents : List ℕ) : ∀ (s : Cache β) (xs : Members) (rest : List ℕ),
    Loading s xs (ents ++ rest) K →
    (∀ ce ∈ ents, (s.ents ce).lock = 0 ∧ 0 ≤ (s.ents ce).dev ∧
      ∀ b, K b ce ↔ (s.ents ce).block = b) →
    ∃ s' xs', putBackEnts ents s = .ok s' ∧ Loading s' xs' rest K ∧
      s'.curBlocks = s.curBlocks ∧ s'.maxBlocks = s.maxBlocks := by
  induction ents with
  | nil => exact fun s xs rest hl _ => ⟨s, xs, rfl, hl, rfl, rfl⟩
  | cons ce ents ih =>
    intro s xs rest hl hents
    obtain ⟨hlock, hdev, hkey⟩ := hents ce List.mem_cons_self
    obtain ⟨s₁, xs₁, hadd, hl₁, hsame⟩ := hl.addToTail (fun c => { c with busy := false })
      hkey rfl hdev
    have hname : lockedName (s.ents ce).lock = .normal := by
      rw [hlock]
      rfl
    have hself : ((setBusy false s ce).ents ce).lock = 0 := by
      rw [setBusy_lock]
      exact hlock
    dsimp only at hadd
    rw [hname] at hadd
    have hnodup := List.nodup_cons.mp hl.lists.nodup
    obtain ⟨s', xs', hrun, hl', hcur, hmax⟩ := ih s₁ xs₁ rest hl₁ fun c hc => by
      have hent : s₁.ents c = s.ents c := by
        rw [hsame]
        refine Function.update_of_ne ?_ _ _
        rintro rfl
        exact hnodup.1 (List.mem_append_left _ hc)
      rw [hent]
      exact hents c (List.mem_cons_of_mem _ hc)
    refine ⟨s', xs', ?_, hl', ?_, ?_⟩
    · rw [putBackEnts]
      rw [if_neg (not_not.mpr hself)]
      change (BlockCache.addToTail (setEnt s ce fun c => { c with busy := false }) .normal ce).bind
        (putBackEnts ents) = _
      rw [hadd]
      exact hrun
    · rw [hcur, hsame]
      rfl
    · rw [hmax, hsame]
      rfl

theorem loose_links {hand : List ℕ} {ce : ℕ} (h : Lists s xs hand) (hce : ce ∈ hand) :
    (s.links.setNext ce none).setPrev ce none = s.links := by
  obtain ⟨-, hnext, hprev⟩ := h.loose ce hce
  unfold Links.setPrev Links.setNext
  dsimp only
  rw [← hnext, Function.update_eq_self, hnext, ← hprev, Function.update_eq_self]

/-- The entries of the request are filled and put on the list that the request asks for. -/
theorem fillEnts_spec [Zero β] (hdev : 0 ≤ dev) {bsize : ℕ} {op : Op} (ents : List ℕ) :
    ∀ (cur : ℕ) (data : Option (List β)) (s : Cache β) (xs : Members) (out : List β)
      (dataptr : Option ℕ) (s' : Cache β), Loading s xs ents K →
      Along (fun i ce => ∀ b, K b ce ↔ b = ⟨dev, bnum + i⟩) cur ents →
      fillEnts dev bsize op curNblocks (bnum + cur) data ents s = .ok (out, dataptr, s') →
      ∃ xs', Loading s' xs' [] K ∧ s'.curBlocks = s.curBlocks ∧ s'.maxBlocks = s.maxBlocks := by
  induction ents with
  | nil =>
    intro cur data s xs out dataptr s' hl _ hrun
    cases hrun
    exact ⟨xs, hl, rfl, rfl⟩
  | cons ce ents ih =>
    intro cur data s xs out dataptr s' hl hkeyed hrun
    have hloose := hl.lists.loose ce List.mem_cons_self
    rw [fillEnts, if_neg (by simp [hloose.2])] at hrun
    dsimp only at hrun
    obtain ⟨s₂, hadd, hrun⟩ := bind_ok hrun
    have hlinks : ∀ f : CacheEnt β → CacheEnt β, ({ setEnt s ce f with
        links := ((setEnt s ce f).links.setNext ce none).setPrev ce none } : Cache β) =
          setEnt s ce f := fun f => by
      change
        ({ setEnt s ce f with links := (s.links.setNext ce none).setPrev ce none } : Cache β) = _
      rw [loose_links hl.lists List.mem_cons_self]
      rfl
    rw [hlinks] at hadd
    obtain ⟨s₃, xs₃, hadd', hl₃, hsame⟩ := hl.addToHead (fun c =>
      { dev := dev, blockNum := bnum + cur, bsize := bsize
        dirty := op.kind ≠ .read, busy := false
        data := contents op data c.data, clone := none
        lock := if op.locked then 1 else 0
        func := none, loggedBnum := c.loggedBnum, arg := 0 })
      (fun b => (hkeyed.1 b).trans eq_comm) rfl hdev
    have hname : lockedName (if op.locked then 1 else 0) =
        if op.locked then ListName.locked else ListName.normal := by
      split <;> rfl
    dsimp only at hadd'
    rw [hname] at hadd'
    obtain rfl := Except.ok.inj (hadd.symm.trans hadd')
    split at hrun
    · cases hrun
    obtain ⟨⟨out', dataptr', s₄⟩, hrest, hrun⟩ := bind_ok hrun
    cases hrun
    have hnext : bnum + cur + 1 = bnum + (cur + 1 : ℕ) := by
      push_cast
      exact add_assoc ..
    rw [hnext] at hrest
    obtain ⟨xs', hl', hcur, hmax⟩ := ih (cur + 1) _ s₂ xs₃ _ _ _ hl₃ hkeyed.2 hrest
    refine ⟨xs', hl', ?_, ?_⟩
    · rw [hcur, hsame]
      rfl
    · rw [hmax, hsame]
      rfl

end Turns

section Misses
variable {s s' t u : Cache β} {xs xs' : Members} {ents : List ℕ} {dev bnum : ℤ} {needed : ℕ}

/-- The contents of the entries have changed, and what is on the disk. -/
structure Reloaded (ents : List ℕ) (s s' : Cache β) : Prop where
  same : s' = { s with ents := s'.ents, disk := s'.disk, ios := s'.ios, log := s'.log }
  block : ∀ ce, (s'.ents ce).block = (s.ents ce).block
  lock : ∀ ce, (s'.ents ce).lock = (s.ents ce).lock
  others : ∀ ce ∉ ents, s'.ents ce = s.ents ce

theorem Reloaded.refl (ents : List ℕ) (s : Cache β) : Reloaded ents s s :=
  ⟨rfl, fun _ => rfl, fun _ => rfl, fun _ _ => rfl⟩

theorem Reloaded.trans (h : Reloaded ents s t) (k : Reloaded ents t u) : Reloaded ents s u where
  same := by
    rw [k.same, h.same]
  block ce := (k.block ce).trans (h.block ce)
  lock ce := (k.lock ce).trans (h.lock ce)
  others ce hce := (k.others ce hce).trans (h.others ce hce)

theorem flushEnts_reloaded (t : Cache β) (hnodup : ents.Nodup) :
    Reloaded ents t (flushEnts t ents).2 where
  same := (flushEnts_worn t ents).same
  block ce := (flushed_entry t hnodup ce).1.block
  lock ce := (flushed_entry t hnodup ce).1.lock
  others ce := (flushed_entry t hnodup ce).2

/-- One entry of the array has got other contents. -/
theorem setEnt_reloaded (s : Cache β) {ce : ℕ} (hce : ce ∈ ents) (f : CacheEnt β → CacheEnt β)
    (hblock : (f (s.ents ce)).block = (s.ents ce).block)
    (hlock : (f (s.ents ce)).lock = (s.ents ce).lock) : Reloaded ents s (setEnt s ce f) := by
  have hself : (setEnt s ce f).ents ce = f (s.ents ce) := Function.update_self ..
  have hother : ∀ c, c ≠ ce → (setEnt s ce f).ents c = s.ents c := fun c hc =>
    Function.update_of_ne hc _ _
  refine ⟨rfl, fun c => ?_, fun c => ?_, fun c hc => hother c fun heq => hc (heq ▸ hce)⟩
  · by_cases hc : c = ce
    · rw [hc, hself, hblock]
    · rw [hother c hc]
  · by_cases hc : c = ce
    · rw [hc, hself, hlock]
    · rw [hother c hc]

theorem reallocEnts_reloaded (bsize : ℕ) (es : List ℕ) (hes : es ⊆ ents) (s : Cache β) :
    Reloaded ents s (es.foldl (reallocEnt bsize) s) := by
  induction es generalizing s with
  | nil => exact Reloaded.refl ents s
  | cons ce es ih =>
    have hone : Reloaded ents s (reallocEnt bsize s ce) := by
      unfold reallocEnt
      split
      · exact setEnt_reloaded s (hes List.mem_cons_self) _ rfl rfl
      · exact Reloaded.refl ents s
    exact hone.trans (ih (fun c hc => hes (List.mem_cons_of_mem _ hc)) _)

theorem readBlocks_reloaded (dev : ℤ) (es : List ℕ) (hes : es ⊆ ents) (bnum : ℤ) (s : Cache β) :
    Reloaded ents s (readBlocks dev bnum es s) := by
  induction es generalizing bnum s with
  | nil => exact Reloaded.refl ents s
  | cons ce es ih =>
    exact (setEnt_reloaded s (hes List.mem_cons_self) _ rfl rfl).trans
      (ih (fun c hc => hes (List.mem_cons_of_mem _ hc)) _ _)

theorem readIntoEnts_reloaded (s : Cache β) (dev bnum : ℤ) (es : List ℕ) (hes : es ⊆ ents) :
    Reloaded ents s (readIntoEnts s dev bnum es).2 := by
  have hread : Reloaded ents s { s with ios := s.ios + 1 } :=
    ⟨rfl, fun _ => rfl, fun _ => rfl, fun _ _ => rfl⟩
  unfold readIntoEnts transfer
  dsimp only
  split
  · exact hread.trans (readBlocks_reloaded dev es hes bnum _)
  · exact hread

/-- The keys while the victims are in hand. -/
def HandKeys (s : Cache β) (xs : Members) (dev bnum : ℤ) (needed : ℕ) (ents : List ℕ) (b : Block)
    (ce : ℕ) : Prop :=
  NewKeys dev bnum 0 (ents.take needed) b ce ∨ (Listed xs ce ∧ (s.ents ce).block = b)

theorem inHand_loading (h : Intact s xs) (hin : InHand s xs dev bnum needed ents t xs')
    (hr : Reloaded ents t u) : Loading u xs' ents (HandKeys s xs dev bnum needed ents) := by
  have hentry : ∀ ce, Listed xs' ce → u.ents ce = s.ents ce := by
    intro ce hce
    obtain ⟨hold, hnot⟩ := (hin.listed ce).mp hce
    rw [hr.others ce hnot, hin.entries ce hold, decide_eq_false hnot, ← h.idle ce hold]
  refine ⟨hin.lists.congr (by rw [hr.same]) (by rw [hr.same]) (by rw [hr.same]) (by rw [hr.same])
    fun ce _ => hr.lock ce, ?_, ?_, ?_, ?_, ?_⟩
  · rw [hr.same]
    exact hin.keys
  · intro ce hce
    rw [hentry ce hce]
    exact h.idle ce ((hin.listed ce).mp hce).1
  · intro ce hce
    rw [hentry ce hce]
    exact h.dev ce ((hin.listed ce).mp hce).1
  · intro b ce hce
    obtain ⟨hold, hnot⟩ := (hin.listed ce).mp hce
    rw [hentry ce hce]
    constructor
    · rintro (⟨i, hi, -⟩ | hk)
      · exact absurd (List.mem_of_mem_take (List.mem_of_getElem? hi)) hnot
      · exact hk.2
    · exact fun hb => .inr ⟨hold, hb⟩
  · rintro b ce (⟨i, hi, -⟩ | hk)
    · exact .inr (List.mem_of_mem_take (List.mem_of_getElem? hi))
    · by_cases hmem : ce ∈ ents
      · exact .inr hmem
      · exact .inl ((hin.listed ce).mpr ⟨hk.1, hmem⟩)

/-- A victim that was in the cache before. -/
theorem old_victim (h : Intact s xs) (hin : InHand s xs dev bnum needed ents t xs')
    (hr : Reloaded ents t u) {ce : ℕ} (hce : ce ∈ xs .normal) :
    (u.ents ce).lock = 0 ∧ (u.ents ce).block = (s.ents ce).block ∧ 0 ≤ (u.ents ce).dev := by
  have hlisted : Listed xs ce := ⟨_, hce⟩
  have hentry := hin.entries ce hlisted
  have hblock : (u.ents ce).block = (s.ents ce).block := by
    rw [hr.block, hentry]
    rfl
  have hdev : (u.ents ce).dev = (s.ents ce).dev := congrArg Block.dev hblock
  refine ⟨?_, hblock, hdev ▸ h.dev ce hlisted⟩
  rw [hr.lock, hentry]
  exact h.lists.normal_unlocked ce hce

theorem inHand_turns (h : Intact s xs) (hin : InHand s xs dev bnum needed ents t xs')
    (hfree : ∀ j < needed, hashLookup s.ht ⟨dev, bnum + j⟩ = none) (hr : Reloaded ents t u) :
    Along (Turns dev bnum u (HandKeys s xs dev bnum needed ents)) 0 (ents.take needed) := by
  obtain ⟨fs, os, hents, -, hfs, hos⟩ := hin.sorted
  have hnodup := hin.lists.nodup.sublist (List.take_sublist needed ents)
  refine along_of_getElem fun i ce hi => ?_
  have hnew : ∀ b, NewKeys dev bnum 0 (ents.take needed) b ce ↔ b = ⟨dev, bnum + (0 + i : ℕ)⟩ := by
    intro b
    refine ⟨?_, fun hb => ⟨i, hi, hb⟩⟩
    rintro ⟨j, hj, rfl⟩
    rw [(List.getElem?_inj (List.getElem?_eq_some_iff.mp hj).1 hnodup).mp (hj.trans hi.symm)]
  have hlt : i < needed := by
    have hlen := (List.getElem?_eq_some_iff.mp hi).1
    have hle := List.length_take_le needed ents
    omega
  have hmem := List.mem_of_mem_take (List.mem_of_getElem? hi)
  rw [hents] at hmem
  rcases List.mem_append.mp hmem with hf | ho
  · obtain ⟨hfresh, hlock⟩ := hfs ce hf
    have hdev : (u.ents ce).dev = -1 := congrArg Block.dev ((hr.block ce).trans hfresh)
    have hnot : ¬Listed xs ce := fun hl => by
      have hpos := h.dev ce hl
      have hd := congrArg Block.dev hfresh
      rw [hin.entries ce hl] at hd
      dsimp only [CacheEnt.block] at hd
      omega
    refine ⟨(hr.lock ce).trans hlock, fun b => ?_, fun hne => absurd hdev hne⟩
    rw [HandKeys, hnew]
    simp [hnot, hdev]
  · obtain ⟨hlock, hblock, hpos⟩ := old_victim h hin hr (hos ce ho)
    have hlisted : Listed xs ce := ⟨_, hos ce ho⟩
    have hne : (u.ents ce).dev ≠ -1 := by omega
    refine ⟨hlock, fun b => ?_, fun _ heq => ?_⟩
    · rw [HandKeys, hnew, hblock]
      simp only [hlisted, hne, true_and, ne_eq, not_false_eq_true, eq_comm]
    · rw [Nat.zero_add] at heq
      exact h.keys.absent.mp (hfree i hlt) ce ⟨hlisted, hblock.symm.trans heq⟩

/-- The victims that are not needed. -/
theorem inHand_extras (h : Intact s xs) (hin : InHand s xs dev bnum needed ents t xs')
    (hr : Reloaded ents t u) : ∀ ce ∈ ents.drop needed, (u.ents ce).lock = 0 ∧
      0 ≤ (u.ents ce).dev ∧ ∀ b, HandKeys s xs dev bnum needed ents b ce ↔
        (u.ents ce).block = b := by
  obtain ⟨fs, os, hents, hlen, -, hos⟩ := hin.sorted
  have hfew : fs.length ≤ needed := by
    rw [hlen]
    exact min_le_left _ _
  intro ce hce
  have hold : ce ∈ xs .normal := by
    rw [hents, List.drop_append, List.drop_of_length_le hfew, List.nil_append] at hce
    exact hos ce (List.mem_of_mem_drop hce)
  obtain ⟨hlock, hblock, hpos⟩ := old_victim h hin hr hold
  refine ⟨hlock, hpos, fun b => ?_⟩
  rw [hblock]
  constructor
  · rintro (⟨i, hi, -⟩ | hk)
    · exact absurd hce (List.disjoint_take_drop hin.lists.nodup le_rfl (List.mem_of_getElem? hi))
    · exact hk.2
  · exact fun hb => .inr ⟨⟨_, hold⟩, hb⟩

theorem chooseBlocks_le (s : Cache β) (dev bnum : ℤ) (numBlocks bsize : ℕ) (op : Op) :
    0 < (chooseBlocks s dev bnum numBlocks bsize op).1 ∧
      (chooseBlocks s dev bnum numBlocks bsize op).1 ≤
        (chooseBlocks s dev bnum numBlocks bsize op).2 := by
  unfold chooseBlocks
  dsimp only
  split
  · exact ⟨(countBlocks_spec _ _ _).1, (countBlocks_spec _ _ _).1⟩
  · exact ⟨(countBlocks_spec _ _ _).1, le_rfl⟩

variable [Zero β]

/-- The victims get their new blocks. -/
theorem loadEnts_intact (hdev : 0 ≤ dev) (h : Intact s xs)
    (hin : InHand s xs dev bnum needed ents t xs')
    (hfree : ∀ j < needed, hashLookup s.ht ⟨dev, bnum + j⟩ = none) {curNblocks numDirty n : ℕ}
    (hle : curNblocks ≤ needed) {data : Option (List β)} {bsize : ℕ} {op : Op} {r : Reply β}
    (hrun : loadEnts t dev bnum data bsize op curNblocks needed numDirty ents = .ok (n, r, s'))
    (hok : r.err = 0) : n = curNblocks ∧ Structured s' := by
  have hflush : Reloaded ents t (if numDirty ≠ 0 then flushEnts t ents else (0, t)).2 := by
    split
    · exact flushEnts_reloaded t hin.lists.nodup
    · exact Reloaded.refl ents t
  unfold loadEnts at hrun
  generalize (if numDirty ≠ 0 then flushEnts t ents else (0, t)) = flushed at hrun hflush
  obtain ⟨err, u⟩ := flushed
  dsimp only at hrun hflush
  split at hrun
  · obtain ⟨u₁, -, hrun⟩ := bind_ok hrun
    obtain ⟨u₂, -, hrun⟩ := bind_ok hrun
    cases hrun
    have hne : ENOMEM ≠ 0 := by decide
    exact absurd hok hne
  have hrealloc := hflush.trans (reallocEnts_reloaded bsize (ents.take needed)
    (List.take_subset needed ents) u)
  generalize (ents.take needed).foldl (reallocEnt bsize) u = v at hrun hrealloc
  have hread : Reloaded ents t (if op.kind = .read then readIntoEnts v dev bnum (ents.take needed)
      else (0, v)).2 := by
    split
    · exact hrealloc.trans (readIntoEnts_reloaded v dev bnum _ (List.take_subset needed ents))
    · exact hrealloc
  generalize (if op.kind = .read then readIntoEnts v dev bnum (ents.take needed) else (0, v)) =
    result at hrun hread
  obtain ⟨err', w⟩ := result
  dsimp only at hrun hread
  by_cases herr : err' = 0
  · subst herr
    have hl : Loading w xs' (ents.take needed ++ ents.drop needed)
        (HandKeys s xs dev bnum needed ents) := by
      rw [List.take_append_drop]
      exact inHand_loading h hin hread
    obtain ⟨w₁, xs₁, K₁, hrekey, hturned⟩ := rekeyEnts_spec curNblocks hdev
      (ents.take needed) 0 w xs' (ents.drop needed) _ hl (inHand_turns h hin hfree hread)
    have hextras := inHand_extras h hin hread
    obtain ⟨w₂, xs₂, hputBack, hl₂, hcur₂, hmax₂⟩ := putBackEnts_spec (ents.drop needed) w₁ xs₁ _
      (hturned.loading.perm List.perm_append_comm) fun ce hce => by
        obtain ⟨hent, hkey⟩ := hturned.others ce hce
        obtain ⟨hlock, hpos, hown⟩ := hextras ce hce
        rw [hent]
        exact ⟨hlock, hpos, fun b => (hkey b).trans (hown b)⟩
    have htake : (ents.take needed).take (curNblocks - 0) = ents.take curNblocks := by
      rw [Nat.sub_zero, List.take_take, min_eq_left hle]
    have hkeyed := hturned.keyed
    rw [htake] at hl₂ hkeyed
    obtain ⟨w₁', hw₁, hrun⟩ := bind_ok hrun
    obtain rfl := Except.ok.inj (hrekey.symm.trans hw₁)
    obtain ⟨w₂', hw₂, hrun⟩ := bind_ok hrun
    obtain rfl := Except.ok.inj (hputBack.symm.trans hw₂)
    rw [if_neg (not_not.mpr rfl)] at hrun
    obtain ⟨⟨out, dataptr, w₃⟩, hfill, hrun⟩ := bind_ok hrun
    cases hrun
    have hzero : bnum = bnum + (0 : ℕ) := by simp
    rw [hzero] at hfill
    obtain ⟨xs₃, hl₃, hcur₃, hmax₃⟩ := fillEnts_spec hdev _ 0 _ _ _ _ _ _ hl₂ hkeyed hfill
    refine ⟨rfl, xs₃, hl₃.intact ?_⟩
    have hcap := h.cap
    have hcur := hin.curBlocks
    have hmax := hin.maxBlocks
    have hcurw : w.curBlocks = t.curBlocks := by rw [hread.same]
    have hmaxw : w.maxBlocks = t.maxBlocks := by rw [hread.same]
    have hcurTurned := hturned.curBlocks
    have hmaxTurned := hturned.maxBlocks
    unfold newEnts at hcur
    omega
  · obtain ⟨w₁, -, hrun⟩ := bind_ok hrun
    obtain ⟨w₂, -, hrun⟩ := bind_ok hrun
    rw [if_pos herr] at hrun
    obtain ⟨w₃, -, hrun⟩ := bind_ok hrun
    cases hrun
    exact absurd hok herr

/-- A miss that gets its blocks. -/
theorem missBlocks_intact (hdev : 0 ≤ dev) (h : Intact s xs)
    (hmiss : hashLookup s.ht ⟨dev, bnum⟩ = none) {data : Option (List β)} {numBlocks bsize n : ℕ}
    {op : Op} {r : Reply β}
    (hrun : missBlocks s dev bnum data numBlocks bsize op = .ok (n, r, s')) (hok : r.err = 0) :
    0 < n ∧ Structured s' := by
  obtain ⟨hpos, hfree⟩ := chooseBlocks_free numBlocks bsize op hmiss
  obtain ⟨hone, hle⟩ := chooseBlocks_le s dev bnum numBlocks bsize op
  unfold missBlocks at hrun
  generalize chooseBlocks s dev bnum numBlocks bsize op = chosen at hrun hpos hfree hone hle
  obtain ⟨curNblocks, needed⟩ := chosen
  dsimp only at hrun hpos hfree hone hle
  obtain ⟨⟨got, s₁⟩, hget, hrun⟩ := bind_ok hrun
  dsimp only at hrun
  split at hrun
  · cases hrun
  obtain ⟨⟨numDirty, t⟩, hclaim, hrun⟩ := bind_ok hrun
  obtain ⟨xs', hin⟩ := inHand_of_miss h hpos hfree hget hclaim
  obtain ⟨rfl, hs'⟩ := loadEnts_intact hdev h hin hfree hle hrun hok
  exact ⟨hone, hs'⟩

end Misses

section Calls
variable {dev : ℤ} {bsize : ℕ} {op : Op}

theorem blockLookup_none {s : Cache β} {b : Block} (h : blockLookup s b = .ok none) :
    hashLookup s.ht b = none := by
  unfold blockLookup at h
  split at h
  · assumption
  · split at h
    · cases h
    · cases h

theorem blockLookup_some {s : Cache β} {b : Block} {ce : ℕ} (h : blockLookup s b = .ok (some ce)) :
    hashLookup s.ht b = some ce := by
  unfold blockLookup at h
  split at h
  · cases h
  · rename_i ce' hfind
    split at h
    · cases h
    · cases h
      exact hfind

/-- What is left of a request in one turn of the loop of `cache_block_io`, and the cache. -/
structure Turn (β : Type) where
  bnum : ℤ
  data : Option (List β)
  numBlocks : ℕ
  cache : Cache β

/-- A turn of the loop after which the call goes on. -/
inductive Step [Zero β] (dev : ℤ) (bsize : ℕ) (op : Op) : Turn β → Turn β → Prop where
  | hit {q : Turn β} {ce n : ℕ} {out : List β} {dataptr : Option ℕ} {s' : Cache β}
      (hmore : q.numBlocks = n + 1) (hfind : blockLookup q.cache ⟨dev, q.bnum⟩ = .ok (some ce))
      (hrun : hitBlock q.cache ce dev q.bnum q.data bsize op = .ok (out, dataptr, s')) :
      Step dev bsize op q ⟨q.bnum + 1, q.data.map List.tail, n, s'⟩
  | miss {q : Turn β} {n : ℕ} {r : Reply β} {s' : Cache β} (hmore : q.numBlocks ≠ 0)
      (hfind : blockLookup q.cache ⟨dev, q.bnum⟩ = .ok none)
      (hrun : missBlocks q.cache dev q.bnum q.data q.numBlocks bsize op = .ok (n, r, s'))
      (hok : r.err = 0) :
      Step dev bsize op q ⟨q.bnum + n, q.data.map (List.drop n), q.numBlocks - n, s'⟩

/-- The loop gets from one turn to another. -/
def Arrives [Zero β] (dev : ℤ) (bsize : ℕ) (op : Op) : Turn β → Turn β → Prop :=
  Relation.ReflTransGen (Step dev bsize op)

variable [Zero β]

theorem step_structured (hdev : 0 ≤ dev) {q q' : Turn β} (h : Structured q.cache)
    (hstep : Step dev bsize op q q') :
    Structured q'.cache ∧ q'.numBlocks < q.numBlocks := by
  obtain ⟨xs, hi⟩ := h
  cases hstep with
  | hit hmore hfind hrun =>
    have hce := ((hi.keys.iff _ _).mp (blockLookup_some hfind)).1
    refine ⟨hitBlock_intact hi hce hrun, ?_⟩
    rw [hmore]
    exact Nat.lt_succ_self _
  | miss hmore hfind hrun hok =>
    obtain ⟨hpos, hs'⟩ := missBlocks_intact hdev hi (blockLookup_none hfind) hrun hok
    exact ⟨hs', by dsimp only; omega⟩

/-- The structure of the cache holds in every turn. -/
theorem arrives_structured (hdev : 0 ≤ dev) {q q' : Turn β} (h : Structured q.cache)
    (harr : Arrives dev bsize op q q') : Structured q'.cache := by
  induction harr with
  | refl => exact h
  | tail _ hstep ih => exact (step_structured hdev ih hstep).1

/-- What the rest of a call returns, with the blocks that were copied before. -/
def Continues (x y : Run β (Reply β × Cache β)) : Prop :=
  ∃ f : Reply β → Reply β, (∀ r, (f r).err = r.err) ∧ x = y.map fun p => (f p.1, p.2)

theorem step_loop {q q' : Turn β} (hstep : Step dev bsize op q q') (fuel : ℕ) :
    Continues (blockLoop dev bsize op (fuel + 1) q.bnum q.data q.numBlocks q.cache)
      (blockLoop dev bsize op fuel q'.bnum q'.data q'.numBlocks q'.cache) := by
  cases hstep with
  | @hit ce n out dataptr s' hmore hfind hrun =>
    refine ⟨fun r => ⟨r.err, out ++ r.data, r.dataptr.or dataptr⟩, fun _ => rfl, ?_⟩
    rw [hmore, blockLoop, hfind]
    change (hitBlock q.cache ce dev q.bnum q.data bsize op).bind _ = _
    rw [hrun]
    change ((blockLoop dev bsize op fuel (q.bnum + 1) (q.data.map List.tail) n s').bind fun p =>
      (.ok (⟨p.1.err, out ++ p.1.data, p.1.dataptr.or dataptr⟩, p.2) :
        Run β (Reply β × Cache β))) = _
    cases blockLoop dev bsize op fuel (q.bnum + 1) (q.data.map List.tail) n s' with
    | error e => rfl
    | ok p => rfl
  | @miss n r s' hmore hfind hrun hok =>
    refine ⟨fun r' => ⟨r'.err, r.data ++ r'.data, r'.dataptr.or r.dataptr⟩, fun _ => rfl, ?_⟩
    obtain ⟨m, hm⟩ := Nat.exists_eq_succ_of_ne_zero hmore
    rw [hm] at hrun ⊢
    rw [blockLoop, hfind]
    change (missBlocks q.cache dev q.bnum q.data (m + 1) bsize op).bind _ = _
    rw [hrun]
    change (if r.err ≠ 0 then (.ok (r, s') : Run β (Reply β × Cache β)) else
      (blockLoop dev bsize op fuel (q.bnum + n) (q.data.map (List.drop n)) (m + 1 - n) s').bind
        fun p => .ok (⟨p.1.err, r.data ++ p.1.data, p.1.dataptr.or r.dataptr⟩, p.2)) = _
    rw [if_neg (not_not.mpr hok)]
    cases blockLoop dev bsize op fuel (q.bnum + n) (q.data.map (List.drop n)) (m + 1 - n) s' with
    | error e => rfl
    | ok p => rfl

/-- The rest of a call, from a turn that its loop gets to. -/
theorem arrives_loop (hdev : 0 ≤ dev) {q q' : Turn β} (h : Structured q.cache)
    (harr : Arrives dev bsize op q q') {fuel : ℕ} (hfuel : q.numBlocks ≤ fuel) :
    ∃ fuel', q'.numBlocks ≤ fuel' ∧
      Continues (blockLoop dev bsize op fuel q.bnum q.data q.numBlocks q.cache)
        (blockLoop dev bsize op fuel' q'.bnum q'.data q'.numBlocks q'.cache) := by
  induction harr with
  | refl =>
    refine ⟨fuel, hfuel, id, fun _ => rfl, ?_⟩
    cases blockLoop dev bsize op fuel q.bnum q.data q.numBlocks q.cache <;> rfl
  | @tail q₁ q₂ harr hstep ih =>
    obtain ⟨fuel₁, hle, f, hf, heq⟩ := ih
    have hless := (step_structured hdev (arrives_structured hdev h harr) hstep).2
    obtain ⟨fuel₂, rfl⟩ : ∃ fuel₂, fuel₁ = fuel₂ + 1 := ⟨fuel₁ - 1, by omega⟩
    obtain ⟨g, hg, heq'⟩ := step_loop hstep fuel₂
    refine ⟨fuel₂, by omega, f ∘ g, fun r => (hf _).trans (hg r), ?_⟩
    rw [heq, heq']
    cases blockLoop dev bsize op fuel₂ q₂.bnum q₂.data q₂.numBlocks q₂.cache <;> rfl

/-- A request that gets past the checks of `cache_block_io` and is small enough for the cache. -/
structure Accepted (s : Cache β) (dev bnum : ℤ) (data : Option (List β)) (numBlocks bsize : ℕ)
    (op : Op) (dataptr : Bool) : Prop where
  sized : bsize ≠ 0
  asked : numBlocks ≠ 0
  target : data = none → dataptr = true ∧ numBlocks = 1 ∧ op.kind ≠ .write
  inside : bnum + numBlocks ≤ s.maxDeviceBlocks dev
  small : numBlocks * bsize < 64 * 1024

theorem cacheBlockIo_loop {s : Cache β} {bnum : ℤ} {data : Option (List β)} {numBlocks : ℕ}
    {dataptr : Bool} (h : Accepted s dev bnum data numBlocks bsize op dataptr) :
    cacheBlockIo s dev bnum data numBlocks bsize op dataptr =
      blockLoop dev bsize op numBlocks bnum data numBlocks s := by
  unfold cacheBlockIo
  rw [if_neg h.sized, if_neg h.asked, if_neg, if_neg, if_neg, if_neg (not_lt.mpr h.inside),
    if_neg (not_le.mpr h.small)]
  · exact fun hcall => (h.target hcall.1).2.2 hcall.2
  · exact fun hcall => hcall.2 (h.target hcall.1).2.1
  · intro hcall
    rw [(h.target hcall.1).1] at hcall
    exact absurd hcall.2 (by decide)

end Calls

end CacheCalls
