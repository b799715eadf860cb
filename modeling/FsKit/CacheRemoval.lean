import Mathlib.Tactic
import FsKit.CacheUsers

/-! Removing the blocks of a device from the cache (`cache.c`). The two lists are walked from the
lru end; each entry of the device is flushed, taken out of its list and of the hash table, and
freed. -/
namespace CacheRemoval

open LinkedList HashTable BlockCache WriteBackStore TransitionTrace CacheStructure CacheStores
open CacheTransfers CacheRequests CacheFlushes CacheUsers
open FlushCompleteness (bufOf Works Kept Flushed flushCacheEnt_passed writevPos_works run_passed
  settled_passed)
open FlushFailures (Distinct settled settleEnt_self writeImages_ents)

variable {β : Type}

section Flushing
variable {s : Cache β} {xs : Members} {size : ℤ → ℕ} {ce : ℕ}

/-- An unlocked entry is clean once it has been flushed, also if it had a clone. -/
theorem flushCacheEnt_cleans (ce : ℕ) (hw : Works s) (hlock : (s.ents ce).lock = 0) :
    ((flushCacheEnt s ce).2.ents ce).dirty = false := by
  have hfirst : ∀ {t : Cache β} (dev bnum : ℤ), Works t →
      (settleEnt (writevPos t dev bnum [ce]).2 ce).ents ce = settled (t.ents ce) := by
    intro t dev bnum ht
    rw [settleEnt_self, writevPos_works ht, writeImages_ents]
  have hsettled : ∀ c : CacheEnt β, c.clone = none → (settled c).dirty = false := by
    intro c hc
    unfold settled
    rw [hc]
  unfold flushCacheEnt
  dsimp only
  split
  · rename_i hclean
    exact hclean.1
  rw [if_neg fun hno => hno.2 hlock]
  split
  · rename_i htwice
    dsimp only
    have hdistinct : Distinct s.ents [ce] := List.nodup_singleton _
    have hpassed := (run_passed hdistinct (List.Sublist.refl _) ⟨rfl, trivial⟩
      (List.forall_mem_singleton.mpr (.inr hlock)) hw).2
    have hworks : Works (settleEnt (writevPos s (s.ents ce).dev (s.ents ce).blockNum [ce]).2 ce) :=
      hpassed.flushed.works hw
    rw [hfirst _ _ hworks]
    refine hsettled _ ?_
    rw [hfirst _ _ hw]
    exact (settled_passed _).1
  · rename_i honce
    dsimp only
    rw [hfirst _ _ hw]
    cases hclone : (s.ents ce).clone with
    | none => exact hsettled _ hclone
    | some v =>
      have hdirty : (s.ents ce).dirty = false := by
        by_contra hd
        exact honce ⟨by rw [hclone]; rfl, hlock, Bool.not_eq_false _ ▸ hd⟩
      unfold settled
      rw [hclone]
      exact hdirty

end Flushing

section Unlinking
variable {s : Cache β} {xs : Members} {size : ℤ → ℕ} {ce : ℕ} {cel : ListName}

theorem unlinkEnt_eq {as bs : List ℕ} (h : IsList s.links (s.lists cel) (as ++ ce :: bs)) :
    unlinkEnt s cel ce = { s with
      links := (unlink s.links (s.lists cel) ce).1
      lists := Function.update s.lists cel (unlink s.links (s.lists cel) ce).2 } := by
  obtain ⟨hhead, htail, hne, hpe⟩ := ends_neighbours h
  unfold unlinkEnt unlink joinNext joinPrev
  rcases hn : s.links.next ce with _ | n <;> rcases hp : s.links.prev ce with _ | p
  · simp [hn, hp, hhead.mpr hp, htail.mpr hn]
  · have hhead' : (s.lists cel).head ≠ some ce := fun heq => by rw [hhead.mp heq] at hp; cases hp
    simp [hn, hp, hhead', htail.mpr hn, Links.setNext_next, hpe p hp]
  · have htail' : (s.lists cel).tail ≠ some ce := fun heq => by rw [htail.mp heq] at hn; cases hn
    simp [hn, hp, hhead.mpr hp, htail']
  · have hhead' : (s.lists cel).head ≠ some ce := fun heq => by rw [hhead.mp heq] at hp; cases hp
    have htail' : (s.lists cel).tail ≠ some ce := fun heq => by rw [htail.mp heq] at hn; cases hn
    simp [hn, hp, hhead', htail', Links.setNext_next, hpe p hp]

theorem listed_erase (h : Rests size s xs) (hce : ce ∈ xs cel) (c : ℕ) :
    Listed (Function.update xs cel ((xs cel).erase ce)) c ↔ Listed xs c ∧ c ≠ ce := by
  rw [listed_update, (h.lists.family.isList cel).nodup.mem_erase_iff]
  constructor
  · rintro (⟨hne, hc⟩ | ⟨cel', hcel, hc⟩)
    · exact ⟨⟨cel, hc⟩, hne⟩
    · refine ⟨⟨cel', hc⟩, ?_⟩
      rintro rfl
      exact hcel (h.lists.family.apart hc hce)
  · rintro ⟨⟨cel', hc⟩, hne⟩
    by_cases hcel : cel' = cel
    · exact .inl ⟨hne, hcel ▸ hc⟩
    · exact .inr ⟨cel', hcel, hc⟩

/-- A clean entry is freed. -/
theorem removeEnt_ok (h : Rests size s xs) (hce : ce ∈ xs cel) (hdirty : (s.ents ce).dirty = false)
    (hclone : (s.ents ce).clone = none) (hlock : (s.ents ce).lock = 0) :
    ∃ ht', hashDelete s.ht (s.ents ce).block = (some ce, ht') ∧
      Rests size { setEnt (unlinkEnt s cel ce) ce fun c => { c with clone := none } with
        ht := ht'
        curBlocks := s.curBlocks - 1 } (Function.update xs cel ((xs cel).erase ce)) ∧
      Performs [] [] (cacheStore s)
        (cacheStore { setEnt (unlinkEnt s cel ce) ce fun c => { c with clone := none } with
          ht := ht'
          curBlocks := s.curBlocks - 1 }) := by
  obtain ⟨as, bs, hsplit⟩ := List.append_of_mem hce
  have hlist := h.lists.family.isList cel
  rw [hsplit] at hlist
  have hlisted : Listed xs ce := ⟨cel, hce⟩
  have hsame : setEnt (unlinkEnt s cel ce) ce (fun c => { c with clone := none }) = { s with
      links := (unlink s.links (s.lists cel) ce).1
      lists := Function.update s.lists cel (unlink s.links (s.lists cel) ce).2 } := by
    have hent : ({ s.ents ce with clone := none } : CacheEnt β) = s.ents ce := by rw [← hclone]
    rw [unlinkEnt_eq hlist]
    unfold setEnt
    dsimp only
    rw [hent, Function.update_eq_self]
  obtain ⟨ht', hdelete, hkeys⟩ := @Keys.delete _ _ (s.ents ce).block ce h.keys ⟨hlisted, rfl⟩
  rw [hsame]
  have hmem := listed_erase h hce
  have hrests : Rests size { s with
      links := (unlink s.links (s.lists cel) ce).1
      lists := Function.update s.lists cel (unlink s.links (s.lists cel) ce).2
      ht := ht'
      curBlocks := s.curBlocks - 1 } (Function.update xs cel ((xs cel).erase ce)) := by
    refine ⟨⟨⟨h.lists.family.unlink hce, fun c hc => ?_, fun cel' c hc => ?_, List.nodup_nil,
      fun _ hc => (List.not_mem_nil hc).elim, ?_⟩, fun c hc => ?_, fun c hc => ?_, ?_, ?_⟩,
      fun c hc => ?_, fun c hc => ?_, fun c hc => ?_, h.works⟩
    · exact h.lists.made c (hc.imp (fun hc => ((hmem c).mp hc).1) id)
    · refine h.lists.lock cel' c ?_
      by_cases hcel : cel' = cel
      · subst hcel
        rw [Function.update_self] at hc
        exact List.mem_of_mem_erase hc
      · rwa [Function.update_of_ne hcel] at hc
    · have hlen := length_update xs cel ((xs cel).erase ce)
      have herase := List.length_erase_of_mem hce
      have hpos := List.length_pos_of_mem hce
      have hcount := h.lists.count
      rw [List.length_nil] at hcount ⊢
      dsimp only
      omega
    · exact h.idle c ((hmem c).mp hc).1
    · exact h.dev c ((hmem c).mp hc).1
    · refine hkeys.congr fun b c => ?_
      rw [hmem]
      constructor
      · rintro ⟨hne, hc, rfl⟩
        refine ⟨⟨hc, ?_⟩, rfl⟩
        rintro rfl
        exact hne rfl
      · rintro ⟨⟨hc, hne⟩, rfl⟩
        refine ⟨fun heq => hne ?_, hc, rfl⟩
        exact Option.some.inj ((h.lookup hc).symm.trans ((congrArg _ heq).trans (h.lookup hlisted)))
    · exact (Nat.sub_le _ _).trans h.cap
    · exact h.sized c ((hmem c).mp hc).1
    · exact h.lock c ((hmem c).mp hc).1
    · exact h.calls c ((hmem c).mp hc).1
  have hbuf : (cacheStore s).buf (s.ents ce).block = some (bufOf (s.ents ce)) :=
    storeOn_buf (h.lookup hlisted)
  refine ⟨ht', hdelete, hrests, ?_⟩
  have hevict : Performs [] [] (cacheStore s) (apply (cacheStore s) (.evict (s.ents ce).block)) :=
    Performs.single ⟨_, hbuf, hdirty, hclone, hlock⟩ ⟨trivial, trivial⟩
  convert hevict using 1
  unfold cacheStore storeOn
  simp only [apply]
  congr 1
  funext b
  by_cases hb : b = (s.ents ce).block
  · subst hb
    have hnone : hashLookup ht' (s.ents ce).block = none := hkeys.absent.mpr fun c hc => hc.1 rfl
    rw [Function.update_self, hnone]
    rfl
  · rw [Function.update_of_ne hb]
    cases hlook : hashLookup s.ht b with
    | none =>
      have hnone : hashLookup ht' b = none :=
        hkeys.absent.mpr fun c hc => h.keys.absent.mp hlook c hc.2
      rw [hnone]
    | some c =>
      have hsome : hashLookup ht' b = some c := (hkeys.iff b c).mpr ⟨hb, h.listed hlook⟩
      rw [hsome]

end Unlinking

section Walking
variable {s s' : Cache β} {xs : Members} {size : ℤ → ℕ} {dev : ℤ} {cel : ListName} {ce : ℕ}

/-- What is done to an entry before it is freed: what remains to be written is written. -/
def cleanedEnt (s : Cache β) (ce : ℕ) : Cache β :=
  if (s.ents ce).unwritten then setBusy false (flushCacheEnt (setBusy true s ce) ce).2 ce else s

theorem cleanedEnt_swept (h : Rests size s xs) (hce : Listed xs ce) (hlock : (s.ents ce).lock = 0) :
    ∃ ents, Swept size xs ents s (cleanedEnt s ce) ∧ ents ⊆ [ce] ∧
      ((cleanedEnt s ce).ents ce).dirty = false ∧ ((cleanedEnt s ce).ents ce).clone = none := by
  unfold cleanedEnt
  split
  swap
  · rename_i hclean
    have hboth := (MissVictims.clean_iff_unwritten _).mpr (Bool.eq_false_iff.mpr hclean)
    exact ⟨[], .refl h, List.nil_subset _, hboth.1, hboth.2⟩
  · rename_i hun
    have hmarks : setBusy true s ce = marked (fun c => false || c = ce) s := by
      rw [← setBusy_marked, marked_none]
    have hsame : ∀ c, (marked (fun c => false || c = ce) s).ents c = { s.ents c with
        busy := ((marked (fun c => false || c = ce) s).ents c).busy } := marked_ent _ s
    have hlisted : ∀ c ∈ [ce], Listed xs c := List.forall_mem_singleton.mpr hce
    have hnodup : [ce].Nodup := List.nodup_singleton ce
    have hneeds : ¬((s.ents ce).dirty = false ∧ (s.ents ce).clone = none) := fun hclean => by
      rw [(MissVictims.clean_iff_unwritten _).mp hclean] at hun
      cases hun
    rw [hmarks]
    obtain ⟨u, hrun, hpassed⟩ := flushCacheEnt_passed (s := marked (fun c => false || c = ce) s)
      (marked_leads h _ hnodup hlisted).distinct List.mem_cons_self
      (by rw [hsame]; exact hneeds) (.inr (by rw [hsame]; exact hlock)) h.works
    have hdirty := flushCacheEnt_cleans (s := marked (fun c => false || c = ce) s) ce h.works
      (by rw [hsame]; exact hlock)
    have hclone := (hpassed.passed ce List.mem_cons_self).1
    rw [hrun] at hdirty ⊢
    have hswept := swept_of_flushed h _ hnodup hlisted hpassed.flushed
      (List.forall_mem_singleton.mpr ⟨hclone, fun _ => hdirty⟩)
    have hend : setBusy false u ce = unmarked s u := by
      unfold setBusy setEnt unmarked
      congr 1
      funext c
      by_cases hc : c = ce
      · subst hc
        rw [Function.update_self, h.idle c hce]
      · have hother := hpassed.others c (by simpa using hc)
        rw [Function.update_of_ne hc, hother]
        simp [marked, hc]
    dsimp only
    rw [hend]
    exact ⟨[ce], hswept, List.Subset.refl _, hdirty, hclone⟩

/-- What is left when a list has been walked. -/
structure Removed (size : ℤ → ℕ) (dev : ℤ) (cel : ListName) (kept : List ℕ) (s : Cache β)
    (xs : Members) (s' : Cache β) (xs' : Members) : Prop where
  rests : Rests size s' xs'
  performs : Performs [] [] (cacheStore s) (cacheStore s')
  same : s'.maxBlocks = s.maxBlocks ∧ s'.maxDeviceBlocks = s.maxDeviceBlocks ∧ s'.made = s.made
  ents : ∀ ce, (s'.ents ce).block = (s.ents ce).block ∧ (s'.ents ce).lock = (s.ents ce).lock
  lists : ∀ cel', cel' ≠ cel → xs' cel' = xs cel'
  left : ∀ ce ∈ xs' cel, ce ∈ xs cel
  gone : ∀ ce ∈ xs' cel, ce ∈ kept ∨ (s.ents ce).dev ≠ dev

theorem Removed.device {kept : List ℕ} {xs' : Members} (hr : Removed size dev cel kept s xs s' xs')
    (ce : ℕ) : (s'.ents ce).dev = (s.ents ce).dev :=
  congrArg Block.dev (hr.ents ce).1

/-- What is locked is not removed, and keeps its entry. -/
theorem Removed.stays {kept : List ℕ} {xs' : Members} (hr : Removed size dev cel kept s xs s' xs')
    (h : Rests size s xs) : Stays s s' := by
  intro k ce hk hlook
  obtain ⟨ce', hlook', ⟨cel', hce'⟩, hblock, -⟩ :=
    locked_entry hr.rests (hk.trans_le (hr.performs.reaches.lockOf_le k))
  have hlisted : Listed xs ce' := by
    by_cases hcel : cel' = cel
    · subst hcel
      exact ⟨_, hr.left ce' hce'⟩
    · rw [hr.lists cel' hcel] at hce'
      exact ⟨_, hce'⟩
  have hfind := h.lookup hlisted
  rw [← (hr.ents ce').1, hblock, hlook] at hfind
  rw [hlook', ← hfind]

theorem realRemove_step (hdev : (s.ents ce).dev = dev) {ht' : Table Block ℕ}
    (hdelete : hashDelete (cleanedEnt s ce).ht ((cleanedEnt s ce).ents ce).block = (some ce, ht'))
    (n : ℕ) :
    realRemoveCachedBlocks dev true cel (n + 1) (some ce) s =
      realRemoveCachedBlocks dev true cel n (s.links.next ce)
        { setEnt (unlinkEnt (cleanedEnt s ce) cel ce) ce fun c => { c with clone := none } with
          ht := ht'
          curBlocks := (cleanedEnt s ce).curBlocks - 1 } := by
  have hblock : ((setEnt (unlinkEnt (cleanedEnt s ce) cel ce) ce
      fun c => { c with clone := none }).ents ce).block = ((cleanedEnt s ce).ents ce).block := by
    have hself : (setEnt (unlinkEnt (cleanedEnt s ce) cel ce) ce
        fun c => { c with clone := none }).ents ce =
          { (cleanedEnt s ce).ents ce with clone := none } := Function.update_self ..
    rw [hself]
    rfl
  rw [realRemoveCachedBlocks]
  dsimp only
  rw [if_neg (not_not.mpr hdev)]
  simp only [true_and]
  change (if (hashDelete (cleanedEnt s ce).ht ((setEnt (unlinkEnt (cleanedEnt s ce) cel ce) ce
    fun c => { c with clone := none }).ents ce).block).1 ≠ some ce then _ else
      realRemoveCachedBlocks dev true cel n (s.links.next ce)
        { setEnt (unlinkEnt (cleanedEnt s ce) cel ce) ce fun c => { c with clone := none } with
          ht := (hashDelete (cleanedEnt s ce).ht ((setEnt (unlinkEnt (cleanedEnt s ce) cel ce) ce
            fun c => { c with clone := none }).ents ce).block).2
          curBlocks := (cleanedEnt s ce).curBlocks - 1 }) = _
  rw [hblock, hdelete, if_neg (not_not.mpr rfl)]

theorem realRemove_ok (dev : ℤ) (cel : ListName) (rest : List ℕ) :
    ∀ {n : ℕ} {s : Cache β} {xs : Members} {kept : List ℕ},
    Rests size s xs → xs cel = kept ++ rest → rest.length < n →
    (∀ ce ∈ rest, (s.ents ce).dev = dev → (s.ents ce).lock = 0) →
    ∃ s' xs', realRemoveCachedBlocks dev true cel n rest.head? s = .ok s' ∧
      Removed size dev cel kept s xs s' xs' := by
  induction rest with
  | nil =>
    intro n s xs kept h hxs hn _
    obtain ⟨n, rfl⟩ := Nat.exists_eq_add_one.mpr hn
    refine ⟨s, xs, rfl, h, Performs.refl _, ⟨rfl, rfl, rfl⟩, fun _ => ⟨rfl, rfl⟩, fun _ _ => rfl,
      fun _ => id, fun ce hce => .inl ?_⟩
    rwa [hxs, List.append_nil] at hce
  | cons ce rest ih =>
    intro n s xs kept h hxs hn hlocks
    obtain ⟨n, rfl⟩ := Nat.exists_eq_add_one.mpr (Nat.zero_lt_of_lt hn)
    rw [List.length_cons] at hn
    have hce : ce ∈ xs cel := hxs ▸ List.mem_append_right _ List.mem_cons_self
    have hlist := h.lists.family.isList cel
    rw [hxs] at hlist
    have hnext := hlist.neighbours.2
    by_cases hdev : (s.ents ce).dev = dev
    swap
    · -- an entry of another device stays
      obtain ⟨s', xs', hrun, hremoved⟩ := @ih n s xs (kept ++ [ce]) h
        (by rw [hxs, List.append_assoc]; rfl) (by omega)
        fun c hc => hlocks c (List.mem_cons_of_mem _ hc)
      refine ⟨s', xs', ?_, { hremoved with gone := fun c hc => ?_ }⟩
      · rw [List.head?_cons, realRemoveCachedBlocks]
        dsimp only
        rw [if_pos hdev, hnext]
        exact hrun
      · rcases hremoved.gone c hc with hin | hne
        · rcases List.mem_append.mp hin with hin | hin
          · exact .inl hin
          · rw [List.mem_singleton.mp hin]
            exact .inr hdev
        · exact .inr hne
    · have hlock := hlocks ce List.mem_cons_self hdev
      obtain ⟨ents, hswept, hents, hdirty, hclone⟩ := cleanedEnt_swept h ⟨cel, hce⟩ hlock
      have hkept := hswept.kept
      obtain ⟨ht', hdelete, hrests, hevict⟩ := removeEnt_ok hswept.rests hce hdirty hclone
        (by rw [(hkept ce).lock]; exact hlock)
      have hperforms := hswept.performs.trans hevict
      have hsame : ∀ c, ((setEnt (unlinkEnt (cleanedEnt s ce) cel ce) ce
          fun c => { c with clone := none }).ents c).block = (s.ents c).block ∧
            ((setEnt (unlinkEnt (cleanedEnt s ce) cel ce) ce
              fun c => { c with clone := none }).ents c).lock = (s.ents c).lock := by
        intro c
        have hc := hkept c
        have hentry : (setEnt (unlinkEnt (cleanedEnt s ce) cel ce) ce
            fun c => { c with clone := none }).ents c = if c = ce then
              { (cleanedEnt s ce).ents c with clone := none } else (cleanedEnt s ce).ents c := by
          change Function.update _ ce _ c = _
          rw [Function.update_apply]
          split
          · rename_i heq
            rw [heq]
            rfl
          · rfl
        rw [hentry]
        constructor
        · split
          · exact hc.block
          · exact hc.block
        · split
          · exact hc.lock
          · exact hc.lock
      have hxs' : Function.update xs cel ((xs cel).erase ce) cel = kept ++ rest := by
        have hnodup := hlist.nodup
        have hnot : ce ∉ kept := fun hin =>
          (List.nodup_append.mp hnodup).2.2 ce hin ce List.mem_cons_self rfl
        rw [Function.update_self, hxs, List.erase_append_right _ hnot, List.erase_cons_head]
      obtain ⟨s', xs', hrun, hremoved⟩ := @ih n _ _ kept hrests hxs' (by omega)
        fun c hc hd => by
          have hdevice := congrArg Block.dev (hsame c).1
          rw [(hsame c).2]
          exact hlocks c (List.mem_cons_of_mem _ hc) (hdevice.symm.trans hd)
      refine ⟨s', xs', ?_, hremoved.rests, hperforms.trans hremoved.performs, ?_, fun c => ?_,
        fun cel' hne => ?_, fun c hc => ?_, fun c hc => ?_⟩
      · rw [List.head?_cons, realRemove_step hdev hdelete, hnext]
        exact hrun
      · have hfirst := hswept.same
        obtain ⟨hmax, hdevices, hmade⟩ := hremoved.same
        refine ⟨hmax.trans ?_, hdevices.trans ?_, hmade.trans ?_⟩
        · change (cleanedEnt s ce).maxBlocks = _
          rw [hfirst]
        · change (cleanedEnt s ce).maxDeviceBlocks = _
          rw [hfirst]
        · change (cleanedEnt s ce).made = _
          rw [hfirst]
      · exact ⟨(hremoved.ents c).1.trans (hsame c).1, (hremoved.ents c).2.trans (hsame c).2⟩
      · rw [hremoved.lists cel' hne, Function.update_of_ne hne]
      · have hin := hremoved.left c hc
        rw [Function.update_self] at hin
        exact List.mem_of_mem_erase hin
      · exact (hremoved.gone c hc).imp id fun hne heq =>
          hne ((congrArg Block.dev (hsame c).1).trans heq)

/-- `remove_cached_device_blocks` with writes allowed, when nobody has a block of the device
locked. -/
theorem removeCachedDeviceBlocks_ok (h : Rests size s xs)
    (hfree : ∀ k : Block, k.dev = dev → lockOf (cacheStore s) k = 0) :
    ∃ s', removeCachedDeviceBlocks s dev true = .ok (0, s') ∧ (∃ xs', Rests size s' xs') ∧
      Performs [] [] (cacheStore s) (cacheStore s') ∧ s'.maxBlocks = s.maxBlocks ∧
      s'.maxDeviceBlocks = Function.update s.maxDeviceBlocks dev 0 ∧ Stays s s' ∧
      ∀ k : Block, k.dev = dev → (cacheStore s').buf k = none := by
  have hlocks : ∀ ce, Listed xs ce → (s.ents ce).dev = dev → (s.ents ce).lock = 0 := by
    intro ce hce hdev
    rw [← lockOf_entry h hce]
    exact hfree _ hdev
  have hhead : ∀ {u : Cache β} {ys : Members} (cel : ListName), Rests size u ys →
      (u.lists cel).head = (ys cel).head? := fun cel hu => (hu.lists.family.isList cel).head
  obtain ⟨s₁, xs₁, hrun₁, hremoved₁⟩ := realRemove_ok dev .normal (xs .normal) h
    (List.nil_append _).symm (Nat.lt_succ_of_le (h.lists.length_le .normal))
    fun ce hce hdev => hlocks ce ⟨_, hce⟩ hdev
  have h₁ := hremoved₁.rests
  have hlocked : xs₁ .locked = xs .locked := hremoved₁.lists .locked (by decide)
  obtain ⟨s₂, xs₂, hrun₂, hremoved₂⟩ := realRemove_ok dev .locked (xs₁ .locked) h₁
    (List.nil_append _).symm (Nat.lt_succ_of_le (h₁.lists.length_le .locked))
    fun ce hce hdev => by
      rw [hlocked] at hce
      rw [(hremoved₁.ents ce).2]
      exact hlocks ce ⟨_, hce⟩ ((hremoved₁.device ce).symm.trans hdev)
  obtain ⟨hmax₁, hdevices₁, -⟩ := hremoved₁.same
  obtain ⟨hmax₂, hdevices₂, -⟩ := hremoved₂.same
  have h₂ := hremoved₂.rests
  have hgone : ∀ ce, Listed xs₂ ce → (s₂.ents ce).dev ≠ dev := by
    rintro ce ⟨cel, hce⟩
    rw [hremoved₂.device]
    cases cel with
    | normal =>
      rw [hremoved₂.lists .normal (by decide)] at hce
      rw [hremoved₁.device]
      exact (hremoved₁.gone ce hce).resolve_left List.not_mem_nil
    | locked => exact (hremoved₂.gone ce hce).resolve_left List.not_mem_nil
  refine ⟨{ s₂ with maxDeviceBlocks := Function.update s₂.maxDeviceBlocks dev 0 }, ?_, ⟨xs₂, ?_⟩,
    hremoved₁.performs.trans hremoved₂.performs, hmax₂.trans hmax₁, ?_, fun k ce hk hlook => ?_,
    fun k hk => ?_⟩
  · unfold removeCachedDeviceBlocks
    rw [hhead .normal h, hrun₁]
    simp only [bind, Except.bind]
    rw [hhead .locked h₁, hrun₂]
  · exact ⟨⟨h₂.lists.congr rfl rfl rfl rfl fun _ _ => rfl, h₂.idle, h₂.dev, h₂.keys, h₂.cap⟩,
      h₂.sized, h₂.lock, h₂.calls, h₂.works⟩
  · rw [hdevices₂, hdevices₁]
  · exact hremoved₂.stays h₁ k ce (hk.trans_le (hremoved₁.performs.reaches.lockOf_le k))
      (hremoved₁.stays h k ce hk hlook)
  · cases hlook : hashLookup s₂.ht k with
    | none => exact storeOn_none hlook
    | some ce =>
      obtain ⟨hce, rfl⟩ := h₂.listed hlook
      exact absurd hk (hgone ce hce)

end Walking

end CacheRemoval
