import Mathlib.Tactic
import FsKit.CacheGuarantees

/-! The shutdown of the cache (`cache.c`). The lists are walked without being taken apart; what
remains to be written is written, and every entry and its key is freed. -/
namespace CacheShutdown

open HashTable BlockCache WriteBackStore TransitionTrace CacheStructure CacheStores CacheFlushes
open CacheTransfers CacheRemoval CacheRuns CacheGuarantees
open FlushCompleteness (bufOf Works Kept Flushed flushCacheEnt_passed)

variable {β : Type}

section Shutdown

/-- What the loop of `delete_cache_list` makes of one entry. -/
def deleteEnt (s : Cache β) (ce : ℕ) : Cache β :=
  let s := if (s.ents ce).unwritten then (flushCacheEnt s ce).2 else s
  let s := setEnt s ce fun c => { c with clone := none }
  { s with
    ht := (hashDelete s.ht (s.ents ce).block).2
    curBlocks := s.curBlocks - 1 }

def deleteCacheList (s : Cache β) (cel : ListName) : Cache β := (listNodes s cel).foldl deleteEnt s

def shutdownHashTable (ht : Table Block ℕ) : Table Block ℕ := { ht with table := fun _ => [] }

def shutdownBlockCache (s : Cache β) : Cache β :=
  let s := deleteCacheList s .normal
  let s := deleteCacheList s .locked
  { s with lists := fun _ => ⟨none, none⟩, ht := shutdownHashTable s.ht }

end Shutdown

section Walking
variable {s : Cache β} {ents more : List ℕ} {ce : ℕ}

/-- The entries that are still to be freed: the hash table leads to them and to no others. -/
structure Left (s : Cache β) (ents : List ℕ) : Prop where
  wf : Wf HASH s.ht
  leads : Leads s.ht s.ents ents
  all : ∀ b ce, hashLookup s.ht b = some ce → ce ∈ ents
  free : ∀ ce ∈ ents, (s.ents ce).lock = 0
  calls : ∀ ce ∈ ents, (s.ents ce).clone = none ↔ (s.ents ce).func = none
  works : Works s

/-- What remains of an entry to be written is written. -/
theorem written_left (h : Left s (ce :: ents)) :
    ∃ s', (if (s.ents ce).unwritten then (flushCacheEnt s ce).2 else s) = s' ∧
      Left s' (ce :: ents) ∧ Performs [] [] (cacheStore s) (cacheStore s') ∧
      (s'.ents ce).dirty = false ∧ (s'.ents ce).clone = none ∧ s'.links = s.links ∧
      s'.lists = s.lists ∧ s'.made = s.made := by
  have hfree := h.free ce List.mem_cons_self
  cases hun : (s.ents ce).unwritten with
  | false =>
    obtain ⟨hdirty, hclone⟩ := (MissVictims.clean_iff_unwritten _).mpr hun
    exact ⟨s, rfl, h, Performs.refl _, hdirty, hclone, rfl, rfl, rfl⟩
  | true =>
    have hneeds : ¬((s.ents ce).dirty = false ∧ (s.ents ce).clone = none) := fun hclean => by
      rw [(MissVictims.clean_iff_unwritten _).mp hclean] at hun
      cases hun
    obtain ⟨s', hrun, hpassed⟩ := flushCacheEnt_passed h.leads.distinct List.mem_cons_self hneeds
      (.inr hfree) h.works
    have hdirty := flushCacheEnt_cleans ce h.works hfree
    rw [hrun] at hdirty
    have hf := hpassed.flushed
    have hht : s'.ht = s.ht := by rw [hf.same]
    have hsame : ∀ c, (s'.ents c).block = (s.ents c).block := fun c => (hf.kept c).block
    have hperforms := flushed_performs hf h.leads
    refine ⟨s', by rw [if_pos rfl, hrun], ⟨?_, ⟨h.leads.nodup, fun c hc => ?_, fun b c hc hb => ?_⟩,
      fun b c hb => ?_, fun c hc => ?_, fun c hc => ?_, hf.works h.works⟩, ?_, hdirty,
      (hpassed.passed ce List.mem_cons_self).1, by rw [hf.same], by rw [hf.same], by rw [hf.same]⟩
    · rw [hht]
      exact h.wf
    · rw [hht, hsame]
      exact h.leads.lookup c hc
    · rw [hht] at hb
      rw [hsame]
      exact h.leads.own b c hc hb
    · rw [hht] at hb
      exact h.all b c hb
    · rw [(hf.kept c).lock]
      exact h.free c hc
    · exact flushed_calls hf h.leads.distinct hc (h.calls c hc)
    · rw [← hht] at hperforms
      unfold cacheStore
      rw [hht] at hperforms ⊢
      exact hperforms

/-- A clean entry and its key are freed. -/
theorem freed_left (h : Left s (ce :: ents)) (hdirty : (s.ents ce).dirty = false)
    (hclone : (s.ents ce).clone = none) :
    ∃ s', { setEnt s ce (fun c => { c with clone := none }) with
        ht := (hashDelete s.ht (s.ents ce).block).2
        curBlocks := s.curBlocks - 1 } = s' ∧ Left s' ents ∧
      Performs [] [] (cacheStore s) (cacheStore s') ∧ s'.links = s.links ∧ s'.lists = s.lists ∧
      s'.made = s.made := by
  obtain ⟨hnot, hnodup⟩ := List.nodup_cons.mp h.leads.nodup
  have hlook := h.leads.lookup ce List.mem_cons_self
  have hent : setEnt s ce (fun c => { c with clone := none }) = s := by
    have hself : ({ s.ents ce with clone := none } : CacheEnt β) = s.ents ce := by rw [← hclone]
    unfold setEnt
    dsimp only
    rw [hself, Function.update_eq_self]
  obtain ⟨ht', hdelete, hwf, hlookup⟩ := delete_spec h.wf hlook
  have hdelete' : hashDelete s.ht (s.ents ce).block = (some ce, ht') := hdelete
  have hkeys : ∀ b, hashLookup ht' b =
      if b = (s.ents ce).block then none else hashLookup s.ht b := by
    intro b
    unfold hashLookup
    rw [hlookup, Function.update_apply]
  have hne : ∀ c ∈ ents, (s.ents c).block ≠ (s.ents ce).block := by
    intro c hc heq
    have hlook' := h.leads.lookup c (List.mem_cons_of_mem _ hc)
    rw [heq, hlook] at hlook'
    exact hnot (Option.some.inj hlook' ▸ hc)
  rw [hent, hdelete']
  refine ⟨_, rfl, ⟨hwf, ⟨hnodup, fun c hc => ?_, fun b c hc hb => ?_⟩, fun b c hb => ?_,
    fun c hc => h.free c (List.mem_cons_of_mem _ hc),
    fun c hc => h.calls c (List.mem_cons_of_mem _ hc),
    h.works⟩, ?_, rfl, rfl, rfl⟩
  · rw [hkeys, if_neg (hne c hc)]
    exact h.leads.lookup c (List.mem_cons_of_mem _ hc)
  · have hfound := hkeys b
    rw [show hashLookup ht' b = some c from hb] at hfound
    split at hfound
    · cases hfound
    · exact h.leads.own b c (List.mem_cons_of_mem _ hc) hfound.symm
  · have hfound := hkeys b
    rw [show hashLookup ht' b = some c from hb] at hfound
    split at hfound
    · cases hfound
    · rename_i hblock
      have hc := h.all b c hfound.symm
      refine (List.mem_cons.mp hc).resolve_left fun heq => hblock ?_
      rw [← h.leads.own b c hc hfound.symm, heq]
  · have hbuf : (cacheStore s).buf (s.ents ce).block = some (bufOf (s.ents ce)) := storeOn_buf hlook
    have hevict : Performs [] [] (cacheStore s) (apply (cacheStore s) (.evict (s.ents ce).block)) :=
      Performs.single ⟨_, hbuf, hdirty, hclone, h.free ce List.mem_cons_self⟩ ⟨trivial, trivial⟩
    convert hevict using 1
    unfold cacheStore storeOn
    simp only [apply]
    congr 1
    funext b
    rw [hkeys, Function.update_apply]
    split <;> rfl

theorem deleteEnt_left (h : Left s (ce :: ents)) : Left (deleteEnt s ce) ents ∧
    Performs [] [] (cacheStore s) (cacheStore (deleteEnt s ce)) ∧
      (deleteEnt s ce).links = s.links ∧ (deleteEnt s ce).lists = s.lists ∧
      (deleteEnt s ce).made = s.made := by
  obtain ⟨s₁, hwritten, hleft₁, hperforms₁, hdirty, hclone, hlinks₁, hlists₁, hmade₁⟩ :=
    written_left h
  obtain ⟨s₂, hfreed, hleft₂, hperforms₂, hlinks₂, hlists₂, hmade₂⟩ :=
    freed_left hleft₁ hdirty hclone
  have hblock : ((setEnt s₁ ce fun c => { c with clone := none }).ents ce).block =
      (s₁.ents ce).block := by
    have hself : (setEnt s₁ ce fun c => { c with clone := none }).ents ce =
        { s₁.ents ce with clone := none } := Function.update_self ..
    rw [hself]
    rfl
  have hrun : deleteEnt s ce = s₂ := by
    unfold deleteEnt
    rw [hwritten]
    dsimp only
    rw [hblock]
    exact hfreed
  rw [hrun]
  exact ⟨hleft₂, hperforms₁.trans hperforms₂, hlinks₂.trans hlinks₁, hlists₂.trans hlists₁,
    hmade₂.trans hmade₁⟩

theorem deleteEnts_left (h : Left s (ents ++ more)) : Left (ents.foldl deleteEnt s) more ∧
    Performs [] [] (cacheStore s) (cacheStore (ents.foldl deleteEnt s)) ∧
      (ents.foldl deleteEnt s).links = s.links ∧ (ents.foldl deleteEnt s).lists = s.lists ∧
      (ents.foldl deleteEnt s).made = s.made := by
  induction ents generalizing s with
  | nil => exact ⟨h, Performs.refl _, rfl, rfl, rfl⟩
  | cons ce ents ih =>
    obtain ⟨hleft, hperforms, hlinks, hlists, hmade⟩ := deleteEnt_left h
    obtain ⟨hleft', hperforms', hlinks', hlists', hmade'⟩ := ih hleft
    exact ⟨hleft', hperforms.trans hperforms', hlinks'.trans hlinks, hlists'.trans hlists,
      hmade'.trans hmade⟩

end Walking

section Writing
variable [Zero β] {size : ℤ → ℕ} {maxBlocks : ℕ} {disk : Block → β} {junk : β} {s : Cache β}
  {xs : Members} {u : Plain β} {cs : List (Call β)}

omit [Zero β] in
theorem left_of_rests (h : Rests size s xs) (hfree : ∀ ce, Listed xs ce → (s.ents ce).lock = 0) :
    Left s (xs .normal ++ xs .locked) := by
  have hlisted : ∀ ce, ce ∈ xs .normal ++ xs .locked ↔ Listed xs ce := by
    intro ce
    rw [List.mem_append]
    constructor
    · rintro (hce | hce)
      · exact ⟨_, hce⟩
      · exact ⟨_, hce⟩
    · rintro ⟨cel, hce⟩
      cases cel with
      | normal => exact .inl hce
      | locked => exact .inr hce
  have hnodup : (xs .normal ++ xs .locked).Nodup := by
    refine List.nodup_append.mpr
      ⟨(h.lists.family.isList _).nodup, (h.lists.family.isList _).nodup, ?_⟩
    rintro a ha b hb rfl
    cases h.lists.family.apart ha hb
  exact ⟨h.keys.wf, h.leads hnodup fun ce hce => (hlisted ce).mp hce,
    fun b ce hb => (hlisted ce).mpr (h.listed hb).1, fun ce hce => hfree ce ((hlisted ce).mp hce),
    fun ce hce => h.calls ce ((hlisted ce).mp hce), h.works⟩

omit [Zero β] in
theorem shutdownBlockCache_ok (h : Rests size s xs)
    (hfree : ∀ ce, Listed xs ce → (s.ents ce).lock = 0) :
    ∃ s', Performs [] [] (cacheStore s) (cacheStore s') ∧ (∀ k, (cacheStore s').buf k = none) ∧
      (shutdownBlockCache s).disk = s'.disk ∧ (shutdownBlockCache s).log = s'.log := by
  have hleft := left_of_rests h hfree
  obtain ⟨hleft₁, hperforms₁, hlinks, hlists, hmade⟩ := deleteEnts_left hleft
  rw [← List.append_nil (xs .locked)] at hleft₁
  obtain ⟨hleft₂, hperforms₂, -⟩ := deleteEnts_left hleft₁
  have hlocked : listNodes ((xs .normal).foldl deleteEnt s) .locked = xs .locked := by
    unfold listNodes
    rw [hlinks, hlists, hmade]
    exact h.lists.listNodes_eq .locked
  refine ⟨(xs .locked).foldl deleteEnt ((xs .normal).foldl deleteEnt s),
    hperforms₁.trans hperforms₂, fun k => ?_, ?_, ?_⟩
  · refine storeOn_none (Option.eq_none_iff_forall_ne_some.mpr fun ce hce => ?_)
    exact List.not_mem_nil (hleft₂.all k ce hce)
  · unfold shutdownBlockCache deleteCacheList
    rw [h.lists.listNodes_eq .normal]
    dsimp only
    rw [hlocked]
  · unfold shutdownBlockCache deleteCacheList
    rw [h.lists.listNodes_eq .normal]
    dsimp only
    rw [hlocked]

end Writing

end CacheShutdown
