import Mathlib.Tactic
import FsKit.StoreComposition
import FsKit.CacheStructure
import FsKit.FlushCompleteness

/-! The block cache as a store (`cache.c`). The hash table says which entry is the buffer of a
block. What a flush does to the entries of its array it does to the buffers of this store, also
while some of the entries are in hand. -/
namespace CacheStores

open HashTable BlockCache WriteBackStore TransitionTrace CacheStructure
open FlushCompleteness (bufOf callback storeOf storeOf_some storeOf_none Kept Flushed Works
  distinct_kept flushEnts_passed)
open FlushFailures (Distinct)

variable {β : Type}

section Stores
variable {s s' : Cache β} {ents : List ℕ} {ht : Table Block ℕ}

/-- The store whose buffers a hash table leads to. -/
def storeOn (ht : Table Block ℕ) (s : Cache β) : Store Block β Callback where
  buf b := (hashLookup ht b).map fun ce => bufOf (s.ents ce)
  disk := s.disk
  log := s.log

def cacheStore (s : Cache β) : Store Block β Callback := storeOn s.ht s

theorem storeOn_buf {b : Block} {ce : ℕ} (h : hashLookup ht b = some ce) :
    (storeOn ht s).buf b = some (bufOf (s.ents ce)) := by
  simp only [storeOn, h, Option.map_some]

theorem storeOn_none {b : Block} (h : hashLookup ht b = none) : (storeOn ht s).buf b = none := by
  simp only [storeOn, h, Option.map_none]

/-- Only the buffers of the entries that are led to matter. -/
theorem storeOn_congr (hents : ∀ b ce, hashLookup ht b = some ce →
      bufOf (s'.ents ce) = bufOf (s.ents ce)) (hdisk : s'.disk = s.disk) (hlog : s'.log = s.log) :
    storeOn ht s' = storeOn ht s := by
  unfold storeOn
  rw [hdisk, hlog]
  congr 1
  funext b
  cases hb : hashLookup ht b with
  | none => rfl
  | some ce => exact congrArg some (hents b ce hb)

/-- The entries of an array are the buffers of their blocks, and of no others. -/
structure Leads (ht : Table Block ℕ) (e : ℕ → CacheEnt β) (ents : List ℕ) : Prop where
  nodup : ents.Nodup
  lookup : ∀ ce ∈ ents, hashLookup ht (e ce).block = some ce
  own : ∀ b, ∀ ce ∈ ents, hashLookup ht b = some ce → (e ce).block = b

theorem Leads.distinct {e : ℕ → CacheEnt β} (h : Leads ht e ents) : Distinct e ents := by
  refine List.Nodup.map_on (fun a ha b hb heq => ?_) h.nodup
  have hsame := (h.lookup a ha).symm.trans ((congrArg _ heq).trans (h.lookup b hb))
  exact Option.some.inj hsame

theorem storeOf_part (h : Leads ht s.ents ents) : Part (storeOf s ents) (storeOn ht s) := by
  refine ⟨fun k b hb => ?_, rfl, rfl⟩
  by_cases hk : ∃ ce ∈ ents, (s.ents ce).block = k
  · obtain ⟨ce, hce, rfl⟩ := hk
    rw [storeOn_buf (h.lookup ce hce), ← storeOf_some h.distinct hce, hb]
  · rw [storeOf_none fun ce hce heq => hk ⟨ce, hce, heq⟩] at hb
    cases hb

/-- A flush of the entries of an array is a flush of the store. -/
theorem flushed_flushes (h : Flushed ents s s') (hl : Leads ht s.ents ents) :
    ∃ kss : List (List Block), (∀ ks ∈ kss, ∀ k ∈ ks, ∃ ce ∈ ents, (s.ents ce).block = k) ∧
      EveryStep apply Allowed (storeOn ht s) (kss.map .flush) ∧
      runTrace apply (storeOn ht s) (kss.map .flush) = storeOn ht s' := by
  obtain ⟨kss, hallowed, hstore⟩ := h.flushes
  obtain ⟨hallowed', hpart, hothers⟩ := (storeOf_part hl).flushes hallowed
  rw [← hstore] at hpart
  refine ⟨kss, fun ks hks k hk => ?_, hallowed', ?_⟩
  · by_contra hnone
    have habsent := flushes_absent hallowed (storeOf_none fun ce hce heq => hnone ⟨ce, hce, heq⟩)
    exact habsent.1 ks hks hk
  · have hbuf : (runTrace apply (storeOn ht s) (kss.map .flush)).buf = (storeOn ht s').buf := by
      funext k
      by_cases hk : ∃ ce ∈ ents, (s.ents ce).block = k
      · obtain ⟨ce, hce, rfl⟩ := hk
        have hsome := storeOf_some (distinct_kept hl.distinct h.kept) hce
        rw [(h.kept ce).block] at hsome
        rw [hpart.buf _ _ hsome, storeOn_buf (hl.lookup ce hce)]
      · have hnone : (storeOf s ents).buf k = none :=
          storeOf_none fun ce hce heq => hk ⟨ce, hce, heq⟩
        rw [hothers k hnone]
        cases hlook : hashLookup ht k with
        | none => rw [storeOn_none hlook, storeOn_none hlook]
        | some ce =>
          have hce : ce ∉ ents := fun hin => hk ⟨ce, hin, hl.own k ce hin hlook⟩
          rw [storeOn_buf hlook, storeOn_buf hlook, h.others ce hce]
    have hdisk := hpart.disk
    have hlog := hpart.log
    generalize runTrace apply (storeOn ht s) (kss.map .flush) = u at hbuf hdisk hlog
    obtain ⟨buf, disk, log⟩ := u
    dsimp only at hbuf hdisk hlog
    rw [hbuf, ← hdisk, ← hlog]
    rfl

theorem flushed_performs (h : Flushed ents s s') (hl : Leads ht s.ents ents) :
    Performs [] [] (storeOn ht s) (storeOn ht s') := by
  obtain ⟨kss, -, hallowed, hrun⟩ := flushed_flushes h hl
  have hperforms := performs_flushes hallowed
  rwa [hrun] at hperforms

/-- A flush leaves the callbacks with the clones. -/
theorem flushed_calls (h : Flushed ents s s') (hd : Distinct s.ents ents) {ce : ℕ} (hce : ce ∈ ents)
    (hcalls : (s.ents ce).clone = none ↔ (s.ents ce).func = none) :
    (s'.ents ce).clone = none ↔ (s'.ents ce).func = none := by
  obtain ⟨kss, hallowed, hstore⟩ := h.flushes
  obtain ⟨b', l, hb', -, hsettles⟩ := flushes_settle hallowed (storeOf_some hd hce)
  have hbuf := storeOf_some (distinct_kept hd h.kept) hce
  rw [(h.kept ce).block, hstore, hb'] at hbuf
  obtain rfl := Option.some.inj hbuf
  have hkept := hsettles.calls (b := bufOf (s.ents ce)) (by
    change (s.ents ce).clone = none ↔ callback (s.ents ce) = none
    rw [hcalls, callback, Option.map_eq_none_iff])
  change (s'.ents ce).clone = none ↔ callback (s'.ents ce) = none at hkept
  rw [hkept, callback, Option.map_eq_none_iff]

/-- With every write taken a flush leaves nothing of an array's entries to be written, but what
is locked and has no clone. -/
theorem flushEnts_cleans (hl : Leads ht s.ents ents) (hw : Works s)
    (hcalls : ∀ ce ∈ ents, (s.ents ce).clone = none ↔ (s.ents ce).func = none) :
    ∃ s', flushEnts s ents = (0, s') ∧ Flushed ents s s' ∧
      Performs [] [] (storeOn ht s) (storeOn ht s') ∧
      ∀ ce ∈ ents, (s'.ents ce).clone = none ∧ (s'.ents ce).func = none ∧
        ((s'.ents ce).lock = 0 → (s'.ents ce).dirty = false) := by
  obtain ⟨s', heq, hflushed, hdone⟩ := flushEnts_passed hl.distinct hw
  refine ⟨s', heq, hflushed, flushed_performs hflushed hl, fun ce hce => ?_⟩
  obtain ⟨hclone, hclean⟩ := hdone ce hce
  exact ⟨hclone, (flushed_calls hflushed hl.distinct hce (hcalls ce hce)).mp hclone, hclean⟩

end Stores

section Resting
variable {s s' : Cache β} {xs : Members} {size : ℤ → ℕ} {ents : List ℕ}

/-- A cache at rest on devices that take and give everything: a device has one size of blocks, an
entry has a callback exactly if it has a clone, and its lock count is an `int`. -/
structure Rests (size : ℤ → ℕ) (s : Cache β) (xs : Members) : Prop extends Intact s xs where
  sized : ∀ ce, Listed xs ce → (s.ents ce).bsize = size (s.ents ce).dev
  lock : ∀ ce, Listed xs ce → (s.ents ce).lock < 2 ^ 31
  calls : ∀ ce, Listed xs ce → ((s.ents ce).clone = none ↔ (s.ents ce).func = none)
  works : Works s

theorem Rests.lookup (h : Rests size s xs) {ce : ℕ} (hce : Listed xs ce) :
    hashLookup s.ht (s.ents ce).block = some ce :=
  (h.keys.iff _ _).mpr ⟨hce, rfl⟩

theorem Rests.listed (h : Rests size s xs) {b : Block} {ce : ℕ} (hb : hashLookup s.ht b = some ce) :
    Listed xs ce ∧ (s.ents ce).block = b :=
  (h.keys.iff _ _).mp hb

theorem Rests.leads (h : Rests size s xs) (hnodup : ents.Nodup)
    (hents : ∀ ce ∈ ents, Listed xs ce) :
    Leads s.ht s.ents ents :=
  ⟨hnodup, fun ce hce => h.lookup (hents ce hce), fun _ _ _ hb => (h.listed hb).2⟩

/-- What a flush may change of a cache at rest. -/
theorem Rests.congr (h : Rests size s xs)
    (hsame : s' = { s with ents := s'.ents, disk := s'.disk, ios := s'.ios, log := s'.log })
    (hios : s.ios ≤ s'.ios)
    (hents : ∀ ce, Listed xs ce → (s'.ents ce).block = (s.ents ce).block ∧
      (s'.ents ce).bsize = (s.ents ce).bsize ∧ (s'.ents ce).lock = (s.ents ce).lock ∧
      (s'.ents ce).busy = false ∧ ((s'.ents ce).clone = none ↔ (s'.ents ce).func = none)) :
    Rests size s' xs := by
  have hdev : ∀ ce, Listed xs ce → (s'.ents ce).dev = (s.ents ce).dev := fun ce hce =>
    congrArg Block.dev (hents ce hce).1
  refine ⟨⟨?_, fun ce hce => (hents ce hce).2.2.2.1, fun ce hce => ?_, ?_, ?_⟩, fun ce hce => ?_,
    fun ce hce => ?_, fun ce hce => (hents ce hce).2.2.2.2, fun n hn => ?_⟩
  · exact h.lists.congr (by rw [hsame]) (by rw [hsame]) (by rw [hsame]) (by rw [hsame])
      fun ce hce => (hents ce hce).2.2.1
  · rw [hdev ce hce]
    exact h.dev ce hce
  · rw [hsame]
    refine h.keys.congr fun b ce => and_congr_right fun hce => ?_
    dsimp only
    rw [(hents ce hce).1]
  · rw [hsame]
    exact h.cap
  · rw [(hents ce hce).2.1, hdev ce hce]
    exact h.sized ce hce
  · rw [(hents ce hce).2.2.1]
    exact h.lock ce hce
  · rw [hsame]
    exact h.works n (hios.trans hn)

theorem Rests.flushed (h : Rests size s xs) (hf : Flushed ents s s') (hnodup : ents.Nodup)
    (hents : ∀ ce ∈ ents, Listed xs ce) : Rests size s' xs := by
  refine h.congr hf.same hf.ios fun ce hlisted =>
    ⟨(hf.kept ce).block, ?_, (hf.kept ce).lock, ?_, ?_⟩
  · rw [hf.kept ce]
  · rw [hf.kept ce]
    exact h.idle ce hlisted
  · by_cases hce : ce ∈ ents
    · exact flushed_calls hf (h.leads hnodup hents).distinct hce (h.calls ce hlisted)
    · rw [hf.others ce hce]
      exact h.calls ce hlisted

end Resting

end CacheStores
