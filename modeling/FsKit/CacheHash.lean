import Mathlib.Tactic
import FsKit.BlockBitmap
import FsKit.BlockCache
import FsKit.TransitionTrace

/-! The hash table of the block cache on its own (`cache.c`), with the widths of its fields
and with allocations that may fail. It refines a finite map from blocks to pointers. -/
namespace CacheHash

open MachineIntegers (toInt32 toInt32_of_lt)
open BlockCache (Block HASH EEXIST ENOMEM HT_DEFAULT_MAX)
open HashTable TransitionTrace

/-- What `malloc` and `calloc` have for a call. -/
structure Mem where
  malloc : Bool
  calloc : Bool
  deriving DecidableEq, Repr

/-- `calloc` of that many pointers. A size that does not fit into a `size_t` is refused. -/
def callocTable (mem : Mem) (n : ℤ) : Bool :=
  mem.calloc && decide ((BitVec.ofInt 64 n).toNat * 8 < 2 ^ 64)

section Model
variable {α : Type}

def initHashTable (mem : Mem) : Option (Table Block α) :=
  if callocTable mem HT_DEFAULT_MAX then some (initTable HT_DEFAULT_MAX) else none

def newSize (ht : Table Block α) : ℤ := toInt32 (ht.max * 2)

def growHashTable (mem : Mem) (ht : Table Block α) : ℤ × Table Block α :=
  let newmask := newSize ht - 1
  if callocTable mem (newSize ht) then
    (0, { ht with
      table := (entries ht).foldl (pushEnt newmask.toNat) fun _ => []
      max := (newSize ht).toNat
      mask := newmask.toNat })
  else (ENOMEM, ht)

/-- The test after an insertion. -/
def IsFull (ht : Table Block α) : Prop := (toInt32 (ht.max * 3)).tdiv 4 ≤ ht.numElements

instance (ht : Table Block α) : Decidable (IsFull ht) :=
  inferInstanceAs (Decidable (_ ≤ _))

def hashInsert (mem : Mem) (ht : Table Block α) (b : Block) (data : α) : ℤ × Table Block α :=
  match findEnt HASH ht b with
  | some _ => (EEXIST, ht)
  | none =>
    if mem.malloc then
      let ht := pushed HASH ht b data
      if IsFull ht then
        let (err, ht) := growHashTable mem ht
        if err ≠ 0 then (ENOMEM, ht) else (0, ht)
      else (0, ht)
    else (ENOMEM, ht)

variable (null : α)

def hashLookup (ht : Table Block α) (b : Block) : α := (lookup HASH ht b).getD null

def hashDelete (ht : Table Block α) (b : Block) : α × Table Block α :=
  let (data, ht) := delete HASH ht b
  (data.getD null, ht)

end Model

inductive Call (α : Type) where
  | insert (b : Block) (data : α) (mem : Mem)
  | lookup (b : Block)
  | delete (b : Block)
  deriving DecidableEq, Repr

inductive Answer (α : Type) where
  | status (err : ℤ)
  | pointer (data : α)
  deriving DecidableEq, Repr

section Calls
variable {α : Type} (null : α)

def exec (ht : Table Block α) : Call α → Answer α × Table Block α
  | .insert b data mem => let (err, ht) := hashInsert mem ht b data; (.status err, ht)
  | .lookup b => (.pointer (hashLookup null ht b), ht)
  | .delete b => let (data, ht) := hashDelete null ht b; (.pointer data, ht)

def next (ht : Table Block α) (c : Call α) : Table Block α := (exec null ht c).2

def answers (ht : Table Block α) : List (Call α) → List (Answer α)
  | [] => []
  | c :: cs => (exec null ht c).1 :: answers (next null ht c) cs

/-- The same call on a finite map: an insertion of a key that is there is refused. -/
def mapExec (m : Block → Option α) : Call α → Answer α × (Block → Option α)
  | .insert b data _ =>
    if (m b).isSome then (.status EEXIST, m)
    else (.status 0, Function.update m b (some data))
  | .lookup b => (.pointer ((m b).getD null), m)
  | .delete b => (.pointer ((m b).getD null), Function.update m b none)

def mapAnswers (m : Block → Option α) : List (Call α) → List (Answer α)
  | [] => []
  | c :: cs => (mapExec null m c).1 :: mapAnswers (mapExec null m c).2 cs

/-- No allocation that the call asks for fails. -/
def Allocates (ht : Table Block α) : Call α → Prop
  | .insert b data mem => findEnt HASH ht b = none → mem.malloc = true ∧
      (IsFull (pushed HASH ht b data) → callocTable mem (newSize ht) = true)
  | .lookup _ => True
  | .delete _ => True

/-- What a call does to the entries. -/
def Exact (ht : Table Block α) : Call α → Prop
  | .insert b data mem =>
    if (lookup HASH ht b).isSome then hashInsert mem ht b data = (EEXIST, ht)
    else (hashInsert mem ht b data).1 = 0 ∧ ∀ he, he ∈ entries (hashInsert mem ht b data).2 ↔
      he = ⟨b, HASH b, data⟩ ∨ he ∈ entries ht
  | .lookup b => next null ht (.lookup b) = ht
  | .delete b => (∀ data, (∃ he ∈ entries ht, he.key = b ∧ he.data = data) →
      (hashDelete null ht b).1 = data) ∧
      ((∀ he ∈ entries ht, he.key ≠ b) → hashDelete null ht b = (null, ht)) ∧
      ∀ he, he ∈ entries (hashDelete null ht b).2 ↔ he ∈ entries ht ∧ he.key ≠ b

end Calls

/-- Every entry is in its bucket, no key is there twice, the count is right and the table is
not full. -/
structure FiniteTable {α : Type} (ht : Table Block α) : Prop extends Wf HASH ht where
  keys : ((entries ht).map HashEnt.key).Nodup
  load : ht.numElements < 3 * ht.max / 4

/-- The invariant, with what keeps the sizes within an `int`. -/
structure Sound {α : Type} (ht : Table Block α) : Prop extends Wf HASH ht where
  load : ht.numElements < 3 * ht.max / 4
  least : HT_DEFAULT_MAX ≤ ht.max
  most : ht.max ≤ 2 ^ 30

theorem Sound.finiteTable {α : Type} {ht : Table Block α} (h : Sound ht) : FiniteTable ht :=
  ⟨h.toWf, h.entries_distinct, h.load⟩

section Growth
variable {α : Type} {ht : Table Block α} {mem : Mem}

theorem init_sound (h : initHashTable mem = some ht) : Sound ht := by
  unfold initHashTable at h
  split at h
  · cases h
    refine ⟨initTable_wf 7, ?_, le_rfl, ?_⟩ <;> simp [initTable, HT_DEFAULT_MAX]
  · cases h

theorem isFull_iff (h : ht.max ≤ 2 ^ 29) : IsFull ht ↔ ht.max * 3 / 4 ≤ ht.numElements := by
  have hint : toInt32 (ht.max * 3) = (ht.max * 3 : ℕ) := by
    rw [toInt32_of_lt (by omega) (by omega)]
    push_cast
    rfl
  unfold IsFull
  rw [hint, Int.tdiv_eq_ediv_of_nonneg (by omega)]
  omega

theorem newSize_eq (h : ht.max ≤ 2 ^ 29) : newSize ht = (ht.max * 2 : ℕ) := by
  unfold newSize
  rw [toInt32_of_lt (by omega) (by omega)]
  push_cast
  rfl

theorem growHashTable_eq (h : ht.max ≤ 2 ^ 29) (hpos : 0 < ht.max)
    (hmem : callocTable mem (newSize ht) = true) : growHashTable mem ht = (0, growTable ht) := by
  have hmask : (((ht.max * 2 : ℕ) : ℤ) - 1).toNat = ht.max * 2 - 1 := by omega
  unfold growHashTable
  dsimp only
  rw [if_pos hmem, newSize_eq h, hmask, Int.toNat_natCast]
  rfl

/-- At the limit the next size is negative, and no table of that size can be had. -/
theorem callocTable_limit (h : ht.max = 2 ^ 30) : callocTable mem (newSize ht) = false := by
  have hsize : newSize ht = -2 ^ 31 := by
    unfold newSize
    rw [h]
    decide
  have hbig : ¬(BitVec.ofInt 64 (-2 ^ 31)).toNat * 8 < 2 ^ 64 := by decide
  unfold callocTable
  rw [hsize, decide_eq_false hbig, Bool.and_false]

theorem isFull_limit (h : ht.max = 2 ^ 30) : IsFull ht := by
  have hint : (toInt32 ((2 ^ 30 : ℕ) * 3)).tdiv 4 = -2 ^ 28 := by decide
  unfold IsFull
  rw [h, hint]
  omega

/-- A table whose allocation succeeds has not reached the limit. -/
theorem Sound.below_limit (h : Sound ht) {b : Block} {data : α} (hnew : findEnt HASH ht b = none)
    (ha : Allocates ht (.insert b data mem)) : ht.max ≤ 2 ^ 29 := by
  obtain ⟨n, hn⟩ := h.size
  have hmost := h.most
  rcases Nat.lt_or_ge n 30 with hlt | hge
  · rw [hn]
    exact Nat.pow_le_pow_right (by decide) (by omega)
  · have hmax : ht.max = 2 ^ 30 := by
      refine le_antisymm hmost ?_
      rw [hn]
      exact Nat.pow_le_pow_right (by decide) hge
    have halloc := (ha hnew).2 (isFull_limit hmax)
    change callocTable mem (newSize ht) = true at halloc
    rw [callocTable_limit hmax] at halloc
    cases halloc

end Growth

section Steps
variable {α : Type} {ht : Table Block α} {mem : Mem} {b : Block} {data : α}

theorem hashInsert_present (h : (lookup HASH ht b).isSome) :
    hashInsert mem ht b data = (EEXIST, ht) := by
  unfold hashInsert
  rcases hfind : findEnt HASH ht b with _ | he
  · rw [lookup_eq_none_iff.mpr hfind] at h
    cases h
  · rfl

/-- With its allocations an insertion is that of a table without limits. -/
theorem hashInsert_eq (h : Sound ht) (hnew : findEnt HASH ht b = none)
    (ha : Allocates ht (.insert b data mem)) :
    hashInsert mem ht b data = (0, if ht.max * 3 / 4 ≤ ht.numElements + 1
      then growTable (pushed HASH ht b data) else pushed HASH ht b data) := by
  have hmax := h.below_limit hnew ha
  obtain ⟨hmalloc, hcalloc⟩ := ha hnew
  have hfull : IsFull (pushed HASH ht b data) ↔ ht.max * 3 / 4 ≤ ht.numElements + 1 :=
    isFull_iff hmax
  unfold hashInsert
  rw [hnew]
  dsimp only
  rw [if_pos hmalloc]
  by_cases hroom : ht.max * 3 / 4 ≤ ht.numElements + 1
  · have hgrow : growHashTable mem (pushed HASH ht b data) =
        (0, growTable (pushed HASH ht b data)) :=
      growHashTable_eq hmax h.max_pos (hcalloc (hfull.mpr hroom))
    rw [if_pos (hfull.mpr hroom), if_pos hroom, hgrow]
    rfl
  · rw [if_neg (mt hfull.mp hroom), if_neg hroom]

/-- The cache's own insertion is this one as long as allocations succeed. -/
theorem hashInsert_eq_cache {ht : Table Block ℕ} {ce : ℕ} (h : Sound ht)
    (ha : Allocates ht (.insert b ce mem)) :
    hashInsert mem ht b ce = BlockCache.hashInsert ht b ce := by
  unfold BlockCache.hashInsert HashTable.insert
  rcases hfind : findEnt HASH ht b with _ | he
  · exact hashInsert_eq h hfind ha
  · unfold hashInsert
    rw [hfind]

/-- A new key is entered as the finite map has it, and the table stays below its limits. -/
theorem hashInsert_new (h : Sound ht) (hnew : findEnt HASH ht b = none)
    (ha : Allocates ht (.insert b data mem)) :
    ∃ ht', hashInsert mem ht b data = (0, ht') ∧ Sound ht' ∧
      (∀ he, he ∈ entries ht' ↔ he = ⟨b, HASH b, data⟩ ∨ he ∈ entries ht) ∧
      lookup HASH ht' = Function.update (lookup HASH ht) b (some data) := by
  have hmax := h.below_limit hnew ha
  have hleast := h.least
  have hload := h.load
  have hpushed := pushed_wf h.toWf (d := data) hnew
  have hmem : ∀ he, he ∈ entries (pushed HASH ht b data) ↔
      he = ⟨b, HASH b, data⟩ ∨ he ∈ entries ht := fun _ => mem_entries_pushed h.toPlaced hnew
  have hlookup := lookup_pushed h.toPlaced (d := data) hnew
  refine ⟨_, hashInsert_eq h hnew ha, ?_⟩
  split_ifs with hroom
  · have hmem' : ∀ he, he ∈ entries (growTable (pushed HASH ht b data)) ↔
        he ∈ entries (pushed HASH ht b data) := fun _ => mem_entries_growTable hpushed.toPlaced
    have hgrown := growTable_wf hpushed
    refine ⟨⟨hgrown, ?_, ?_, ?_⟩, fun he => (hmem' he).trans (hmem he), ?_⟩
    · change ht.numElements + 1 < 3 * (ht.max * 2) / 4
      unfold HT_DEFAULT_MAX at hleast
      omega
    · change HT_DEFAULT_MAX ≤ ht.max * 2
      omega
    · change ht.max * 2 ≤ 2 ^ 30
      omega
    · rw [← hlookup]
      exact lookup_congr hpushed.toPlaced hgrown.toPlaced hmem'
  · refine ⟨⟨hpushed, ?_, hleast, h.most⟩, hmem, hlookup⟩
    change ht.numElements + 1 < 3 * ht.max / 4
    omega

theorem hashDelete_absent {null : α} (h : findEnt HASH ht b = none) :
    hashDelete null ht b = (null, ht) := by
  unfold hashDelete delete
  rw [h]
  rfl

theorem hashDelete_present {null : α} {he : HashEnt Block α} (h : findEnt HASH ht b = some he) :
    hashDelete null ht b = (he.data, removed HASH ht b) := by
  unfold hashDelete delete
  rw [h]
  rfl

end Steps

section Runs
variable {α : Type} {null : α} {ht : Table Block α}

/-- One call keeps the invariant, answers as the map does and leaves the map's next state. -/
theorem exec_refines (null : α) (h : Sound ht) {c : Call α} (ha : Allocates ht c) :
    Sound (next null ht c) ∧ (exec null ht c).1 = (mapExec null (lookup HASH ht) c).1 ∧
      lookup HASH (next null ht c) = (mapExec null (lookup HASH ht) c).2 := by
  rcases c with ⟨b, data, mem⟩ | ⟨b⟩ | ⟨b⟩
  · by_cases hsome : (lookup HASH ht b).isSome
    · unfold next exec mapExec
      dsimp only
      rw [hashInsert_present hsome, if_pos hsome]
      exact ⟨h, rfl, rfl⟩
    · have hnew := lookup_eq_none_iff.mp (Option.not_isSome_iff_eq_none.mp hsome)
      obtain ⟨ht', heq, hsound, -, hmap⟩ := hashInsert_new h hnew ha
      unfold next exec mapExec
      dsimp only
      rw [heq, if_neg hsome]
      exact ⟨hsound, rfl, hmap⟩
  · exact ⟨h, rfl, rfl⟩
  · unfold next exec mapExec
    dsimp only
    rcases hfind : findEnt HASH ht b with _ | he
    · have hnone := lookup_eq_none_iff.mpr hfind
      rw [hashDelete_absent hfind, hnone]
      refine ⟨h, rfl, ?_⟩
      rw [← hnone, Function.update_eq_self]
    · have hremoved := removed_wf h.toWf hfind
      have hdata : lookup HASH ht b = some he.data := by
        unfold lookup
        rw [hfind]
        rfl
      rw [hashDelete_present hfind, hdata]
      refine ⟨⟨hremoved, ?_, h.least, h.most⟩, rfl, lookup_removed h.toPlaced b⟩
      change ht.numElements - 1 < 3 * ht.max / 4
      have hload := h.load
      omega

theorem exec_exact (h : Sound ht) {c : Call α} (ha : Allocates ht c) : Exact null ht c := by
  rcases c with ⟨b, data, mem⟩ | ⟨b⟩ | ⟨b⟩
  · unfold Exact
    dsimp only
    split_ifs with hsome
    · exact hashInsert_present hsome
    · have hnew := lookup_eq_none_iff.mp (Option.not_isSome_iff_eq_none.mp hsome)
      obtain ⟨ht', heq, -, hmem, -⟩ := hashInsert_new h hnew ha
      rw [heq]
      exact ⟨rfl, hmem⟩
  · rfl
  · rcases hfind : findEnt HASH ht b with _ | he
    · have hnone := h.findEnt_none_iff.mp hfind
      refine ⟨?_, fun _ => hashDelete_absent hfind, fun x => ?_⟩
      · rintro data ⟨he, hin, hkey, -⟩
        exact absurd hkey (hnone he hin)
      · rw [hashDelete_absent hfind]
        exact ⟨fun hx => ⟨hx, hnone x hx⟩, fun hx => hx.1⟩
    · obtain ⟨hin, hkey⟩ := h.findEnt_iff.mp hfind
      unfold Exact
      dsimp only
      rw [hashDelete_present hfind]
      refine ⟨?_, fun hnone => absurd hkey (hnone he hin), fun x => mem_entries_removed h.toPlaced⟩
      rintro data ⟨he', hin', hkey', rfl⟩
      have hsame := h.findEnt_iff.mpr ⟨hin', hkey'⟩
      rw [hfind] at hsame
      cases hsame
      rfl

theorem answers_refine (h : Sound ht) {calls : List (Call α)}
    (ha : EveryStep (next null) Allocates ht calls) :
    answers null ht calls = mapAnswers null (lookup HASH ht) calls := by
  induction calls generalizing ht with
  | nil => rfl
  | cons c calls ih =>
    obtain ⟨hsound, hanswer, hmap⟩ := exec_refines null h ha.1
    rw [answers, mapAnswers, hanswer, ih hsound ha.2, hmap]

/-- From the empty table on, as long as no allocation fails, the calls answer as on a finite
map, and each does exactly its own part to the entries. -/
theorem hash_table_is_map (null : α) {mem : Mem} (hinit : initHashTable mem = some ht)
    (calls : List (Call α)) (h : EveryStep (next null) Allocates ht calls) :
    EveryState (next null) FiniteTable ht calls ∧ EveryStep (next null) (Exact null) ht calls ∧
      answers null ht calls = mapAnswers null (fun _ => none) calls := by
  have hsound := init_sound hinit
  have hkeep : ∀ ht c, Sound ht → Allocates ht c → Sound (next null ht c) :=
    fun _ _ hs ha => (exec_refines null hs ha).1
  refine ⟨EveryState.mono (fun _ => Sound.finiteTable) (everyState_of_step hkeep hsound h),
    everyStep_of_inv hkeep (fun _ _ hs ha => exec_exact hs ha) hsound h, ?_⟩
  have hempty : lookup HASH ht = fun _ => none := by
    unfold initHashTable at hinit
    split at hinit
    · cases hinit
      rfl
    · cases hinit
  rw [answers_refine hsound h, hempty]

/-- Two devices whose blocks share a bucket, a second insertion and a deletion. -/
def someCalls : List (Call ℕ) :=
  [.insert ⟨1, 5⟩ 10 ⟨true, true⟩, .insert ⟨2, 5⟩ 20 ⟨true, true⟩,
    .insert ⟨1, 5⟩ 30 ⟨true, true⟩, .delete ⟨1, 5⟩, .lookup ⟨1, 5⟩, .lookup ⟨2, 5⟩]

theorem hash_table_is_map_someCalls : answers 0 (initTable HT_DEFAULT_MAX) someCalls =
    [.status 0, .status 0, .status EEXIST, .pointer 10, .pointer 0, .pointer 20] := by
  have hinit : initHashTable ⟨true, true⟩ = some (initTable HT_DEFAULT_MAX : Table Block ℕ) := rfl
  have hsteps : EveryStep (next 0) Allocates (initTable HT_DEFAULT_MAX) someCalls :=
    ⟨fun _ => ⟨rfl, fun _ => rfl⟩, fun _ => ⟨rfl, fun _ => rfl⟩, fun _ => ⟨rfl, fun _ => rfl⟩,
      trivial, trivial, trivial, trivial⟩
  exact (hash_table_is_map 0 hinit someCalls hsteps).2.2.trans (by decide)

end Runs

end CacheHash
