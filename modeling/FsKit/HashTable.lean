import Mathlib.Tactic

/-! Chained hash tables that double when they fill up. A table has a power of two of
buckets, every entry keeps its hash value, and a new entry goes in front of its chain. -/
namespace HashTable

structure HashEnt (κ α : Type*) where
  key : κ
  hashVal : ℕ
  data : α
  deriving DecidableEq, Repr

structure Table (κ α : Type*) where
  table : ℕ → List (HashEnt κ α)
  max : ℕ
  mask : ℕ
  numElements : ℕ

variable {κ α : Type*}

def initTable (max : ℕ) : Table κ α := ⟨fun _ => [], max, max - 1, 0⟩

def entries (t : Table κ α) : List (HashEnt κ α) := (List.range t.max).flatMap t.table

def pushEnt (mask : ℕ) (table : ℕ → List (HashEnt κ α)) (he : HashEnt κ α) :
    ℕ → List (HashEnt κ α) :=
  Function.update table (he.hashVal &&& mask) (he :: table (he.hashVal &&& mask))

def growTable (t : Table κ α) : Table κ α :=
  let newsize := t.max * 2
  let newmask := newsize - 1
  { t with
    table := (entries t).foldl (pushEnt newmask) fun _ => []
    max := newsize
    mask := newmask }

section Operations
variable (hash : κ → ℕ)

def pushed (t : Table κ α) (k : κ) (data : α) : Table κ α :=
  { t with
    table := pushEnt t.mask t.table ⟨k, hash k, data⟩
    numElements := t.numElements + 1 }

variable [DecidableEq κ]

def findEnt (t : Table κ α) (k : κ) : Option (HashEnt κ α) :=
  (t.table (hash k &&& t.mask)).find? fun he => he.key = k

def lookup (t : Table κ α) (k : κ) : Option α := (findEnt hash t k).map HashEnt.data

/-- Nothing is returned when the key is there already. -/
def insert (t : Table κ α) (k : κ) (data : α) : Option (Table κ α) :=
  match findEnt hash t k with
  | some _ => none
  | none =>
    let t := pushed hash t k data
    some (if t.max * 3 / 4 ≤ t.numElements then growTable t else t)

def removed (t : Table κ α) (k : κ) : Table κ α :=
  let i := hash k &&& t.mask
  { t with
    table := Function.update t.table i ((t.table i).eraseP fun he => he.key = k)
    numElements := t.numElements - 1 }

def delete (t : Table κ α) (k : κ) : Option α × Table κ α :=
  match findEnt hash t k with
  | none => (none, t)
  | some he => (some he.data, removed hash t k)

end Operations

/-- Every entry is in the bucket of its hash value and no key is there twice. -/
structure Placed (hash : κ → ℕ) (t : Table κ α) : Prop where
  size : ∃ n, t.max = 2 ^ n
  mask : t.mask = t.max - 1
  placed : ∀ i, ∀ he ∈ t.table i, he.hashVal = hash he.key ∧ he.hashVal &&& t.mask = i
  distinct : ∀ i, ((t.table i).map HashEnt.key).Nodup

structure Wf (hash : κ → ℕ) (t : Table κ α) : Prop extends Placed hash t where
  count : t.numElements = (entries t).length

section Membership
variable {hash : κ → ℕ} {t : Table κ α}

theorem Placed.max_pos (h : Placed hash t) : 0 < t.max := by
  obtain ⟨n, hn⟩ := h.size
  rw [hn]
  exact Nat.two_pow_pos n

theorem Placed.bucket_lt (h : Placed hash t) (v : ℕ) : v &&& t.mask < t.max := by
  have hle : v &&& t.mask ≤ t.mask := Nat.and_le_right
  have hpos := h.max_pos
  have hmask := h.mask
  omega

theorem Placed.mem_entries (h : Placed hash t) {he : HashEnt κ α} :
    he ∈ entries t ↔ he ∈ t.table (hash he.key &&& t.mask) := by
  rw [entries, List.mem_flatMap]
  constructor
  · rintro ⟨i, _, hm⟩
    obtain ⟨hv, hi⟩ := h.placed i he hm
    rw [← hv, hi]
    exact hm
  · intro hm
    exact ⟨_, List.mem_range.mpr (h.bucket_lt _), hm⟩

theorem Placed.entries_distinct (h : Placed hash t) : ((entries t).map HashEnt.key).Nodup := by
  rw [entries, List.map_flatMap, List.nodup_flatMap]
  refine ⟨fun i _ => h.distinct i, ?_⟩
  refine (List.nodup_range (n := t.max)).imp ?_
  intro i j hij k hi hj
  obtain ⟨he, hhe, rfl⟩ := List.mem_map.mp hi
  obtain ⟨he', hhe', hk⟩ := List.mem_map.mp hj
  obtain ⟨hv, hb⟩ := h.placed i he hhe
  obtain ⟨hv', hb'⟩ := h.placed j he' hhe'
  rw [hv', hk, ← hv, hb] at hb'
  exact hij hb'

variable [DecidableEq κ]

theorem Placed.findEnt_iff (h : Placed hash t) {k : κ} {he : HashEnt κ α} :
    findEnt hash t k = some he ↔ he ∈ entries t ∧ he.key = k := by
  constructor
  · intro hf
    have hk : he.key = k := by simpa using List.find?_some hf
    refine ⟨h.mem_entries.mpr ?_, hk⟩
    rw [hk]
    exact List.mem_of_find?_eq_some hf
  · rintro ⟨hm, rfl⟩
    have hm' := h.mem_entries.mp hm
    cases hf : findEnt hash t he.key with
    | none =>
      have := List.find?_eq_none.mp hf he hm'
      simp at this
    | some he' =>
      have hk : he'.key = he.key := by simpa using List.find?_some hf
      have hm'' := List.mem_of_find?_eq_some hf
      rw [List.inj_on_of_nodup_map (h.distinct _) hm'' hm' hk]

theorem Placed.findEnt_none_iff (h : Placed hash t) {k : κ} :
    findEnt hash t k = none ↔ ∀ he ∈ entries t, he.key ≠ k := by
  constructor
  · intro hn he hm hk
    rw [h.findEnt_iff.mpr ⟨hm, hk⟩] at hn
    cases hn
  · intro hall
    cases hf : findEnt hash t k with
    | none => rfl
    | some he =>
      obtain ⟨hm, hk⟩ := h.findEnt_iff.mp hf
      exact absurd hk (hall he hm)

theorem Placed.lookup_iff (h : Placed hash t) {k : κ} {d : α} :
    lookup hash t k = some d ↔ ∃ he ∈ entries t, he.key = k ∧ he.data = d := by
  rw [lookup, Option.map_eq_some_iff]
  constructor
  · rintro ⟨he, hf, hd⟩
    obtain ⟨hm, hk⟩ := h.findEnt_iff.mp hf
    exact ⟨he, hm, hk, hd⟩
  · rintro ⟨he, hm, hk, hd⟩
    exact ⟨he, h.findEnt_iff.mpr ⟨hm, hk⟩, hd⟩

theorem lookup_eq_none_iff {k : κ} : lookup hash t k = none ↔ findEnt hash t k = none := by
  rw [lookup, Option.map_eq_none_iff]

/-- Two tables with the same entries answer alike. -/
theorem lookup_congr {t' : Table κ α} (h : Placed hash t) (h' : Placed hash t')
    (hmem : ∀ he, he ∈ entries t' ↔ he ∈ entries t) : lookup hash t' = lookup hash t := by
  funext k
  refine Option.ext fun d => ?_
  rw [h.lookup_iff, h'.lookup_iff]
  exact exists_congr fun he => and_congr_left' (hmem he)

end Membership

section Growing
variable {hash : κ → ℕ} {t t' : Table κ α}

theorem Placed.nodup (h : Placed hash t) : (entries t).Nodup := h.entries_distinct.of_map _

theorem Placed.length_congr (h : Placed hash t) (h' : Placed hash t')
    (hmem : ∀ he, he ∈ entries t' ↔ he ∈ entries t) :
    (entries t').length = (entries t).length :=
  ((List.perm_ext_iff_of_nodup h'.nodup h.nodup).mpr hmem).length_eq

theorem Placed.length_cons (h : Placed hash t) (h' : Placed hash t') {he : HashEnt κ α}
    (hnew : he ∉ entries t) (hmem : ∀ x, x ∈ entries t' ↔ x = he ∨ x ∈ entries t) :
    (entries t').length = (entries t).length + 1 := by
  have hnodup : (he :: entries t).Nodup := List.nodup_cons.mpr ⟨hnew, h.nodup⟩
  have hperm := (List.perm_ext_iff_of_nodup h'.nodup hnodup).mpr (by simpa using hmem)
  exact hperm.length_eq

theorem foldl_pushEnt (mask : ℕ) (es : List (HashEnt κ α)) (table : ℕ → List (HashEnt κ α))
    (i : ℕ) :
    es.foldl (pushEnt mask) table i =
      (es.filter fun he => he.hashVal &&& mask = i).reverse ++ table i := by
  induction es generalizing table with
  | nil => rfl
  | cons he es ih =>
    rw [List.foldl_cons, ih, List.filter_cons]
    by_cases hi : he.hashVal &&& mask = i
    · subst hi
      simp [pushEnt]
    · simp [pushEnt, hi, Function.update_of_ne (Ne.symm hi)]

theorem growTable_table (t : Table κ α) (i : ℕ) :
    (growTable t).table i =
      ((entries t).filter fun he => he.hashVal &&& (growTable t).mask = i).reverse := by
  change (entries t).foldl (pushEnt (growTable t).mask) (fun _ => []) i = _
  rw [foldl_pushEnt, List.append_nil]

theorem growTable_placed (h : Placed hash t) : Placed hash (growTable t) := by
  constructor
  · obtain ⟨n, hn⟩ := h.size
    exact ⟨n + 1, by rw [pow_succ, ← hn]; rfl⟩
  · rfl
  · intro i he hm
    rw [growTable_table, List.mem_reverse, List.mem_filter] at hm
    obtain ⟨hm, hi⟩ := hm
    exact ⟨(h.placed _ he (h.mem_entries.mp hm)).1, by simpa using hi⟩
  · intro i
    rw [growTable_table, List.map_reverse, List.nodup_reverse]
    exact h.entries_distinct.sublist (List.filter_sublist.map _)

theorem mem_entries_growTable (h : Placed hash t) {he : HashEnt κ α} :
    he ∈ entries (growTable t) ↔ he ∈ entries t := by
  rw [(growTable_placed h).mem_entries, growTable_table, List.mem_reverse, List.mem_filter]
  constructor
  · exact And.left
  · intro hm
    exact ⟨hm, by simp [(h.placed _ he (h.mem_entries.mp hm)).1]⟩

theorem growTable_wf (h : Wf hash t) : Wf hash (growTable t) := by
  refine ⟨growTable_placed h.toPlaced, ?_⟩
  rw [h.toPlaced.length_congr (growTable_placed h.toPlaced)
    fun _ => mem_entries_growTable h.toPlaced]
  exact h.count

end Growing

section FiniteMap
variable {hash : κ → ℕ} {t : Table κ α}

theorem initTable_wf (n : ℕ) : Wf hash (initTable (2 ^ n) : Table κ α) := by
  refine ⟨⟨⟨n, rfl⟩, rfl, ?_, ?_⟩, ?_⟩
  · intro i he hm
    cases hm
  · intro i
    exact List.nodup_nil
  · simp [initTable, entries]

theorem pushed_mem {k : κ} {d : α} {i : ℕ} {he : HashEnt κ α} :
    he ∈ (pushed hash t k d).table i ↔
      (he = ⟨k, hash k, d⟩ ∧ i = hash k &&& t.mask) ∨ he ∈ t.table i := by
  simp only [pushed, pushEnt]
  by_cases hi : i = hash k &&& t.mask
  · subst hi
    simp
  · simp [hi]

variable [DecidableEq κ]

@[simp] theorem lookup_initTable (max : ℕ) (k : κ) :
    lookup hash (initTable max : Table κ α) k = none := rfl

theorem pushed_placed (h : Placed hash t) {k : κ} {d : α} (hnew : findEnt hash t k = none) :
    Placed hash (pushed hash t k d) := by
  refine ⟨h.size, h.mask, ?_, ?_⟩
  · intro i he hm
    rcases pushed_mem.mp hm with ⟨rfl, rfl⟩ | hm
    · exact ⟨rfl, rfl⟩
    · exact h.placed i he hm
  · intro i
    simp only [pushed, pushEnt]
    by_cases hi : i = hash k &&& t.mask
    · subst hi
      rw [Function.update_self, List.map_cons, List.nodup_cons]
      refine ⟨?_, h.distinct _⟩
      intro hm
      obtain ⟨he, hm, hk⟩ := List.mem_map.mp hm
      have hk : he.key = k := hk
      have hm : he ∈ entries t := h.mem_entries.mpr (by rw [hk]; exact hm)
      exact h.findEnt_none_iff.mp hnew he hm hk
    · rw [Function.update_of_ne hi]
      exact h.distinct i

theorem mem_entries_pushed (h : Placed hash t) {k : κ} {d : α} (hnew : findEnt hash t k = none)
    {he : HashEnt κ α} :
    he ∈ entries (pushed hash t k d) ↔ he = ⟨k, hash k, d⟩ ∨ he ∈ entries t := by
  rw [(pushed_placed h hnew).mem_entries, pushed_mem, h.mem_entries]
  constructor
  · exact Or.imp_left And.left
  · rintro (rfl | hm)
    · exact Or.inl ⟨rfl, rfl⟩
    · exact Or.inr hm

theorem pushed_wf (h : Wf hash t) {k : κ} {d : α} (hnew : findEnt hash t k = none) :
    Wf hash (pushed hash t k d) := by
  have hplaced := pushed_placed h.toPlaced (d := d) hnew
  refine ⟨hplaced, ?_⟩
  have hout : (⟨k, hash k, d⟩ : HashEnt κ α) ∉ entries t := by
    intro hm
    exact h.findEnt_none_iff.mp hnew _ hm rfl
  rw [h.toPlaced.length_cons hplaced hout fun _ => mem_entries_pushed h.toPlaced hnew]
  exact congrArg (· + 1) h.count

theorem lookup_pushed (h : Placed hash t) {k : κ} {d : α} (hnew : findEnt hash t k = none) :
    lookup hash (pushed hash t k d) = Function.update (lookup hash t) k (some d) := by
  have hplaced := pushed_placed h (d := d) hnew
  funext k'
  refine Option.ext fun d' => ?_
  rw [hplaced.lookup_iff]
  simp only [mem_entries_pushed h hnew]
  by_cases hk : k' = k
  · subst hk
    rw [Function.update_self]
    constructor
    · rintro ⟨he, rfl | hm, hk, hd⟩
      · exact congrArg some hd
      · exact absurd hk (h.findEnt_none_iff.mp hnew he hm)
    · intro hd
      cases hd
      exact ⟨_, Or.inl rfl, rfl, rfl⟩
  · rw [Function.update_of_ne hk, h.lookup_iff]
    constructor
    · rintro ⟨he, rfl | hm, hk', hd⟩
      · exact absurd hk'.symm hk
      · exact ⟨he, hm, hk', hd⟩
    · rintro ⟨he, hm, hk', hd⟩
      exact ⟨he, Or.inr hm, hk', hd⟩

/-- A new key is entered and nothing else changes. -/
theorem insert_spec (h : Wf hash t) {k : κ} (hnew : lookup hash t k = none) (d : α) :
    ∃ t', insert hash t k d = some t' ∧ Wf hash t' ∧
      lookup hash t' = Function.update (lookup hash t) k (some d) := by
  have hnew := lookup_eq_none_iff.mp hnew
  have hwf := pushed_wf h (d := d) hnew
  have hlook := lookup_pushed h.toPlaced (d := d) hnew
  simp only [insert, hnew]
  split
  · refine ⟨_, rfl, growTable_wf hwf, ?_⟩
    rw [← hlook]
    exact lookup_congr hwf.toPlaced (growTable_wf hwf).toPlaced
      fun _ => mem_entries_growTable hwf.toPlaced
  · exact ⟨_, rfl, hwf, hlook⟩

theorem removed_table_sublist (k : κ) (i : ℕ) :
    ((removed hash t k).table i).Sublist (t.table i) := by
  simp only [removed]
  by_cases hi : i = hash k &&& t.mask
  · subst hi
    rw [Function.update_self]
    exact List.eraseP_sublist
  · rw [Function.update_of_ne hi]

theorem removed_placed (h : Placed hash t) (k : κ) : Placed hash (removed hash t k) := by
  refine ⟨h.size, h.mask, ?_, ?_⟩
  · intro i he hm
    exact h.placed i he ((removed_table_sublist k i).subset hm)
  · intro i
    exact (h.distinct i).sublist ((removed_table_sublist k i).map _)

theorem mem_eraseP_key {es : List (HashEnt κ α)} (hd : (es.map HashEnt.key).Nodup) {k : κ}
    {he : HashEnt κ α} :
    he ∈ (es.eraseP fun he => he.key = k) ↔ he ∈ es ∧ he.key ≠ k := by
  induction es with
  | nil => simp
  | cons x es ih =>
    rw [List.map_cons, List.nodup_cons] at hd
    by_cases hx : x.key = k
    · rw [List.eraseP_cons_of_pos (by simpa using hx)]
      constructor
      · intro hm
        refine ⟨List.mem_cons_of_mem _ hm, ?_⟩
        intro hk
        exact hd.1 (List.mem_map.mpr ⟨he, hm, by rw [hk, hx]⟩)
      · rintro ⟨hm, hk⟩
        rcases List.mem_cons.mp hm with rfl | hm
        · exact absurd hx hk
        · exact hm
    · rw [List.eraseP_cons_of_neg (by simpa using hx), List.mem_cons, List.mem_cons, ih hd.2]
      constructor
      · rintro (rfl | ⟨hm, hk⟩)
        · exact ⟨Or.inl rfl, hx⟩
        · exact ⟨Or.inr hm, hk⟩
      · rintro ⟨rfl | hm, hk⟩
        · exact Or.inl rfl
        · exact Or.inr ⟨hm, hk⟩

theorem mem_entries_removed (h : Placed hash t) {k : κ} {he : HashEnt κ α} :
    he ∈ entries (removed hash t k) ↔ he ∈ entries t ∧ he.key ≠ k := by
  rw [(removed_placed h k).mem_entries, h.mem_entries]
  simp only [removed]
  by_cases hi : hash he.key &&& t.mask = hash k &&& t.mask
  · rw [hi, Function.update_self, mem_eraseP_key (h.distinct _)]
  · rw [Function.update_of_ne hi]
    refine ⟨fun hm => ⟨hm, ?_⟩, And.left⟩
    rintro rfl
    exact hi rfl

theorem lookup_removed (h : Placed hash t) (k : κ) :
    lookup hash (removed hash t k) = Function.update (lookup hash t) k none := by
  funext k'
  refine Option.ext fun d => ?_
  rw [(removed_placed h k).lookup_iff]
  simp only [mem_entries_removed h]
  by_cases hk : k' = k
  · subst hk
    rw [Function.update_self]
    constructor
    · rintro ⟨he, ⟨_, hne⟩, hk, _⟩
      exact absurd hk hne
    · intro hd
      cases hd
  · rw [Function.update_of_ne hk, h.lookup_iff]
    constructor
    · rintro ⟨he, ⟨hm, _⟩, hk', hd⟩
      exact ⟨he, hm, hk', hd⟩
    · rintro ⟨he, hm, hk', hd⟩
      exact ⟨he, ⟨hm, by rw [hk']; exact hk⟩, hk', hd⟩

theorem removed_wf (h : Wf hash t) {k : κ} {he : HashEnt κ α} (hf : findEnt hash t k = some he) :
    Wf hash (removed hash t k) := by
  obtain ⟨hm, hk⟩ := h.findEnt_iff.mp hf
  have hplaced := removed_placed h.toPlaced k
  refine ⟨hplaced, ?_⟩
  have hout : he ∉ entries (removed hash t k) := by
    rw [mem_entries_removed h.toPlaced]
    exact fun hin => hin.2 hk
  have hlen := hplaced.length_cons h.toPlaced hout (fun x => by
    rw [mem_entries_removed h.toPlaced]
    constructor
    · intro hx
      by_cases hxk : x.key = k
      · have hx' := h.findEnt_iff.mpr ⟨hx, hxk⟩
        rw [hf] at hx'
        exact Or.inl (Option.some.inj hx').symm
      · exact Or.inr ⟨hx, hxk⟩
    · rintro (rfl | hx)
      · exact hm
      · exact hx.1)
  have hcount : (removed hash t k).numElements = t.numElements - 1 := rfl
  have := h.count
  omega

/-- The entry of a key is taken out and nothing else changes. -/
theorem delete_spec (h : Wf hash t) {k : κ} {d : α} (hk : lookup hash t k = some d) :
    ∃ t', delete hash t k = (some d, t') ∧ Wf hash t' ∧
      lookup hash t' = Function.update (lookup hash t) k none := by
  obtain ⟨he, hf, rfl⟩ := Option.map_eq_some_iff.mp hk
  refine ⟨removed hash t k, ?_, removed_wf h hf, lookup_removed h.toPlaced k⟩
  rw [delete, hf]

end FiniteMap

end HashTable
