import Mathlib
import FsKit.DirectoryOps

/-! Packed directory entries as a list. A buffer holds a list of entries when each of them
starts where the one before it ends, rounded up to eight. Everything the directory code does
to its buffer is said here in terms of that list: searching, appending, and closing the gap
of a deleted entry. -/
namespace DirectoryEntries

open LittleEndian DataStreamBlocks DirectoryOps

structure Entry where
  inum : ℤ
  name : Name
  deriving DecidableEq, Repr

/-- The bytes of a C string. -/
def CString (name : Name) : Prop := ∀ b ∈ name, b ≠ 0

/-- What `dir_insert` may be given: an inode number and a name that fits its length byte. -/
structure Storable (e : Entry) : Prop where
  low : -2 ^ 63 ≤ e.inum
  high : e.inum < 2 ^ 63
  nonempty : 1 ≤ e.name.length
  short : e.name.length ≤ 254
  string : CString e.name

instance (e : Entry) : Decidable (Storable e) :=
  decidable_of_iff (-2 ^ 63 ≤ e.inum ∧ e.inum < 2 ^ 63 ∧ 1 ≤ e.name.length ∧
      e.name.length ≤ 254 ∧ ∀ b ∈ e.name, b ≠ 0)
    ⟨fun ⟨h₁, h₂, h₃, h₄, h₅⟩ => ⟨h₁, h₂, h₃, h₄, h₅⟩,
      fun h => ⟨h.low, h.high, h.nonempty, h.short, h.string⟩⟩

/-- The entry at `p`. -/
structure EntryAt (c : ℕ → UInt8) (p : ℕ) (e : Entry) : Prop where
  inum : word64 c p = e.inum
  length : (c (p + 8)).toNat = e.name.length
  bytes : ∀ i < e.name.length, c (p + 9 + i) = e.name.getD i 0
  zero : c (p + 9 + e.name.length) = 0

/-- The number of bytes an entry takes. -/
def Entry.size (e : Entry) : ℕ := nextMde 0 e.name.length

/-- The entries `es` fill the buffer from `p` up to `q`. -/
def Packed (c : ℕ → UInt8) (p : ℕ) : List Entry → ℕ → Prop
  | [], q => p = q
  | e :: es, q => EntryAt c p e ∧ Packed c (p + e.size) es q

instance (c : ℕ → UInt8) (p : ℕ) (e : Entry) : Decidable (EntryAt c p e) :=
  decidable_of_iff (word64 c p = e.inum ∧ (c (p + 8)).toNat = e.name.length ∧
      (∀ i < e.name.length, c (p + 9 + i) = e.name.getD i 0) ∧ c (p + 9 + e.name.length) = 0)
    ⟨fun ⟨h₁, h₂, h₃, h₄⟩ => ⟨h₁, h₂, h₃, h₄⟩, fun h => ⟨h.inum, h.length, h.bytes, h.zero⟩⟩

instance Packed.decidable (c : ℕ → UInt8) (p : ℕ) :
    (es : List Entry) → (q : ℕ) → Decidable (Packed c p es q)
  | [], q => inferInstanceAs (Decidable (p = q))
  | e :: es, q =>
    have : Decidable (Packed c (p + e.size) es q) := Packed.decidable c (p + e.size) es q
    inferInstanceAs (Decidable (EntryAt c p e ∧ Packed c (p + e.size) es q))

/-- The entries start on a multiple of eight, so the next one is a size away. -/
theorem nextMde_eq {p : ℕ} (h : 8 ∣ p) (n : ℕ) : nextMde p n = p + nextMde 0 n := by
  unfold nextMde
  omega

theorem Entry.size_spec (e : Entry) :
    8 ∣ e.size ∧ e.name.length + 10 ≤ e.size ∧ e.size < e.name.length + 18 := by
  unfold Entry.size nextMde
  omega

theorem EntryAt.next {c : ℕ → UInt8} {p : ℕ} {e : Entry} (h : EntryAt c p e) (hp : 8 ∣ p) :
    nextMde p (c (p + 8)).toNat = p + e.size := by
  rw [h.length, nextMde_eq hp]
  rfl

theorem EntryAt.shift {c c' : ℕ → UInt8} {p p' : ℕ} {e : Entry} (h : EntryAt c p e)
    (hc : ∀ i < e.size, c' (p' + i) = c (p + i)) : EntryAt c' p' e := by
  obtain ⟨_, hsize, _⟩ := e.size_spec
  refine ⟨?_, ?_, fun i hi => ?_, ?_⟩
  · rw [← h.inum]
    unfold word64
    congr 2
    apply Finset.sum_congr rfl
    intro k hk
    rw [hc k (by have := Finset.mem_range.mp hk; omega)]
  · rw [hc 8 (by omega)]
    exact h.length
  · rw [Nat.add_assoc, hc (9 + i) (by omega), ← Nat.add_assoc]
    exact h.bytes i hi
  · rw [Nat.add_assoc, hc (9 + e.name.length) (by omega), ← Nat.add_assoc]
    exact h.zero

section Lists
variable {c c' : ℕ → UInt8} {p q : ℕ} {es : List Entry}

theorem Packed.le (h : Packed c p es q) : p ≤ q := by
  induction es generalizing p with
  | nil => exact (show p = q from h).le
  | cons e es ih =>
    have := ih h.2
    omega

theorem Packed.aligned (h : Packed c p es q) (hp : 8 ∣ p) : 8 ∣ q := by
  induction es generalizing p with
  | nil =>
    obtain rfl : p = q := h
    exact hp
  | cons e es ih => exact ih h.2 (Nat.dvd_add hp e.size_spec.1)

/-- The entries take up just the bytes between. -/
theorem Packed.sum_sizes (h : Packed c p es q) : q = p + (es.map Entry.size).sum := by
  induction es generalizing p with
  | nil => exact h.symm
  | cons e es ih =>
    have := ih h.2
    rw [List.map_cons, List.sum_cons]
    omega

theorem Packed.length_le (h : Packed c p es q) : es.length + p ≤ q := by
  induction es generalizing p with
  | nil => simpa using (show p = q from h).le
  | cons e es ih =>
    have h₁ := ih h.2
    have h₂ := e.size_spec.2.1
    rw [List.length_cons]
    omega

/-- The same bytes in another place hold the same entries. -/
theorem Packed.shift {b : ℕ → UInt8} {r : ℕ} (h : Packed c p es q)
    (hc : ∀ i < q - p, b (r + i) = c (p + i)) : Packed b r es (r + (q - p)) := by
  induction es generalizing p r with
  | nil =>
    obtain rfl : p = q := h
    simp [Packed]
  | cons e es ih =>
    obtain ⟨he, hrest⟩ := h
    have hle := hrest.le
    refine ⟨he.shift fun i hi => hc i (by omega), ?_⟩
    have := ih (r := r + e.size) hrest fun i hi => by
      rw [Nat.add_assoc, hc (e.size + i) (by omega), Nat.add_assoc]
    rwa [show r + e.size + (q - (p + e.size)) = r + (q - p) by omega] at this

theorem Packed.congr (h : Packed c p es q) (hc : ∀ i, p ≤ i → i < q → c' i = c i) :
    Packed c' p es q := by
  have := h.shift (b := c') (r := p) fun i hi => hc (p + i) (by omega) (by omega)
  rwa [show p + (q - p) = q by have := h.le; omega] at this

theorem packed_append (es fs : List Entry) :
    Packed c p (es ++ fs) q ↔ ∃ m, Packed c p es m ∧ Packed c m fs q := by
  induction es generalizing p with
  | nil =>
    constructor
    · intro h
      exact ⟨p, rfl, h⟩
    · rintro ⟨m, rfl, h⟩
      exact h
  | cons e es ih =>
    simp only [List.cons_append, Packed, ih]
    constructor
    · rintro ⟨he, m, h₁, h₂⟩
      exact ⟨m, ⟨he, h₁⟩, h₂⟩
    · rintro ⟨m, ⟨he, h₁⟩, h₂⟩
      exact ⟨he, m, h₁, h₂⟩

end Lists

/-- An entry is compared by its whole name. -/
theorem EntryAt.matches_iff {c : ℕ → UInt8} {p : ℕ} {e : Entry} (h : EntryAt c p e)
    (he : CString e.name) {name : Name} (hn : CString name) :
    nameMatches c p name = true ↔ e.name = name := by
  have hget : ∀ {l : Name} (_ : CString l) {i : ℕ}, i < l.length → l.getD i 0 ≠ 0 := by
    intro l hl i hi
    rw [List.getD_eq_getElem _ _ hi]
    exact hl _ (List.getElem_mem hi)
  unfold nameMatches
  simp only [Bool.and_eq_true, List.all_eq_true, List.mem_range, beq_iff_eq]
  constructor
  · rintro ⟨hall, hzero⟩
    -- the shorter of the two strings ends where the other one goes on
    have hlen : e.name.length = name.length := by
      rcases Nat.lt_trichotomy e.name.length name.length with hlt | heq | hlt
      · exact absurd ((hall _ hlt).symm.trans h.zero) (hget hn hlt)
      · exact heq
      · exact absurd ((h.bytes _ hlt).symm.trans hzero) (hget he hlt)
    refine List.ext_getElem hlen fun i h₁ h₂ => ?_
    have := (h.bytes i h₁).symm.trans (hall i h₂)
    rwa [List.getD_eq_getElem _ _ h₁, List.getD_eq_getElem _ _ h₂] at this
  · rintro rfl
    exact ⟨h.bytes, h.zero⟩

section Search
variable {c : ℕ → UInt8} {name : Name}

/-- The loop of `dir_lookup` reads what the loop of `dir_delete` finds. -/
theorem scanEntries_eq (c : ℕ → UInt8) (size : ℕ) (name : Name) (fuel p : ℕ) :
    scanEntries c size name fuel p = (findEntry c size name fuel p).map (word64 c) := by
  induction fuel generalizing p with
  | zero => rfl
  | succ fuel ih =>
    rw [scanEntries, findEntry]
    split_ifs
    · rfl
    · rfl
    · exact ih _

theorem findEntry_absent {es : List Entry} {size : ℕ} (fuel : ℕ) {p : ℕ} (h : Packed c p es size)
    (hp : 8 ∣ p) (hes : ∀ e ∈ es, CString e.name) (hn : CString name)
    (habs : ∀ e ∈ es, e.name ≠ name) : findEntry c size name fuel p = none := by
  induction fuel generalizing p es with
  | zero => rfl
  | succ fuel ih =>
    rw [findEntry]
    cases es with
    | nil =>
      obtain rfl : p = size := h
      rw [if_pos le_rfl]
    | cons e es =>
      obtain ⟨he, hrest⟩ := h
      have hle := hrest.le
      have hsz := e.size_spec
      have hne : ¬ nameMatches c p name = true := by
        rw [he.matches_iff (hes e List.mem_cons_self) hn]
        exact habs e List.mem_cons_self
      rw [if_neg (by omega), if_neg hne, he.next hp]
      exact ih hrest (Nat.dvd_add hp hsz.1) (fun x hx => hes x (List.mem_cons_of_mem _ hx))
        fun x hx => habs x (List.mem_cons_of_mem _ hx)

theorem findEntry_present {es fs : List Entry} {e : Entry} {size m : ℕ} (fuel : ℕ) {p : ℕ}
    (h : Packed c p es m) (ht : Packed c m (e :: fs) size) (hp : 8 ∣ p)
    (hes : ∀ x ∈ es, CString x.name) (he : CString e.name) (hn : CString name)
    (habs : ∀ x ∈ es, x.name ≠ name) (hname : e.name = name) (hfuel : es.length < fuel) :
    findEntry c size name fuel p = some m := by
  induction es generalizing fuel p with
  | nil =>
    obtain rfl : p = m := h
    obtain ⟨fuel, rfl⟩ : ∃ k, fuel = k + 1 := ⟨fuel - 1, by simp at hfuel; omega⟩
    have hle := ht.2.le
    have hsz := e.size_spec
    rw [findEntry, if_neg (by omega), if_pos ((ht.1.matches_iff he hn).mpr hname)]
  | cons x es ih =>
    rw [List.length_cons] at hfuel
    obtain ⟨fuel, rfl⟩ : ∃ k, fuel = k + 1 := ⟨fuel - 1, by omega⟩
    obtain ⟨hx, hrest⟩ := h
    have h₁ := hrest.le
    have h₂ := ht.2.le
    have hsz := x.size_spec
    have hne : ¬ nameMatches c p name = true := by
      rw [hx.matches_iff (hes x List.mem_cons_self) hn]
      exact habs x List.mem_cons_self
    rw [findEntry, if_neg (by omega), if_neg hne, hx.next hp]
    exact ih fuel hrest (Nat.dvd_add hp hsz.1) (fun y hy => hes y (List.mem_cons_of_mem _ hy))
      (fun y hy => habs y (List.mem_cons_of_mem _ hy)) (by omega)

end Search

/-- The bytes that are built for an entry hold it, whatever the padding. -/
theorem entryAt_entryByte {e : Entry} (h : Storable e) (stack : ℕ → UInt8) :
    EntryAt (entryByte e.inum e.name stack) 0 e := by
  refine ⟨?_, ?_, fun i hi => ?_, ?_⟩
  · calc word64 (entryByte e.inum e.name stack) 0
        = word64 (putWord64 (fun _ => 0) 0 e.inum) 0 := by
          apply word64_congr
          intro k hk
          unfold entryByte putWord64
          rw [if_pos (by omega), if_pos (by omega), Nat.sub_zero]
      _ = e.inum := word64_putWord64 _ _ h.low h.high
  · have := h.short
    unfold entryByte
    rw [if_neg (by omega), if_pos rfl, UInt8.toNat_ofNat', Nat.mod_eq_of_lt (by omega)]
  · unfold entryByte
    rw [if_neg (by omega), if_neg (by omega), if_pos (by omega)]
    congr 1
    omega
  · unfold entryByte
    rw [if_neg (by omega), if_neg (by omega), if_neg (by omega), if_pos (by omega)]

/-- One entry behind the others. -/
theorem Packed.append {c : ℕ → UInt8} {es : List Entry} {e : Entry} {q : ℕ}
    (h : Packed c 0 es q) (he : Storable e) (stack : ℕ → UInt8) :
    Packed (copyInto c q e.size (entryByte e.inum e.name stack)) 0 (es ++ [e]) (q + e.size) := by
  refine (packed_append es [e]).mpr ⟨q, h.congr fun i _ hi => ?_, ?_, rfl⟩
  · unfold copyInto
    rw [if_neg (by omega)]
  · refine (entryAt_entryByte he stack).shift fun i hi => ?_
    unfold copyInto
    rw [if_pos (by omega)]
    congr 1
    omega

/-- A forward copy to a lower place moves the bytes as they were. -/
theorem memcpyForward_apply (buf : ℕ → UInt8) {dst src : ℕ} (h : dst < src) (n i : ℕ) :
    memcpyForward buf dst src n i =
      if dst ≤ i ∧ i < dst + n then buf (src + (i - dst)) else buf i := by
  induction n generalizing i with
  | zero =>
    rw [if_neg (by omega)]
    rfl
  | succ n ih =>
    rw [memcpyForward]
    by_cases hi : i = dst + n
    · subst hi
      rw [Function.update_self, if_pos (by omega), ih, if_neg (by omega)]
      congr 1
      omega
    · rw [Function.update_of_ne hi, ih]
      by_cases hin : dst ≤ i ∧ i < dst + n
      · rw [if_pos hin, if_pos (by omega)]
      · rw [if_neg hin, if_neg (by omega)]

/-- Closing the gap removes the one entry and keeps the order of the others. -/
theorem Packed.closeGap {c : ℕ → UInt8} {es fs : List Entry} {e : Entry} {m size : ℕ}
    (h : Packed c 0 es m) (ht : Packed c m (e :: fs) size) :
    Packed (closeGap c size m) 0 (es ++ fs) (size - e.size) := by
  obtain ⟨he, hrest⟩ := ht
  have hm := h.aligned (Nat.dvd_zero 8)
  have hsz := e.size_spec
  have hle := hrest.le
  have hnext := he.next hm
  refine (packed_append es fs).mpr ⟨m, ?_, ?_⟩
  · refine h.congr fun i _ hi => ?_
    unfold DirectoryOps.closeGap
    rw [hnext]
    split
    · rw [memcpyForward_apply c (by omega), if_neg (by omega)]
    · rfl
  · have hmoved := hrest.shift (b := DirectoryOps.closeGap c size m) (r := m) fun i hi => by
      unfold DirectoryOps.closeGap
      rw [hnext, if_pos (by omega), memcpyForward_apply c (by omega), if_pos (by omega)]
      congr 1
      omega
    rwa [show m + (size - (m + e.size)) = size - e.size by omega] at hmoved

end DirectoryEntries
