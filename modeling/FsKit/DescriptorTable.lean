import Mathlib.Tactic
import FsKit.BlockBitmap
import FsKit.TransitionTrace

/-! The descriptor tables and the open files behind them (`kernel.c`). Open files are
numbered. The two bit arrays of a table share the memory behind its slots: 64-bit cells that
hold 32 descriptors each, changed by `int` shifts that are widened with their sign. -/
namespace DescriptorTable

open MachineIntegers
open TransitionTrace

def EBADF : ℤ := 9
def EMFILE : ℤ := 24

def FD_FILE : ℕ := 1
def FD_DIR : ℕ := 2
def FD_WD : ℕ := 4
def FD_ALL : ℕ := FD_FILE ||| FD_DIR ||| FD_WD

abbrev Cells := ℕ → BitVec 64

def bitSz (n : ℕ) : ℕ := (n + 31) / 32 * 32

/-- An `int` that meets an `ulong` in an expression. -/
def widen (x : BitVec 32) : BitVec 64 := x.signExtend 64

def setCell (c : BitVec 64) (k : ℕ) (v : BitVec 32) : BitVec 64 :=
  (c &&& widen (~~~(1#32 <<< k))) ||| widen (v <<< k)

def getCell (c : BitVec 64) (k : ℕ) : BitVec 64 := (c &&& widen (1#32 <<< k)) >>> k

/-- `SETBIT` on the bit array that starts at cell `a`. -/
def setBit (mem : Cells) (a i : ℕ) (v : BitVec 32) : Cells :=
  Function.update mem (a + i / 32) (setCell (mem (a + i / 32)) (i % 32) v)

/-- `GETBIT` on the bit array that starts at cell `a`. -/
def getBit (mem : Cells) (a i : ℕ) : BitVec 64 := getCell (mem (a + i / 32)) (i % 32)

structure FdArray where
  num : ℕ
  mem : Cells
  alloc : ℕ
  coes : ℕ
  fds : ℕ → Option ℕ

def newFds (num : ℕ) : FdArray := ⟨num, fun _ => 0, 0, bitSz num / 8, fun _ => none⟩

structure Ofile where
  type : ℕ
  vn : ℕ
  rcnt : ℤ
  ocnt : ℤ

/-- The hooks of the file system that are called for an open file. -/
inductive Call where
  | close (f : ℕ)
  | free (f : ℕ)
  deriving DecidableEq, Repr

structure Files where
  table : FdArray
  ofile : ℕ → Ofile
  calls : List Call

/-- `atomic_add` on the counts of an open file. The old value goes through an `int`. -/
def addRcnt (s : Files) (f : ℕ) (val : ℤ) : ℤ × Files :=
  (toInt32 (s.ofile f).rcnt, { s with
    ofile := Function.update s.ofile f { s.ofile f with rcnt := (s.ofile f).rcnt + val } })

def addOcnt (s : Files) (f : ℕ) (val : ℤ) : ℤ × Files :=
  (toInt32 (s.ofile f).ocnt, { s with
    ofile := Function.update s.ofile f { s.ofile f with ocnt := (s.ofile f).ocnt + val } })

def invokeClose (s : Files) (f : ℕ) : Files := { s with calls := s.calls ++ [.close f] }

def invokeFree (s : Files) (f : ℕ) : Files := { s with calls := s.calls ++ [.free f] }

/-- What happens to an open file that has lost a slot, and whether it was closed. -/
def dropSlot (s : Files) (f : ℕ) : Bool × Files :=
  let (ocnt, s) := addOcnt s f (-1)
  let s := if ocnt = 1 then invokeClose s f else s
  let (rcnt, s) := addRcnt s f (-1)
  (ocnt = 1, if rcnt = 1 then invokeFree s f else s)

def getFd (s : Files) (fd : ℤ) (type : ℕ) : Option ℕ × Files :=
  if 0 ≤ fd ∧ fd < s.table.num then
    match s.table.fds fd.toNat with
    | none => (none, s)
    | some f => if (s.ofile f).type &&& type ≠ 0 then (some f, (addRcnt s f 1).2) else (none, s)
  else (none, s)

def putFd (s : Files) (f : ℕ) : Files :=
  let (cnt, s) := addRcnt s f (-1)
  if cnt = 1 then invokeFree s f else s

/-- The first of `todo` descriptors from `i` on whose bit is clear. -/
def scanBits (t : FdArray) (i : ℕ) : ℕ → Option ℕ
  | 0 => none
  | todo + 1 => if getBit t.mem t.alloc i = 0 then some i else scanBits t (i + 1) todo

/-- The search over whole cells, from the one of descriptor `j` on. -/
def scanCells (t : FdArray) (j : ℕ) : ℕ → Option ℕ
  | 0 => none
  | todo + 1 =>
    if t.mem (t.alloc + j / 32) ≠ 0xffffffff then
      (scanBits t j 32).or (scanCells t (j + 32) todo)
    else scanCells t (j + 32) todo

def findFree (t : FdArray) : Option ℕ :=
  let last := t.num / 32 * 32
  (scanCells t 0 (t.num / 32)).or (scanBits t last (t.num - last))

/-- Slot `i` gets the open file. -/
def fillSlot (t : FdArray) (i f : ℕ) (coe : BitVec 32) : FdArray :=
  { t with
    fds := Function.update t.fds i (some f)
    mem := setBit (setBit t.mem t.alloc i 1#32) t.coes i coe }

def clearSlot (t : FdArray) (i : ℕ) : FdArray :=
  { t with
    fds := Function.update t.fds i none
    mem := setBit t.mem t.alloc i 0#32 }

def retain (s : Files) (f : ℕ) : Files := (addOcnt (addRcnt s f 1).2 f 1).2

/-- The exit `error2` of `new_fd`. -/
def undo (s : Files) (f : ℕ) : Files := (addOcnt (addRcnt s f (-1)).2 f (-1)).2

/-- The open file that `new_fd` works on: the one given, or that of a descriptor. -/
def source (t : FdArray) (f : Option ℕ) (fd : ℤ) : Option ℕ :=
  match f with
  | some f => some f
  | none => if fd < 0 ∨ t.num ≤ fd then none else t.fds fd.toNat

def newFd (s : Files) (nfd : ℤ) (f : Option ℕ) (fd : ℤ) (coe : BitVec 32) : ℤ × Files :=
  match source s.table f fd with
  | none => (EBADF, s)
  | some f =>
    let s := retain s f
    if 0 ≤ nfd then
      if s.table.num ≤ nfd then (EBADF, undo s f)
      else
        let old := s.table.fds nfd.toNat
        let s := { s with table := fillSlot s.table nfd.toNat f coe }
        match old with
        | none => (nfd, s)
        | some old => (nfd, (dropSlot s old).2)
    else
      match findFree s.table with
      | none => (EMFILE, undo s f)
      | some i => (i, { s with table := fillSlot s.table i f coe })

/-- `err` is what the hook answers if the open file is closed. -/
def removeFd (s : Files) (fd : ℤ) (type : ℕ) (err : ℤ) : ℤ × Files :=
  if 0 ≤ fd ∧ fd < s.table.num then
    match s.table.fds fd.toNat with
    | none => (EBADF, s)
    | some f =>
      if (s.ofile f).type = type then
        let (closed, s) := dropSlot { s with table := clearSlot s.table fd.toNat } f
        (if closed then err else 0, s)
      else (EBADF, s)
  else (EBADF, s)

section Bits

/-- The two values that a bit of `alloc` is set to. -/
def flag (v : Bool) : BitVec 32 := if v then 1#32 else 0#32

/-- Bit `m` of a cell belongs to its descriptor `k`. -/
def Covers (k m : ℕ) : Prop := m = k ∨ k = 31 ∧ 31 ≤ m

instance (k m : ℕ) : Decidable (Covers k m) := inferInstanceAs (Decidable (_ ∨ _))

theorem Covers.unique {k j m : ℕ} (hk : k < 32) (hj : j < 32) (h : Covers k m) (h' : Covers j m) :
    j = k := by
  unfold Covers at h h'
  omega

theorem mask_getLsbD :
    ∀ k < 32, ∀ m < 64, (widen (1#32 <<< k)).getLsbD m = decide (Covers k m) := by
  decide +kernel

theorem antimask_getLsbD :
    ∀ k < 32, ∀ m < 64, (widen (~~~(1#32 <<< k))).getLsbD m = !decide (Covers k m) := by
  decide +kernel

theorem flag_getLsbD (v : Bool) :
    ∀ k < 32, ∀ m < 64, (widen (flag v <<< k)).getLsbD m = (v && decide (Covers k m)) := by
  cases v <;> decide +kernel

theorem getCell_ne_zero {c : BitVec 64} {k : ℕ} (hk : k < 32) :
    getCell c k ≠ 0 ↔ ∃ m < 64, c.getLsbD m = true ∧ Covers k m := by
  constructor
  · intro h
    by_contra hnot
    refine h (BitVec.eq_of_getLsbD_eq fun j _ => ?_)
    rw [getCell, BitVec.getLsbD_ushiftRight, BitVec.getLsbD_and]
    by_cases hj : k + j < 64
    · rw [mask_getLsbD k hk _ hj]
      by_cases hcov : Covers k (k + j)
      · have hclear : c.getLsbD (k + j) = false :=
          Bool.eq_false_iff.mpr fun hc => hnot ⟨k + j, hj, hc, hcov⟩
        simp [hclear]
      · simp [hcov]
    · rw [BitVec.getLsbD_of_ge c _ (by omega)]
      simp
  · rintro ⟨m, hm, hc, hcov⟩ h
    have hkm : k ≤ m := by
      unfold Covers at hcov
      omega
    have hbit : (getCell c k).getLsbD (m - k) = true := by
      rw [getCell, BitVec.getLsbD_ushiftRight, BitVec.getLsbD_and, Nat.add_sub_cancel' hkm, hc,
        mask_getLsbD k hk m hm, decide_eq_true hcov]
      rfl
    rw [h] at hbit
    simp at hbit

theorem setCell_getLsbD (c : BitVec 64) {k m : ℕ} (hk : k < 32) (hm : m < 64) (v : Bool) :
    (setCell c k (flag v)).getLsbD m = if Covers k m then v else c.getLsbD m := by
  rw [setCell, BitVec.getLsbD_or, BitVec.getLsbD_and, antimask_getLsbD k hk m hm,
    flag_getLsbD v k hk m hm]
  split <;> rename_i h <;> simp [h]

/-- Setting or clearing the bit of a descriptor changes that bit and no other, though bit 31
carries the upper half of its cell with it. -/
theorem getCell_setCell (c : BitVec 64) {k j : ℕ} (hk : k < 32) (hj : j < 32) (v : Bool) :
    getCell (setCell c k (flag v)) j ≠ 0 ↔ if j = k then v = true else getCell c j ≠ 0 := by
  rw [getCell_ne_zero hj]
  by_cases hjk : j = k
  · subst hjk
    rw [if_pos rfl]
    constructor
    · rintro ⟨m, hm, hbit, hcov⟩
      rwa [setCell_getLsbD c hj hm, if_pos hcov] at hbit
    · intro hv
      refine ⟨j, by omega, ?_, .inl rfl⟩
      rw [setCell_getLsbD c hj (by omega), if_pos (.inl rfl), hv]
  · rw [if_neg hjk, getCell_ne_zero hj]
    refine exists_congr fun m => and_congr_right fun hm => and_congr_left fun hcov => ?_
    rw [setCell_getLsbD c hk hm, if_neg fun h => hjk (h.unique hk hj hcov)]

theorem getBit_setBit (mem : Cells) (a i j : ℕ) (v : Bool) :
    getBit (setBit mem a i (flag v)) a j ≠ 0 ↔ if j = i then v = true else getBit mem a j ≠ 0 := by
  have hi : i % 32 < 32 := Nat.mod_lt _ (by decide)
  have hj : j % 32 < 32 := Nat.mod_lt _ (by decide)
  unfold getBit setBit
  by_cases hcell : j / 32 = i / 32
  · rw [hcell, Function.update_self, getCell_setCell _ hi hj]
    have hiff : j % 32 = i % 32 ↔ j = i := by omega
    simp only [hiff]
  · rw [Function.update_of_ne (by omega), if_neg (by omega)]

/-- A bit array keeps its bits when a cell outside it is set. -/
theorem getBit_setBit_apart (mem : Cells) {a b i j : ℕ} (v : BitVec 32)
    (h : a + j / 32 < b) : getBit (setBit mem b i v) a j = getBit mem a j := by
  unfold getBit setBit
  rw [Function.update_of_ne (by omega)]

end Bits

section Search
variable {t : FdArray} {i m n : ℕ} {r r' : Option ℕ}

/-- `r` is the first descriptor from `i` to below `n` whose bit is clear. -/
def FirstClear (t : FdArray) (i n : ℕ) : Option ℕ → Prop
  | none => ∀ j, i ≤ j → j < n → getBit t.mem t.alloc j ≠ 0
  | some k => i ≤ k ∧ k < n ∧ getBit t.mem t.alloc k = 0 ∧
      ∀ j, i ≤ j → j < k → getBit t.mem t.alloc j ≠ 0

theorem FirstClear.or (h : FirstClear t i m r) (h' : FirstClear t m n r') (him : i ≤ m)
    (hmn : m ≤ n) : FirstClear t i n (r.or r') := by
  have hjoin : ∀ {k}, (∀ j, i ≤ j → j < m → getBit t.mem t.alloc j ≠ 0) →
      (∀ j, m ≤ j → j < k → getBit t.mem t.alloc j ≠ 0) →
      ∀ j, i ≤ j → j < k → getBit t.mem t.alloc j ≠ 0 := by
    intro k h₁ h₂ j hij hjk
    rcases Nat.lt_or_ge j m with hj | hj
    · exact h₁ j hij hj
    · exact h₂ j hj hjk
  cases r with
  | some k =>
    obtain ⟨hik, hkm, hclear, hset⟩ := h
    exact ⟨hik, by omega, hclear, hset⟩
  | none =>
    cases r' with
    | none => exact hjoin h h'
    | some k =>
      obtain ⟨hmk, hkn, hclear, hset⟩ := h'
      exact ⟨by omega, hkn, hclear, hjoin h hset⟩

theorem scanBits_firstClear (t : FdArray) (i todo : ℕ) :
    FirstClear t i (i + todo) (scanBits t i todo) := by
  induction todo generalizing i with
  | zero =>
    intro j h₁ h₂
    omega
  | succ todo ih =>
    rw [scanBits]
    by_cases hclear : getBit t.mem t.alloc i = 0
    · rw [if_pos hclear]
      exact ⟨le_rfl, by omega, hclear, fun j h₁ h₂ => by omega⟩
    · rw [if_neg hclear]
      have hone : FirstClear t i (i + 1) none := by
        intro j h₁ h₂
        obtain rfl : j = i := by omega
        exact hclear
      have hrest := hone.or (ih (i + 1)) (by omega) (by omega)
      rwa [Nat.add_right_comm, Nat.add_assoc] at hrest

/-- The cell that the shortcut of the search passes over has no clear bit. -/
theorem full_cell : ∀ k < 32, getCell 0xffffffff k ≠ 0 := by decide +kernel

theorem scanCells_firstClear (t : FdArray) (q todo : ℕ) :
    FirstClear t (32 * q) (32 * (q + todo)) (scanCells t (32 * q) todo) := by
  induction todo generalizing q with
  | zero =>
    intro j h₁ h₂
    omega
  | succ todo ih =>
    have hrest := ih (q + 1)
    have hnext : 32 * (q + 1) = 32 * q + 32 := by ring
    have hend : 32 * (q + 1 + todo) = 32 * (q + (todo + 1)) := by ring
    rw [hend, hnext] at hrest
    rw [scanCells]
    split
    · exact (scanBits_firstClear t (32 * q) 32).or hrest (by omega) (by omega)
    · rename_i hfull
      have hcell : FirstClear t (32 * q) (32 * q + 32) none := by
        intro j h₁ h₂
        have hq : j / 32 = 32 * q / 32 := by omega
        rw [getBit, hq, not_not.mp hfull]
        exact full_cell _ (Nat.mod_lt _ (by decide))
      exact hcell.or hrest (by omega) (by omega)

theorem findFree_firstClear (t : FdArray) : FirstClear t 0 t.num (findFree t) := by
  have hcells := scanCells_firstClear t 0 (t.num / 32)
  have hbits := scanBits_firstClear t (t.num / 32 * 32) (t.num - t.num / 32 * 32)
  have hle : t.num / 32 * 32 ≤ t.num := Nat.div_mul_le_self _ _
  rw [Nat.add_sub_cancel' hle] at hbits
  rw [Nat.zero_add, Nat.mul_comm 32 (t.num / 32), Nat.mul_zero] at hcells
  exact hcells.or hbits (Nat.zero_le _) hle

end Search

section Table
variable {t : FdArray} {i f : ℕ}

/-- The table is in order: the two bit arrays do not meet, and the bits of `alloc` say which
slots are in use. -/
structure Mirrors (t : FdArray) : Prop where
  apart : ∀ i < t.num, t.alloc + i / 32 < t.coes
  bits : ∀ i < t.num, getBit t.mem t.alloc i ≠ 0 ↔ t.fds i ≠ none
  beyond : ∀ i, t.num ≤ i → t.fds i = none

theorem mirrors_newFds (num : ℕ) : Mirrors (newFds num) := by
  refine ⟨?_, ?_, fun _ _ => rfl⟩
  · intro i hi
    have hi' : i < num := hi
    simp only [newFds, bitSz]
    omega
  · intro i hi
    refine iff_of_false (not_not.mpr ?_) (not_not.mpr rfl)
    simp [newFds, getBit, getCell]

theorem Mirrors.fillSlot (h : Mirrors t) (hi : i < t.num) (f : ℕ) (coe : BitVec 32) :
    Mirrors (fillSlot t i f coe) := by
  refine ⟨h.apart, ?_, ?_⟩
  · intro j hj
    change getBit (setBit (setBit t.mem t.alloc i (flag true)) t.coes i coe) t.alloc j ≠ 0 ↔
      Function.update t.fds i (some f) j ≠ none
    rw [getBit_setBit_apart _ _ (h.apart j hj), getBit_setBit]
    by_cases hji : j = i
    · subst hji
      simp
    · rw [if_neg hji, Function.update_of_ne hji]
      exact h.bits j hj
  · intro j hj
    have hj' : t.num ≤ j := hj
    change Function.update t.fds i (some f) j = none
    rw [Function.update_of_ne (by omega)]
    exact h.beyond j hj'

theorem Mirrors.clearSlot (h : Mirrors t) (i : ℕ) : Mirrors (clearSlot t i) := by
  refine ⟨h.apart, ?_, ?_⟩
  · intro j hj
    change getBit (setBit t.mem t.alloc i (flag false)) t.alloc j ≠ 0 ↔
      Function.update t.fds i none j ≠ none
    rw [getBit_setBit]
    by_cases hji : j = i
    · subst hji
      simp
    · rw [if_neg hji, Function.update_of_ne hji]
      exact h.bits j hj
  · intro j hj
    change Function.update t.fds i none j = none
    by_cases hji : j = i
    · subst hji
      simp
    · rw [Function.update_of_ne hji]
      exact h.beyond j hj

/-- The search finds the smallest free slot, or the table is full. -/
theorem Mirrors.findFree (h : Mirrors t) :
    (∃ i, findFree t = some i ∧ i < t.num ∧ t.fds i = none ∧ ∀ j < i, t.fds j ≠ none) ∨
    (DescriptorTable.findFree t = none ∧ ∀ j < t.num, t.fds j ≠ none) := by
  have hfirst := findFree_firstClear t
  cases hr : DescriptorTable.findFree t with
  | none =>
    rw [hr] at hfirst
    exact .inr ⟨rfl, fun j hj => (h.bits j hj).mp (hfirst j (Nat.zero_le _) hj)⟩
  | some i =>
    rw [hr] at hfirst
    obtain ⟨_, hi, hclear, hset⟩ := hfirst
    refine .inl ⟨i, rfl, hi, ?_, ?_⟩
    · exact not_not.mp fun hne => (h.bits i hi).mpr hne hclear
    · exact fun j hj => (h.bits j (by omega)).mp (hset j (Nat.zero_le _) hj)

/-- The number of slots that hold an open file. -/
def slots (t : FdArray) (f : ℕ) : ℕ := ((Finset.range t.num).filter fun i => t.fds i = some f).card

theorem slots_eq_sum (t : FdArray) (f : ℕ) :
    slots t f = ∑ i ∈ Finset.range t.num, if t.fds i = some f then 1 else 0 :=
  Finset.card_filter _ _

/-- A slot that changes hands takes one from its old open file and gives one to the new. -/
theorem slots_update (t : FdArray) (hi : i < t.num) (x : Option ℕ) (mem : Cells) (f : ℕ) :
    slots { t with fds := Function.update t.fds i x, mem := mem } f +
      (if t.fds i = some f then 1 else 0) = slots t f + (if x = some f then 1 else 0) := by
  have hmem := Finset.mem_range.mpr hi
  rw [slots_eq_sum, slots_eq_sum, ← Finset.add_sum_erase _ _ hmem,
    ← Finset.add_sum_erase (Finset.range t.num) (fun i => if t.fds i = some f then 1 else 0) hmem]
  have hrest : ∑ j ∈ (Finset.range t.num).erase i,
        (if Function.update t.fds i x j = some f then 1 else 0) =
      ∑ j ∈ (Finset.range t.num).erase i, if t.fds j = some f then 1 else 0 := by
    refine Finset.sum_congr rfl fun j hj => ?_
    rw [Function.update_of_ne (Finset.ne_of_mem_erase hj)]
  dsimp only
  rw [hrest]
  simp only [Function.update_self]
  omega

theorem slots_pos (hi : i < t.num) (h : t.fds i = some f) : 0 < slots t f :=
  Finset.card_pos.mpr ⟨i, Finset.mem_filter.mpr ⟨Finset.mem_range.mpr hi, h⟩⟩

theorem slots_le (t : FdArray) (f : ℕ) : slots t f ≤ t.num :=
  (Finset.card_filter_le _ _).trans_eq (Finset.card_range _)

end Table

section Tallies
variable {made : ℕ} {s : Files} {opened held : ℕ → ℕ} {f : ℕ}

/-- Before an open file is freed, it is closed. -/
def ClosedFirst (calls : List Call) : Prop :=
  ∀ f before after, calls = before ++ .free f :: after → .close f ∈ before

/-- The counts and the calls of the open files, each with so many slots and references. -/
structure Tally (made : ℕ) (s : Files) (opened held : ℕ → ℕ) : Prop where
  counted : ∀ f < made, 0 < opened f + held f →
    (s.ofile f).ocnt = opened f ∧ (s.ofile f).rcnt = opened f + held f
  closes : ∀ f < made, s.calls.count (.close f) = if opened f = 0 then 1 else 0
  frees : ∀ f < made, s.calls.count (.free f) = if opened f + held f = 0 then 1 else 0
  order : ClosedFirst s.calls
  unmade : ∀ f, made ≤ f → opened f = 0 ∧ held f = 0 ∧
    .close f ∉ s.calls ∧ .free f ∉ s.calls

theorem ClosedFirst.append {calls : List Call} {c : Call} (h : ClosedFirst calls)
    (hc : ∀ f, c = .free f → .close f ∈ calls) : ClosedFirst (calls ++ [c]) := by
  intro f before after heq
  rcases List.append_eq_append_iff.mp heq with ⟨mid, rfl, hm⟩ | ⟨mid, hcalls, hm⟩
  · cases mid with
    | nil =>
      simp only [List.nil_append, List.cons.injEq] at hm
      simpa using hc f hm.1
    | cons d mid => simp at hm
  · cases mid with
    | nil =>
      simp only [List.nil_append, List.cons.injEq] at hm
      simpa [hcalls] using hc f hm.1.symm
    | cons d mid =>
      simp only [List.cons_append, List.cons.injEq] at hm
      obtain ⟨rfl, _⟩ := hm
      exact h f before mid hcalls

theorem Tally.lt_made (h : Tally made s opened held) (hf : 0 < opened f + held f) : f < made := by
  by_contra hge
  obtain ⟨hopened, hheld, _⟩ := h.unmade f (by omega)
  omega

/-- An open file that has a slot, and keeps one, can change its counts freely. -/
theorem Tally.recount (h : Tally made s opened held) (hf : 0 < opened f) {x : Ofile} {o r : ℕ}
    (ho : 0 < o) (hx : x.ocnt = o ∧ x.rcnt = o + r) :
    Tally made { s with ofile := Function.update s.ofile f x } (Function.update opened f o)
      (Function.update held f r) := by
  have hmade : f < made := h.lt_made (by omega)
  refine ⟨?_, ?_, ?_, h.order, ?_⟩
  · intro g hg hpos
    by_cases hgf : g = f
    · subst hgf
      simpa using hx
    · simp only [Function.update_of_ne hgf] at hpos ⊢
      exact h.counted g hg hpos
  · intro g hg
    rw [h.closes g hg]
    by_cases hgf : g = f
    · subst hgf
      rw [Function.update_self, if_neg (by omega), if_neg (by omega)]
    · rw [Function.update_of_ne hgf]
  · intro g hg
    rw [h.frees g hg]
    by_cases hgf : g = f
    · subst hgf
      rw [Function.update_self, Function.update_self, if_neg (by omega), if_neg (by omega)]
    · rw [Function.update_of_ne hgf, Function.update_of_ne hgf]
  · intro g hg
    have hgf : g ≠ f := by omega
    rw [Function.update_of_ne hgf, Function.update_of_ne hgf]
    exact h.unmade g hg

/-- The first half of `dropSlot`: the slot becomes a plain reference. -/
def closeSlot (s : Files) (f : ℕ) : Files :=
  if (addOcnt s f (-1)).1 = 1 then invokeClose (addOcnt s f (-1)).2 f else (addOcnt s f (-1)).2

theorem dropSlot_eq (s : Files) (f : ℕ) :
    dropSlot s f = (decide (toInt32 (s.ofile f).ocnt = 1), putFd (closeSlot s f) f) := rfl

theorem Tally.closedSlot (h : Tally made s opened held) (hf : 0 < opened f)
    (hsmall : opened f ≤ 2 ^ 32) :
    Tally made (closeSlot s f) (Function.update opened f (opened f - 1))
      (Function.update held f (held f + 1)) := by
  have hmade : f < made := h.lt_made (by omega)
  obtain ⟨hocnt, hrcnt⟩ := h.counted f hmade (by omega)
  have hlast : (addOcnt s f (-1)).1 = 1 ↔ opened f = 1 := by
    rw [addOcnt, hocnt, toInt32_eq_one]
    omega
  have hofile : (closeSlot s f).ofile = Function.update s.ofile f
      { s.ofile f with ocnt := (s.ofile f).ocnt + -1 } := by
    unfold closeSlot
    split <;> rfl
  have hcalls : (closeSlot s f).calls =
      if opened f = 1 then s.calls ++ [.close f] else s.calls := by
    unfold closeSlot
    simp only [hlast]
    split <;> rfl
  refine ⟨?_, ?_, ?_, ?_, ?_⟩
  · intro g hg hpos
    rw [hofile]
    by_cases hgf : g = f
    · subst hgf
      simp only [Function.update_self]
      rw [hocnt, hrcnt]
      constructor <;> omega
    · simp only [Function.update_of_ne hgf] at hpos ⊢
      exact h.counted g hg hpos
  · intro g hg
    have hclose := h.closes g hg
    rw [hcalls]
    by_cases hgf : g = f
    · subst hgf
      rw [Function.update_self]
      by_cases hone : opened g = 1
      · rw [if_pos hone, List.count_append, hclose]
        simp [hone]
      · rw [if_neg hone, hclose, if_neg (by omega), if_neg (by omega)]
    · rw [Function.update_of_ne hgf, ← hclose]
      split
      · simp [List.count_append, Ne.symm hgf]
      · rfl
  · intro g hg
    have hfree := h.frees g hg
    have hcount : (closeSlot s f).calls.count (.free g) =
        s.calls.count (.free g) := by
      rw [hcalls]
      split
      · simp [List.count_append]
      · rfl
    rw [hcount, hfree]
    by_cases hgf : g = f
    · subst hgf
      rw [Function.update_self, Function.update_self, if_neg (by omega), if_neg (by omega)]
    · rw [Function.update_of_ne hgf, Function.update_of_ne hgf]
  · rw [hcalls]
    split
    · exact h.order.append fun g hg => by cases hg
    · exact h.order
  · intro g hg
    have hgf : g ≠ f := by omega
    obtain ⟨h₁, h₂, h₃, h₄⟩ := h.unmade g hg
    rw [Function.update_of_ne hgf, Function.update_of_ne hgf, hcalls]
    refine ⟨h₁, h₂, ?_, ?_⟩
    · split
      · simp [h₃, hgf]
      · exact h₃
    · split
      · simp [h₄]
      · exact h₄

/-- A reference count of which `atomic_add` sees the last reference go, and no other. -/
def Seen (c : ℤ) : Prop := c % 2 ^ 32 = 1 → c = 1

instance (c : ℤ) : Decidable (Seen c) := inferInstanceAs (Decidable (_ → _))

theorem Tally.putFd_iff (h : Tally made s opened held) (hf : 0 < held f) :
    Tally made (putFd s f) opened (Function.update held f (held f - 1)) ↔
      Seen (s.ofile f).rcnt := by
  have hmade : f < made := h.lt_made (by omega)
  obtain ⟨hocnt, hrcnt⟩ := h.counted f hmade (by omega)
  have hnone := h.frees f hmade
  rw [if_neg (by omega)] at hnone
  have hlast : (addRcnt s f (-1)).1 = 1 ↔ (s.ofile f).rcnt % 2 ^ 32 = 1 := by
    rw [addRcnt, toInt32_eq_one]
  have hofile : (putFd s f).ofile = Function.update s.ofile f
      { s.ofile f with rcnt := (s.ofile f).rcnt + -1 } := by
    unfold putFd
    dsimp only
    split <;> rfl
  have hcalls : (putFd s f).calls =
      if (s.ofile f).rcnt % 2 ^ 32 = 1 then s.calls ++ [.free f] else s.calls := by
    unfold putFd
    simp only [hlast]
    split <;> rfl
  constructor
  · intro h' hwrap
    have hfree := h'.frees f hmade
    rw [hcalls, if_pos hwrap, List.count_append, hnone, Function.update_self] at hfree
    simp only [List.count_singleton_self, Nat.zero_add] at hfree
    split at hfree <;> omega
  · intro hseen
    have hiff : (s.ofile f).rcnt % 2 ^ 32 = 1 ↔ opened f + held f = 1 := by
      rw [hrcnt] at hseen ⊢
      constructor
      · intro hwrap
        have := hseen hwrap
        omega
      · intro hone
        omega
    simp only [hiff] at hcalls
    refine ⟨?_, ?_, ?_, ?_, ?_⟩
    · intro g hg hpos
      rw [hofile]
      by_cases hgf : g = f
      · subst hgf
        simp only [Function.update_self]
        rw [hocnt, hrcnt]
        constructor <;> omega
      · simp only [Function.update_of_ne hgf] at hpos ⊢
        exact h.counted g hg hpos
    · intro g hg
      rw [← h.closes g hg, hcalls]
      split
      · simp [List.count_append]
      · rfl
    · intro g hg
      have hfree := h.frees g hg
      rw [hcalls]
      by_cases hgf : g = f
      · subst hgf
        rw [Function.update_self]
        by_cases hone : opened g + held g = 1
        · rw [if_pos hone, List.count_append, hnone, if_pos (by omega)]
          simp
        · rw [if_neg hone, hnone, if_neg (by omega)]
      · rw [Function.update_of_ne hgf, ← hfree]
        split
        · simp [List.count_append, Ne.symm hgf]
        · rfl
    · rw [hcalls]
      split
      · refine h.order.append fun g hg => ?_
        cases hg
        have hclose := h.closes f hmade
        rw [if_pos (by omega)] at hclose
        exact List.count_pos_iff.mp (by omega)
      · exact h.order
    · intro g hg
      have hgf : g ≠ f := by omega
      obtain ⟨h₁, h₂, h₃, h₄⟩ := h.unmade g hg
      rw [Function.update_of_ne hgf, hcalls]
      refine ⟨h₁, h₂, ?_, ?_⟩
      · split
        · simp [h₃]
        · exact h₃
      · split
        · simp [h₄, hgf]
        · exact h₄

/-- An open file that loses a slot. -/
theorem Tally.dropSlot_iff (h : Tally made s opened held) (hf : 0 < opened f)
    (hsmall : opened f ≤ 2 ^ 32) :
    Tally made (dropSlot s f).2 (Function.update opened f (opened f - 1)) held ↔
      Seen (s.ofile f).rcnt := by
  have hput := (h.closedSlot hf hsmall).putFd_iff (f := f) (by simp)
  have hrcnt : ((closeSlot s f).ofile f).rcnt = (s.ofile f).rcnt := by
    unfold closeSlot
    split <;> simp [addOcnt, invokeClose]
  rw [hrcnt] at hput
  simpa [dropSlot_eq] using hput

end Tallies

/-- A table, its open files, how often each is held through `get_fd`, and how many were made. -/
structure Session where
  files : Files
  held : ℕ → ℕ
  made : ℕ

/-- The calls on a table: an open file that is new gets a slot, the open file of a descriptor
gets another one, a descriptor is closed, and open files are held for a while. -/
inductive Event where
  | openFd (type vn : ℕ) (coe : BitVec 32)
  | dupFd (nfd fd : ℤ) (coe : BitVec 32)
  | removeFd (fd : ℤ) (type : ℕ) (err : ℤ)
  | getFd (fd : ℤ) (type : ℕ)
  | putFd (f : ℕ)

def Enabled (r : Session) : Event → Prop
  | .putFd f => 0 < r.held f
  | _ => True

instance (r : Session) (e : Event) : Decidable (Enabled r e) := by
  cases e <;> simp only [Enabled] <;> infer_instance

/-- The open file as its opener makes it. -/
def freshOfile (r : Session) (type vn : ℕ) : Files :=
  { r.files with ofile := Function.update r.files.ofile r.made ⟨type, vn, 0, 0⟩ }

def next (r : Session) : Event → Session
  | .openFd type vn coe =>
    let s := (newFd (freshOfile r type vn) (-1) (some r.made) (-1) coe).2
    -- without a slot its opener gives it back
    { r with files := s, made := if 0 < slots s.table r.made then r.made + 1 else r.made }
  | .dupFd nfd fd coe => { r with files := (newFd r.files nfd none fd coe).2 }
  | .removeFd fd type err => { r with files := (removeFd r.files fd type err).2 }
  | .getFd fd type =>
    match getFd r.files fd type with
    | (none, s) => { r with files := s }
    | (some f, s) => { r with files := s, held := Function.update r.held f (r.held f + 1) }
  | .putFd f =>
    { r with files := putFd r.files f, held := Function.update r.held f (r.held f - 1) }

def start (num : ℕ) (ofile : ℕ → Ofile) : Session := ⟨⟨newFds num, ofile, []⟩, fun _ => 0, 0⟩

/-- What holds between the calls. -/
structure Sound (r : Session) : Prop where
  int_num : r.files.table.num < 2 ^ 31
  mirrors : Mirrors r.files.table
  tally : Tally r.made r.files (slots r.files.table) r.held

/-- A call of `new_fd` that searches takes the smallest free slot; it fails, and changes
nothing, when there is none. -/
def Searches (s : Files) : Prop :=
  ∀ nfd f fd coe g, nfd < 0 → source s.table f fd = some g →
    (∃ i : ℕ, i < s.table.num ∧ s.table.fds i = none ∧ (∀ j < i, s.table.fds j ≠ none) ∧
      (newFd s nfd f fd coe).1 = i ∧
      (newFd s nfd f fd coe).2.table.fds = Function.update s.table.fds i (some g)) ∨
    ((∀ j < s.table.num, s.table.fds j ≠ none) ∧ newFd s nfd f fd coe = (EMFILE, s))

/-- The reference count that a call takes one from. -/
def taken (r : Session) : Event → Option ℤ
  | .openFd _ _ _ => none
  | .getFd _ _ => none
  | .putFd f => some (r.files.ofile f).rcnt
  | .removeFd fd type _ =>
    if 0 ≤ fd ∧ fd < r.files.table.num then
      (r.files.table.fds fd.toNat).bind fun f =>
        if (r.files.ofile f).type = type then some (r.files.ofile f).rcnt else none
    else none
  | .dupFd nfd fd _ =>
    (source r.files.table none fd).bind fun f =>
      if 0 ≤ nfd ∧ nfd < r.files.table.num then
        (r.files.table.fds nfd.toNat).map fun old =>
          if old = f then (r.files.ofile f).rcnt + 1 else (r.files.ofile old).rcnt
      else none

def AllSeen (r : Session) (e : Event) : Prop := ∀ c ∈ taken r e, Seen c

instance (r : Session) (e : Event) : Decidable (AllSeen r e) :=
  inferInstanceAs (Decidable (∀ c ∈ taken r e, Seen c))

section Steps
variable {r : Session} {s : Files} {i f : ℕ}

theorem undo_retain (s : Files) (f : ℕ) : undo (retain s f) f = s := by
  obtain ⟨table, ofile, calls⟩ := s
  simp only [undo, retain, addOcnt, addRcnt, Files.mk.injEq, true_and, and_true]
  funext g
  by_cases hg : g = f
  · subst hg
    simp
  · simp [Function.update_of_ne hg]

/-- The two ends of a call that searches. -/
theorem newFd_searching (h : Mirrors s.table) {nfd fd : ℤ} {f : Option ℕ} {g : ℕ} (hneg : nfd < 0)
    (hsrc : source s.table f fd = some g) (coe : BitVec 32) :
    (∃ i < s.table.num, s.table.fds i = none ∧ (∀ j < i, s.table.fds j ≠ none) ∧
      newFd s nfd f fd coe = ((i : ℤ), { retain s g with table := fillSlot s.table i g coe })) ∨
    ((∀ j < s.table.num, s.table.fds j ≠ none) ∧ newFd s nfd f fd coe = (EMFILE, s)) := by
  rcases h.findFree with ⟨i, hfind, hi, hfree, hfirst⟩ | ⟨hfind, hfull⟩
  · refine .inl ⟨i, hi, hfree, hfirst, ?_⟩
    unfold newFd
    rw [hsrc]
    dsimp only
    rw [if_neg (by omega), show (retain s g).table = s.table from rfl, hfind]
  · refine .inr ⟨hfull, ?_⟩
    unfold newFd
    rw [hsrc]
    dsimp only
    rw [if_neg (by omega), show (retain s g).table = s.table from rfl, hfind]
    dsimp only
    rw [undo_retain]

theorem searches_of_mirrors (h : Mirrors s.table) : Searches s := by
  intro nfd f fd coe g hneg hsrc
  rcases newFd_searching h hneg hsrc coe with ⟨i, hi, hfree, hfirst, hnew⟩ | hfull
  · refine .inl ⟨i, hi, hfree, hfirst, ?_⟩
    rw [hnew]
    exact ⟨rfl, rfl⟩
  · exact .inr hfull

variable {made : ℕ} {opened held : ℕ → ℕ}

theorem Tally.withTable (h : Tally made s opened held) (t : FdArray) :
    Tally made { s with table := t } opened held :=
  ⟨h.counted, h.closes, h.frees, h.order, h.unmade⟩

theorem Tally.retained (h : Tally made s opened held) (hf : 0 < opened f) :
    Tally made (retain s f) (Function.update opened f (opened f + 1)) held := by
  obtain ⟨hocnt, hrcnt⟩ := h.counted f (h.lt_made (by omega)) (by omega)
  have hcounts := h.recount hf (o := opened f + 1) (r := held f) (x := ((retain s f).ofile f))
    (by omega) (by
      simp only [retain, addOcnt, addRcnt, Function.update_self]
      rw [hocnt, hrcnt]
      constructor <;> push_cast <;> ring)
  rw [Function.update_eq_self] at hcounts
  have hofile : (retain s f).ofile =
      Function.update s.ofile f ((retain s f).ofile f) := by
    simp [retain, addOcnt, addRcnt]
  exact ⟨hofile ▸ hcounts.counted, hcounts.closes, hcounts.frees, hcounts.order, hcounts.unmade⟩

theorem Tally.gotFd (h : Tally made s opened held) (hf : 0 < opened f) :
    Tally made (addRcnt s f 1).2 opened (Function.update held f (held f + 1)) := by
  obtain ⟨hocnt, hrcnt⟩ := h.counted f (h.lt_made (by omega)) (by omega)
  have hcounts := h.recount hf (o := opened f) (r := held f + 1)
    (x := { s.ofile f with rcnt := (s.ofile f).rcnt + 1 }) hf (by
      dsimp only
      rw [hocnt, hrcnt]
      exact ⟨rfl, by push_cast; ring⟩)
  rwa [Function.update_eq_self] at hcounts

/-- What is at the number of an open file that is yet to be made does not count. -/
theorem Tally.unmadeOfile (h : Tally made s opened held) (x : Ofile) :
    Tally made { s with ofile := Function.update s.ofile made x } opened held := by
  refine ⟨?_, h.closes, h.frees, h.order, h.unmade⟩
  intro g hg hpos
  dsimp only
  rw [Function.update_of_ne (by omega)]
  exact h.counted g hg hpos

/-- An open file enters with its first slot. -/
theorem Tally.fresh (h : Tally made s opened held)
    (hx : (s.ofile made).ocnt = 1 ∧ (s.ofile made).rcnt = 1) :
    Tally (made + 1) s (Function.update opened made 1) held := by
  obtain ⟨_, hheld, hclose, hfree⟩ := h.unmade made le_rfl
  refine ⟨?_, ?_, ?_, h.order, ?_⟩
  · intro g hg hpos
    by_cases hgm : g = made
    · subst hgm
      rw [Function.update_self, hheld]
      exact ⟨hx.1, hx.2⟩
    · rw [Function.update_of_ne hgm] at hpos ⊢
      exact h.counted g (by omega) hpos
  · intro g hg
    by_cases hgm : g = made
    · subst hgm
      rw [Function.update_self, if_neg (by omega)]
      exact List.count_eq_zero.mpr hclose
    · rw [Function.update_of_ne hgm]
      exact h.closes g (by omega)
  · intro g hg
    by_cases hgm : g = made
    · subst hgm
      rw [Function.update_self, if_neg (by omega)]
      exact List.count_eq_zero.mpr hfree
    · rw [Function.update_of_ne hgm]
      exact h.frees g (by omega)
  · intro g hg
    rw [Function.update_of_ne (by omega)]
    exact h.unmade g (by omega)

theorem slots_fillSlot (t : FdArray) (hi : i < t.num) (f : ℕ) (coe : BitVec 32) (g : ℕ) :
    slots (fillSlot t i f coe) g + (if t.fds i = some g then 1 else 0) =
      slots t g + (if f = g then 1 else 0) := by
  have h := slots_update t hi (some f) (fillSlot t i f coe).mem g
  simp only [Option.some.injEq] at h
  exact h

theorem slots_clearSlot (t : FdArray) (hi : i < t.num) (g : ℕ) :
    slots (clearSlot t i) g + (if t.fds i = some g then 1 else 0) = slots t g := by
  have h := slots_update t hi none (clearSlot t i).mem g
  simp only [reduceCtorEq, if_false, Nat.add_zero] at h
  exact h

theorem slots_fill_free {t : FdArray} (hi : i < t.num) (hfree : t.fds i = none) (f : ℕ)
    (coe : BitVec 32) :
    slots (fillSlot t i f coe) = Function.update (slots t) f (slots t f + 1) := by
  funext g
  have h := slots_fillSlot t hi f coe g
  rw [hfree] at h
  by_cases hgf : g = f
  · subst hgf
    simpa using h
  · rw [Function.update_of_ne hgf]
    simpa [Ne.symm hgf] using h

theorem slots_fill_taken {t : FdArray} (hi : i < t.num) {old : ℕ} (hold : t.fds i = some old)
    (f : ℕ) (coe : BitVec 32) :
    let opened := Function.update (slots t) f (slots t f + 1)
    slots (fillSlot t i f coe) = Function.update opened old (opened old - 1) := by
  intro opened
  funext g
  have h := slots_fillSlot t hi f coe g
  have hadded : opened g = slots t g + if f = g then 1 else 0 := by
    by_cases hgf : g = f
    · subst hgf
      simp [opened]
    · simp [opened, Function.update_of_ne hgf, Ne.symm hgf]
  rw [hold, ← hadded] at h
  by_cases hgo : g = old
  · subst hgo
    rw [Function.update_self, ← h]
    simp
  · rw [Function.update_of_ne hgo, ← h]
    simp [Ne.symm hgo]

theorem slots_clear_taken {t : FdArray} (hi : i < t.num) (hold : t.fds i = some f) :
    slots (clearSlot t i) = Function.update (slots t) f (slots t f - 1) := by
  funext g
  have h := slots_clearSlot t hi g
  rw [hold] at h
  by_cases hgf : g = f
  · subst hgf
    rw [Function.update_self, ← h]
    simp
  · rw [Function.update_of_ne hgf, ← h]
    simp [Ne.symm hgf]

theorem source_opened {t : FdArray} {fd : ℤ} (hs : source t none fd = some f) : 0 < slots t f := by
  unfold source at hs
  dsimp only at hs
  split at hs
  · cases hs
  · exact slots_pos (by omega) hs

theorem Sound.openFd (h : Sound r) (type vn : ℕ) (coe : BitVec 32) :
    Sound (next r (.openFd type vn coe)) := by
  obtain ⟨hint, hmirrors, htally⟩ := h
  have hunslotted : slots r.files.table r.made = 0 := (htally.unmade r.made le_rfl).1
  rcases hmirrors.findFree with ⟨i, hfind, hi, hfree, _⟩ | ⟨hfind, _⟩
  · have hnew : (newFd (freshOfile r type vn) (-1) (some r.made) (-1) coe).2 =
        { retain (freshOfile r type vn) r.made with
          table := fillSlot r.files.table i r.made coe } := by
      unfold newFd source
      dsimp only
      rw [if_neg (by decide), show (retain (freshOfile r type vn) r.made).table =
        r.files.table from rfl, hfind]
    have hslots := slots_fill_free hi hfree r.made coe
    simp only [next, hnew]
    rw [hslots, Function.update_self, if_pos (Nat.succ_pos _)]
    refine ⟨hint, hmirrors.fillSlot hi r.made coe, ?_⟩
    dsimp only
    rw [hslots, hunslotted]
    have hofile : (retain (freshOfile r type vn) r.made).ofile =
        Function.update r.files.ofile r.made ⟨type, vn, 1, 1⟩ := by
      simp [retain, addOcnt, addRcnt, freshOfile]
    have hfresh := (htally.unmadeOfile ⟨type, vn, 1, 1⟩).fresh (by simp)
    exact ⟨hofile ▸ hfresh.counted, hfresh.closes, hfresh.frees, hfresh.order, hfresh.unmade⟩
  · have hnew : (newFd (freshOfile r type vn) (-1) (some r.made) (-1) coe).2 =
        freshOfile r type vn := by
      unfold newFd source
      dsimp only
      rw [if_neg (by decide), show (retain (freshOfile r type vn) r.made).table =
        r.files.table from rfl, hfind]
      exact undo_retain _ _
    simp only [next, hnew]
    rw [show (freshOfile r type vn).table = r.files.table from rfl, hunslotted,
      if_neg (lt_irrefl _)]
    exact ⟨hint, hmirrors, htally.unmadeOfile ⟨type, vn, 0, 0⟩⟩

theorem Sound.getFd (h : Sound r) (fd : ℤ) (type : ℕ) : Sound (next r (.getFd fd type)) := by
  obtain ⟨hint, hmirrors, htally⟩ := h
  have hsame : ∀ s, s = r.files → Sound { r with files := s } := by
    rintro s rfl
    exact ⟨hint, hmirrors, htally⟩
  simp only [next, DescriptorTable.getFd]
  by_cases hrange : 0 ≤ fd ∧ fd < r.files.table.num
  · rw [if_pos hrange]
    cases hf : r.files.table.fds fd.toNat with
    | none => exact hsame _ rfl
    | some f =>
      dsimp only
      by_cases htype : (r.files.ofile f).type &&& type ≠ 0
      · rw [if_pos htype]
        exact ⟨hint, hmirrors, htally.gotFd (slots_pos (by omega) hf)⟩
      · rw [if_neg htype]
        exact hsame _ rfl
  · rw [if_neg hrange]
    exact hsame _ rfl

theorem sound_iff_tally {r r' : Session} (h : Sound r)
    (hm : Mirrors r'.files.table) (hn : r'.files.table.num = r.files.table.num) :
    Sound r' ↔ Tally r'.made r'.files (slots r'.files.table) r'.held :=
  ⟨fun h' => h'.tally, fun ht => ⟨hn ▸ h.int_num, hm, ht⟩⟩

theorem Sound.putFd_iff (h : Sound r) (hf : 0 < r.held f) :
    Sound (next r (.putFd f)) ↔ Seen (r.files.ofile f).rcnt := by
  have htable : (putFd r.files f).table = r.files.table := by
    unfold putFd
    dsimp only
    split <;> rfl
  rw [sound_iff_tally h (by simpa only [next, htable] using h.mirrors)
    (by simp only [next, htable]), ← h.tally.putFd_iff hf]
  simp only [next, htable]

theorem dropSlot_table (s : Files) (f : ℕ) : (dropSlot s f).2.table = s.table := by
  unfold dropSlot
  dsimp only
  split <;> split <;> rfl

theorem Sound.removeFd_iff (h : Sound r) (fd : ℤ) (type : ℕ) (err : ℤ) :
    Sound (next r (.removeFd fd type err)) ↔ AllSeen r (.removeFd fd type err) := by
  have hsame : ∀ s, s = r.files → (Sound { r with files := s } ↔ True) := by
    rintro s rfl
    exact iff_true_intro h
  unfold AllSeen
  simp only [next, DescriptorTable.removeFd, taken]
  by_cases hrange : 0 ≤ fd ∧ fd < r.files.table.num
  swap
  · rw [if_neg hrange, if_neg hrange]
    simp [hsame]
  rw [if_pos hrange, if_pos hrange]
  cases hf : r.files.table.fds fd.toNat with
  | none => simp [hsame]
  | some f =>
    have hi : fd.toNat < r.files.table.num := by omega
    have hpos := slots_pos hi hf
    have hsmall := slots_le r.files.table f
    have hint := h.int_num
    simp only [Option.bind_some]
    by_cases htype : (r.files.ofile f).type = type
    · rw [if_pos htype, if_pos htype]
      have hdrop := (h.tally.withTable (clearSlot r.files.table fd.toNat)).dropSlot_iff hpos
        (by omega)
      rw [← slots_clear_taken hi hf] at hdrop
      rw [sound_iff_tally h]
      · simp only [dropSlot_table]
        rw [hdrop]
        simp
      · simpa only [dropSlot_table] using h.mirrors.clearSlot fd.toNat
      · simp only [dropSlot_table]
        rfl
    · rw [if_neg htype, if_neg htype]
      simp [hsame]

theorem Sound.dupFd_iff (h : Sound r) (nfd fd : ℤ) (coe : BitVec 32) :
    Sound (next r (.dupFd nfd fd coe)) ↔ AllSeen r (.dupFd nfd fd coe) := by
  unfold AllSeen
  simp only [next, newFd, taken]
  cases hsrc : source r.files.table none fd with
  | none => simpa using h
  | some f =>
    have hpos := source_opened hsrc
    have hretain := h.tally.retained hpos
    have htable : (retain r.files f).table = r.files.table := rfl
    have hint := h.int_num
    simp only [Option.bind_some, htable]
    by_cases hneg : 0 ≤ nfd
    swap
    · -- the search for a slot
      rw [if_neg hneg, if_neg (by omega)]
      simp only [Option.mem_def, reduceCtorEq, false_implies, implies_true, iff_true]
      rcases h.mirrors.findFree with ⟨i, hfind, hi, hfree, _⟩ | ⟨hfind, _⟩
      · rw [hfind]
        refine ⟨hint, h.mirrors.fillSlot hi f coe, ?_⟩
        dsimp only
        rw [slots_fill_free hi hfree]
        exact hretain.withTable _
      · rw [hfind]
        dsimp only
        rw [undo_retain]
        exact h
    rw [if_pos hneg]
    by_cases hout : (r.files.table.num : ℤ) ≤ nfd
    · rw [if_pos hout, if_neg (by omega)]
      simp only [Option.mem_def, reduceCtorEq, false_implies, implies_true, iff_true]
      rw [undo_retain]
      exact h
    rw [if_neg hout, if_pos (by omega)]
    have hi : nfd.toNat < r.files.table.num := by omega
    cases hold : r.files.table.fds nfd.toNat with
    | none =>
      simp only [Option.map_none, Option.mem_def, reduceCtorEq, false_implies, implies_true,
        iff_true]
      refine ⟨hint, h.mirrors.fillSlot hi f coe, ?_⟩
      dsimp only
      rw [slots_fill_free hi hold]
      exact hretain.withTable _
    | some old =>
      simp only [Option.map_some, Option.mem_def, Option.some.injEq, forall_eq']
      have hopened := slots_pos hi hold
      have hsmall := slots_le r.files.table old
      have hbound : 0 < Function.update (slots r.files.table) f (slots r.files.table f + 1) old ∧
          Function.update (slots r.files.table) f (slots r.files.table f + 1) old ≤ 2 ^ 32 := by
        by_cases hof : old = f
        · subst hof
          rw [Function.update_self]
          omega
        · rw [Function.update_of_ne hof]
          omega
      have hdrop := (hretain.withTable (fillSlot r.files.table nfd.toNat f coe)).dropSlot_iff
        hbound.1 hbound.2
      rw [← slots_fill_taken hi hold f coe] at hdrop
      have hrcnt : ((retain r.files f).ofile old).rcnt =
          if old = f then (r.files.ofile f).rcnt + 1 else (r.files.ofile old).rcnt := by
        by_cases hof : old = f
        · subst hof
          simp [retain, addOcnt, addRcnt]
        · simp [retain, addOcnt, addRcnt, hof]
      rw [sound_iff_tally h]
      · simp only [dropSlot_table]
        rw [hdrop, ← hrcnt]
      · simpa only [dropSlot_table] using h.mirrors.fillSlot hi f coe
      · simp only [dropSlot_table]
        rfl

end Steps

theorem sound_step_iff {r : Session} {e : Event} (h : Sound r) (he : Enabled r e) :
    Sound (next r e) ↔ AllSeen r e := by
  have hnone : taken r e = none → AllSeen r e := by
    intro htaken c hc
    rw [htaken] at hc
    cases hc
  cases e with
  | openFd type vn coe => exact iff_of_true (h.openFd type vn coe) (hnone rfl)
  | dupFd nfd fd coe => exact h.dupFd_iff nfd fd coe
  | removeFd fd type err => exact h.removeFd_iff fd type err
  | getFd fd type => exact iff_of_true (h.getFd fd type) (hnone rfl)
  | putFd f =>
    rw [h.putFd_iff he]
    simp [AllSeen, taken]

theorem sound_start {num : ℕ} (hnum : num < 2 ^ 31) (ofile : ℕ → Ofile) :
    Sound (start num ofile) := by
  refine ⟨hnum, mirrors_newFds num, ?_⟩
  have hslots : ∀ f, slots (newFds num) f = 0 := by
    intro f
    simp [slots, newFds]
  refine ⟨fun f hf => absurd hf (Nat.not_lt_zero f), fun f hf => absurd hf (Nat.not_lt_zero f),
    fun f hf => absurd hf (Nat.not_lt_zero f), ?_, ?_⟩
  · intro f before after heq
    simp [start] at heq
  · intro f _
    exact ⟨hslots f, rfl, by simp [start], by simp [start]⟩

/-- Over every run from a new table, the bits, the counts and the hooks that are called are
right in every state exactly if no call takes a reference from a count that `atomic_add`
mistakes for the last one. -/
theorem descriptor_table_sound_iff (num : ℕ) (hnum : num < 2 ^ 31) (ofile : ℕ → Ofile)
    (es : List Event) (h : EveryStep next Enabled (start num ofile) es) :
    EveryState next (fun r => Sound r ∧ Searches r.files) (start num ofile) es ↔
      EveryStep next AllSeen (start num ofile) es := by
  have hstart := sound_start hnum ofile
  refine everyState_iff_everyStep (I := fun _ => True) (fun _ _ _ _ _ _ => trivial) ?_ trivial
    ⟨hstart, searches_of_mirrors hstart.mirrors⟩ h
  intro r e _ hs he
  rw [← sound_step_iff hs.1 he]
  exact ⟨fun h' => h'.1, fun h' => ⟨h', searches_of_mirrors h'.mirrors⟩⟩

/-- Descriptor 31 is taken in the first cell and given back while its open file is held. -/
theorem descriptor_table_sound_forty :
    EveryState next (fun r => Sound r ∧ Searches r.files) (start 40 fun _ => ⟨0, 0, 0, 0⟩)
      [.openFd FD_FILE 5 0, .dupFd 31 0 1, .getFd 31 FD_ALL, .removeFd 0 FD_FILE 0,
        .removeFd 31 FD_FILE 0, .putFd 0] := by
  refine (descriptor_table_sound_iff 40 (by decide) _ _ ?_).mpr ?_
  · decide +kernel
  · decide +kernel

section Wrap
variable {r : Session} {f : ℕ}

/-- `n` calls of `get_fd` on one descriptor. -/
theorem run_getFd (hnum : 0 < r.files.table.num) (hf : r.files.table.fds 0 = some f)
    (htype : (r.files.ofile f).type = FD_FILE) (n : ℕ) :
    let r' := runTrace next r (List.replicate n (.getFd 0 FD_FILE))
    r'.files.table = r.files.table ∧ r'.files.calls = r.files.calls ∧ r'.made = r.made ∧
    r'.held f = r.held f + n ∧ (r'.files.ofile f).type = FD_FILE ∧
    (r'.files.ofile f).rcnt = (r.files.ofile f).rcnt + n := by
  induction n generalizing r with
  | zero => simpa using htype
  | succ n ih =>
    obtain ⟨r₁, hr₁⟩ : ∃ r₁, next r (.getFd 0 FD_FILE) = r₁ := ⟨_, rfl⟩
    have hstep : r₁ = { r with
        files := (addRcnt r.files f 1).2
        held := Function.update r.held f (r.held f + 1) } := by
      have htest : (r.files.ofile f).type &&& FD_FILE ≠ 0 := by rw [htype]; decide
      rw [← hr₁]
      simp only [next, getFd]
      rw [if_pos ⟨le_rfl, by omega⟩, Int.toNat_zero, hf]
      dsimp only
      rw [if_pos htest]
    rw [List.replicate_succ, runTrace_cons, hr₁]
    have hrest := ih (r := r₁) (by rw [hstep]; exact hnum) (by rw [hstep]; exact hf)
      (by rw [hstep]; simpa [addRcnt] using htype)
    obtain ⟨h₁, h₂, h₃, h₄, h₅, h₆⟩ := hrest
    refine ⟨?_, ?_, ?_, ?_, h₅, ?_⟩
    · rw [h₁, hstep]
      rfl
    · rw [h₂, hstep]
      rfl
    · rw [h₃, hstep]
    · rw [h₄, hstep]
      simp only [Function.update_self]
      omega
    · rw [h₆, hstep]
      simp only [addRcnt, Function.update_self]
      push_cast
      ring

/-- One open file, held `n` times and let go once. -/
def heldOften (n : ℕ) : List Event :=
  .openFd FD_FILE 5 0 :: (List.replicate n (.getFd 0 FD_FILE) ++ [.putFd 0])

theorem heldOften_unsound {n : ℕ} (hpos : 0 < n) (hn : n % 2 ^ 32 = 0) :
    EveryStep next Enabled (start 40 fun _ => ⟨0, 0, 0, 0⟩) (heldOften n) ∧
    ¬ EveryState next (fun r => Sound r ∧ Searches r.files) (start 40 fun _ => ⟨0, 0, 0, 0⟩)
      (heldOften n) := by
  obtain ⟨r, hr⟩ : ∃ r, next (start 40 fun _ => ⟨0, 0, 0, 0⟩) (.openFd FD_FILE 5 0) = r := ⟨_, rfl⟩
  have hnum : r.files.table.num = 40 := by rw [← hr]; decide +kernel
  have hfds : r.files.table.fds 0 = some 0 := by rw [← hr]; decide +kernel
  have htype : (r.files.ofile 0).type = FD_FILE := by rw [← hr]; decide +kernel
  have hrcnt : (r.files.ofile 0).rcnt = 1 := by rw [← hr]; decide +kernel
  obtain ⟨_, _, _, hheld, _, hcount⟩ := run_getFd (by omega) hfds htype n
  have hgets : ∀ (m : ℕ) (r : Session), EveryStep next (fun _ e => e = .getFd 0 FD_FILE) r
      (List.replicate m (.getFd 0 FD_FILE)) := by
    intro m
    induction m with
    | zero => exact fun _ => trivial
    | succ m ih => exact fun r => ⟨rfl, ih _⟩
  refine ⟨⟨trivial, everyStep_append.mpr ⟨?_, ?_, trivial⟩⟩, ?_⟩
  · refine (hgets n _).mono ?_
    rintro r e rfl
    trivial
  · rw [hr]
    change 0 < (runTrace next r (List.replicate n (.getFd 0 FD_FILE))).held 0
    omega
  · intro hsound
    have hbefore : Sound (runTrace next r (List.replicate n (.getFd 0 FD_FILE))) := by
      refine (everyState_of_step ?_ (hr ▸ hsound.2.head.1) (hgets n r)).last
      rintro r e h rfl
      exact h.getFd 0 FD_FILE
    have hafter := hsound.last.1
    rw [heldOften, runTrace_cons, hr, runTrace_append, runTrace_cons, runTrace_nil,
      hbefore.putFd_iff (by omega), hcount, hrcnt] at hafter
    unfold Seen at hafter
    omega

end Wrap

/-- With 2 ^ 32 references beside the slot, the first one to go is taken for the last. -/
theorem held_file_freed :
    EveryStep next Enabled (start 40 fun _ => ⟨0, 0, 0, 0⟩) (heldOften (2 ^ 32)) ∧
    ¬ EveryState next (fun r => Sound r ∧ Searches r.files) (start 40 fun _ => ⟨0, 0, 0, 0⟩)
      (heldOften (2 ^ 32)) :=
  heldOften_unsound (by decide) (by decide)

end DescriptorTable
