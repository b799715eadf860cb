import Mathlib.Tactic
import FsKit.MachineIntegers

/-! Splitting a command line into words (`build_argv` in `argv.c`). The line is edited in
place: the memory is a list of bytes, and a pointer into it is an index. `calloc` fails when it
is asked for a size that is negative as an int, and for no other. -/
namespace ArgumentVector

open MachineIntegers

def DOUBLE_QUOTE : UInt8 := 34
def SINGLE_QUOTE : UInt8 := 39
def BACK_SLASH : UInt8 := 92

section Code

def byteAt (mem : List UInt8) (str : ℕ) : UInt8 := mem.getD str 0

def isBlank (c : UInt8) : Bool := c = 32 ∨ c = 9 ∨ c = 10

/-- The bytes from `str` on after `strcpy(str, str + 1)`: each is the next one, up to the NUL. -/
def shift : List UInt8 → List UInt8
  | _ :: d :: rest => d :: if d = 0 then d :: rest else shift (d :: rest)
  | rest => rest

def copyDown (mem : List UInt8) (str : ℕ) : List UInt8 := mem.take str ++ shift (mem.drop str)

def skipBlanks (mem : List UInt8) : ℕ → ℕ → ℕ
  | 0, str => str
  | fuel + 1, str =>
    if byteAt mem str ≠ 0 ∧ isBlank (byteAt mem str) then skipBlanks mem fuel (str + 1) else str

/-- The loops over a word, which differ in the byte that ends it. -/
def scanWord (ends : UInt8 → Bool) : ℕ → List UInt8 → ℕ → List UInt8 × ℕ
  | 0, mem, str => (mem, str)
  | fuel + 1, mem, str =>
    if byteAt mem str ≠ 0 ∧ ¬ends (byteAt mem str) then
      let mem := if byteAt mem str = BACK_SLASH then copyDown mem str else mem
      scanWord ends fuel mem (str + 1)
    else (mem, str)

/-- Where the word starts, and what ends it. -/
def opening (mem : List UInt8) (str : ℕ) : ℕ × (UInt8 → Bool) :=
  if byteAt mem str = DOUBLE_QUOTE then (str + 1, fun c => c = DOUBLE_QUOTE)
  else if byteAt mem str = SINGLE_QUOTE then (str + 1, fun c => c = SINGLE_QUOTE)
  else (str, isBlank)

structure Table where
  argv : List (Option ℕ)
  argc : ℕ
  tableSize : ℤ

def calloc (size : ℤ) : Option (List (Option ℕ)) :=
  if size < 0 then none else some (List.replicate size.toNat none)

/-- The end of a turn. None is where `calloc` fails. -/
def grow (t : Table) : Option Table :=
  if t.tableSize - 1 ≤ t.argc then
    let tableSize := toInt32 (t.tableSize * 2)
    (calloc tableSize).map fun nargv =>
      { t with argv := t.argv.take t.argc ++ nargv.drop t.argc, tableSize := tableSize }
  else some t

def mainLoop : ℕ → List UInt8 → ℕ → Table → Option (Table × List UInt8)
  | 0, mem, _, t => some (t, mem)
  | fuel + 1, mem, str, t =>
    if byteAt mem str = 0 then some (t, mem)
    else
      let str := skipBlanks mem mem.length str
      if byteAt mem str = 0 then some (t, mem)
      else
        let (start, ends) := opening mem str
        let argv := t.argv.set t.argc (some start)
        let (mem, str) := scanWord ends mem.length mem start
        let (mem, str) := if byteAt mem str ≠ 0 then (mem.set str 0, str + 1) else (mem, str)
        match grow { t with argv := argv, argc := t.argc + 1 } with
        | none => none
        | some t => mainLoop fuel mem str t

/-- The table with `argc` in it and the memory after the call; none is the null pointer. -/
def buildArgv (mem : List UInt8) : Option (Table × List UInt8) :=
  (calloc 16).bind fun argv => mainLoop (mem.length + 1) mem 0 ⟨argv, 0, 16⟩

end Code

section Lines

inductive Quote where
  | double
  | single
  deriving DecidableEq, Repr

def Quote.byte : Quote → UInt8
  | .double => DOUBLE_QUOTE
  | .single => SINGLE_QUOTE

/-- A backslash before every backslash and every quote. -/
def escape (q : Quote) (arg : List UInt8) : List UInt8 :=
  arg.flatMap fun c => if c = BACK_SLASH ∨ c = q.byte then [BACK_SLASH, c] else [c]

/-- Arguments in quotes, each followed by what separates it from the next one. -/
def line (q : Quote) : List (List UInt8 × List UInt8) → List UInt8
  | [] => []
  | (arg, sep) :: words => q.byte :: escape q arg ++ q.byte :: sep ++ line q words

/-- The bytes from an address up to the first NUL. -/
def cString (mem : List UInt8) (str : ℕ) : List UInt8 := (mem.drop str).takeWhile (· ≠ 0)

/-- What `build_argv` returned is this list of strings and a null pointer. -/
def Returns (args : List (List UInt8)) (r : Option (Table × List UInt8)) : Prop :=
  ∃ t mem, r = some (t, mem) ∧ t.argc = args.length ∧
    (∀ (i : ℕ) (arg : List UInt8), args[i]? = some arg → ∃ str, t.argv[i]? = some (some str) ∧
      cString mem str = arg) ∧
    t.argv[args.length]? = some none

end Lines

section Scanning
variable {q : Quote}

@[simp] theorem byteAt_length (pre rest : List UInt8) (c : UInt8) :
    byteAt (pre ++ c :: rest) pre.length = c := by
  simp [byteAt]

theorem Quote.byte_ne (q : Quote) :
    q.byte ≠ 0 ∧ q.byte ≠ BACK_SLASH ∧ isBlank q.byte = false := by
  cases q <;> decide

/-- What is left of the string moves down by one, and its NUL is there twice. -/
theorem shift_eq {t : List UInt8} (ht : 0 ∉ t) (c : UInt8) (junk : List UInt8) :
    shift (c :: (t ++ 0 :: junk)) = t ++ 0 :: 0 :: junk := by
  induction t generalizing c with
  | nil => simp [shift]
  | cons d t ih =>
    rw [List.mem_cons, not_or] at ht
    rw [List.cons_append, shift, if_neg (Ne.symm ht.1), ih ht.2]
    rfl

theorem copyDown_eq {t : List UInt8} (ht : 0 ∉ t) (pre : List UInt8) (c : UInt8)
    (junk : List UInt8) :
    copyDown (pre ++ c :: (t ++ 0 :: junk)) pre.length = pre ++ (t ++ 0 :: 0 :: junk) := by
  rw [copyDown, List.take_left, List.drop_left, shift_eq ht]

theorem zero_not_mem_escape {arg : List UInt8} (h : 0 ∉ arg) : 0 ∉ escape q arg := by
  intro hmem
  obtain ⟨c, hc, hin⟩ := List.mem_flatMap.mp hmem
  split at hin
  · rcases List.mem_cons.mp hin with heq | hin
    · exact absurd heq (by decide)
    · rw [List.mem_singleton] at hin
      exact h (hin ▸ hc)
  · rw [List.mem_singleton] at hin
    exact h (hin ▸ hc)

/-- The scan of a quoted word takes the backslashes out and stops at the closing quote. -/
theorem scanWord_escape {arg rest : List UInt8} (harg : 0 ∉ arg) (hrest : 0 ∉ rest)
    (pre junk : List UInt8) {fuel : ℕ} (hf : arg.length ≤ fuel) :
    ∃ junk', scanWord (fun c => c = q.byte) fuel
        (pre ++ (escape q arg ++ q.byte :: rest ++ 0 :: junk)) pre.length =
      (pre ++ (arg ++ q.byte :: rest ++ 0 :: junk'), pre.length + arg.length) := by
  obtain ⟨hzero, hslash, _⟩ := q.byte_ne
  induction arg generalizing pre junk fuel with
  | nil =>
    refine ⟨junk, ?_⟩
    cases fuel with
    | zero => rfl
    | succ fuel => simp [scanWord, escape]
  | cons c arg ih =>
    obtain ⟨fuel, rfl⟩ := Nat.exists_eq_add_one_of_ne_zero (Nat.ne_zero_of_lt hf)
    rw [List.mem_cons, not_or] at harg
    have hstep : ∃ junk', scanWord (fun c => c = q.byte) (fuel + 1)
          (pre ++ (escape q (c :: arg) ++ q.byte :: rest ++ 0 :: junk)) pre.length =
        scanWord (fun c => c = q.byte) fuel
          ((pre ++ [c]) ++ (escape q arg ++ q.byte :: rest ++ 0 :: junk')) (pre ++ [c]).length := by
      by_cases hc : c = BACK_SLASH ∨ c = q.byte
      · have hesc : escape q (c :: arg) = BACK_SLASH :: c :: escape q arg := by
          simp [escape, hc]
        have hleft : 0 ∉ c :: (escape q arg ++ q.byte :: rest) := by
          simp [harg.1, zero_not_mem_escape harg.2, hzero.symm, hrest]
        have hcopy := copyDown_eq hleft pre BACK_SLASH junk
        refine ⟨0 :: junk, ?_⟩
        rw [hesc, scanWord]
        simp only [List.cons_append, List.append_assoc] at hcopy ⊢
        simp [hcopy, hslash.symm, show BACK_SLASH ≠ 0 by decide]
      · rw [not_or] at hc
        have hesc : escape q (c :: arg) = c :: escape q arg := by simp [escape, hc]
        refine ⟨junk, ?_⟩
        rw [hesc, scanWord]
        simp [hc, Ne.symm harg.1]
    obtain ⟨junk₁, hstep⟩ := hstep
    obtain ⟨junk', hrun⟩ := ih harg.2 (pre ++ [c]) junk₁ (Nat.le_of_succ_le_succ hf)
    refine ⟨junk', ?_⟩
    rw [hstep, hrun]
    refine Prod.ext (by simp) ?_
    simp
    omega

theorem skipBlanks_eq {sep : List UInt8} (hsep : ∀ c ∈ sep, isBlank c) {c : UInt8}
    (hc : c = 0 ∨ isBlank c = false) (pre rest : List UInt8) {fuel : ℕ} (hf : sep.length ≤ fuel) :
    skipBlanks (pre ++ (sep ++ c :: rest)) fuel pre.length = (pre ++ sep).length := by
  induction sep generalizing pre fuel with
  | nil =>
    cases fuel with
    | zero => simp [skipBlanks]
    | succ fuel => rcases hc with rfl | hc <;> simp_all [skipBlanks]
  | cons b sep ih =>
    obtain ⟨fuel, rfl⟩ := Nat.exists_eq_add_one_of_ne_zero (Nat.ne_zero_of_lt hf)
    have hb := hsep b List.mem_cons_self
    have hne : b ≠ 0 := by
      rintro rfl
      exact absurd hb (by decide)
    have hrest := ih (fun c hc => hsep c (List.mem_cons_of_mem b hc)) (pre ++ [b])
      (Nat.le_of_succ_le_succ hf)
    rw [skipBlanks]
    simp only [List.cons_append, byteAt_length, hb, hne, ne_eq, not_false_eq_true, and_self,
      if_true]
    simpa [add_comm] using hrest

end Scanning

section Tables

/-- In the memory that starts with `pre`, the string at `str` is `arg`. -/
def Stored (pre : List UInt8) (str : ℕ) (arg : List UInt8) : Prop :=
  0 ∉ arg ∧ ∃ a b, pre = a ++ (arg ++ 0 :: b) ∧ str = a.length

theorem Stored.more {pre : List UInt8} {str : ℕ} {arg : List UInt8} (h : Stored pre str arg)
    (rest : List UInt8) : Stored (pre ++ rest) str arg := by
  obtain ⟨hzero, a, b, rfl, hstr⟩ := h
  exact ⟨hzero, a, b ++ rest, by simp, hstr⟩

theorem Stored.cString {pre : List UInt8} {str : ℕ} {arg : List UInt8} (h : Stored pre str arg) :
    cString pre str = arg := by
  obtain ⟨hzero, a, b, rfl, rfl⟩ := h
  have hall : ∀ c ∈ arg, decide (c ≠ 0) = true := by
    intro c hc
    simp only [ne_eq, decide_not, Bool.not_eq_true', decide_eq_false_iff_not]
    rintro rfl
    exact hzero hc
  rw [ArgumentVector.cString, List.drop_left, List.takeWhile_append_of_pos hall]
  simp

/-- The table holds the words in `done`, whose strings are in the memory up to `pre`, and has
room for another word and a null pointer. -/
structure Holds (pre : List UInt8) (done : List (List UInt8)) (t : Table) : Prop where
  argc : t.argc = done.length
  size : (t.argv.length : ℤ) = t.tableSize
  power : ∃ k, k ≤ 30 ∧ t.tableSize = 2 ^ k
  room : (t.argc : ℤ) < t.tableSize - 1
  entries : ∀ (i : ℕ) (arg : List UInt8), done[i]? = some arg →
    ∃ str, t.argv[i]? = some (some str) ∧ Stored pre str arg
  nulls : ∀ i, t.argc ≤ i → i < t.argv.length → t.argv[i]? = some none

/-- One more word than the table can grow to hold. -/
def limit : ℕ := 2 ^ 30 - 1

theorem Holds.lt_limit {pre : List UInt8} {done : List (List UInt8)} {t : Table}
    (h : Holds pre done t) : done.length < limit := by
  obtain ⟨k, hk, hsize⟩ := h.power
  have hroom := h.room
  have hle : (2 : ℤ) ^ k ≤ 2 ^ 30 := pow_le_pow_right₀ (by norm_num) hk
  rw [hsize, h.argc] at hroom
  unfold limit
  norm_num at hle ⊢
  omega

/-- The table with one more word, before it grows. -/
theorem Holds.entered {pre : List UInt8} {done : List (List UInt8)} {t : Table}
    (h : Holds pre done t) {str : ℕ} {arg rest : List UInt8} (hstr : Stored (pre ++ rest) str arg) :
    (∀ (i : ℕ) (arg' : List UInt8), (done ++ [arg])[i]? = some arg' →
      ∃ str', (t.argv.set t.argc (some str))[i]? = some (some str') ∧
        Stored (pre ++ rest) str' arg') ∧
    ∀ i, t.argc + 1 ≤ i → i < t.argv.length →
      (t.argv.set t.argc (some str))[i]? = some none := by
  have hroom := h.room
  have hsize := h.size
  constructor
  · intro i arg' hi
    by_cases hlt : i < done.length
    · rw [List.getElem?_append_left hlt] at hi
      obtain ⟨str', hat, hstored⟩ := h.entries i arg' hi
      have hne : t.argc ≠ i := by
        rw [h.argc]
        omega
      exact ⟨str', by rwa [List.getElem?_set_ne hne], hstored.more rest⟩
    · have hlast : i = done.length := by
        have := (List.getElem?_eq_some_iff.mp hi).1
        simp at this
        omega
      subst hlast
      have harg : arg = arg' := by simpa using hi
      subst harg
      rw [← h.argc]
      exact ⟨str, List.getElem?_set_self (by omega), hstr⟩
  · intro i hi hlt
    rw [List.getElem?_set_ne (by omega)]
    exact h.nulls i (by omega) hlt

theorem grow_room {t : Table} (h : (t.argc : ℤ) < t.tableSize - 1) : grow t = some t :=
  if_neg (not_le.mpr h)

theorem grow_full {t : Table} {k : ℕ} (hk : k < 30) (hsize : t.tableSize = 2 ^ k)
    (h : t.tableSize - 1 ≤ t.argc) :
    grow t = some { t with
      argv := t.argv.take t.argc ++ (List.replicate (2 ^ (k + 1)) none).drop t.argc
      tableSize := 2 ^ (k + 1) } := by
  have hdouble : toInt32 (t.tableSize * 2) = 2 ^ (k + 1) := by
    have hlt : (2 : ℤ) ^ (k + 1) < 2 ^ 31 := pow_lt_pow_right₀ (by norm_num) (by omega)
    have hpos : (0 : ℤ) < 2 ^ (k + 1) := by positivity
    rw [hsize, ← pow_succ]
    exact Int.bmod_eq_of_le (by norm_num; omega) (by norm_num; omega)
  have hnat : ((2 : ℤ) ^ (k + 1)).toNat = 2 ^ (k + 1) := by
    rw [← Nat.cast_ofNat, ← Nat.cast_pow, Int.toNat_natCast]
  rw [grow, if_pos h]
  dsimp only
  rw [hdouble, calloc, if_neg (not_lt.mpr (by positivity)), hnat]
  rfl

theorem grow_limit {t : Table} (hsize : t.tableSize = 2 ^ 30) (h : t.tableSize - 1 ≤ t.argc) :
    grow t = none := by
  have hneg : toInt32 (t.tableSize * 2) < 0 := by
    rw [hsize]
    decide
  rw [grow, if_pos h]
  dsimp only
  rw [calloc, if_pos hneg]
  rfl

/-- A word is entered and the table grows, as long as its size is an int. -/
theorem Holds.next {pre : List UInt8} {done : List (List UInt8)} {t : Table}
    (h : Holds pre done t) {str : ℕ} {arg rest : List UInt8} (hstr : Stored (pre ++ rest) str arg) :
    (done.length + 1 < limit → ∃ t',
      grow { t with argv := t.argv.set t.argc (some str), argc := t.argc + 1 } = some t' ∧
      Holds (pre ++ rest) (done ++ [arg]) t') ∧
    (done.length + 1 = limit →
      grow { t with argv := t.argv.set t.argc (some str), argc := t.argc + 1 } = none) := by
  obtain ⟨hentries, hnulls⟩ := h.entered hstr
  obtain ⟨k, hk, hsize⟩ := h.power
  have hroom := h.room
  have hlen := h.size
  have hargc := h.argc
  have hset : (t.argv.set t.argc (some str)).length = t.argv.length := List.length_set
  have hdone : (done ++ [arg]).length = done.length + 1 := by simp
  have hlimit : limit = 2 ^ 30 - 1 := rfl
  by_cases hfull : t.tableSize - 1 ≤ ((t.argc + 1 : ℕ) : ℤ)
  · have hexact : t.tableSize = (t.argc + 2 : ℕ) := by
      push_cast at hfull ⊢
      omega
    constructor
    · intro hlt
      have hk' : k < 30 := by
        by_contra hge
        obtain rfl : k = 30 := by omega
        norm_num at hsize hlimit
        omega
      refine ⟨_, grow_full hk' hsize hfull, ?_⟩
      have hdouble : (2 : ℤ) ^ (k + 1) = 2 * (t.argc + 2 : ℕ) := by
        rw [pow_succ, mul_comm, ← hsize, hexact]
      have hdouble' : 2 ^ (k + 1) = 2 * (t.argc + 2) := by exact_mod_cast hdouble
      have htake : ((t.argv.set t.argc (some str)).take (t.argc + 1)).length = t.argc + 1 := by
        rw [List.length_take, hset]
        omega
      refine ⟨by simp [hargc], ?_, ⟨k + 1, hk', rfl⟩, ?_, ?_, ?_⟩
      · simp only [List.length_append, htake, List.length_drop, List.length_replicate, hdouble,
          hdouble']
        omega
      · simp only [hdouble]
        push_cast
        omega
      · intro i arg' hi
        have hlt : i < t.argc + 1 := by
          have := (List.getElem?_eq_some_iff.mp hi).1
          omega
        obtain ⟨str', hat, hstored⟩ := hentries i arg' hi
        refine ⟨str', ?_, hstored⟩
        dsimp only
        rw [List.getElem?_append_left (by omega), List.getElem?_take_of_lt hlt, hat]
      · intro i hi hlt
        simp only [List.length_append, htake, List.length_drop, List.length_replicate] at hlt
        dsimp only at hi ⊢
        rw [List.getElem?_append_right (by omega), htake, List.getElem?_drop,
          List.getElem?_replicate, if_pos (by omega)]
    · intro heq
      apply grow_limit _ hfull
      simp only [hexact]
      norm_num at hlimit ⊢
      omega
  · rw [not_le] at hfull
    constructor
    · intro _
      refine ⟨_, grow_room hfull, by simp [hargc], ?_, ⟨k, hk, hsize⟩, hfull, hentries, ?_⟩
      · rw [← hlen, hset]
      · intro i hi hlt
        rw [hset] at hlt
        exact hnulls i hi hlt
    · intro heq
      have hle : (2 : ℤ) ^ k ≤ 2 ^ 30 := pow_le_pow_right₀ (by norm_num) hk
      rw [hsize] at hfull
      norm_num at hle hlimit
      push_cast at hfull
      omega

end Tables

section Runs
variable {q : Quote}

theorem opening_quote (pre rest : List UInt8) :
    opening (pre ++ q.byte :: rest) pre.length =
      (pre.length + 1, fun c => decide (c = q.byte)) := by
  unfold opening
  rw [byteAt_length]
  cases q <;> rfl

/-- The first byte of blanks and what follows them is NUL only if that is. -/
theorem byteAt_blanks {sep : List UInt8} (hsep : ∀ c ∈ sep, isBlank c) {c : UInt8} (hc : c ≠ 0)
    (pre rest : List UInt8) : byteAt (pre ++ (sep ++ c :: rest)) pre.length ≠ 0 := by
  cases sep with
  | nil => simpa using hc
  | cons b sep =>
    rw [List.cons_append, byteAt_length]
    rintro rfl
    exact absurd (hsep 0 List.mem_cons_self) (by decide)

theorem length_le_escape (q : Quote) (arg : List UInt8) : arg.length ≤ (escape q arg).length := by
  induction arg with
  | nil => exact le_rfl
  | cons c arg ih =>
    rw [escape, List.flatMap_cons, List.length_append, List.length_cons]
    rw [escape] at ih
    have hone : 1 ≤ (if c = BACK_SLASH ∨ c = q.byte then [BACK_SLASH, c] else [c]).length := by
      split <;> simp
    omega

/-- The memory after a word was scanned and cut off, up to where the next turn starts. -/
def cutOff (q : Quote) (pre sep arg : List UInt8) : List UInt8 :=
  pre ++ sep ++ q.byte :: (arg ++ [0])

theorem mainLoop_word {sep arg rest : List UInt8} (hsep : ∀ c ∈ sep, isBlank c) (harg : 0 ∉ arg)
    (hrest : 0 ∉ rest) (pre junk : List UInt8) (t : Table) (fuel : ℕ) :
    ∃ junk', mainLoop (fuel + 1)
        (pre ++ (sep ++ q.byte :: (escape q arg ++ q.byte :: rest ++ 0 :: junk))) pre.length t =
      (grow { t with
        argv := t.argv.set t.argc (some ((pre ++ sep).length + 1))
        argc := t.argc + 1 }).bind
      (mainLoop fuel (cutOff q pre sep arg ++ (rest ++ 0 :: junk'))
        (cutOff q pre sep arg).length) := by
  obtain ⟨hzero, _, hblank⟩ := q.byte_ne
  generalize hmem : pre ++ (sep ++ q.byte :: (escape q arg ++ q.byte :: rest ++ 0 :: junk)) = mem
  have hlen : sep.length ≤ mem.length ∧ arg.length ≤ mem.length := by
    have hesc := length_le_escape q arg
    rw [← hmem]
    simp only [List.length_append, List.length_cons]
    omega
  have hstart := byteAt_blanks hsep hzero pre (escape q arg ++ q.byte :: rest ++ 0 :: junk)
  have hskip := skipBlanks_eq hsep (Or.inr hblank) pre
    (escape q arg ++ q.byte :: rest ++ 0 :: junk) hlen.1
  have hquote : mem = (pre ++ sep) ++ q.byte :: (escape q arg ++ q.byte :: rest ++ 0 :: junk) := by
    rw [← hmem, List.append_assoc pre]
  have hat : byteAt mem (pre ++ sep).length = q.byte := by rw [hquote, byteAt_length]
  have hopen := opening_quote (q := q) (pre ++ sep) (escape q arg ++ q.byte :: rest ++ 0 :: junk)
  obtain ⟨junk', hscan⟩ := scanWord_escape harg hrest (pre ++ sep ++ [q.byte]) junk hlen.2
  have hinside : pre ++ sep ++ [q.byte] ++ (escape q arg ++ q.byte :: rest ++ 0 :: junk) = mem := by
    rw [hquote]
    simp
  have hend : pre ++ sep ++ [q.byte] ++ (arg ++ q.byte :: rest ++ 0 :: junk') =
      (pre ++ sep ++ q.byte :: arg) ++ q.byte :: (rest ++ 0 :: junk') := by simp
  have hlast : (pre ++ sep ++ [q.byte]).length + arg.length =
      (pre ++ sep ++ q.byte :: arg).length := by
    simp
    omega
  have hcut : (pre ++ sep ++ q.byte :: arg ++ q.byte :: (rest ++ 0 :: junk')).set
      (pre ++ sep ++ q.byte :: arg).length 0 = cutOff q pre sep arg ++ (rest ++ 0 :: junk') := by
    rw [List.set_append_right _ _ le_rfl]
    simp [cutOff]
  have hnext : (pre ++ sep ++ q.byte :: arg).length + 1 = (cutOff q pre sep arg).length := by
    simp [cutOff]
    omega
  rw [hmem] at hstart hskip
  rw [← hquote] at hopen
  rw [hinside, hend, hlast] at hscan
  have hstr : (pre ++ sep ++ [q.byte]).length = (pre ++ sep).length + 1 := List.length_append
  rw [hstr] at hscan
  refine ⟨junk', ?_⟩
  rw [mainLoop, if_neg hstart, hskip]
  dsimp only
  rw [hat, if_neg hzero, hopen]
  dsimp only
  rw [hscan]
  dsimp only
  rw [byteAt_length, if_pos hzero]
  dsimp only
  rw [hcut, hnext]
  cases grow { t with
    argv := t.argv.set t.argc (some ((pre ++ sep).length + 1)), argc := t.argc + 1 } <;> rfl

/-- Arguments without a NUL, with nothing but blanks between them. -/
def Plain (words : List (List UInt8 × List UInt8)) : Prop :=
  ∀ w ∈ words, 0 ∉ w.1 ∧ ∀ c ∈ w.2, isBlank c

theorem zero_not_mem_blanks {sep : List UInt8} (hsep : ∀ c ∈ sep, isBlank c) : 0 ∉ sep :=
  fun hmem => absurd (hsep 0 hmem) (by decide)

theorem Plain.zero_not_mem {words : List (List UInt8 × List UInt8)} (h : Plain words) :
    0 ∉ line q words := by
  obtain ⟨hzero, _, _⟩ := q.byte_ne
  induction words with
  | nil => exact List.not_mem_nil
  | cons w words ih =>
    obtain ⟨harg, hsep⟩ := h w List.mem_cons_self
    have hrest := ih fun v hv => h v (List.mem_cons_of_mem w hv)
    simp [line, hzero.symm, zero_not_mem_escape harg, zero_not_mem_blanks hsep, hrest]

theorem stored_cutOff {arg : List UInt8} (harg : 0 ∉ arg) (pre sep : List UInt8) :
    Stored (pre ++ (sep ++ q.byte :: (arg ++ [0]))) ((pre ++ sep).length + 1) arg :=
  ⟨harg, pre ++ sep ++ [q.byte], [], by simp,
    by simp only [List.length_append, List.length_singleton]⟩

/-- At the end of the line the loop stops. -/
theorem mainLoop_end {sep : List UInt8} (hsep : ∀ c ∈ sep, isBlank c) (pre junk : List UInt8)
    (t : Table) (fuel : ℕ) :
    mainLoop (fuel + 1) (pre ++ (sep ++ 0 :: junk)) pre.length t =
      some (t, pre ++ (sep ++ 0 :: junk)) := by
  rw [mainLoop]
  split
  · rfl
  · have hskip := skipBlanks_eq hsep (Or.inl rfl) pre junk
      (show sep.length ≤ (pre ++ (sep ++ 0 :: junk)).length by simp; omega)
    rw [hskip]
    dsimp only
    rw [← List.append_assoc, byteAt_length, if_pos rfl]

/-- The loop from the end of a word on. Either all the words that follow fit the table, or there
is one too many. -/
theorem mainLoop_run {words : List (List UInt8 × List UInt8)} (hw : Plain words)
    {sep : List UInt8} (hsep : ∀ c ∈ sep, isBlank c) {pre : List UInt8}
    {done : List (List UInt8)} {t : Table} (h : Holds pre done t) (junk : List UInt8) {fuel : ℕ}
    (hf : words.length < fuel) :
    (done.length + words.length < limit → ∃ t' pre' rest,
      mainLoop fuel (pre ++ (sep ++ (line q words ++ 0 :: junk))) pre.length t =
        some (t', pre' ++ rest) ∧ Holds pre' (done ++ words.map Prod.fst) t') ∧
    (limit ≤ done.length + words.length →
      mainLoop fuel (pre ++ (sep ++ (line q words ++ 0 :: junk))) pre.length t = none) := by
  induction words generalizing sep pre done t junk fuel with
  | nil =>
    obtain ⟨fuel, rfl⟩ := Nat.exists_eq_add_one_of_ne_zero (Nat.ne_zero_of_lt hf)
    have hlt := h.lt_limit
    refine ⟨fun _ => ⟨t, pre, _, mainLoop_end hsep pre junk t fuel, by simpa using h⟩, ?_⟩
    intro hge
    exact absurd hlt (not_lt.mpr hge)
  | cons w words ih =>
    obtain ⟨fuel, rfl⟩ := Nat.exists_eq_add_one_of_ne_zero (Nat.ne_zero_of_lt hf)
    obtain ⟨arg, sep'⟩ := w
    obtain ⟨harg, hsep'⟩ := hw _ List.mem_cons_self
    have hwords : Plain words := fun v hv => hw v (List.mem_cons_of_mem _ hv)
    have hrest : 0 ∉ sep' ++ line q words := by
      simp [zero_not_mem_blanks hsep', hwords.zero_not_mem]
    obtain ⟨junk', hturn⟩ := mainLoop_word (q := q) hsep harg hrest pre junk t fuel
    have hline : sep ++ (line q ((arg, sep') :: words) ++ 0 :: junk) =
        sep ++ q.byte :: (escape q arg ++ q.byte :: (sep' ++ line q words) ++ 0 :: junk) := by
      simp [line]
    obtain ⟨hgrows, hstops⟩ := h.next (stored_cutOff (q := q) harg pre sep)
    rw [hline, hturn]
    have hlt := h.lt_limit
    by_cases hone : done.length + 1 = limit
    · rw [hstops hone]
      refine ⟨fun hfit => ?_, fun _ => rfl⟩
      rw [List.length_cons] at hfit
      omega
    · obtain ⟨t', hgrow, hnext⟩ := hgrows (by omega)
      have hcut : pre ++ (sep ++ q.byte :: (arg ++ [0])) = cutOff q pre sep arg := by
        simp [cutOff]
      rw [hcut] at hnext
      obtain ⟨hfits, hmany⟩ := ih hwords hsep' hnext junk' (Nat.lt_of_succ_lt_succ hf)
      rw [hgrow, List.append_assoc sep']
      have hdone : (done ++ [arg]).length + words.length =
          done.length + ((arg, sep') :: words).length := by
        simp
        omega
      rw [hdone] at hfits hmany
      refine ⟨fun hfit => ?_, hmany⟩
      obtain ⟨t'', pre', rest, hrun, hholds⟩ := hfits hfit
      exact ⟨t'', pre', rest, hrun, by simpa using hholds⟩

theorem length_le_line (words : List (List UInt8 × List UInt8)) :
    words.length ≤ (line q words).length := by
  induction words with
  | nil => exact le_rfl
  | cons w words ih =>
    rw [line, List.length_cons]
    simp only [List.length_append, List.length_cons]
    omega

theorem holds_start : Holds [] [] ⟨List.replicate 16 none, 0, 16⟩ where
  argc := rfl
  size := rfl
  power := ⟨4, by decide, by decide⟩
  room := by decide
  entries i arg h := by simp at h
  nulls i _ hlt := by
    rw [List.length_replicate] at hlt
    rw [List.getElem?_replicate, if_pos hlt]

/-- The whole call: the words are in the table, or the table could not grow. -/
theorem buildArgv_run (q : Quote) {words : List (List UInt8 × List UInt8)} (hw : Plain words)
    (junk : List UInt8) :
    (words.length < limit → ∃ t pre rest,
      buildArgv (line q words ++ 0 :: junk) = some (t, pre ++ rest) ∧
        Holds pre (words.map Prod.fst) t) ∧
    (limit ≤ words.length → buildArgv (line q words ++ 0 :: junk) = none) := by
  have hlen := length_le_line (q := q) words
  have hfuel : words.length < (line q words ++ 0 :: junk).length + 1 := by
    rw [List.length_append]
    omega
  have hnone : ∀ c ∈ ([] : List UInt8), isBlank c := by simp
  have hrun := mainLoop_run (q := q) hw hnone holds_start junk hfuel
  have hcall : buildArgv (line q words ++ 0 :: junk) =
      mainLoop ((line q words ++ 0 :: junk).length + 1) ([] ++ ([] ++ (line q words ++ 0 :: junk)))
        ([] : List UInt8).length ⟨List.replicate 16 none, 0, 16⟩ := rfl
  rw [← hcall] at hrun
  simpa only [List.length_nil, zero_add, List.nil_append] using hrun

/-- The arguments come back from the line they were quoted in if and only if there are fewer
than 2^30 - 1 of them. -/
theorem buildArgv_returns_iff (q : Quote) {words : List (List UInt8 × List UInt8)}
    (hw : Plain words) (junk : List UInt8) :
    Returns (words.map Prod.fst) (buildArgv (line q words ++ 0 :: junk)) ↔
      words.length < limit := by
  obtain ⟨hfits, hmany⟩ := buildArgv_run q hw junk
  constructor
  · rintro ⟨t, mem, hr, _⟩
    by_contra hge
    rw [hmany (not_lt.mp hge)] at hr
    cases hr
  · intro hfit
    obtain ⟨t, pre, rest, hr, hholds⟩ := hfits hfit
    have hargc : t.argc = (words.map Prod.fst).length := hholds.argc
    refine ⟨t, _, hr, hargc, ?_, ?_⟩
    · intro i arg hi
      obtain ⟨str, hat, hstored⟩ := hholds.entries i arg hi
      exact ⟨str, hat, (hstored.more rest).cString⟩
    · have hroom := hholds.room
      have hsize := hholds.size
      exact hholds.nulls _ hargc.le (by omega)

/-- The words `a"` and the empty one. -/
theorem buildArgv_returns_two_words :
    Returns [[97, 34], []] (buildArgv (line .double [([97, 34], [32, 9]), ([], [])] ++ [0])) :=
  have hplain : Plain [([97, 34], [32, 9]), ([], [])] := by simp [Plain, isBlank]
  (buildArgv_returns_iff .double hplain []).mpr (by decide)

/-- As many empty arguments as take the table past the largest int, with blanks between. -/
def manyWords : List (List UInt8 × List UInt8) :=
  List.replicate (limit - 1) ([], [32]) ++ [([], [])]

/-- The size of the table overflows, and the call returns null. -/
theorem buildArgv_many_words :
    buildArgv (line .double manyWords ++ [0]) = none ∧
    ¬Returns (manyWords.map Prod.fst) (buildArgv (line .double manyWords ++ [0])) := by
  have hlength : manyWords.length = limit := by
    rw [manyWords, List.length_append, List.length_replicate, List.length_singleton]
    decide
  have hplain : Plain manyWords := by
    intro w hw
    rcases List.mem_append.mp hw with hw | hw
    · simp [List.eq_of_mem_replicate hw, isBlank]
    · simp [List.mem_singleton.mp hw]
  have hnone := (buildArgv_run .double hplain []).2 hlength.ge
  refine ⟨hnone, ?_⟩
  rintro ⟨t, mem, hr, _⟩
  rw [hnone] at hr
  cases hr

end Runs

end ArgumentVector
