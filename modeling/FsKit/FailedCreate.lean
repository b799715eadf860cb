import Mathlib.Tactic
import FsKit.DirectoryOps

/-! Creates that fail for lack of blocks or of inodes. `grow_dstream` rounds the size of the parent
up before it asks for a block, may keep an indirect block it just got, and `myfs_mkdir` never gives
the block of the new directory back; what is left of the promise that a failed create changes
nothing is said exactly. -/
namespace FailedCreate

open MachineIntegers
open BitVectorSearch BlockBitmap InodeTable LittleEndian DataStreamBlocks DataStreamGrowth
open DataStreamShape DirectoryOps

theorem writeBlocks_code (fs : Myfs) (area : ℤ → Block) (map : BitVector) (n : ℤ)
    (mem : ℕ → UInt8) (k : ℤ) :
    (writeBlocks { fs with inodeMap := map, metaArea := area } n mem k).1 =
      (writeBlocks fs n mem k).1 := by
  unfold writeBlocks
  split_ifs <;> rfl

theorem realAllocateBlocks_code (fs : Myfs) (area : ℤ → Block) (map : BitVector) (c a : ℤ)
    (mode : AllocMode) :
    (realAllocateBlocks { fs with inodeMap := map, metaArea := area } c a mode).1 =
      (realAllocateBlocks fs c a mode).1 ∧
    (realAllocateBlocks { fs with inodeMap := map, metaArea := area } c a mode).2.2.1 =
      (realAllocateBlocks fs c a mode).2.2.1 := by
  unfold realAllocateBlocks
  by_cases hc : c ≤ 0
  · simp only [hc, if_true, and_self]
  by_cases hroom : fs.dsb.numBlocks - fs.dsb.usedBlocks < c
  · simp only [hc, hroom, if_true, if_false, and_self]
  simp only [hc, hroom, if_false]
  generalize allocateLoop mode (toInt32 c).toNat fs.bv (toInt32 c) = r
  obtain ⟨start, nblocks, bv⟩ := r
  dsimp only
  by_cases hs : start = -1
  · simp only [hs, if_true, and_self]
  simp only [hs, if_false]
  have hcode := writeBlocks_code { fs with bv := bv } area map
    ((start.tdiv 8).tdiv fs.dsb.blockSize + 1)
    (fun k => chunkByte bv.bits (((start.tdiv 8).tdiv fs.dsb.blockSize *
      fs.dsb.blockSize).toNat + k)) ((nblocks.tdiv 8).tdiv fs.dsb.blockSize + 1)
  dsimp only at hcode
  rw [hcode]
  split
  · exact ⟨rfl, rfl⟩
  · exact ⟨rfl, rfl⟩

/-- Whether a block can be had does not depend on inode map and metadata. -/
theorem growBlock_code (fs : Myfs) (area : ℤ → Block) (map : BitVector) :
    (growBlock { fs with inodeMap := map, metaArea := area }).1 = (growBlock fs).1 := by
  obtain ⟨h₁, h₂⟩ := realAllocateBlocks_code fs area map 1 0 .exactAllocation
  unfold growBlock myfsAllocateBlocks
  generalize realAllocateBlocks { fs with inodeMap := map, metaArea := area } 1 0
    .exactAllocation = r₁ at h₁ h₂ ⊢
  generalize realAllocateBlocks fs 1 0 .exactAllocation = r₂ at h₁ h₂ ⊢
  obtain ⟨err₁, n₁, addr₁, fs₁⟩ := r₁
  obtain ⟨err₂, n₂, addr₂, fs₂⟩ := r₂
  dsimp only at h₁ h₂ ⊢
  subst h₁
  subst h₂
  split
  · rfl
  · split <;> rfl

theorem growDirect_one (fs : Myfs) (mi : Inode) (left : ℕ) (hleft : 0 < left) :
    (growDirect 1 left fs mi 0).1 = (growBlock fs).1 ∧
    ((growBlock fs).1 ≠ 0 → growDirect 1 left fs mi 0 =
      ((growBlock fs).1, 0, mi, (growBlock fs).2.2)) ∧
    ((growBlock fs).1 = 0 → (growDirect 1 left fs mi 0).2.2.1.data.size =
      mi.data.size + (growBlock fs).2.2.dsb.blockSize) := by
  obtain ⟨left, rfl⟩ : ∃ l, left = l + 1 := ⟨left - 1, by omega⟩
  rw [growDirect, if_neg (by decide)]
  generalize growBlock fs = r
  obtain ⟨err, addr, fs₁⟩ := r
  dsimp only
  split
  · rename_i hne
    exact ⟨rfl, fun _ => rfl, fun h => absurd h hne⟩
  · rename_i herr
    rw [not_not] at herr
    subst herr
    have hstop : ∀ fs mi, growDirect 1 left fs mi (0 + 1) = (0, 1, mi, fs) := by
      intro fs mi
      cases left <;> simp [growDirect]
    rw [hstop]
    exact ⟨rfl, fun h => absurd rfl h, fun _ => rfl⟩

theorem growIndirect_one (fs : Myfs) (mi : Inode) (left : ℕ) (hleft : 0 < left) :
    (growIndirect 1 left fs mi 0).1 = (growBlock fs).1 ∧
    ((growBlock fs).1 ≠ 0 → growIndirect 1 left fs mi 0 =
      ((growBlock fs).1, mi, (growBlock fs).2.2)) ∧
    ((growBlock fs).1 = 0 → (growIndirect 1 left fs mi 0).2.1.data.size =
      mi.data.size + (growBlock fs).2.2.dsb.blockSize) := by
  obtain ⟨left, rfl⟩ : ∃ l, left = l + 1 := ⟨left - 1, by omega⟩
  rw [growIndirect, if_neg (by decide)]
  generalize growBlock fs = r
  obtain ⟨err, addr, fs₁⟩ := r
  dsimp only
  split
  · rename_i hne
    exact ⟨rfl, fun _ => rfl, fun h => absurd h hne⟩
  · rename_i herr
    rw [not_not] at herr
    subst herr
    have hstop : ∀ fs mi, growIndirect 1 left fs mi (0 + 1) = (0, mi, fs) := by
      intro fs mi
      cases left <;> simp [growIndirect]
    rw [hstop]
    exact ⟨rfl, fun h => absurd rfl h, fun _ => rfl⟩

/-- How a growth by one block fails for lack of blocks: at the first request, with nothing
taken, or behind an indirect block that stays allocated. -/
def FailedGrowth (fs fs' : Myfs) : Prop :=
  ((growBlock fs).1 = ENOSPC ∧ Refused fs fs') ∨
  ((growBlock fs).1 = 0 ∧ (∃ p, fs.bv.bit p = false ∧ fs'.bv.bit p = true) ∧
    ∀ p, fs.bv.bit p = true → fs'.bv.bit p = true)

theorem growBlock_enospc {fs : Myfs} (h : (growBlock fs).1 = ENOSPC) :
    Refused fs (growBlock fs).2.2 := by
  rcases growBlock_cases fs with ⟨_, h₁, _⟩ | ⟨_, hr⟩ | h₁
  · rw [h] at h₁; cases h₁
  · exact hr
  · rw [h] at h₁; cases h₁

theorem growIndirectRange_enospc {fs fs' : Myfs} {mi mi' : Inode} {newSize : ℤ} {m : ℕ}
    (hbs : 0 < fs.dsb.blockSize) (hm : mi.data.size = m * fs.dsb.blockSize)
    (h : growIndirectRange fs mi newSize 1 0 = (ENOSPC, mi', fs')) :
    mi'.data.size = mi.data.size ∧ mi'.contents = mi.contents ∧ FailedGrowth fs fs' := by
  have hbz : (0 : ℤ) < fs.dsb.blockSize := by exact_mod_cast hbs
  have hend : ∀ fs₁ mi₁, growEnd fs₁ mi₁ ≠ (ENOSPC, mi', fs') := by
    intro fs₁ mi₁ he
    unfold growEnd at he
    split at he <;> simp [E2BIG, ENOSPC] at he
  unfold growIndirectRange at h
  dsimp only at h
  split at h
  swap
  · exact absurd h (hend _ _)
  rename_i hrange
  have hleft : ∀ fs₁ : Myfs, fs₁.dsb.blockSize = fs.dsb.blockSize →
      0 < maxIndex fs₁ - ((mi.data.size - directSize fs.dsb.blockSize) /
        (fs.dsb.blockSize : ℤ)).toNat := by
    intro fs₁ hb₁
    have hlt := hrange.2
    rw [maxIndirectRange] at hlt
    have : (mi.data.size - directSize fs.dsb.blockSize) / (fs.dsb.blockSize : ℤ) <
        fs.dsb.blockSize / 8 := by
      apply Int.ediv_lt_of_lt_mul hbz
      rw [indirectSize] at hlt
      omega
    have := Int.ediv_nonneg (show 0 ≤ mi.data.size - directSize fs.dsb.blockSize by omega) hbz.le
    unfold maxIndex
    rw [hb₁]
    omega
  unfold openIndirect at h
  split at h
  · -- the indirect block is missing and is asked for first
    rename_i hnone
    have hcases := growBlock_cases fs
    generalize hr : growBlock fs = r at h hcases
    obtain ⟨err, addr, fs₁⟩ := r
    dsimp only at h hcases
    split at h
    · rename_i hne
      simp only [Prod.mk.injEq] at h
      obtain ⟨rfl, rfl, rfl⟩ := h
      have herr : (growBlock fs).1 = ENOSPC := by rw [hr]
      have := growBlock_enospc herr
      rw [hr] at this
      exact ⟨rfl, rfl, Or.inl ⟨herr, this⟩⟩
    · rename_i herr
      rw [not_not] at herr
      subst herr
      obtain ⟨start, _, rfl, ha⟩ | ⟨hbad, _⟩ | hbad := hcases
      swap
      · cases hbad
      swap
      · cases hbad
      dsimp only at h
      rw [if_neg (not_not.mpr rfl), setIndirect_size] at h
      have hone := growIndirect_one (storeBlock fs₁ start fun _ => 0) (setIndirect mi start) _
        (hleft (storeBlock fs₁ start fun _ => 0) (by rw [storeBlock_dsb]; exact ha.blockSize))
      generalize growIndirect 1 _ (storeBlock fs₁ start fun _ => 0) (setIndirect mi start) 0 = g
        at h hone
      have hset : fs₁.bv.bit start = true := by
        rw [ha.taken.bits, decide_eq_true (by omega), Bool.or_true]
      have hmono : ∀ p, fs.bv.bit p = true → fs₁.bv.bit p = true := by
        intro p hp
        rw [ha.taken.bits, hp, Bool.true_or]
      obtain ⟨hcode, hfail, _⟩ := hone
      split at h
      · rename_i hne
        rw [hcode] at hne
        rw [hfail hne] at h
        simp only [Prod.mk.injEq] at h
        obtain ⟨herr, rfl, rfl⟩ := h
        obtain ⟨full, hr₂⟩ := growBlock_enospc herr
        rw [hr₂]
        refine ⟨rfl, rfl, Or.inr
          ⟨by rw [hr], ⟨start, ha.taken.clear start le_rfl (by omega), ?_⟩, ?_⟩⟩
        · exact hset
        · exact hmono
      · split at h
        · simp [ENOSPC] at h
        · exact absurd h (hend _ _)
  · rename_i hsome
    dsimp only at h
    rw [if_neg (not_not.mpr rfl)] at h
    have hone := growIndirect_one fs mi _ (hleft fs rfl)
    generalize growIndirect 1 _ fs mi 0 = g at h hone
    obtain ⟨hcode, hfail, _⟩ := hone
    split at h
    · rename_i hne
      rw [hcode] at hne
      rw [hfail hne] at h
      simp only [Prod.mk.injEq] at h
      obtain ⟨herr, rfl, rfl⟩ := h
      exact ⟨rfl, rfl, Or.inl ⟨herr, growBlock_enospc herr⟩⟩
    · split at h
      · simp [ENOSPC] at h
      · exact absurd h (hend _ _)

/-- `grow_dstream` by at most one block that fails for lack of blocks: the size has been
rounded up to a block boundary. -/
theorem growDstream_enospc {fs fs' : Myfs} {mi mi' : Inode} {n : ℤ} {k : ℕ}
    (hb : fs.dsb.blockSize = 2 ^ k) (h₀ : 0 ≤ mi.data.size) (hlt : mi.data.size < n)
    (hle : n ≤ mi.data.size + fs.dsb.blockSize)
    (h : growDstream fs mi n = .ok (ENOSPC, mi', fs')) :
    ∃ m : ℕ, mi.data.size ≤ m * fs.dsb.blockSize ∧
      (m * fs.dsb.blockSize : ℤ) < mi.data.size + fs.dsb.blockSize ∧
      mi'.data.size = m * fs.dsb.blockSize ∧ mi'.contents = mi.contents ∧ FailedGrowth fs fs' := by
  have hbs : 0 < fs.dsb.blockSize := by rw [hb]; positivity
  have hbz : (0 : ℤ) < fs.dsb.blockSize := by exact_mod_cast hbs
  obtain ⟨m, hm, hm₁, hm₂⟩ := roundUp_spec mi.data.size hb (by omega)
  obtain ⟨l, hl, hl₁, hl₂⟩ := roundUp_spec n hb (by omega)
  refine ⟨m, hm₁, hm₂, ?_⟩
  unfold growDstream at h
  dsimp only at h
  split at h
  · simp [E2BIG, ENOSPC] at h
  rw [hm, hl] at h
  split at h
  · simp [ENOSPC] at h
  rename_i hne
  have hneed : ((l * fs.dsb.blockSize : ℤ) - m * fs.dsb.blockSize) / fs.dsb.blockSize = 1 := by
    have h₁ : (m : ℤ) < l := by
      have hmn : (m * fs.dsb.blockSize : ℤ) < (l + 1) * fs.dsb.blockSize := by nlinarith
      have := lt_of_mul_lt_mul_right hmn hbz.le
      have : m ≠ l := by rintro rfl; exact hne rfl
      omega
    have h₂ : (l : ℤ) < m + 2 := by
      have hmn : (l * fs.dsb.blockSize : ℤ) < (m + 2) * fs.dsb.blockSize := by nlinarith
      exact lt_of_mul_lt_mul_right hmn hbz.le
    rw [← sub_mul, Int.mul_ediv_cancel _ hbz.ne']
    omega
  rw [hneed] at h
  split at h
  · rename_i hdir
    have hdiv : ((m * fs.dsb.blockSize : ℤ) / fs.dsb.blockSize).toNat = m := by
      rw [Int.mul_ediv_cancel _ hbz.ne', Int.toNat_natCast]
    have hm6 : m < numDirectBlocks := by
      rw [directSize] at hdir
      exact_mod_cast lt_of_mul_lt_mul_right hdir hbz.le
    rw [hdiv] at h
    split at h
    · cases h
    have hone := growDirect_one fs (setSize mi (m * fs.dsb.blockSize)) (numDirectBlocks - m)
      (by omega)
    generalize growDirect 1 (numDirectBlocks - m) fs (setSize mi (m * fs.dsb.blockSize)) 0 = g
      at h hone
    obtain ⟨hcode, hfail, hgrown⟩ := hone
    split at h
    · rename_i hne
      rw [hcode] at hne
      rw [hfail hne] at h
      simp only [Except.ok.injEq, Prod.mk.injEq] at h
      obtain ⟨herr, rfl, rfl⟩ := h
      exact ⟨rfl, rfl, Or.inl ⟨herr, growBlock_enospc herr⟩⟩
    · rename_i herr
      rw [hcode, not_not] at herr
      obtain ⟨start, _, ha⟩ := growBlock_ok herr
      have hbig := hgrown herr
      rw [setSize_size, ha.blockSize] at hbig
      rw [if_pos (by rw [hbig]; omega)] at h
      simp [ENOSPC] at h
  · rw [Except.ok.injEq] at h
    obtain ⟨h₁, h₂, h₃⟩ := growIndirectRange_enospc hbs rfl h
    exact ⟨h₁, h₂, h₃⟩

theorem writeLoop_code {mi : Inode} {buf : ℕ → UInt8} {len fuel : ℕ} {fs fs' : Myfs} {pos err : ℤ}
    {count count' : ℕ} (h : writeLoop mi buf len fuel fs pos count = .ok (err, count', fs')) :
    err = 0 ∨ err = EINVAL := by
  induction fuel generalizing fs pos count with
  | zero =>
    simp only [writeLoop, Except.ok.injEq, Prod.mk.injEq] at h
    exact Or.inl h.1.symm
  | succ fuel ih =>
    rw [writeLoop] at h
    split at h
    · simp only [Except.ok.injEq, Prod.mk.injEq] at h
      exact Or.inl h.1.symm
    · dsimp only at h
      generalize writeChunk fs mi pos _ _ _ = r at h
      cases r with
      | error e => cases h
      | ok o =>
        cases o with
        | none =>
          simp only [Except.bind, Except.ok.injEq, Prod.mk.injEq] at h
          exact Or.inr h.1.symm
        | some fs₁ => exact ih h

theorem writeBytes_code {fs fs' : Myfs} {mi : Inode} {pos err : ℤ} {buf : ℕ → UInt8}
    {len count : ℕ} (h : writeBytes fs mi pos buf len = .ok (err, count, fs')) :
    err = 0 ∨ err = EINVAL := by
  unfold writeBytes at h
  dsimp only at h
  generalize filePosToDiskAddr fs mi pos = r at h
  cases r with
  | error e => cases h
  | ok addr =>
    simp only [Except.bind] at h
    split at h
    · simp only [Except.ok.injEq, Prod.mk.injEq] at h
      exact Or.inr h.1.symm
    · split at h
      · exact writeLoop_code h
      · exact writeLoop_code h

/-- A write that fails for lack of blocks failed in `grow_dstream` and did nothing else. -/
theorem write_enospc {fs fs' : Myfs} {mi mi' : Inode} {buf : ℕ → UInt8} {len count : ℕ}
    (hlt : mi.data.size < len)
    (h : myfsWriteDataStream fs mi 0 buf len = .ok (ENOSPC, count, mi', fs')) :
    growDstream fs mi len = .ok (ENOSPC, mi', fs') := by
  unfold myfsWriteDataStream growForWrite at h
  split at h
  · simp [ENOSPC] at h
  simp only [lt_irrefl, if_false, zero_add, if_pos hlt] at h
  cases hg : growDstream fs mi len with
  | error e =>
    rw [hg] at h
    cases h
  | ok r =>
    obtain ⟨err, mi₁, fs₁⟩ := r
    rw [hg] at h
    simp only [Except.bind] at h
    by_cases herr : err = 0
    · subst herr
      simp only [ne_eq, not_true_eq_false, if_false] at h
      cases hu : updateInode fs₁ { mi₁ with lastModifiedTime := fs₁.now } with
      | error e =>
        rw [hu] at h
        cases h
      | ok fs₂ =>
        rw [hu] at h
        simp only [Except.map, not_true_eq_false, if_false] at h
        generalize hw : writeBytes (writeSuperBlock fs₂) _ 0 buf len = r at h
        cases r with
        | error e => cases h
        | ok r =>
          obtain ⟨err₂, count₂, fs₃⟩ := r
          have hcode := writeBytes_code hw
          simp only at h
          split at h
          · simp only [Except.ok.injEq, Prod.mk.injEq] at h
            rw [h.1] at hcode
            simp [ENOSPC, EINVAL] at hcode
          · generalize updateInode fs₃ _ = u at h
            cases u with
            | error e => cases h
            | ok fs₄ => simp [ENOSPC] at h
    · simp only [ne_eq, herr, not_false_eq_true, if_true, Except.ok.injEq, Prod.mk.injEq] at h
      obtain ⟨rfl, _, rfl, rfl⟩ := h
      rfl

/-- The contents of a directory: entries follow each other up to the size, each with its
name and the zero behind it inside. -/
inductive Packed (c : ℕ → UInt8) (size : ℕ) : ℕ → Prop where
  | done : Packed c size size
  | entry {p : ℕ} (inside : p + 9 + (c (p + 8)).toNat < size)
      (zero : c (p + 9 + (c (p + 8)).toNat) = 0)
      (rest : Packed c size (nextMde p (c (p + 8)).toNat)) : Packed c size p

/-- The bytes of a C string hold no zero. -/
def NulFree (name : Name) : Prop := ∀ i < name.length, name.getD i 0 ≠ 0

theorem nameMatches_congr {c c' : ℕ → UInt8} {size p : ℕ} {name : Name} (hn : NulFree name)
    (hsame : ∀ i < size, c' i = c i) (inside : p + 9 + (c (p + 8)).toNat < size)
    (zero : c (p + 9 + (c (p + 8)).toNat) = 0) :
    nameMatches c' p name = nameMatches c p name := by
  unfold nameMatches
  by_cases hlen : name.length ≤ (c (p + 8)).toNat
  · have hbytes : (List.range name.length).all (fun i => c' (p + 9 + i) == name.getD i 0) =
        (List.range name.length).all (fun i => c (p + 9 + i) == name.getD i 0) := by
      rw [Bool.eq_iff_iff, List.all_eq_true, List.all_eq_true]
      constructor
      · intro h i hi
        rw [← hsame _ (by have := List.mem_range.mp hi; omega)]
        exact h i hi
      · intro h i hi
        rw [hsame _ (by have := List.mem_range.mp hi; omega)]
        exact h i hi
    rw [hbytes, hsame _ (by omega)]
  · -- the name is longer than the entry's, which ends in a zero
    have hfalse : ∀ d : ℕ → UInt8, (∀ i < size, d i = c i) →
        (List.range name.length).all (fun i => d (p + 9 + i) == name.getD i 0) = false := by
      intro d hd
      rw [Bool.eq_false_iff]
      intro h
      have := List.all_eq_true.mp h _ (List.mem_range.mpr (not_le.mp hlen))
      rw [hd _ inside, zero, beq_iff_eq] at this
      exact hn _ (not_le.mp hlen) this.symm
    rw [hfalse c' hsame, hfalse c (fun _ _ => rfl), Bool.false_and, Bool.false_and]

theorem scanEntries_congr {c c' : ℕ → UInt8} {size : ℕ} {name : Name} (hn : NulFree name)
    (hsame : ∀ i < size, c' i = c i) (fuel : ℕ) {p : ℕ} (hp : Packed c size p) :
    scanEntries c' size name fuel p = scanEntries c size name fuel p := by
  induction fuel generalizing p with
  | zero => rfl
  | succ fuel ih =>
    cases hp with
    | done => simp only [scanEntries, le_refl, if_true]
    | entry inside zero rest =>
      have hword : word64 c' p = word64 c p := word64_congr fun k hk => hsame _ (by omega)
      simp only [scanEntries, nameMatches_congr hn hsame inside zero, hword,
        hsame (p + 8) (by omega), ih rest]

theorem loadContents_ok {fs : Myfs} {dir dir' : Inode} {c : ℕ → UInt8}
    (h : loadContents fs dir = .ok (0, c, dir')) : dir' = { dir with contents := some c } := by
  unfold loadContents at h
  cases hc : dir.contents with
  | some c₀ =>
    rw [hc] at h
    simp only [Except.ok.injEq, Prod.mk.injEq, true_and] at h
    obtain ⟨rfl, rfl⟩ := h
    rw [← hc]
  | none =>
    rw [hc] at h
    simp only at h
    unfold getDirContents at h
    generalize myfsReadDataStream fs dir 0 (fun _ => 0) dir.data.size.toNat = r at h
    cases r with
    | error e => cases h
    | ok r =>
      obtain ⟨ret, sz, buf⟩ := r
      simp only [Except.map, Except.bind] at h
      by_cases hsz : (sz : ℤ) = dir.data.size
      · simp only [hsz, ne_eq, not_true_eq_false, if_false, Except.ok.injEq, Prod.mk.injEq,
          true_and] at h
        obtain ⟨rfl, rfl⟩ := h
        rfl
      · simp only [ne_eq, hsz, not_false_eq_true, if_true, hc] at h
        split at h
        · rename_i hret
          simp only [Except.ok.injEq, Prod.mk.injEq] at h
          exact absurd h.1 hret
        · cases h

/-- What a lookup shows of a directory: the error and the inode number. -/
def lookedUp (r : ℤ × ℤ × Inode) : ℤ × ℤ := (r.1, r.2.1)

theorem dirLookup_loaded {fs : Myfs} {dir dir' : Inode} {c : ℕ → UInt8} (name : Name)
    (h : loadContents fs dir = .ok (0, c, dir')) :
    (dirLookup fs dir name).map lookedUp =
      .ok (match scanEntries c dir.data.size.toNat name dir.data.size.toNat 0 with
        | some inum => (0, inum)
        | none => (ENOENT, 0)) := by
  have hdir := loadContents_ok h
  unfold dirLookup
  rw [h]
  simp only [Except.map, ne_eq, not_true_eq_false, if_false, hdir]
  cases scanEntries c dir.data.size.toNat name dir.data.size.toNat 0 <;> rfl

theorem myfsAllocateInode_some {fs fs' : Myfs} {mi : Inode} {mode : ℤ}
    (h : myfsAllocateInode fs mode = .ok (some mi, fs')) :
    ∃ (start : ℕ) (bv : BitVector) (area : ℤ → Block), RangeTaken fs.inodeMap bv start 1 ∧
      mi = freshInode fs mode start ∧ fs' = { fs with inodeMap := bv, metaArea := area } := by
  have hcases := getFreeRangeOfBits_cases fs.inodeMap 1
  unfold myfsAllocateInode at h
  generalize getFreeRangeOfBits fs.inodeMap 1 = r at hcases h
  obtain ⟨ia, biggest, bv⟩ := r
  dsimp only at hcases h
  obtain ⟨start, rfl, _, _, ht⟩ | ⟨rfl, _⟩ := hcases
  · rw [if_neg (by omega)] at h
    split at h
    · cases h
    · generalize hoff : toInt32 (((start : ℤ).tdiv 8).tdiv fs.dsb.blockSize) = offset at h
      obtain ⟨area, ha⟩ := writeBlocks_frame { fs with inodeMap := bv }
        (fs.dsb.inodeMapStart + offset)
        (fun k => chunkByte bv.bits ((offset * fs.dsb.blockSize).toNat + k)) 1
      generalize writeBlocks _ _ _ _ = w at ha h
      obtain ⟨amt, fs₁⟩ := w
      dsimp only at ha
      subst ha
      cases h
      exact ⟨start, bv, area, ht, rfl, rfl⟩
  · rw [if_pos (by decide)] at h
    cases h

/-- Giving back the inode that was just taken restores the inode map, bit for bit. -/
theorem freeInode_restores {fs fs' : Myfs} {start : ℕ} (hint : fs.inodeMap.numbits < 2 ^ 31)
    (ht : RangeTaken fs.inodeMap fs'.inodeMap start 1) :
    (∀ p, (myfsFreeInode fs' start).2.inodeMap.bit p = fs.inodeMap.bit p) ∧
    (myfsFreeInode fs' start).2.bv = fs'.bv ∧ (myfsFreeInode fs' start).2.dsb = fs'.dsb := by
  have hin := ht.inside
  have hnum := ht.numbits
  have hconv : toInt32 (start : ℤ) = start := toInt32_of_lt (by omega) (by omega)
  unfold myfsFreeInode
  rw [hconv, unSetBV, if_neg (by omega)]
  dsimp only
  generalize hoff : toInt32 (((start : ℤ).tdiv 8).tdiv fs'.dsb.blockSize) = offset
  obtain ⟨area, ha⟩ := writeBlocks_frame { fs' with inodeMap := { fs'.inodeMap with
      bits := clearChunkBit fs'.inodeMap.bits (start / 32) (start % 32)
      nextFree := start } } (fs'.dsb.inodeMapStart + offset)
    (fun k => chunkByte (clearChunkBit fs'.inodeMap.bits (start / 32) (start % 32))
      ((offset * fs'.dsb.blockSize).toNat + k)) 1
  simp only [Int.toNat_natCast]
  rw [ha]
  refine ⟨fun p => ?_, rfl, rfl⟩
  rw [bit_eq_bitOf]
  dsimp only
  rw [bitOf_clearChunkBit _ (by omega), show start / 32 * 32 + start % 32 = start by omega,
    ← bit_eq_bitOf, ht.bits]
  by_cases hp : p = start
  · subst hp
    rw [ht.clear p le_rfl (by omega)]
    simp
  · rw [decide_eq_false (by omega : ¬ (start ≤ p ∧ p < start + 1)), decide_eq_false hp]
    simp

theorem writeLoop_frame {mi : Inode} {buf : ℕ → UInt8} {len fuel : ℕ} {fs fs' : Myfs}
    {pos err : ℤ} {count count' : ℕ}
    (h : writeLoop mi buf len fuel fs pos count = .ok (err, count', fs')) :
    fs'.bv = fs.bv ∧ fs'.dsb = fs.dsb := by
  induction fuel generalizing fs pos count with
  | zero =>
    simp only [writeLoop, Except.ok.injEq, Prod.mk.injEq] at h
    rw [← h.2.2]
    exact ⟨rfl, rfl⟩
  | succ fuel ih =>
    rw [writeLoop] at h
    split at h
    · simp only [Except.ok.injEq, Prod.mk.injEq] at h
      rw [← h.2.2]
      exact ⟨rfl, rfl⟩
    · dsimp only at h
      unfold writeChunk at h
      cases hpos : filePosToDiskAddr fs mi pos with
      | error e =>
        rw [hpos] at h
        cases h
      | ok addr =>
        rw [hpos] at h
        by_cases hneg : addr < 0
        · simp only [bind, Except.bind, hneg, if_true, pure, Except.pure, Except.ok.injEq,
            Prod.mk.injEq] at h
          rw [← h.2.2]
          exact ⟨rfl, rfl⟩
        · simp only [bind, Except.bind, hneg, if_false, pure, Except.pure] at h
          have hrest := ih h
          exact hrest

theorem writeBytes_frame {fs fs' : Myfs} {mi : Inode} {pos err : ℤ} {buf : ℕ → UInt8}
    {len count : ℕ} (h : writeBytes fs mi pos buf len = .ok (err, count, fs')) :
    fs'.bv = fs.bv ∧ fs'.dsb = fs.dsb := by
  unfold writeBytes at h
  dsimp only at h
  generalize filePosToDiskAddr fs mi pos = r at h
  cases r with
  | error e => cases h
  | ok addr =>
    simp only [Except.bind] at h
    split at h
    · simp only [Except.ok.injEq, Prod.mk.injEq] at h
      rw [← h.2.2]
      exact ⟨rfl, rfl⟩
    · split at h
      · have hrest := writeLoop_frame h
        exact hrest
      · exact writeLoop_frame h

/-- A directory that was made has a block of its own. -/
theorem makeDir_takes_block {fs fs' : Myfs} {parent : Option Inode} {mode err : ℤ}
    {stack : ℕ → UInt8} {mi : Inode} (hd : DiskSound fs)
    (h : makeDir fs parent mode stack = .ok (err, some mi, fs')) :
    (∃ p, fs.bv.bit p = false ∧ fs'.bv.bit p = true) ∧
      fs'.dsb.blockSize = fs.dsb.blockSize := by
  unfold makeDir at h
  cases ha : myfsAllocateInode fs mode with
  | error e =>
    rw [ha] at h
    cases h
  | ok r =>
    rw [ha] at h
    match r with
    | (none, fs₁) => cases h
    | (some mi₀, fs₁) =>
      obtain ⟨start, bv, area, _, rfl, hfs₁⟩ := myfsAllocateInode_some ha
      have hbv₁ : fs₁.bv = fs.bv := by rw [hfs₁]
      have hdsb₁ : fs₁.dsb = fs.dsb := by rw [hfs₁]
      simp only [Except.bind] at h
      generalize hmi : ({ freshInode fs mode start with
        mode := Int.lor (freshInode fs mode start).mode mySIfdir } : Inode) = mi₀ at h
      have hsize : mi₀.data.size = 0 := by rw [← hmi]; rfl
      generalize hw : myfsWriteDataStream _ mi₀ 0 _ 32 = w at h
      cases w with
      | error e => cases h
      | ok w =>
        obtain ⟨ret, len, mi₁, fs₂⟩ := w
        simp only at h
        split at h
        · cases h
        · rename_i hgood
          simp only [not_or, not_not] at hgood
          obtain ⟨rfl, rfl⟩ := hgood
          cases hu : updateInode fs₂ mi₁ with
          | error e =>
            rw [hu] at h
            cases h
          | ok fs₃ =>
            rw [hu] at h
            cases h
            obtain ⟨_, hbv₃, hbs₃⟩ := updateInode_same hu
            rcases myfsWriteDataStream_ok hw with ⟨hbad, _⟩ |
              ⟨_, mi₂, fs₄, fs₅, written, hgrow, hbytes, _, hsame⟩
            · omega
            obtain ⟨hbv₅, hdsb₅⟩ := writeBytes_frame hbytes
            rcases growForWrite_ok hgrow with ⟨hle, _⟩ | ⟨hlt, mi₃, fs₆, hg, _, hsame₆⟩
            · rw [hsize] at hle
              exact absurd hle (by decide)
            obtain ⟨k, hk⟩ := hd.pow
            obtain ⟨m, mi₄, hm₁, hm₂, _, hn₁, _, hrun⟩ :=
              growDstream_steps (k := k) (by rw [hdsb₁]; exact hk) (by rw [hsize]) hlt
                (by rw [hbv₁]; exact hd.zero) hg
            rw [hdsb₁] at hm₂ hrun
            have hstart : (m * fs.dsb.blockSize : ℤ) = 0 := by
              rw [hsize] at hm₂
              have hbz : (0 : ℤ) < fs.dsb.blockSize := by exact_mod_cast hd.blockSize_pos
              have : m < 1 := by
                have := lt_of_mul_lt_mul_right
                  (show (m * fs.dsb.blockSize : ℤ) < 1 * fs.dsb.blockSize by
                    simpa using hm₂) hbz.le
                exact_mod_cast this
              have hz : m = 0 := by omega
              rw [hz, Nat.cast_zero, zero_mul]
            obtain ⟨p, h₁, h₂⟩ := GrowSteps.fresh_bit hrun (by
              have h32 : startPos 0 + ((32 : ℕ) : ℤ) = 32 := by decide
              rw [h32] at hn₁
              simp only [setSize_size]
              omega)
            rw [hbv₁] at h₁
            have hbs₆ := GrowSteps.blockSize hrun
            dsimp only at hbs₆
            refine ⟨⟨p, h₁, ?_⟩, ?_⟩
            · rw [hbv₃, hsame.bv, hbv₅, hsame₆.bv]
              exact h₂
            · rw [hbs₃, hsame.blockSize, hdsb₅, hsame₆.blockSize, hbs₆, hdsb₁]

/-- An insertion that fails for lack of blocks: the contents have the new entry behind the
old end, and the size is rounded up. -/
theorem dirInsert_enospc {fs fs' : Myfs} {dir parent : Inode} {c : ℕ → UInt8} {name : Name}
    {inum : ℤ} {stack : ℕ → UInt8} {k : ℕ}
    (h : dirInsert fs dir name inum stack = .ok (ENOSPC, parent, fs'))
    (hb : fs.dsb.blockSize = 2 ^ k) (hlarge : 512 ≤ fs.dsb.blockSize) (h₀ : 0 ≤ dir.data.size)
    (hc : dir.contents = some c) (hlen : name.length < fileNameLength) :
    ∃ (m : ℕ) (c' : ℕ → UInt8), dir.data.size ≤ m * fs.dsb.blockSize ∧
      (m * fs.dsb.blockSize : ℤ) < dir.data.size + fs.dsb.blockSize ∧
      parent.data.size = m * fs.dsb.blockSize ∧ parent.contents = some c' ∧
      (∀ i < dir.data.size.toNat, c' i = c i) ∧ FailedGrowth fs fs' := by
  have hload : loadContents fs dir = .ok (0, c, dir) := by
    unfold loadContents
    rw [hc]
  have hsz : 0 < nextMde 0 name.length ∧ nextMde 0 name.length ≤ 512 := by
    unfold nextMde
    simp only [fileNameLength] at hlen
    omega
  unfold dirInsert at h
  rw [hload] at h
  simp only [Except.bind, ne_eq, not_true_eq_false, if_false] at h
  generalize hw : myfsWriteDataStream fs (appendEntry dir c name inum stack) 0 _
    (dir.data.size.toNat + nextMde 0 name.length) = w at h
  cases w with
  | error e => cases h
  | ok w =>
    obtain ⟨ret, count, dir', fs₁⟩ := w
    simp only [Except.map, Except.ok.injEq, Prod.mk.injEq] at h
    obtain ⟨rfl, rfl, rfl⟩ := h
    have hsize : (appendEntry dir c name inum stack).data.size = dir.data.size := rfl
    have hcast : ((dir.data.size.toNat + nextMde 0 name.length : ℕ) : ℤ) =
        dir.data.size + nextMde 0 name.length := by
      rw [Nat.cast_add, Int.toNat_of_nonneg h₀]
    have hg := write_enospc (by rw [hsize, hcast]; omega) hw
    obtain ⟨m, hm₁, hm₂, hm₃, hcont, hfail⟩ := growDstream_enospc hb (by rw [hsize]; exact h₀)
      (by rw [hsize, hcast]; omega) (by rw [hsize, hcast]; omega) hg
    rw [hsize] at hm₁ hm₂
    refine ⟨m, _, hm₁, hm₂, hm₃, hcont, ?_, hfail⟩
    intro i hi
    unfold copyInto
    rw [if_neg (by omega)]

/-- What the claim of a failed create is about. -/
structure Unchanged (fs : Myfs) (parent : Inode) (name : Name) (fs' : Myfs) (parent' : Inode) :
    Prop where
  size : parent'.data.size = parent.data.size
  listing : ∀ n, NulFree n →
    (dirLookup fs' parent' n).map lookedUp = (dirLookup fs parent n).map lookedUp
  absent : (dirLookup fs' parent' name).map lookedUp = .ok (ENOENT, 0)
  inodeMap : ∀ p, fs'.inodeMap.bit p = fs.inodeMap.bit p
  blockMap : ∀ p, fs'.bv.bit p = fs.bv.bit p
  usedBlocks : fs'.dsb.usedBlocks = fs.dsb.usedBlocks

/-- A directory with readable, packed contents on a sound disk, and a name not in it. -/
structure Insertable (fs : Myfs) (parent : Inode) (name : Name) : Prop where
  disk : DiskSound fs
  large : 512 ≤ fs.dsb.blockSize
  int32 : fs.inodeMap.numbits < 2 ^ 31
  contents : ∃ c dir, loadContents fs parent = .ok (0, c, dir) ∧ Packed c parent.data.size.toNat 0
  legal : NulFree name
  absent : (dirLookup fs parent name).map lookedUp = .ok (ENOENT, 0)

inductive MakeCall where
  | create
  | mkdir
  deriving DecidableEq, Repr

def MakeCall.run : MakeCall → Myfs → Inode → Name → ℤ → (ℕ → UInt8) → Except Halt (ℤ × Inode × Myfs)
  | .create => myfsCreate
  | .mkdir => myfsMkdir

/-- The checks pass: the parent has its contents loaded and goes on. -/
theorem checkNewName_passes {fs : Myfs} {parent dir : Inode} {name : Name} {r : Option ℤ}
    (hi : Insertable fs parent name) (h : checkNewName fs parent name = .ok (r, dir))
    (hr : r ≠ some EINVAL ∧ r ≠ some ENAMETOOLONG) :
    r = none ∧ 0 ≤ parent.data.size ∧ name.length < fileNameLength ∧
      ∃ c, loadContents fs parent = .ok (0, c, dir) ∧ Packed c parent.data.size.toNat 0 := by
  obtain ⟨c, dir₁, hload, hpacked⟩ := hi.contents
  have habs := hi.absent
  unfold checkNewName at h
  split at h
  · cases h
  rename_i h₀
  split at h
  · simp only [Except.ok.injEq, Prod.mk.injEq] at h
    exact absurd h.1.symm hr.1
  split at h
  · simp only [Except.ok.injEq, Prod.mk.injEq] at h
    exact absurd h.1.symm hr.2
  rename_i hlen
  have hdir : dirLookup fs parent name = .ok (ENOENT, 0, dir₁) := by
    rw [dirLookup_loaded name hload] at habs
    unfold dirLookup
    rw [hload]
    have hd := loadContents_ok hload
    simp only [Except.map, ne_eq, not_true_eq_false, if_false, hd]
    cases hs : scanEntries c parent.data.size.toNat name parent.data.size.toNat 0 with
    | some inum =>
      rw [hs] at habs
      simp [ENOENT] at habs
    | none => rfl
  rw [hdir] at h
  simp only [Except.map, ENOENT, OfNat.ofNat_ne_zero, if_false, Except.ok.injEq,
    Prod.mk.injEq] at h
  obtain ⟨rfl, rfl⟩ := h
  have hshort : name.length < fileNameLength := by
    unfold fileNameLength at hlen ⊢
    omega
  exact ⟨rfl, not_lt.mp h₀, hshort, c, hload, hpacked⟩

theorem insertNew_enospc {parent parent' : Inode} {name : Name} {stack : ℕ → UInt8}
    {made : ℤ × Option Inode × Myfs} {fs' : Myfs}
    (h : insertNew parent name stack made = .ok (ENOSPC, parent', fs')) :
    ∃ mi fs₁, made.2.1 = some mi ∧
      dirInsert made.2.2 parent name mi.inodeNum stack = .ok (ENOSPC, parent', fs₁) ∧
      fs' = (myfsFreeInode fs₁ mi.inodeNum).2 := by
  obtain ⟨ret, o, fs⟩ := made
  unfold insertNew at h
  simp only at h
  split at h
  · rename_i hneg
    simp only [Except.ok.injEq, Prod.mk.injEq] at h
    rw [h.1] at hneg
    exact absurd hneg (by decide)
  · cases o with
    | none => cases h
    | some mi =>
      simp only at h
      refine ⟨mi, ?_⟩
      cases hd : dirInsert fs parent name mi.inodeNum stack with
      | error e =>
        rw [hd] at h
        cases h
      | ok r =>
        rw [hd] at h
        obtain ⟨ret', p, fs₁⟩ := r
        simp only [Except.map, Except.ok.injEq] at h
        split at h
        · simp only [Prod.mk.injEq] at h
          obtain ⟨rfl, rfl, rfl⟩ := h
          exact ⟨fs₁, rfl, rfl, rfl⟩
        · rename_i hz
          simp only [Prod.mk.injEq] at h
          exact absurd h.1 (by rw [not_not.mp hz]; decide)

/-- No block can be had in this state: the count leaves none, or the search finds none. -/
def NoBlockLeft (fs : Myfs) : Prop :=
  fs.dsb.numBlocks - fs.dsb.usedBlocks < 1 ∨ (getFreeRangeOfBits fs.bv 1).1 = -1

instance (fs : Myfs) : Decidable (NoBlockLeft fs) := inferInstanceAs (Decidable (_ ∨ _))

theorem growBlock_enospc_iff (fs : Myfs) : (growBlock fs).1 = ENOSPC ↔ NoBlockLeft fs := by
  have hcount : toInt32 1 = 1 := by decide
  unfold NoBlockLeft growBlock myfsAllocateBlocks realAllocateBlocks
  rw [if_neg (by decide)]
  by_cases hroom : fs.dsb.numBlocks - fs.dsb.usedBlocks < 1
  · simp [hroom, ENOSPC]
  simp only [hroom, if_false, false_or, hcount, Int.toNat_one, allocateLoop_exact_one]
  have hcases := getFreeRangeOfBits_cases fs.bv 1
  generalize getFreeRangeOfBits fs.bv 1 = r at hcases ⊢
  obtain ⟨start, biggest, bv⟩ := r
  dsimp only at hcases ⊢
  obtain ⟨start', rfl, _⟩ | ⟨rfl, _⟩ := hcases
  · have hfound : ((start' : ℕ) : ℤ) ≠ -1 := by omega
    have hpos : ¬ ((start' : ℕ) : ℤ) < 0 := by omega
    simp only [hfound, if_false, iff_false]
    generalize writeBlocks _ _ _ _ = w
    obtain ⟨amt, fs₁⟩ := w
    generalize (Int.tdiv 1 8).tdiv (fs.dsb.blockSize : ℤ) + 1 = len
    by_cases hamt : amt = len
    · simp [hamt, hpos, ENOSPC]
    · simp [hamt, EINVAL, ENOSPC]
  · simp [ENOSPC]

theorem updateInode_metaArea {fs fs' : Myfs} {mi : Inode} (h : updateInode fs mi = .ok fs') :
    ∃ area, fs' = { fs with metaArea := area } := by
  unfold updateInode at h
  dsimp only at h
  split at h
  · cases h
  · cases h
    exact ⟨_, rfl⟩

/-- A file that was made took one inode and no block. -/
theorem makeFile_takes_inode {fs fs' : Myfs} {mode err : ℤ} {mi : Inode}
    (h : makeFile fs mode = .ok (err, some mi, fs')) :
    ∃ (start : ℕ) (bv : BitVector) (area : ℤ → Block), RangeTaken fs.inodeMap bv start 1 ∧
      mi.inodeNum = start ∧ fs' = { fs with inodeMap := bv, metaArea := area } := by
  unfold makeFile at h
  cases ha : myfsAllocateInode fs mode with
  | error e =>
    rw [ha] at h
    cases h
  | ok r =>
    rw [ha] at h
    match r with
    | (none, fs₁) => cases h
    | (some mi₀, fs₁) =>
      obtain ⟨start, bv, area, ht, rfl, rfl⟩ := myfsAllocateInode_some ha
      simp only [Except.bind] at h
      generalize hu : updateInode _ _ = u at h
      cases u with
      | error e => cases h
      | ok fs₂ =>
        cases h
        obtain ⟨area', rfl⟩ := updateInode_metaArea hu
        exact ⟨start, bv, area', ht, rfl, rfl⟩

theorem myfsFreeInode_bv (fs : Myfs) (ia : ℤ) : (myfsFreeInode fs ia).2.bv = fs.bv := by
  unfold myfsFreeInode
  dsimp only
  obtain ⟨area, ha⟩ := writeBlocks_frame
    { fs with inodeMap := (unSetBV fs.inodeMap (toInt32 ia)).2 }
    (fs.dsb.inodeMapStart + toInt32 ((ia.tdiv 8).tdiv fs.dsb.blockSize))
    (fun k => chunkByte (unSetBV fs.inodeMap (toInt32 ia)).2.bits
      ((toInt32 ((ia.tdiv 8).tdiv fs.dsb.blockSize) * fs.dsb.blockSize).toNat + k)) 1
  rw [ha]

theorem FailedGrowth.bit_mono {fs fs' : Myfs} (h : FailedGrowth fs fs') {p : ℕ}
    (hp : fs.bv.bit p = true) : fs'.bv.bit p = true := by
  rcases h with ⟨_, hr⟩ | ⟨_, _, hmono⟩
  · rw [(refused_bits hr).2.2]
    exact hp
  · exact hmono p hp

/-- The listing only depends on the contents up to the size. -/
theorem listing_same {fs fs' : Myfs} {parent dir parent' : Inode} {c c' : ℕ → UInt8}
    (hload : loadContents fs parent = .ok (0, c, dir))
    (hpacked : Packed c parent.data.size.toNat 0) (hc : parent'.contents = some c')
    (hsame : ∀ i < parent.data.size.toNat, c' i = c i)
    (hsize : parent'.data.size = parent.data.size) {n : Name} (hn : NulFree n) :
    (dirLookup fs' parent' n).map lookedUp = (dirLookup fs parent n).map lookedUp := by
  have hload' : loadContents fs' parent' = .ok (0, c', parent') := by
    unfold loadContents
    rw [hc]
  rw [dirLookup_loaded n hload, dirLookup_loaded n hload', hsize,
    scanEntries_congr hn hsame _ hpacked]

/-- A call that fails for lack of blocks got as far as the insertion. -/
theorem makeCall_enospc {fs fs' : Myfs} {parent parent' : Inode} {name : Name}
    {stack : ℕ → UInt8} (hi : Insertable fs parent name)
    {m : Inode → Except Halt (ℤ × Option Inode × Myfs)}
    (h : ((checkNewName fs parent name).bind fun
      | (some err, parent) => .ok (err, parent, fs)
      | (none, parent) => (m parent).bind (insertNew parent name stack)) =
        .ok (ENOSPC, parent', fs')) :
    ∃ c dir err mi fs₁ fs₂, loadContents fs parent = .ok (0, c, dir) ∧
      Packed c parent.data.size.toNat 0 ∧ 0 ≤ parent.data.size ∧ name.length < fileNameLength ∧
      m dir = .ok (err, some mi, fs₁) ∧
      dirInsert fs₁ dir name mi.inodeNum stack = .ok (ENOSPC, parent', fs₂) ∧
      fs' = (myfsFreeInode fs₂ mi.inodeNum).2 := by
  cases hcheck : checkNewName fs parent name with
  | error e =>
    rw [hcheck] at h
    cases h
  | ok r =>
    rw [hcheck] at h
    obtain ⟨o, dir⟩ := r
    cases o with
    | some err =>
      have herr : err = ENOSPC := by
        simp only [Except.bind, Except.ok.injEq, Prod.mk.injEq] at h
        exact h.1
      obtain ⟨hbad, _⟩ := checkNewName_passes hi hcheck (by rw [herr]; decide)
      cases hbad
    | none =>
      obtain ⟨_, h₀, hlen, c, hload, hpacked⟩ := checkNewName_passes hi hcheck (by decide)
      simp only [Except.bind] at h
      cases hmake : m dir with
      | error e =>
        rw [hmake] at h
        cases h
      | ok made =>
        rw [hmake] at h
        obtain ⟨mi, fs₂, hmade, hins, hfs'⟩ := insertNew_enospc h
        obtain ⟨err, o, fs₁⟩ := made
        dsimp only at hmade
        subst hmade
        exact ⟨c, dir, err, mi, fs₁, fs₂, hload, hpacked, h₀, hlen, hmake, hins, hfs'⟩

theorem rounded_eq_iff {size b : ℤ} {m : ℕ} (hb : 0 < b) (h₁ : size ≤ m * b)
    (h₂ : m * b < size + b) : m * b = size ↔ b ∣ size := by
  constructor
  · intro h
    exact ⟨m, by rw [← h, mul_comm]⟩
  · rintro ⟨q, rfl⟩
    have hle : q ≤ m := by
      by_contra hlt
      nlinarith
    have hge : (m : ℤ) < q + 1 := by
      by_contra hlt
      nlinarith
    have : (m : ℤ) = q := by omega
    rw [this, mul_comm]

/-- A file that could not be entered into its parent. -/
theorem failed_create_iff {fs fs' : Myfs} {parent parent' : Inode} {name : Name} {mode : ℤ}
    {stack : ℕ → UInt8} (hi : Insertable fs parent name)
    (h : myfsCreate fs parent name mode stack = .ok (ENOSPC, parent', fs')) :
    Unchanged fs parent name fs' parent' ↔
      (fs.dsb.blockSize : ℤ) ∣ parent.data.size ∧ NoBlockLeft fs := by
  obtain ⟨c, dir, err, mi, fs₁, fs₂, hload, hpacked, h₀, hlen, hmake, hins, rfl⟩ :=
    makeCall_enospc (m := fun _ => makeFile fs mode) hi h
  obtain ⟨start, bv, area, ht, hnum, rfl⟩ := makeFile_takes_inode hmake
  have hdir := loadContents_ok hload
  subst hdir
  obtain ⟨k, hk⟩ := hi.disk.pow
  obtain ⟨m, c', hm₁, hm₂, hm₃, hc', hsame, hfail⟩ :=
    dirInsert_enospc hins hk hi.large h₀ rfl hlen
  dsimp only at hm₁ hm₂ hm₃ hsame
  have hbz : (0 : ℤ) < fs.dsb.blockSize := by exact_mod_cast hi.disk.blockSize_pos
  have hround := rounded_eq_iff hbz hm₁ hm₂
  rw [hnum]
  rcases hfail with ⟨hcode, hr⟩ | ⟨hcode, ⟨p, hp₁, hp₂⟩, _⟩
  · rw [growBlock_code, growBlock_enospc_iff] at hcode
    obtain ⟨hdsb₂, _, hbits₂⟩ := refused_bits hr
    have htaken : RangeTaken fs.inodeMap fs₂.inodeMap start 1 := by
      obtain ⟨full, rfl⟩ := hr
      exact ht
    obtain ⟨hmap, hbv, hdsb⟩ := freeInode_restores hi.int32 htaken
    constructor
    · intro hu
      have := hu.size
      rw [hm₃] at this
      exact ⟨hround.mp this, hcode⟩
    · rintro ⟨hdvd, _⟩
      have hsize : parent'.data.size = parent.data.size := by rw [hm₃]; exact hround.mpr hdvd
      have hlist : ∀ fs₃ n, NulFree n →
          (dirLookup fs₃ parent' n).map lookedUp = (dirLookup fs parent n).map lookedUp :=
        fun fs₃ n hn => listing_same hload hpacked hc' hsame hsize hn
      refine ⟨hsize, hlist _, ?_, hmap, ?_, ?_⟩
      · rw [hlist _ name hi.legal]
        exact hi.absent
      · intro p
        rw [hbv]
        exact hbits₂ p
      · rw [hdsb, hdsb₂]
  · rw [growBlock_code] at hcode
    constructor
    · intro hu
      have := hu.blockMap p
      rw [myfsFreeInode_bv, hp₂] at this
      rw [← this] at hp₁
      cases hp₁
    · rintro ⟨_, hnone⟩
      rw [← growBlock_enospc_iff, hcode] at hnone
      cases hnone

/-- The block of a directory that could not be entered into its parent is lost. -/
theorem failed_mkdir_changes {fs fs' : Myfs} {parent parent' : Inode} {name : Name} {mode : ℤ}
    {stack : ℕ → UInt8} (hi : Insertable fs parent name)
    (h : myfsMkdir fs parent name mode stack = .ok (ENOSPC, parent', fs')) :
    ¬ Unchanged fs parent name fs' parent' := by
  obtain ⟨c, dir, err, mi, fs₁, fs₂, hload, _, h₀, hlen, hmake, hins, rfl⟩ :=
    makeCall_enospc (m := fun parent => makeDir fs (some parent) mode stack) hi h
  have hdir := loadContents_ok hload
  subst hdir
  obtain ⟨⟨p, hp₁, hp₂⟩, hbs⟩ := makeDir_takes_block hi.disk hmake
  obtain ⟨k, hk⟩ := hi.disk.pow
  obtain ⟨_, _, _, _, _, _, _, hfail⟩ := dirInsert_enospc hins (by rw [hbs]; exact hk)
    (by rw [hbs]; exact hi.large) h₀ rfl hlen
  intro hu
  have := hu.blockMap p
  rw [myfsFreeInode_bv, hfail.bit_mono hp₂] at this
  rw [← this] at hp₁
  cases hp₁

/-- A create or mkdir that fails for lack of blocks leaves everything as it was exactly when
it is a create, the parent ends at a block boundary, and not a single block can be had. -/
theorem failed_make_unchanged_iff (fs : Myfs) (parent : Inode) (name : Name) (mode : ℤ)
    (stack : ℕ → UInt8) (hi : Insertable fs parent name) (call : MakeCall) {parent' : Inode}
    {fs' : Myfs} (h : call.run fs parent name mode stack = .ok (ENOSPC, parent', fs')) :
    Unchanged fs parent name fs' parent' ↔
      call = .create ∧ (fs.dsb.blockSize : ℤ) ∣ parent.data.size ∧ NoBlockLeft fs := by
  cases call with
  | create =>
    rw [failed_create_iff hi h]
    simp
  | mkdir =>
    have := failed_mkdir_changes hi h
    simp [this]

/-- The small disk with its last block taken. -/
def fullDisk : Myfs := (myfsAllocateBlocks madeDisk 12 0 .exactAllocation).2.2.2

/-- Entries of 256 bytes each, with names of 239 letters. -/
def longEntries (i : ℕ) : UInt8 :=
  if i % 256 = 8 then 239
  else if 9 ≤ i % 256 ∧ i % 256 < 248 then UInt8.ofNat (97 + i / 256)
  else 0

/-- A directory in block 4 of the full disk, its contents in memory. -/
def directory (size : ℤ) : Inode :=
  { setSize (setDirect (freshInode fullDisk mySIfdir 1) 0 4) size with
    contents := some longEntries }

theorem fullDisk_sound : DiskSound fullDisk :=
  ⟨by decide +kernel, by decide +kernel, 9, by decide +kernel⟩

theorem failed_create_unchanged_fullDisk :
    ∃ parent' fs', MakeCall.create.run fullDisk (directory 512) [122] 0 (fun _ => 0) =
      .ok (ENOSPC, parent', fs') ∧ Unchanged fullDisk (directory 512) [122] fs' parent' := by
  have hpacked : Packed longEntries 512 0 :=
    .entry (by decide) (by decide) (.entry (by decide) (by decide) .done)
  have hi : Insertable fullDisk (directory 512) [122] :=
    ⟨fullDisk_sound, by decide +kernel, by decide +kernel, ⟨longEntries, _, rfl, hpacked⟩,
      by unfold NulFree; decide, by decide +kernel⟩
  have hrun : (MakeCall.create.run fullDisk (directory 512) [122] 0 (fun _ => 0)).map Prod.fst =
      .ok ENOSPC := by decide +kernel
  cases h : MakeCall.create.run fullDisk (directory 512) [122] 0 (fun _ => 0) with
  | error e =>
    rw [h] at hrun
    cases hrun
  | ok r =>
    obtain ⟨err, parent', fs'⟩ := r
    rw [h] at hrun
    simp only [Except.map, Except.ok.injEq] at hrun
    subst hrun
    refine ⟨parent', fs', rfl, ?_⟩
    exact (failed_make_unchanged_iff _ _ _ _ _ hi .create h).mpr
      ⟨rfl, by decide +kernel, by decide +kernel⟩

/-- A directory of one entry, and a second one that needs a block that cannot be had: the
failed create leaves a parent of 512 bytes behind. -/
theorem failed_create_grows_parent :
    Insertable fullDisk (directory 256) (List.replicate 248 122) ∧
    ∃ parent' fs',
      MakeCall.create.run fullDisk (directory 256) (List.replicate 248 122) 0 (fun _ => 0) =
        .ok (ENOSPC, parent', fs') ∧
      ¬ Unchanged fullDisk (directory 256) (List.replicate 248 122) fs' parent' := by
  have hpacked : Packed longEntries 256 0 := .entry (by decide) (by decide) .done
  refine ⟨⟨fullDisk_sound, by decide +kernel, by decide +kernel,
    ⟨longEntries, _, rfl, hpacked⟩, by unfold NulFree; decide +kernel, by decide +kernel⟩, ?_⟩
  have hrun : (MakeCall.create.run fullDisk (directory 256) (List.replicate 248 122) 0
      (fun _ => 0)).map (fun r => (r.1, r.2.1.data.size)) = .ok (ENOSPC, 512) := by decide +kernel
  cases h : MakeCall.create.run fullDisk (directory 256) (List.replicate 248 122) 0
      (fun _ => 0) with
  | error e =>
    rw [h] at hrun
    cases hrun
  | ok r =>
    obtain ⟨err, parent', fs'⟩ := r
    rw [h] at hrun
    simp only [Except.map, Except.ok.injEq, Prod.mk.injEq] at hrun
    obtain ⟨rfl, hsize⟩ := hrun
    refine ⟨parent', fs', rfl, fun hu => ?_⟩
    have := hu.size
    rw [hsize] at this
    exact absurd this (by decide)

section NoInodeLeft
variable {fs : Myfs} {parent : Inode} {name : Name}

/-- A name that both calls accept for a new entry of the directory. -/
structure NewName (fs : Myfs) (parent : Inode) (name : Name) : Prop where
  checked : 0 ≤ parent.data.size
  notDot : ¬(name = [46] ∨ name = [46, 46])
  short : name.length < fileNameLength - 1
  absent : (dirLookup fs parent name).map lookedUp = .ok (ENOENT, 0)

/-- The call comes back with an error, and parent, inode map and block bitmap are as before. -/
def Reported (fs : Myfs) (parent : Inode) (r : Except Halt (ℤ × Inode × Myfs)) : Prop :=
  ∃ err parent' fs', r = .ok (err, parent', fs') ∧ err ≠ 0 ∧ parent'.data = parent.data ∧
    (∀ p, fs'.inodeMap.bit p = fs.inodeMap.bit p) ∧ ∀ p, fs'.bv.bit p = fs.bv.bit p

theorem checkNewName_new (h : NewName fs parent name) :
    ∃ dir, checkNewName fs parent name = .ok (none, dir) := by
  have hchecked := h.checked
  have hshort := h.short
  have habsent := h.absent
  rw [checkNewName, if_neg (by omega), if_neg h.notDot, if_neg (by omega)]
  cases hlook : dirLookup fs parent name with
  | error e =>
    rw [hlook] at habsent
    cases habsent
  | ok r =>
    obtain ⟨ret, vnid, dir⟩ := r
    rw [hlook] at habsent
    simp only [Except.map, lookedUp, Except.ok.injEq, Prod.mk.injEq] at habsent
    refine ⟨dir, ?_⟩
    simp only [Except.map]
    rw [habsent.1, if_neg (by decide)]

theorem allocateInode_none (mode : ℤ) (h : (getFreeRangeOfBits fs.inodeMap 1).1 < 0) :
    ∃ fs', myfsAllocateInode fs mode = .ok (none, fs') := by
  rw [myfsAllocateInode]
  generalize getFreeRangeOfBits fs.inodeMap 1 = r at h
  obtain ⟨ia, _, bv⟩ := r
  dsimp only at h ⊢
  exact ⟨_, if_pos h⟩

/-- `make_file` and `make_dir` say `ENOSPC`, which is positive, so the test `ret < 0` of
their callers lets it pass and the inode pointer is used without ever being set. -/
theorem insertNew_none (dir : Inode) (stack : ℕ → UInt8) (fs' : Myfs) :
    insertNew dir name stack (ENOSPC, none, fs') = .error .wildPointer := by
  have hpos : ¬ENOSPC < 0 := by decide
  exact if_neg hpos

/-- Without a free inode neither call reports anything. -/
theorem no_inode_unreported (call : MakeCall) (mode : ℤ) (stack : ℕ → UInt8)
    (h : (getFreeRangeOfBits fs.inodeMap 1).1 < 0) (hn : NewName fs parent name) :
    ¬Reported fs parent (call.run fs parent name mode stack) := by
  obtain ⟨dir, hcheck⟩ := checkNewName_new hn
  obtain ⟨fs', hnone⟩ := allocateInode_none mode h
  have hwild : call.run fs parent name mode stack = .error .wildPointer := by
    cases call with
    | create =>
      change myfsCreate fs parent name mode stack = _
      rw [myfsCreate, hcheck]
      dsimp only [Except.bind]
      rw [makeFile, hnone]
      exact insertNew_none dir stack fs'
    | mkdir =>
      change myfsMkdir fs parent name mode stack = _
      rw [myfsMkdir, hcheck]
      dsimp only [Except.bind]
      rw [makeDir, hnone]
      exact insertNew_none dir stack fs'
  rintro ⟨err, parent', fs'', hok, _⟩
  rw [hwild] at hok
  cases hok

/-- The full disk with all inodes taken as well. -/
def noInodes : Myfs := { fullDisk with inodeMap := ⟨8, 0, false, fun _ => 0xFF#32⟩ }

theorem noInodes_newName : NewName noInodes (directory 512) [122] :=
  ⟨by decide +kernel, by decide, by decide, by decide +kernel⟩

theorem no_inode_unreported_noInodes :
    ¬Reported noInodes (directory 512)
      (MakeCall.create.run noInodes (directory 512) [122] 0 (fun _ => 0)) :=
  no_inode_unreported .create 0 (fun _ => 0) (by decide +kernel) noInodes_newName

/-- Both calls end in the use of the unset pointer. -/
theorem noInodes_wild :
    ¬(Reported noInodes (directory 512)
        (MakeCall.create.run noInodes (directory 512) [122] 0 (fun _ => 0)) ∧
      Reported noInodes (directory 512)
        (MakeCall.mkdir.run noInodes (directory 512) [122] 0 (fun _ => 0))) := by
  rintro ⟨⟨err, parent', fs', hok, _⟩, _⟩
  have hrun : (MakeCall.create.run noInodes (directory 512) [122] 0 (fun _ => 0)).map Prod.fst =
      .error .wildPointer := by decide +kernel
  rw [hok] at hrun
  cases hrun

end NoInodeLeft

end FailedCreate
