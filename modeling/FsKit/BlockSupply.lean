import Mathlib.Tactic
import FsKit.DataStreamShape

/-! How many single blocks the disk still gives out, and that this is what decides whether a
stream can grow (`grow_dstream` of `dstream.c`). -/
namespace BlockSupply

open MachineIntegers
open BitVectorSearch BlockBitmap BlockRounding InodeTable LittleEndian DataStreamBlocks
open DataStreamGrowth

section Supply
variable {fs : Myfs}

/-- The next `n` requests for one block are granted. -/
def Supplies : ℕ → Myfs → Prop
  | 0, _ => True
  | n + 1, fs => (growBlock fs).1 = 0 ∧ Supplies n (growBlock fs).2.2

instance decidableSupplies : ∀ (n : ℕ) (fs : Myfs), Decidable (Supplies n fs)
  | 0, _ => isTrue trivial
  | n + 1, fs => @instDecidableAnd _ _ _ (decidableSupplies n (growBlock fs).2.2)

/-- The disk after `n` requests for one block. -/
def grants : ℕ → Myfs → Myfs
  | 0, fs => fs
  | n + 1, fs => grants n (growBlock fs).2.2

theorem supplies_add (a b : ℕ) (fs : Myfs) :
    Supplies (a + b) fs ↔ Supplies a fs ∧ Supplies b (grants a fs) := by
  induction a generalizing fs with
  | zero =>
    rw [Nat.zero_add]
    exact ⟨fun h => ⟨trivial, h⟩, fun h => h.2⟩
  | succ a ih =>
    rw [Nat.add_right_comm, Supplies, Supplies, ih, and_assoc]
    rfl

/-- The file system with the same books and other data blocks. -/
def withData (fs : Myfs) (area : ℤ → Block) : Myfs := { fs with dataArea := area }

theorem storeBlock_withData (fs : Myfs) (a : ℤ) (block : Block) :
    storeBlock fs a block = withData fs (Function.update fs.dataArea a block) := rfl

theorem writeBlocks_withData (fs : Myfs) (area : ℤ → Block) (n : ℤ) (mem : ℕ → UInt8) (k : ℤ) :
    writeBlocks (withData fs area) n mem k =
      ((writeBlocks fs n mem k).1, withData (writeBlocks fs n mem k).2 area) := by
  unfold writeBlocks withData
  dsimp only
  split
  · rfl
  split
  · rfl
  split
  · rfl
  split <;> rfl

theorem realAllocateBlocks_withData (fs : Myfs) (area : ℤ → Block) (c a : ℤ) (mode : AllocMode) :
    realAllocateBlocks (withData fs area) c a mode =
      ((realAllocateBlocks fs c a mode).1, (realAllocateBlocks fs c a mode).2.1,
        (realAllocateBlocks fs c a mode).2.2.1,
        withData (realAllocateBlocks fs c a mode).2.2.2 area) := by
  unfold realAllocateBlocks
  split
  · rfl
  rw [show (withData fs area).dsb = fs.dsb from rfl, show (withData fs area).bv = fs.bv from rfl]
  split
  · rfl
  generalize allocateLoop mode (toInt32 c).toNat fs.bv (toInt32 c) = r
  obtain ⟨start, nblocks, bv⟩ := r
  dsimp only
  split
  · rfl
  have hwrite := writeBlocks_withData { fs with bv := bv } area
    ((start.tdiv 8).tdiv fs.dsb.blockSize + 1)
    (fun k => chunkByte bv.bits (((start.tdiv 8).tdiv fs.dsb.blockSize *
      fs.dsb.blockSize).toNat + k)) ((nblocks.tdiv 8).tdiv fs.dsb.blockSize + 1)
  unfold withData at hwrite ⊢
  dsimp only at hwrite ⊢
  rw [hwrite]
  split <;> rfl

theorem growBlock_withData (fs : Myfs) (area : ℤ → Block) :
    growBlock (withData fs area) =
      ((growBlock fs).1, (growBlock fs).2.1, withData (growBlock fs).2.2 area) := by
  unfold growBlock myfsAllocateBlocks
  rw [realAllocateBlocks_withData]
  generalize realAllocateBlocks fs 1 0 .exactAllocation = r
  obtain ⟨err, n, addr, fs'⟩ := r
  dsimp only
  split
  · rfl
  · split <;> rfl

theorem supplies_withData (n : ℕ) (fs : Myfs) (area : ℤ → Block) :
    Supplies n (withData fs area) ↔ Supplies n fs := by
  induction n generalizing fs with
  | zero => exact Iff.rfl
  | succ n ih => rw [Supplies, Supplies, growBlock_withData, ih]

/-- While the requests are granted the block size stays. -/
theorem grants_blockSize {n : ℕ} (h : Supplies n fs) :
    (grants n fs).dsb.blockSize = fs.dsb.blockSize := by
  induction n generalizing fs with
  | zero => rfl
  | succ n ih =>
    obtain ⟨start, _, ha⟩ := growBlock_ok h.1
    rw [grants, ih h.2, ha.blockSize]

end Supply

section Loops

/-- The loop over the direct blocks is a row of requests. -/
theorem growDirect_supply (needed : ℤ) (left : ℕ) (fs : Myfs) (mi : Inode) (i : ℤ)
    (hi : i ≤ needed) :
    ((growDirect needed left fs mi i).1 = 0 ↔ Supplies (min left (needed - i).toNat) fs) ∧
    ((growDirect needed left fs mi i).1 = 0 →
      (growDirect needed left fs mi i).2.1 = i + (min left (needed - i).toNat : ℕ) ∧
      (growDirect needed left fs mi i).2.2.1.data.size =
        mi.data.size + (min left (needed - i).toNat : ℕ) * fs.dsb.blockSize ∧
      (growDirect needed left fs mi i).2.2.1.data.indirect = mi.data.indirect ∧
      (growDirect needed left fs mi i).2.2.2 = grants (min left (needed - i).toNat) fs) := by
  induction left generalizing fs mi i with
  | zero =>
    rw [Nat.zero_min]
    exact ⟨⟨fun _ => trivial, fun _ => rfl⟩,
      fun _ => ⟨by simp [growDirect], by simp [growDirect], rfl, rfl⟩⟩
  | succ left ih =>
    rw [growDirect]
    by_cases hdone : needed ≤ i
    · rw [if_pos hdone, show min (left + 1) (needed - i).toNat = 0 by omega]
      exact ⟨⟨fun _ => trivial, fun _ => rfl⟩, fun _ => ⟨by simp, by simp, rfl, rfl⟩⟩
    rw [if_neg hdone,
      show min (left + 1) (needed - i).toNat = min left (needed - (i + 1)).toNat + 1 by omega]
    rw [Supplies, grants]
    have hok := @growBlock_ok fs
    generalize growBlock fs = r at hok ⊢
    obtain ⟨err, addr, fs₁⟩ := r
    dsimp only at hok ⊢
    by_cases herr : err = 0
    · obtain ⟨start, rfl, ha⟩ := hok herr
      rw [if_neg (not_not_intro herr), ha.blockSize]
      obtain ⟨hiff, hend⟩ := ih fs₁ (setSize (setDirect mi (numDirectBlocks - (left + 1)) start)
        (mi.data.size + fs.dsb.blockSize)) (i + 1) (by omega)
      refine ⟨⟨fun h => ⟨herr, hiff.1 h⟩, fun h => hiff.2 h.2⟩, fun h => ?_⟩
      obtain ⟨hcount, hsize, hind, hfs⟩ := hend h
      refine ⟨?_, ?_, hind, hfs⟩
      · rw [setDirect_size, hcount]
        push_cast
        ring
      · rw [setDirect_size, hsize, setSize_size, ha.blockSize]
        push_cast
        ring
    · rw [if_pos herr]
      exact ⟨⟨fun h => absurd h herr, fun h => absurd h.1 herr⟩, fun h => absurd h herr⟩

/-- So is the loop over the entries of the indirect block. -/
theorem growIndirect_supply (needed : ℤ) (left : ℕ) (fs : Myfs) (mi : Inode) (i : ℤ) :
    ((growIndirect needed left fs mi i).1 = 0 ↔ Supplies (min left (needed - i).toNat) fs) ∧
    ((growIndirect needed left fs mi i).1 = 0 →
      (growIndirect needed left fs mi i).2.1.data.size =
        mi.data.size + (min left (needed - i).toNat : ℕ) * fs.dsb.blockSize) := by
  induction left generalizing fs mi i with
  | zero =>
    rw [Nat.zero_min]
    exact ⟨⟨fun _ => trivial, fun _ => rfl⟩, fun _ => by simp [growIndirect]⟩
  | succ left ih =>
    rw [growIndirect]
    by_cases hdone : needed ≤ i
    · rw [if_pos hdone, show min (left + 1) (needed - i).toNat = 0 by omega]
      exact ⟨⟨fun _ => trivial, fun _ => rfl⟩, fun _ => by simp⟩
    rw [if_neg hdone,
      show min (left + 1) (needed - i).toNat = min left (needed - (i + 1)).toNat + 1 by omega,
      Supplies]
    have hok := @growBlock_ok fs
    generalize growBlock fs = r at hok ⊢
    obtain ⟨err, addr, fs₁⟩ := r
    dsimp only at hok ⊢
    by_cases herr : err = 0
    · obtain ⟨start, rfl, ha⟩ := hok herr
      rw [if_neg (not_not_intro herr), ha.blockSize, storeBlock_withData]
      generalize Function.update fs₁.dataArea mi.data.indirect _ = area
      obtain ⟨hiff, hsize⟩ :=
        ih (withData fs₁ area) (setSize mi (mi.data.size + fs.dsb.blockSize)) (i + 1)
      rw [supplies_withData] at hiff
      refine ⟨⟨fun h => ⟨herr, hiff.1 h⟩, fun h => hiff.2 h.2⟩, fun h => ?_⟩
      rw [hsize h, setSize_size, show (withData fs₁ area).dsb = fs₁.dsb from rfl, ha.blockSize]
      push_cast
      ring
    · rw [if_pos herr]
      exact ⟨⟨fun h => absurd h herr, fun h => absurd h.1 herr⟩, fun h => absurd h herr⟩

end Loops

section Growth
variable {fs : Myfs} {mi : Inode} {newSize : ℤ}

/-- The number of blocks that `size` bytes take. -/
def blockCount (b : ℕ) (size : ℤ) : ℕ := ((size + b - 1) / b).toNat

theorem blockCount_eq {b m : ℕ} {size : ℤ} (h₁ : size ≤ m * b) (h₂ : (m * b : ℤ) < size + b) :
    blockCount b size = m := by
  have hb : (0 : ℤ) < b := by omega
  have hdiv : (size + b - 1) / b = m := by
    rw [Int.ediv_eq_iff_of_pos hb]
    constructor
    · linarith
    · linarith
  rw [blockCount, hdiv, Int.toNat_natCast]

theorem blockCount_spec {k : ℕ} (hb : fs.dsb.blockSize = 2 ^ k) {size : ℤ} (h₀ : 0 ≤ size) :
    roundUp size fs.dsb.blockSize = blockCount fs.dsb.blockSize size * fs.dsb.blockSize ∧
    size ≤ blockCount fs.dsb.blockSize size * fs.dsb.blockSize ∧
    (blockCount fs.dsb.blockSize size * fs.dsb.blockSize : ℤ) < size + fs.dsb.blockSize := by
  have hpos : 0 < fs.dsb.blockSize := by rw [hb]; positivity
  obtain ⟨m, hm, h₁, h₂⟩ := roundUp_spec size hb (by omega)
  rw [blockCount_eq h₁ h₂]
  exact ⟨hm, h₁, h₂⟩

/-- The requests that a growth makes: one for every new block, and one for the indirect block
when the stream gets into its range without one. -/
def blocksNeeded (fs : Myfs) (mi : Inode) (newSize : ℤ) : ℕ :=
  let m := blockCount fs.dsb.blockSize mi.data.size
  let n := blockCount fs.dsb.blockSize newSize
  n - m + if m < n ∧ numDirectBlocks < n ∧ mi.data.indirect = 0 then 1 else 0

theorem openIndirect_supply (fs : Myfs) (mi : Inode) :
    ((openIndirect fs mi).1 = 0 ↔ Supplies (if mi.data.indirect = 0 then 1 else 0) fs) ∧
    ((openIndirect fs mi).1 = 0 → (openIndirect fs mi).2.1.data.size = mi.data.size ∧
      (openIndirect fs mi).2.2.dsb.blockSize = fs.dsb.blockSize ∧
      ∃ area, (openIndirect fs mi).2.2 =
        withData (grants (if mi.data.indirect = 0 then 1 else 0) fs) area) := by
  unfold openIndirect
  by_cases hind : mi.data.indirect = 0
  · rw [if_pos hind, if_pos hind]
    simp only [Supplies, grants, and_true]
    have hok := @growBlock_ok fs
    generalize growBlock fs = r at hok ⊢
    obtain ⟨err, addr, fs₁⟩ := r
    dsimp only at hok ⊢
    by_cases herr : err = 0
    · obtain ⟨start, rfl, ha⟩ := hok herr
      rw [if_neg (not_not_intro herr)]
      exact ⟨iff_of_true rfl herr, fun _ => ⟨rfl, ha.blockSize, _, storeBlock_withData _ _ _⟩⟩
    · rw [if_pos herr]
      exact ⟨Iff.rfl, fun h => absurd h herr⟩
  · rw [if_neg hind, if_neg hind]
    exact ⟨iff_of_true rfl trivial, fun _ => ⟨rfl, rfl, fs.dataArea, rfl⟩⟩

/-- In the indirect range: from `s` blocks to `n` of them. -/
theorem growIndirectRange_supply {s n : ℕ} {needed i : ℤ} (hbs : 0 < fs.dsb.blockSize)
    (hsize : mi.data.size = s * fs.dsb.blockSize) (hs : numDirectBlocks ≤ s) (hsn : s < n)
    (hn : n ≤ numDirectBlocks + maxIndex fs) (hneed : needed - i = n - s)
    (hend : newSize ≤ n * fs.dsb.blockSize) :
    (growIndirectRange fs mi newSize needed i).1 = 0 ↔
      Supplies ((if mi.data.indirect = 0 then 1 else 0) + (n - s)) fs := by
  have hbz : (0 : ℤ) < fs.dsb.blockSize := by exact_mod_cast hbs
  unfold growIndirectRange
  dsimp only
  rw [if_pos]
  · obtain ⟨hopen, hafter⟩ := openIndirect_supply fs mi
    rw [supplies_add, ← hopen]
    generalize openIndirect fs mi = r at hafter ⊢
    obtain ⟨err, mi₁, fs₁⟩ := r
    dsimp only at hafter ⊢
    by_cases herr : err = 0
    · obtain ⟨hsize₁, hbs₁, area, rfl⟩ := hafter herr
      rw [if_neg (not_not_intro herr), hsize₁, hsize]
      generalize grants (if mi.data.indirect = 0 then 1 else 0) fs = fs₂ at hbs₁ ⊢
      have hindex : (((s : ℤ) * fs.dsb.blockSize - directSize fs.dsb.blockSize) /
          fs.dsb.blockSize).toNat = s - numDirectBlocks := by
        unfold directSize
        rw [← sub_mul, Int.mul_ediv_cancel _ hbz.ne']
        omega
      have hmax : maxIndex (withData fs₂ area) = maxIndex fs := by simp only [maxIndex, hbs₁]
      rw [hindex, hmax]
      obtain ⟨hiff, hsize₂⟩ := growIndirect_supply needed
        (maxIndex fs - (s - numDirectBlocks)) (withData fs₂ area) mi₁ i
      rw [show min (maxIndex fs - (s - numDirectBlocks)) (needed - i).toNat = n - s by omega]
        at hiff hsize₂
      rw [supplies_withData] at hiff
      rw [← hiff]
      generalize growIndirect needed _ (withData fs₂ area) mi₁ i = r at hsize₂ ⊢
      obtain ⟨err', mi₂, fs₃⟩ := r
      dsimp only at hsize₂ ⊢
      by_cases herr' : err' = 0
      · rw [if_neg (not_not_intro herr'), if_pos]
        · exact iff_of_true rfl ⟨herr, herr'⟩
        · rw [hsize₂ herr', hsize₁, hsize, hbs₁, ← add_mul]
          push_cast [hsn.le]
          rwa [add_sub_cancel]
      · rw [if_pos herr']
        exact iff_of_false herr' fun h => herr' h.2
    · rw [if_pos herr]
      exact iff_of_false herr fun h => herr h.1
  · rw [DataStreamShape.maxIndirectRange_eq, hsize, directSize]
    have hlt := lt_of_lt_of_le hsn hn
    constructor
    · gcongr
    · gcongr

/-- A growth inside the indirect range returns 0 exactly if every block it asks for is granted. -/
theorem growDstream_supply {k : ℕ} (hb : fs.dsb.blockSize = 2 ^ k) (h₀ : 0 ≤ mi.data.size)
    (hlt : mi.data.size < newSize) (hmax : newSize ≤ maxIndirectRange fs.dsb.blockSize)
    (hslot : ∀ i < numDirectBlocks, mi.data.size ≤ i * fs.dsb.blockSize → mi.data.direct i = 0) :
    ∃ r, growDstream fs mi newSize = .ok r ∧
      (r.1 = 0 ↔ Supplies (blocksNeeded fs mi newSize) fs) := by
  have hbs : 0 < fs.dsb.blockSize := by rw [hb]; positivity
  have hbz : (0 : ℤ) < fs.dsb.blockSize := by exact_mod_cast hbs
  obtain ⟨hm, hm₁, hm₂⟩ := blockCount_spec hb h₀
  obtain ⟨hn, hn₁, hn₂⟩ := blockCount_spec hb (show 0 ≤ newSize by omega)
  unfold blocksNeeded
  dsimp only
  generalize blockCount fs.dsb.blockSize mi.data.size = m at hm hm₁ hm₂ ⊢
  generalize blockCount fs.dsb.blockSize newSize = n at hn hn₁ hn₂ ⊢
  have hle : m ≤ n := by
    have : (m * fs.dsb.blockSize : ℤ) < (n + 1) * fs.dsb.blockSize := by linarith
    have := lt_of_mul_lt_mul_right this hbz.le
    omega
  have hn6 : n ≤ numDirectBlocks + maxIndex fs := by
    rw [DataStreamShape.maxIndirectRange_eq] at hmax
    have : (n * fs.dsb.blockSize : ℤ) <
        ((numDirectBlocks + maxIndex fs : ℕ) + 1 : ℤ) * fs.dsb.blockSize := by linarith
    have := lt_of_mul_lt_mul_right this hbz.le
    omega
  have hguard : ¬(newSize < 0 ∨ maxDoubleIndirectRange fs.dsb.blockSize < newSize) := by
    have : (0 : ℤ) ≤ fs.dsb.blockSize / 8 * indirectSize fs.dsb.blockSize := by
      unfold indirectSize
      positivity
    unfold maxDoubleIndirectRange
    omega
  have hdiv : ((m * fs.dsb.blockSize : ℤ) / fs.dsb.blockSize).toNat = m := by
    rw [Int.mul_ediv_cancel _ hbz.ne', Int.toNat_natCast]
  have hneed : ((n * fs.dsb.blockSize : ℤ) - m * fs.dsb.blockSize) / fs.dsb.blockSize = n - m := by
    rw [← sub_mul, Int.mul_ediv_cancel _ hbz.ne']
  unfold growDstream
  dsimp only
  rw [if_neg hguard, hm, hn]
  rcases Nat.lt_or_ge m n with hmn | hge
  swap
  · obtain rfl : m = n := by omega
    rw [if_pos rfl]
    refine ⟨_, rfl, iff_of_true rfl ?_⟩
    rw [Nat.sub_self, if_neg (by omega)]
    exact trivial
  have hne : (m * fs.dsb.blockSize : ℤ) ≠ n * fs.dsb.blockSize := fun h =>
    hmn.ne (by exact_mod_cast mul_right_cancel₀ hbz.ne' h)
  have hopen : numDirectBlocks < n →
      (if m < n ∧ numDirectBlocks < n ∧ mi.data.indirect = 0 then 1 else 0) =
        if mi.data.indirect = 0 then 1 else 0 := fun h6 => by simp only [hmn, h6, true_and]
  rw [if_neg hne, hdiv, hneed]
  by_cases hdir : (m * fs.dsb.blockSize : ℤ) < directSize fs.dsb.blockSize
  · have hm6 : m < numDirectBlocks := by
      rw [directSize] at hdir
      exact_mod_cast lt_of_mul_lt_mul_right hdir hbz.le
    rw [if_pos hdir, setSize_direct, if_neg (not_not_intro (hslot m hm6 hm₁))]
    obtain ⟨hiff, hafter⟩ := growDirect_supply ((n : ℤ) - m) (numDirectBlocks - m) fs
      (setSize mi (m * fs.dsb.blockSize)) 0 (by omega)
    generalize growDirect (n - m : ℤ) (numDirectBlocks - m) fs
      (setSize mi (m * fs.dsb.blockSize)) 0 = r at hiff hafter ⊢
    obtain ⟨err, i, mi₁, fs₁⟩ := r
    dsimp only at hiff hafter ⊢
    by_cases herr : err = 0
    · obtain ⟨hi, hsize, hind, rfl⟩ := hafter herr
      rw [if_neg (not_not_intro herr)]
      rw [setSize_size, ← add_mul] at hsize
      rw [setSize_indirect] at hind
      rw [iff_true_left herr] at hiff
      rcases Nat.lt_or_ge numDirectBlocks n with hlong | hshort
      · -- The direct blocks are full and the growth goes on behind them.
        rw [show min (numDirectBlocks - m) ((n : ℤ) - m - 0).toNat = numDirectBlocks - m by omega]
          at hi hsize hiff ⊢
        have hsize₆ : mi₁.data.size = numDirectBlocks * fs.dsb.blockSize := by
          rw [hsize]
          congr 1
          omega
        have hbig : numDirectBlocks * (fs.dsb.blockSize : ℤ) < newSize := by
          have : ((numDirectBlocks : ℤ) + 1) * fs.dsb.blockSize ≤ n * fs.dsb.blockSize := by
            gcongr
            omega
          linarith
        have hbs' := grants_blockSize hiff
        rw [if_neg (by omega)]
        refine ⟨_, rfl, ?_⟩
        rw [growIndirectRange_supply (s := numDirectBlocks) (n := n) (by omega)
          (by rw [hsize₆, hbs']) le_rfl hlong (by simp only [maxIndex, hbs'] at hn6 ⊢; exact hn6)
          (by omega) (by rw [hbs']; exact hn₁), hopen hlong, hind,
          show n - m + (if mi.data.indirect = 0 then 1 else 0) = numDirectBlocks - m +
            ((if mi.data.indirect = 0 then 1 else 0) + (n - numDirectBlocks)) by omega,
          supplies_add (numDirectBlocks - m)]
        exact ⟨fun h => ⟨hiff, h⟩, fun h => h.2⟩
      · rw [show min (numDirectBlocks - m) ((n : ℤ) - m - 0).toNat = n - m by omega] at hsize hiff ⊢
        have hsize_n : mi₁.data.size = n * fs.dsb.blockSize := by
          rw [hsize]
          congr 1
          omega
        rw [if_pos (by omega), if_neg (by omega)]
        exact ⟨_, rfl, iff_of_true rfl hiff⟩
    · rw [if_pos herr]
      refine ⟨_, rfl, iff_of_false herr fun hsup => herr (hiff.2 ?_)⟩
      rw [show n - m + (if m < n ∧ numDirectBlocks < n ∧ mi.data.indirect = 0 then 1 else 0) =
        min (numDirectBlocks - m) ((n : ℤ) - m - 0).toNat + (n - m +
          (if m < n ∧ numDirectBlocks < n ∧ mi.data.indirect = 0 then 1 else 0) -
          min (numDirectBlocks - m) ((n : ℤ) - m - 0).toNat) by omega, supplies_add] at hsup
      exact hsup.1
  · have hm6 : numDirectBlocks ≤ m := by
      rw [directSize, not_lt] at hdir
      exact_mod_cast le_of_mul_le_mul_right hdir hbz
    rw [if_neg hdir]
    refine ⟨_, rfl, ?_⟩
    rw [growIndirectRange_supply (s := m) (n := n) hbs rfl hm6 hmn hn6 (by omega) hn₁,
      hopen (lt_of_le_of_lt hm6 hmn), Nat.add_comm, setSize_indirect]

end Growth

end BlockSupply
