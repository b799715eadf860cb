import Mathlib.Tactic
import FsKit.DataStreamGrowth

/-! What the calls on a data stream of good shape do: growing keeps whatever each of its
steps keeps, shrinking frees a described set of blocks, and writing changes the contents
of data blocks only. -/
namespace DataStreamShape

open MachineIntegers
open BitVectorSearch BlockBitmap BlockRounding InodeTable LittleEndian DataStreamBlocks
open DataStreamGrowth

/-- `fs'` differs from `fs` in the bits of `S`, which are clear, and in metadata blocks,
counts and marks that no stream reads. -/
structure Freed (fs fs' : Myfs) (S : ℕ → Prop) : Prop where
  dataArea : fs'.dataArea = fs.dataArea
  blockSize : fs'.dsb.blockSize = fs.dsb.blockSize
  numbits : fs'.bv.numbits = fs.bv.numbits
  bits : ∀ p, fs'.bv.bit p = true ↔ fs.bv.bit p = true ∧ ¬ S p

theorem Freed.nothing (fs : Myfs) : Freed fs fs fun _ => False :=
  ⟨rfl, rfl, rfl, fun p => by simp⟩

theorem Freed.trans {fs fs₁ fs₂ : Myfs} {S T : ℕ → Prop} (h : Freed fs fs₁ S)
    (k : Freed fs₁ fs₂ T) : Freed fs fs₂ fun p => S p ∨ T p := by
  refine ⟨k.dataArea.trans h.dataArea, k.blockSize.trans h.blockSize,
    k.numbits.trans h.numbits, fun p => ?_⟩
  rw [k.bits, h.bits, not_or, and_assoc]

theorem Freed.congr {fs fs' : Myfs} {S T : ℕ → Prop} (h : Freed fs fs' S)
    (hst : ∀ p, S p ↔ T p) : Freed fs fs' T :=
  ⟨h.dataArea, h.blockSize, h.numbits, fun p => by rw [h.bits, hst]⟩

/-- Freeing one block inside the bitmap, whether or not the write-back succeeds. -/
theorem freed_one (fs : Myfs) {addr : ℤ} (h₀ : 0 ≤ addr) (h₁ : addr < fs.bv.numbits)
    (hint : fs.bv.numbits < 2 ^ 31) :
    Freed fs (myfsFreeBlocks fs addr 1).2 fun p => (p : ℤ) = addr := by
  obtain ⟨area, dsb, hf, hbs⟩ := myfsFreeBlocks_any fs addr 1
  obtain ⟨hnum, hbits⟩ := clearedVector_spec fs.bv addr 1
  have hone : toInt32 1 = 1 := by decide
  rw [toInt32_of_lt h₀ (by omega), hone] at hbits
  rw [hf]
  refine ⟨rfl, hbs, hnum, fun p => ?_⟩
  dsimp only
  rw [hbits, Bool.and_eq_true, Bool.not_eq_true', decide_eq_false_iff_not]
  apply and_congr_right
  intro _
  constructor
  · intro h he
    exact h (by omega)
  · intro h he
    exact h (by omega)

/-- The entries of `block` that a loop from `i` on frees: those up to the first zero. -/
def LoopEntry (block : Block) (maxIdx i : ℕ) (p : ℕ) : Prop :=
  ∃ j, i ≤ j ∧ j < maxIdx ∧ (∀ j', i ≤ j' → j' ≤ j → blockEntry block j' ≠ 0) ∧
    blockEntry block j = p

theorem loopEntry_zero {block : Block} {maxIdx i : ℕ} (h : blockEntry block i = 0) (p : ℕ) :
    ¬ LoopEntry block maxIdx i p := by
  rintro ⟨j, hij, _, hne, _⟩
  exact hne i le_rfl hij h

theorem loopEntry_succ {block : Block} {maxIdx i : ℕ} (hi : i < maxIdx)
    (h : blockEntry block i ≠ 0) (p : ℕ) :
    LoopEntry block maxIdx i p ↔ (p : ℤ) = blockEntry block i ∨
      LoopEntry block maxIdx (i + 1) p := by
  constructor
  · rintro ⟨j, hij, hj, hne, hp⟩
    by_cases he : j = i
    · subst he
      exact Or.inl hp.symm
    · refine Or.inr ⟨j, by omega, hj, ?_, hp⟩
      intro j' h₁ h₂
      exact hne j' (by omega) h₂
  · rintro (hp | ⟨j, hij, hj, hne, hp⟩)
    · refine ⟨i, le_rfl, hi, ?_, hp.symm⟩
      intro j' h₁ h₂
      obtain rfl : j' = i := by omega
      exact h
    · refine ⟨j, by omega, hj, ?_, hp⟩
      intro j' h₁ h₂
      by_cases he : j' = i
      · rw [he]; exact h
      · exact hne j' (by omega) h₂

theorem freeEntries_freed {block : Block} {maxIdx n : ℕ}
    (hrange : ∀ j < maxIdx, 0 ≤ blockEntry block j ∧ blockEntry block j < n) (hn : n < 2 ^ 31)
    (left : ℕ) (fs : Myfs) (hnum : fs.bv.numbits = n) (hleft : left ≤ maxIdx) :
    Freed fs (freeEntries block maxIdx left fs) (LoopEntry block maxIdx (maxIdx - left)) := by
  induction left generalizing fs with
  | zero =>
    refine (Freed.nothing fs).congr fun p => ⟨False.elim, ?_⟩
    rintro ⟨j, h₁, h₂, _⟩
    omega
  | succ left ih =>
    have hi : maxIdx - (left + 1) < maxIdx := by omega
    rw [freeEntries]
    split
    · rename_i hz
      refine (Freed.nothing fs).congr fun p => ⟨False.elim, loopEntry_zero hz p⟩
    · rename_i hne
      obtain ⟨h₀, h₁⟩ := hrange _ hi
      have hone := freed_one fs h₀ (by rw [hnum]; exact h₁) (by omega)
      have hrest := ih (myfsFreeBlocks fs (blockEntry block (maxIdx - (left + 1))) 1).2
        (by rw [hone.numbits, hnum]) (by omega)
      refine (hone.trans hrest).congr fun p => ?_
      rw [loopEntry_succ hi hne, show maxIdx - (left + 1) + 1 = maxIdx - left by omega]

/-- The loop over the direct blocks frees and clears them up to the first zero. With the
used slots in front it clears exactly the used slots from `i` on. -/
theorem freeDirect_freed {n m : ℕ} (hn : n < 2 ^ 31) (left : ℕ) (fs : Myfs) (mi : Inode)
    (hnum : fs.bv.numbits = n) (hleft : left ≤ numDirectBlocks)
    (hrange : ∀ i < numDirectBlocks, 0 ≤ mi.data.direct i ∧ mi.data.direct i < n)
    (hused : ∀ i < numDirectBlocks, numDirectBlocks - left ≤ i → (mi.data.direct i ≠ 0 ↔ i < m)) :
    Freed fs (freeDirect left fs mi).2 (fun p => ∃ i, numDirectBlocks - left ≤ i ∧
      i < numDirectBlocks ∧ mi.data.direct i ≠ 0 ∧ mi.data.direct i = p) ∧
    ∃ direct, (freeDirect left fs mi).1 = { mi with data := { mi.data with direct := direct } } ∧
      ∀ i < numDirectBlocks, direct i =
        if numDirectBlocks - left ≤ i then 0 else mi.data.direct i := by
  induction left generalizing fs mi with
  | zero =>
    refine ⟨(Freed.nothing fs).congr fun p => ⟨False.elim, ?_⟩, mi.data.direct, rfl, ?_⟩
    · rintro ⟨i, h₁, h₂, _⟩
      omega
    · intro i hi
      rw [if_neg (by omega)]
  | succ left ih =>
    have hi : numDirectBlocks - (left + 1) < numDirectBlocks := by omega
    rw [freeDirect]
    dsimp only
    split
    · rename_i hz
      have hnone : ∀ i < numDirectBlocks, numDirectBlocks - (left + 1) ≤ i →
          mi.data.direct i = 0 := by
        intro i h₁ h₂
        by_contra hne
        have := (hused i h₁ h₂).mp hne
        exact (hused _ hi le_rfl).mpr (by omega) hz
      refine ⟨(Freed.nothing fs).congr fun p => ⟨False.elim, ?_⟩, mi.data.direct, rfl, ?_⟩
      · rintro ⟨i, h₁, h₂, hne, _⟩
        exact hne (hnone i h₂ h₁)
      · intro i h₁
        split
        · rename_i h₂
          exact hnone i h₁ h₂
        · rfl
    · rename_i hne
      obtain ⟨h₀, h₁⟩ := hrange _ hi
      have hone := freed_one fs h₀ (by rw [hnum]; exact h₁) (by omega)
      have hset : ∀ i, i ≠ numDirectBlocks - (left + 1) →
          (setDirect mi (numDirectBlocks - (left + 1)) 0).data.direct i = mi.data.direct i := by
        intro i hi
        rw [setDirect_direct, Function.update_of_ne hi]
      obtain ⟨hrest, direct, hd, hdir⟩ := ih
        (myfsFreeBlocks fs (mi.data.direct (numDirectBlocks - (left + 1))) 1).2
        (setDirect mi (numDirectBlocks - (left + 1)) 0) (by rw [hone.numbits, hnum]) (by omega)
        (by
          intro i hi'
          by_cases he : i = numDirectBlocks - (left + 1)
          · rw [he, setDirect_direct, Function.update_self]
            omega
          · rw [hset i he]
            exact hrange i hi')
        (by
          intro i hi' hle
          rw [hset i (by omega)]
          exact hused i hi' (by omega))
      refine ⟨(hone.trans hrest).congr fun p => ?_, direct, ?_, ?_⟩
      · constructor
        · rintro (hp | ⟨i, h₂, h₃, h₄, h₅⟩)
          · exact ⟨_, le_rfl, hi, hne, hp.symm⟩
          · rw [hset i (by omega)] at h₄ h₅
            exact ⟨i, by omega, h₃, h₄, h₅⟩
        · rintro ⟨i, h₂, h₃, h₄, h₅⟩
          by_cases he : i = numDirectBlocks - (left + 1)
          · subst he
            exact Or.inl h₅.symm
          · refine Or.inr ⟨i, by omega, h₃, ?_, ?_⟩
            · rw [hset i he]; exact h₄
            · rw [hset i he]; exact h₅
      · rw [hd]
        rfl
      · intro i h₂
        rw [hdir i h₂]
        by_cases he : i = numDirectBlocks - (left + 1)
        · rw [if_neg (by omega), if_pos (by omega), he, setDirect_direct, Function.update_self]
        · rw [hset i he]
          by_cases hle : numDirectBlocks - left ≤ i
          · rw [if_pos hle, if_pos (by omega)]
          · rw [if_neg hle, if_neg (by omega)]

/-- A stream whose slots agree with its size: the used slots are the non-zero ones, and
every pointer and every entry of the indirect block lies inside the bitmap. -/
structure StreamCore (fs : Myfs) (mi : Inode) : Prop where
  nonneg : 0 ≤ mi.data.size
  bounded : mi.data.size ≤ maxIndirectRange fs.dsb.blockSize
  direct : ∀ i < numDirectBlocks,
    (mi.data.direct i ≠ 0 ↔ (i * fs.dsb.blockSize : ℤ) < mi.data.size)
  directRange : ∀ i < numDirectBlocks,
    0 ≤ mi.data.direct i ∧ mi.data.direct i < fs.bv.numbits
  needed : directSize fs.dsb.blockSize < mi.data.size → mi.data.indirect ≠ 0
  indirectRange : 0 ≤ mi.data.indirect ∧ mi.data.indirect < fs.bv.numbits
  entry : ∀ j < maxIndex fs,
    (((numDirectBlocks + j : ℕ) : ℤ) * fs.dsb.blockSize) < mi.data.size →
    blockEntry (fs.dataArea mi.data.indirect) j ≠ 0
  entryRange : mi.data.indirect ≠ 0 → ∀ j < maxIndex fs,
    0 ≤ blockEntry (fs.dataArea mi.data.indirect) j ∧
      blockEntry (fs.dataArea mi.data.indirect) j < fs.bv.numbits
  doubleIndirect : mi.data.doubleIndirect = 0

/-- Between calls there is an indirect block only where the size needs one. -/
structure StreamShape (fs : Myfs) (mi : Inode) : Prop extends StreamCore fs mi where
  only : mi.data.indirect ≠ 0 → directSize fs.dsb.blockSize < mi.data.size

theorem StreamShape.indirect {fs : Myfs} {mi : Inode} (h : StreamShape fs mi) :
    mi.data.indirect ≠ 0 ↔ directSize fs.dsb.blockSize < mi.data.size := ⟨h.only, h.needed⟩

/-- The blocks that a shrink to `q` blocks gives back. From the indirect block it frees
every entry up to the first zero, also those behind the last mapped one. -/
def ShrinkFreed (fs : Myfs) (mi : Inode) (q p : ℕ) : Prop :=
  (q * fs.dsb.blockSize : ℤ) < mi.data.size ∧
    ((∃ i, q ≤ i ∧ i < numDirectBlocks ∧ mi.data.direct i ≠ 0 ∧ mi.data.direct i = p) ∨
      (mi.data.indirect ≠ 0 ∧
        (LoopEntry (fs.dataArea mi.data.indirect) (maxIndex fs) (q - numDirectBlocks) p ∨
          q ≤ numDirectBlocks ∧ (p : ℤ) = mi.data.indirect)))

theorem shrinkIndirect_spec {fs : Myfs} {mi : Inode} {q : ℕ} (hbs : 0 < fs.dsb.blockSize)
    (hint : fs.bv.numbits < 2 ^ 31) (hs : StreamShape fs mi) (hind : mi.data.indirect ≠ 0) :
    (shrinkIndirect fs mi (q * fs.dsb.blockSize)).1 =
      setIndirect mi (if q ≤ numDirectBlocks then 0 else mi.data.indirect) ∧
    Freed fs (shrinkIndirect fs mi (q * fs.dsb.blockSize)).2 (fun p =>
      LoopEntry (fs.dataArea mi.data.indirect) (maxIndex fs) (q - numDirectBlocks) p ∨
        q ≤ numDirectBlocks ∧ (p : ℤ) = mi.data.indirect) := by
  have hb : (0 : ℤ) < fs.dsb.blockSize := by exact_mod_cast hbs
  have hi : (if directSize fs.dsb.blockSize < (q * fs.dsb.blockSize : ℤ) then
      (((q * fs.dsb.blockSize : ℤ) - directSize fs.dsb.blockSize) / fs.dsb.blockSize).toNat
      else 0) = q - numDirectBlocks := by
    rw [directSize, ← sub_mul, Int.mul_ediv_cancel _ hb.ne']
    split
    · omega
    · rename_i hle
      have := le_of_mul_le_mul_right (not_lt.mp hle) hb
      omega
  unfold shrinkIndirect
  dsimp only
  rw [hi]
  have hloop := freeEntries_freed (hs.entryRange hind) hint
    (maxIndex fs - (q - numDirectBlocks)) fs rfl (by omega)
  have hstart : LoopEntry (fs.dataArea mi.data.indirect) (maxIndex fs)
      (maxIndex fs - (maxIndex fs - (q - numDirectBlocks))) =
      LoopEntry (fs.dataArea mi.data.indirect) (maxIndex fs) (q - numDirectBlocks) := by
    by_cases hq : q - numDirectBlocks ≤ maxIndex fs
    · rw [show maxIndex fs - (maxIndex fs - (q - numDirectBlocks)) = q - numDirectBlocks by omega]
    · funext p
      apply propext
      constructor
      · rintro ⟨j, h₁, h₂, _⟩; omega
      · rintro ⟨j, h₁, h₂, _⟩; omega
  rw [hstart] at hloop
  split
  · rename_i hzero
    have hq : q ≤ numDirectBlocks := by omega
    rw [if_pos hq]
    have hone := freed_one (freeEntries (fs.dataArea mi.data.indirect) (maxIndex fs)
      (maxIndex fs - (q - numDirectBlocks)) fs) hs.indirectRange.1
      (by rw [hloop.numbits]; exact hs.indirectRange.2) (by rw [hloop.numbits]; exact hint)
    refine ⟨rfl, (hloop.trans hone).congr fun p => ?_⟩
    simp only [hq, true_and]
  · rename_i hne
    have hq : ¬ q ≤ numDirectBlocks := by omega
    rw [if_neg hq]
    refine ⟨rfl, hloop.congr fun p => ?_⟩
    simp only [hq, false_and, or_false]

theorem mul_lt_iff_lt {size : ℤ} {b m : ℕ} (hb : 0 < b) (h₁ : size ≤ m * b)
    (h₂ : (m * b : ℤ) < size + b) (i : ℕ) : (i * b : ℤ) < size ↔ i < m := by
  have hbz : (0 : ℤ) < b := by exact_mod_cast hb
  constructor
  · intro h
    have : (i * b : ℤ) < m * b := by omega
    exact_mod_cast lt_of_mul_lt_mul_right this hbz.le
  · intro h
    have : (i + 1 : ℤ) ≤ m := by omega
    nlinarith

/-- The indirect part of a shrink, whether there is an indirect block or not. -/
theorem shrinkIndirect_part {fs : Myfs} {mi : Inode} {q : ℕ} (hbs : 0 < fs.dsb.blockSize)
    (hint : fs.bv.numbits < 2 ^ 31) (hs : StreamShape fs mi)
    (hrange : (q * fs.dsb.blockSize : ℤ) < maxIndirectRange fs.dsb.blockSize) :
    ∃ fs₁, (if (q * fs.dsb.blockSize : ℤ) < maxIndirectRange fs.dsb.blockSize ∧
        mi.data.indirect ≠ 0 then shrinkIndirect fs mi (q * fs.dsb.blockSize) else (mi, fs)) =
        (setIndirect mi (if q ≤ numDirectBlocks then 0 else mi.data.indirect), fs₁) ∧
      Freed fs fs₁ (fun p => mi.data.indirect ≠ 0 ∧
        (LoopEntry (fs.dataArea mi.data.indirect) (maxIndex fs) (q - numDirectBlocks) p ∨
          q ≤ numDirectBlocks ∧ (p : ℤ) = mi.data.indirect)) := by
  by_cases hind : mi.data.indirect = 0
  · rw [if_neg (fun h => h.2 hind)]
    refine ⟨fs, ?_, (Freed.nothing fs).congr fun p => ⟨False.elim, fun h => h.1 hind⟩⟩
    rw [hind, ite_self]
    simp only [setIndirect, ← hind]
  · rw [if_pos ⟨hrange, hind⟩]
    obtain ⟨h₁, h₂⟩ := shrinkIndirect_spec (q := q) hbs hint hs hind
    refine ⟨_, Prod.ext h₁ rfl, h₂.congr fun p => ?_⟩
    simp only [ne_eq, hind, not_false_eq_true, true_and]

/-- The direct part of a shrink to `q` blocks. -/
theorem freeDirect_part {fs : Myfs} (mi : Inode) (q m : ℕ) {b : ℕ} (hb : 0 < b)
    (hint : fs.bv.numbits < 2 ^ 31)
    (hrange : ∀ i < numDirectBlocks, 0 ≤ mi.data.direct i ∧ mi.data.direct i < fs.bv.numbits)
    (hused : ∀ i < numDirectBlocks, (mi.data.direct i ≠ 0 ↔ i < m)) :
    ∃ direct fs₁, (if (q * b : ℤ) < directSize b then
        freeDirect (numDirectBlocks - ((q * b : ℤ) / b).toNat) fs mi else (mi, fs)) =
        ({ mi with data := { mi.data with direct := direct } }, fs₁) ∧
      (∀ i < numDirectBlocks, direct i = if q ≤ i then 0 else mi.data.direct i) ∧
      Freed fs fs₁ (fun p => ∃ i, q ≤ i ∧ i < numDirectBlocks ∧ mi.data.direct i ≠ 0 ∧
        mi.data.direct i = p) := by
  have hbz : (0 : ℤ) < b := by exact_mod_cast hb
  have hqd : ((q * b : ℤ) / b).toNat = q := by
    rw [Int.mul_ediv_cancel _ hbz.ne', Int.toNat_natCast]
  rw [hqd]
  split
  · rename_i hlt
    rw [directSize] at hlt
    have hq : q < numDirectBlocks := by exact_mod_cast lt_of_mul_lt_mul_right hlt hbz.le
    obtain ⟨hfd, direct, hd, hdir⟩ := freeDirect_freed (m := m) hint (numDirectBlocks - q) fs mi
      rfl (by omega) hrange (fun i hi _ => hused i hi)
    rw [show numDirectBlocks - (numDirectBlocks - q) = q by omega] at hfd hdir
    exact ⟨direct, _, Prod.ext hd rfl, hdir, hfd⟩
  · rename_i hge
    have hq : numDirectBlocks ≤ q := by
      rw [directSize] at hge
      exact_mod_cast le_of_mul_le_mul_right (not_lt.mp hge) hbz
    refine ⟨mi.data.direct, fs, rfl, ?_, (Freed.nothing fs).congr fun p => ⟨False.elim, ?_⟩⟩
    · intro i hi
      rw [if_neg (by omega)]
    · rintro ⟨i, h₁, h₂, _⟩
      omega

/-- What `shrink_dstream` does to a stream of good shape; `q` is the number of blocks that
its rounding of the new size keeps. -/
theorem shrinkDstream_spec {fs : Myfs} {mi : Inode} {n : ℤ} {k q : ℕ}
    (hb : fs.dsb.blockSize = 2 ^ k) (hint : fs.bv.numbits < 2 ^ 31)
    (hs : StreamShape fs mi) (h₀ : 0 ≤ n) (hle : n ≤ mi.data.size)
    (hq : roundUp (n - 1) fs.dsb.blockSize = q * fs.dsb.blockSize)
    (hq₂ : (q * fs.dsb.blockSize : ℤ) < n - 1 + fs.dsb.blockSize) :
    ∃ mi' fs', shrinkDstream fs mi n = (0, mi', fs') ∧ mi'.data.size = n ∧
      mi'.data.doubleIndirect = 0 ∧
      (∀ i < numDirectBlocks, mi'.data.direct i = if q ≤ i then 0 else mi.data.direct i) ∧
      mi'.data.indirect = (if q ≤ numDirectBlocks then 0 else mi.data.indirect) ∧
      Freed fs fs' (ShrinkFreed fs mi q) := by
  have hbs : 0 < fs.dsb.blockSize := by rw [hb]; positivity
  have hbz : (0 : ℤ) < fs.dsb.blockSize := by exact_mod_cast hbs
  have hbound := hs.bounded
  have hnn := hs.nonneg
  obtain ⟨m, hm, hm₁, hm₂⟩ := roundUp_spec mi.data.size hb (by omega)
  have hused := mul_lt_iff_lt hbs hm₁ hm₂
  have hqm : q ≤ m := by
    have : (q * fs.dsb.blockSize : ℤ) < (m + 1) * fs.dsb.blockSize := by nlinarith
    have := lt_of_mul_lt_mul_right this hbz.le
    omega
  have hdbl : ¬ (n < 0 ∨ maxDoubleIndirectRange fs.dsb.blockSize < n) := by
    have : 0 ≤ (fs.dsb.blockSize / 8 * indirectSize fs.dsb.blockSize : ℤ) := by
      have h8 : (0 : ℤ) ≤ fs.dsb.blockSize / 8 := by positivity
      exact mul_nonneg h8 (mul_nonneg h8 hbz.le)
    unfold maxDoubleIndirectRange
    omega
  have hnodbl : ¬ ((q * fs.dsb.blockSize : ℤ) < maxDoubleIndirectRange fs.dsb.blockSize ∧
      mi.data.doubleIndirect ≠ 0) := fun h => h.2 hs.doubleIndirect
  unfold shrinkDstream
  dsimp only
  rw [if_neg hdbl, hm, hq, if_neg hnodbl]
  dsimp only
  by_cases hsame : q = m
  · -- nothing to trim: the slots from `q` on are empty already
    subst hsame
    rw [if_pos rfl]
    refine ⟨_, _, rfl, rfl, hs.doubleIndirect, ?_, ?_, ?_⟩
    · intro i hi
      split
      · rename_i hqi
        by_contra hne
        have := (hused i).mp ((hs.direct i hi).mp hne)
        omega
      · rfl
    · split
      · rename_i hq6
        by_contra hne
        have := (hused numDirectBlocks).mp (hs.indirect.mp hne)
        omega
      · rfl
    · refine (Freed.nothing fs).congr fun p => ⟨False.elim, ?_⟩
      rintro ⟨h, _⟩
      have := (hused q).mp h
      omega
  · have hlt : q < m := by omega
    have hne : ¬ ((m * fs.dsb.blockSize : ℤ) = q * fs.dsb.blockSize) := by
      intro h
      have := mul_right_cancel₀ hbz.ne' h
      omega
    have hrange : (q * fs.dsb.blockSize : ℤ) < maxIndirectRange fs.dsb.blockSize := by
      have : (q + 1 : ℤ) ≤ m := by omega
      nlinarith
    rw [if_neg hne]
    obtain ⟨fs₁, he₁, hf₁⟩ := shrinkIndirect_part hbs hint hs hrange
    rw [he₁]
    dsimp only
    obtain ⟨direct, fs₂, he₂, hd₂, hf₂⟩ := freeDirect_part
      (setIndirect mi (if q ≤ numDirectBlocks then 0 else mi.data.indirect)) q m hbs
      (by rw [hf₁.numbits]; exact hint)
      (by rw [hf₁.numbits]; exact hs.directRange)
      (fun i hi => (hs.direct i hi).trans (hused i))
    rw [he₂]
    refine ⟨_, _, rfl, rfl, hs.doubleIndirect, hd₂, rfl, (hf₁.trans hf₂).congr fun p => ?_⟩
    have hq' := (hused q).mpr hlt
    constructor
    · rintro (h | h)
      · exact ⟨hq', Or.inr h⟩
      · exact ⟨hq', Or.inl h⟩
    · rintro ⟨_, h | h⟩
      · exact Or.inr h
      · exact Or.inl h

/-- The addresses of the data blocks of a stream. -/
def DataAddr (fs : Myfs) (mi : Inode) (a : ℤ) : Prop :=
  (∃ i : ℕ, i < numDirectBlocks ∧ (i * fs.dsb.blockSize : ℤ) < mi.data.size ∧
    mi.data.direct i = a) ∨
  (∃ j : ℕ, j < maxIndex fs ∧
    (((numDirectBlocks + j : ℕ) : ℤ) * fs.dsb.blockSize) < mi.data.size ∧
    blockEntry (fs.dataArea mi.data.indirect) j = a)

theorem directSize_lt_of_entry {size : ℤ} {b j : ℕ}
    (h : (((numDirectBlocks + j : ℕ) : ℤ) * b) < size) : directSize b < size := by
  have : (0 : ℤ) ≤ j * b := by positivity
  rw [directSize]
  push_cast at h
  linarith

/-- No data block of the stream is its own indirect block. -/
def IndirectApart (fs : Myfs) (mi : Inode) : Prop :=
  directSize fs.dsb.blockSize < mi.data.size → ¬ DataAddr fs mi mi.data.indirect

theorem checkAddr_ok {fs : Myfs} {a addr : ℤ} (h : checkAddr fs a = .ok addr) :
    addr = a ∧ 0 ≤ addr := by
  unfold checkAddr at h
  split at h
  · cases h
  · rename_i hin
    cases h
    exact ⟨rfl, by omega⟩

/-- A position below the size is mapped to a data block of the stream. -/
theorem filePosToDiskAddr_data {fs : Myfs} {mi : Inode} {pos addr : ℤ}
    (hbs : 0 < fs.dsb.blockSize) (h₀ : 0 ≤ pos) (hlt : pos < mi.data.size)
    (hbound : mi.data.size ≤ maxIndirectRange fs.dsb.blockSize)
    (h : filePosToDiskAddr fs mi pos = .ok addr) : DataAddr fs mi addr := by
  have hb : (0 : ℤ) < fs.dsb.blockSize := by exact_mod_cast hbs
  have floor : ∀ x : ℤ, x / (fs.dsb.blockSize : ℤ) * fs.dsb.blockSize ≤ x :=
    fun x => Int.ediv_mul_le x hb.ne'
  unfold filePosToDiskAddr at h
  dsimp only at h
  split at h
  · rename_i hd
    obtain ⟨rfl, _⟩ := checkAddr_ok h
    have hq := Int.ediv_nonneg h₀ hb.le
    refine Or.inl ⟨_, ?_, ?_, rfl⟩
    · have := Int.ediv_lt_of_lt_mul hb (by rwa [directSize] at hd)
      omega
    · rw [Int.toNat_of_nonneg hq]
      have := floor pos
      omega
  · rename_i hd
    rw [if_pos (by omega)] at h
    obtain ⟨rfl, _⟩ := checkAddr_ok h
    have hq := Int.ediv_nonneg (show 0 ≤ pos - directSize fs.dsb.blockSize by omega) hb.le
    refine Or.inr ⟨_, ?_, ?_, rfl⟩
    · have : (pos - directSize fs.dsb.blockSize) / (fs.dsb.blockSize : ℤ) <
          fs.dsb.blockSize / 8 := by
        apply Int.ediv_lt_of_lt_mul hb
        rw [maxIndirectRange, indirectSize] at hbound
        omega
      unfold maxIndex
      omega
    · push_cast
      rw [Int.toNat_of_nonneg hq]
      have := floor (pos - directSize fs.dsb.blockSize)
      rw [directSize] at this ⊢
      rw [add_mul]
      omega

/-- The file system after writes to data blocks of the stream. -/
structure DataWritten (fs fs' : Myfs) (mi : Inode) : Prop where
  frame : fs' = { fs with dataArea := fs'.dataArea }
  others : ∀ a, ¬ DataAddr fs mi a → fs'.dataArea a = fs.dataArea a

theorem DataWritten.refl (fs : Myfs) (mi : Inode) : DataWritten fs fs mi := ⟨rfl, fun _ _ => rfl⟩

theorem DataWritten.dataAddr {fs fs' : Myfs} {mi : Inode} (h : DataWritten fs fs' mi)
    (hap : IndirectApart fs mi) (a : ℤ) : DataAddr fs' mi a ↔ DataAddr fs mi a := by
  have hdsb : fs'.dsb = fs.dsb := by rw [h.frame]
  have hmax : maxIndex fs' = maxIndex fs := by simp only [maxIndex, hdsb]
  unfold DataAddr
  rw [hdsb, hmax]
  apply or_congr_right
  constructor
  · rintro ⟨j, hj, hs, he⟩
    have hbig := directSize_lt_of_entry hs
    rw [h.others _ (hap hbig)] at he
    exact ⟨j, hj, hs, he⟩
  · rintro ⟨j, hj, hs, he⟩
    have hbig := directSize_lt_of_entry hs
    rw [← h.others _ (hap hbig)] at he
    exact ⟨j, hj, hs, he⟩

theorem DataWritten.store {fs fs' : Myfs} {mi : Inode} (h : DataWritten fs fs' mi)
    (hap : IndirectApart fs mi) {a : ℤ} (ha : DataAddr fs' mi a) (block : Block) :
    DataWritten fs (storeBlock fs' a block) mi := by
  have ha' := (h.dataAddr hap a).mp ha
  refine ⟨?_, ?_⟩
  · rw [h.frame]
    rfl
  · intro c hc
    have hne : c ≠ a := by rintro rfl; exact hc ha'
    rw [storeBlock_dataArea, Function.update_of_ne hne]
    exact h.others c hc

theorem writeLoop_written {fs : Myfs} {mi : Inode} {buf : ℕ → UInt8} {len : ℕ}
    (hbs : 0 < fs.dsb.blockSize) (hbound : mi.data.size ≤ maxIndirectRange fs.dsb.blockSize)
    (hap : IndirectApart fs mi) (fuel : ℕ) {fs₁ fs' : Myfs} {pos : ℤ} {done count : ℕ} {err : ℤ}
    (hw : DataWritten fs fs₁ mi) (h₀ : 0 ≤ pos)
    (hlen : done ≤ len → pos + (len - done) ≤ mi.data.size)
    (h : writeLoop mi buf len fuel fs₁ pos done = .ok (err, count, fs')) :
    DataWritten fs fs' mi := by
  induction fuel generalizing fs₁ pos done with
  | zero =>
    simp only [writeLoop, Except.ok.injEq, Prod.mk.injEq] at h
    rw [← h.2.2]
    exact hw
  | succ fuel ih =>
    have hdsb : fs₁.dsb = fs.dsb := by rw [hw.frame]
    rw [writeLoop] at h
    split at h
    · simp only [Except.ok.injEq, Prod.mk.injEq] at h
      rw [← h.2.2]
      exact hw
    rename_i hlt
    have hl := hlen (by omega)
    dsimp only at h
    rw [hdsb] at h
    generalize hamt : (if len - done < fs.dsb.blockSize then len - done else fs.dsb.blockSize) =
      amt at h
    have hle : amt ≤ len - done := by
      rw [← hamt]
      split <;> omega
    unfold writeChunk at h
    cases haddr : filePosToDiskAddr fs₁ mi pos with
    | error e =>
      rw [haddr] at h
      cases h
    | ok addr =>
      rw [haddr] at h
      simp only [Except.bind, bind] at h
      split at h
      · cases h
      · rename_i o ho
        split at ho
        · cases ho
          simp only [Except.ok.injEq, Prod.mk.injEq] at h
          rw [← h.2.2]
          exact hw
        · cases ho
          have hd := filePosToDiskAddr_data (by rw [hdsb]; exact hbs) h₀ (by omega)
            (by rw [hdsb]; exact hbound) haddr
          refine ih (hw.store hap hd _) (by omega) ?_ h
          intro hdone
          push_cast
          omega

theorem writeBytes_written {fs fs' : Myfs} {mi : Inode} {buf : ℕ → UInt8} {len : ℕ} {pos : ℤ}
    {err : ℤ} {count : ℕ} (hbs : 0 < fs.dsb.blockSize)
    (hbound : mi.data.size ≤ maxIndirectRange fs.dsb.blockSize) (hap : IndirectApart fs mi)
    (h₀ : 0 ≤ pos) (hpos : 0 < len) (hlen : pos + len ≤ mi.data.size)
    (h : writeBytes fs mi pos buf len = .ok (err, count, fs')) : DataWritten fs fs' mi := by
  unfold writeBytes at h
  dsimp only at h
  cases haddr : filePosToDiskAddr fs mi pos with
  | error e =>
    rw [haddr] at h
    cases h
  | ok addr =>
    rw [haddr] at h
    simp only [Except.bind] at h
    split at h
    · simp only [Except.ok.injEq, Prod.mk.injEq] at h
      rw [← h.2.2]
      exact .refl fs mi
    have hd := filePosToDiskAddr_data hbs h₀ (by omega) hbound haddr
    split at h
    · generalize hamt : (if len < fs.dsb.blockSize - (pos % fs.dsb.blockSize).toNat then len
        else fs.dsb.blockSize - (pos % fs.dsb.blockSize).toNat) = amt at h
      have hle : amt ≤ len := by
        rw [← hamt]
        split <;> omega
      refine writeLoop_written hbs hbound hap len
        ((DataWritten.refl fs mi).store hap hd _) (by omega) ?_ h
      intro hdone
      omega
    · refine writeLoop_written hbs hbound hap len (.refl fs mi) h₀ ?_ h
      intro hdone
      omega

theorem maxIndirectRange_eq (fs : Myfs) :
    maxIndirectRange fs.dsb.blockSize =
      ((numDirectBlocks + maxIndex fs : ℕ) : ℤ) * fs.dsb.blockSize := by
  unfold maxIndirectRange indirectSize directSize maxIndex
  push_cast
  ring

/-- The slots see the size only through the block boundaries below it. -/
theorem StreamCore.resize {fs : Myfs} {mi : Inode} (h : StreamCore fs mi) {size : ℤ}
    (h₀ : 0 ≤ size) (hbound : size ≤ maxIndirectRange fs.dsb.blockSize)
    (hsame : ∀ i : ℕ, (i * fs.dsb.blockSize : ℤ) < size ↔
      (i * fs.dsb.blockSize : ℤ) < mi.data.size) :
    StreamCore fs (setSize mi size) := by
  refine ⟨h₀, hbound, ?_, h.directRange, ?_, h.indirectRange, ?_, h.entryRange, h.doubleIndirect⟩
  · intro i hi
    rw [setSize_size, hsame]
    exact h.direct i hi
  · intro hlt
    rw [setSize_size, directSize, hsame] at hlt
    exact h.needed hlt
  · intro j hj hlt
    rw [setSize_size, hsame] at hlt
    exact h.entry j hj hlt

/-- A disk that hands out blocks: block 0 is taken, and addresses are `int`s. -/
structure DiskSound (fs : Myfs) : Prop where
  zero : fs.bv.bit 0 = true
  int32 : fs.bv.numbits < 2 ^ 31
  pow : ∃ k, fs.dsb.blockSize = 2 ^ k

theorem DiskSound.blockSize_pos {fs : Myfs} (h : DiskSound fs) : 0 < fs.dsb.blockSize := by
  obtain ⟨k, hk⟩ := h.pow
  rw [hk]
  positivity

theorem DiskSound.growStep {newSize : ℤ} {s t : Myfs × Inode} (h : GrowStep newSize s t)
    (hd : DiskSound s.1) : DiskSound t.1 := by
  have hzero := h.bit_mono hd.zero
  cases h with
  | direct _ _ _ fresh =>
    exact ⟨hzero, by rw [fresh.taken.numbits]; exact hd.int32,
      by rw [fresh.blockSize]; exact hd.pow⟩
  | indirect _ _ _ fresh =>
    exact ⟨hzero, by rw [storeBlock_bv, fresh.taken.numbits]; exact hd.int32,
      by rw [storeBlock_dsb, fresh.blockSize]; exact hd.pow⟩
  | entry _ _ _ _ fresh =>
    exact ⟨hzero, by rw [storeBlock_bv, fresh.taken.numbits]; exact hd.int32,
      by rw [storeBlock_dsb, fresh.blockSize]; exact hd.pow⟩

/-- A stream while it grows: the indirect block may be there before its first entry. -/
structure Growing (newSize : ℤ) (fs : Myfs) (mi : Inode) : Prop extends StreamCore fs mi where
  early : mi.data.indirect ≠ 0 →
    directSize fs.dsb.blockSize ≤ mi.data.size ∧ directSize fs.dsb.blockSize < newSize

theorem Growing.direct_step {newSize : ℤ} {fs fs' : Myfs} {mi : Inode} {addr i : ℕ}
    (hd : DiskSound fs) (h : Growing newSize fs mi) (slot : i < numDirectBlocks)
    (size : mi.data.size = i * fs.dsb.blockSize) (fresh : Allocated fs fs' addr 1) :
    Growing newSize fs' (setSize (setDirect mi i addr) (mi.data.size + fs.dsb.blockSize)) := by
  have hbz : (0 : ℤ) < fs.dsb.blockSize := by exact_mod_cast hd.blockSize_pos
  have hbs := fresh.blockSize
  have hin := fresh.taken.inside
  have hnum := fresh.taken.numbits
  have hne := fresh_ne_zero hd.zero fresh
  have hmax : maxIndex fs' = maxIndex fs := by simp only [maxIndex, hbs]
  have hsize : mi.data.size + (fs.dsb.blockSize : ℤ) = ((i + 1 : ℕ) : ℤ) * fs.dsb.blockSize := by
    rw [size]
    push_cast
    ring
  have hlt : ∀ l : ℕ, (l * fs.dsb.blockSize : ℤ) < ((i + 1 : ℕ) : ℤ) * fs.dsb.blockSize ↔
      l < i + 1 := by
    intro l
    rw [mul_lt_mul_iff_left₀ hbz]
    exact Nat.cast_lt
  have hnone : ¬ directSize fs.dsb.blockSize < ((i + 1 : ℕ) : ℤ) * fs.dsb.blockSize := by
    rw [directSize, hlt]
    omega
  refine ⟨⟨?_, ?_, ?_, ?_, ?_, ?_, ?_, ?_, h.doubleIndirect⟩, ?_⟩
  · have := h.nonneg
    simp only [setSize_size]
    omega
  · rw [setSize_size, hbs, hsize, maxIndirectRange_eq]
    have : ((i + 1 : ℕ) : ℤ) ≤ ((numDirectBlocks + maxIndex fs : ℕ) : ℤ) := by
      exact_mod_cast (by omega : i + 1 ≤ numDirectBlocks + maxIndex fs)
    exact mul_le_mul_of_nonneg_right this hbz.le
  · intro l hl
    rw [setSize_size, setSize_direct, setDirect_direct, hbs, hsize, hlt]
    by_cases he : l = i
    · subst he
      rw [Function.update_self]
      constructor
      · intro _; omega
      · intro _; exact_mod_cast hne
    · rw [Function.update_of_ne he, h.direct l hl, size, mul_lt_mul_iff_left₀ hbz, Nat.cast_lt]
      omega
  · intro l hl
    rw [setSize_direct, setDirect_direct, hnum]
    by_cases he : l = i
    · subst he
      rw [Function.update_self]
      omega
    · rw [Function.update_of_ne he]
      exact h.directRange l hl
  · intro hbig
    rw [setSize_size, hbs, hsize] at hbig
    exact absurd hbig hnone
  · rw [hnum]
    exact h.indirectRange
  · intro j _ hbig
    rw [setSize_size, hbs, hsize] at hbig
    exact absurd (directSize_lt_of_entry hbig) hnone
  · intro hind j hj
    rw [hnum, fresh.dataArea]
    exact h.entryRange hind j (by omega)
  · intro hind
    obtain ⟨h₁, h₂⟩ := h.early hind
    rw [setSize_size, hbs]
    exact ⟨by omega, h₂⟩

theorem Growing.indirect_step {newSize : ℤ} {fs fs' : Myfs} {mi : Inode} {addr : ℕ}
    (hd : DiskSound fs) (h : Growing newSize fs mi) (short : mi.data.size < newSize)
    (size : directSize fs.dsb.blockSize ≤ mi.data.size) (hnone : mi.data.indirect = 0)
    (fresh : Allocated fs fs' addr 1) :
    Growing newSize (storeBlock fs' addr fun _ => 0) (setIndirect mi addr) := by
  have hbs := fresh.blockSize
  have hin := fresh.taken.inside
  have hnum := fresh.taken.numbits
  have hne := fresh_ne_zero hd.zero fresh
  refine ⟨⟨h.nonneg, by rw [storeBlock_dsb, hbs]; exact h.bounded, ?_, ?_, ?_, ?_, ?_, ?_,
    h.doubleIndirect⟩, ?_⟩
  · rw [storeBlock_dsb, hbs]
    exact h.direct
  · rw [storeBlock_bv, hnum]
    exact h.directRange
  · intro _
    rw [setIndirect_indirect]
    exact_mod_cast hne
  · rw [storeBlock_bv, setIndirect_indirect, hnum]
    omega
  · intro j _ hbig
    rw [storeBlock_dsb, hbs] at hbig
    exact absurd hnone (h.needed (directSize_lt_of_entry hbig))
  · intro _ j _
    rw [storeBlock_bv, setIndirect_indirect, storeBlock_dataArea, Function.update_self,
      blockEntry_zero, hnum]
    omega
  · intro _
    rw [storeBlock_dsb, hbs]
    exact ⟨size, by omega⟩

theorem Growing.entry_step {newSize : ℤ} {fs fs' : Myfs} {mi : Inode} {addr j : ℕ}
    (hd : DiskSound fs) (h : Growing newSize fs mi) (slot : j < maxIndex fs)
    (size : mi.data.size = (numDirectBlocks + j) * fs.dsb.blockSize)
    (hsome : mi.data.indirect ≠ 0) (fresh : Allocated fs fs' addr 1) :
    Growing newSize (storeBlock fs' mi.data.indirect
      (putWord64 (fs.dataArea mi.data.indirect) (8 * j) addr))
      (setSize mi (mi.data.size + fs.dsb.blockSize)) := by
  have hbz : (0 : ℤ) < fs.dsb.blockSize := by exact_mod_cast hd.blockSize_pos
  have hbs := fresh.blockSize
  have hin := fresh.taken.inside
  have hnum := fresh.taken.numbits
  have hint := hd.int32
  have hne := fresh_ne_zero hd.zero fresh
  have hmax : maxIndex fs' = maxIndex fs := by simp only [maxIndex, hbs]
  have hsize : mi.data.size + (fs.dsb.blockSize : ℤ) =
      ((numDirectBlocks + j + 1 : ℕ) : ℤ) * fs.dsb.blockSize := by
    rw [size]
    push_cast
    ring
  have hlt : ∀ l : ℕ, (l * fs.dsb.blockSize : ℤ) <
      ((numDirectBlocks + j + 1 : ℕ) : ℤ) * fs.dsb.blockSize ↔ l < numDirectBlocks + j + 1 := by
    intro l
    rw [mul_lt_mul_iff_left₀ hbz]
    exact Nat.cast_lt
  have hold : ∀ l : ℕ, (l * fs.dsb.blockSize : ℤ) < mi.data.size ↔ l < numDirectBlocks + j := by
    intro l
    rw [size, mul_lt_mul_iff_left₀ hbz]
    exact_mod_cast Iff.rfl
  have hentry : ∀ l, blockEntry (putWord64 (fs.dataArea mi.data.indirect) (8 * j) addr) l =
      if l = j then (addr : ℤ) else blockEntry (fs.dataArea mi.data.indirect) l := by
    intro l
    split
    · rename_i he
      rw [he]
      exact blockEntry_put_self _ _ (by omega) (by omega)
    · rename_i he
      exact blockEntry_put_ne _ _ he
  refine ⟨⟨?_, ?_, ?_, ?_, fun _ => hsome, ?_, ?_, ?_, h.doubleIndirect⟩, ?_⟩
  · have := h.nonneg
    simp only [setSize_size]
    omega
  · rw [setSize_size, storeBlock_dsb, hbs, hsize, maxIndirectRange_eq]
    have : ((numDirectBlocks + j + 1 : ℕ) : ℤ) ≤ ((numDirectBlocks + maxIndex fs : ℕ) : ℤ) := by
      exact_mod_cast (by omega : numDirectBlocks + j + 1 ≤ numDirectBlocks + maxIndex fs)
    exact mul_le_mul_of_nonneg_right this hbz.le
  · intro l hl
    rw [setSize_size, setSize_direct, storeBlock_dsb, hbs, hsize, hlt, h.direct l hl, hold]
    omega
  · rw [storeBlock_bv, hnum]
    exact h.directRange
  · rw [storeBlock_bv, hnum]
    exact h.indirectRange
  · intro l hl hbig
    rw [setSize_size, storeBlock_dsb, hbs, hsize, hlt] at hbig
    rw [setSize_indirect, storeBlock_dataArea, Function.update_self, hentry]
    split
    · exact_mod_cast hne
    · rw [storeBlock_maxIndex, hmax] at hl
      refine h.entry l hl ((hold _).mpr ?_)
      omega
  · intro _ l hl
    rw [setSize_indirect, storeBlock_dataArea, Function.update_self, hentry, storeBlock_bv, hnum]
    split
    · omega
    · rw [storeBlock_maxIndex, hmax] at hl
      exact h.entryRange hsome l hl
  · intro hind
    obtain ⟨h₁, h₂⟩ := h.early hind
    rw [setSize_size, storeBlock_dsb, hbs]
    exact ⟨by omega, h₂⟩

theorem Growing.step {newSize : ℤ} {s t : Myfs × Inode} (hstep : GrowStep newSize s t)
    (hd : DiskSound s.1) (h : Growing newSize s.1 s.2) : Growing newSize t.1 t.2 := by
  cases hstep with
  | direct _ slot size fresh => exact h.direct_step hd slot size fresh
  | indirect short size hnone fresh => exact h.indirect_step hd short size hnone fresh
  | entry _ slot size hsome fresh => exact h.entry_step hd slot size hsome fresh

/-- The rule for growth: what every step keeps, and what does not see the size inside a
block, holds after `grow_dstream`, and the stream has its shape again. -/
theorem growDstream_keeps {Q : Myfs → Inode → Prop} {fs fs' : Myfs} {mi mi' : Inode}
    {newSize : ℤ} (resize : ∀ fs mi size, (∀ i : ℕ, (i * fs.dsb.blockSize : ℤ) < size ↔
      (i * fs.dsb.blockSize : ℤ) < mi.data.size) → Q fs mi → Q fs (setSize mi size))
    (step : ∀ s t, GrowStep newSize s t → DiskSound s.1 → Growing newSize s.1 s.2 →
      Q s.1 s.2 → Q t.1 t.2)
    (hd : DiskSound fs) (hs : StreamShape fs mi) (hq : Q fs mi) (hlt : mi.data.size < newSize)
    (h : growDstream fs mi newSize = .ok (0, mi', fs')) :
    DiskSound fs' ∧ StreamShape fs' mi' ∧ mi'.data.size = newSize ∧ Q fs' mi' ∧
      fs'.dsb.blockSize = fs.dsb.blockSize := by
  obtain ⟨k, hk⟩ := hd.pow
  have hbs := hd.blockSize_pos
  have hbz : (0 : ℤ) < fs.dsb.blockSize := by exact_mod_cast hbs
  obtain ⟨m, mi₁, hm₁, hm₂, rfl, hn₁, hn₂, hrun⟩ := growDstream_steps hk hs.nonneg hlt hd.zero h
  have hcut : ∀ i : ℕ, (i * fs.dsb.blockSize : ℤ) < m * fs.dsb.blockSize ↔
      (i * fs.dsb.blockSize : ℤ) < mi.data.size := by
    intro i
    rw [mul_lt_iff_lt hbs hm₁ hm₂, mul_lt_mul_iff_left₀ hbz, Nat.cast_lt]
  have hbound : (m * fs.dsb.blockSize : ℤ) ≤ maxIndirectRange fs.dsb.blockSize := by
    have := hs.bounded
    rw [maxIndirectRange_eq] at this ⊢
    by_contra hgt
    rw [not_le, hcut] at hgt
    omega
  have hstart : Growing newSize fs (setSize mi (m * fs.dsb.blockSize)) :=
    ⟨hs.toStreamCore.resize (by positivity) hbound hcut, fun hind => by
      have := hs.only hind
      rw [setSize_size]
      omega⟩
  have hall : DiskSound fs' ∧ Growing newSize fs' mi₁ ∧ Q fs' mi₁ ∧
      fs'.dsb.blockSize = fs.dsb.blockSize ∧ ∃ l : ℕ, mi₁.data.size = l * fs.dsb.blockSize := by
    -- every step grows the stream by a whole number of blocks
    generalize hend : (fs', mi₁) = t at hrun
    have : DiskSound t.1 ∧ Growing newSize t.1 t.2 ∧ Q t.1 t.2 ∧
        t.1.dsb.blockSize = fs.dsb.blockSize ∧ ∃ l : ℕ, t.2.data.size = l * fs.dsb.blockSize := by
      clear hend
      induction hrun with
      | refl => exact ⟨hd, hstart, resize _ _ _ hcut hq, rfl, m, rfl⟩
      | tail _ hstep ih =>
        obtain ⟨hd', hg', hq', hb', l, hl⟩ := ih
        refine ⟨hd'.growStep hstep, Growing.step hstep hd' hg', step _ _ hstep hd' hg' hq', ?_⟩
        cases hstep with
        | direct _ _ _ fresh =>
          refine ⟨by rw [fresh.blockSize]; exact hb', l + 1, ?_⟩
          dsimp only at hl hb' ⊢
          rw [setSize_size, hl, hb']
          push_cast
          ring
        | indirect _ _ _ fresh =>
          exact ⟨by rw [storeBlock_dsb, fresh.blockSize]; exact hb', l, hl⟩
        | entry _ _ _ _ fresh =>
          refine ⟨by rw [storeBlock_dsb, fresh.blockSize]; exact hb', l + 1, ?_⟩
          dsimp only at hl hb' ⊢
          rw [setSize_size, hl, hb']
          push_cast
          ring
    rw [← hend] at this
    exact this
  obtain ⟨hd', hg', hq', hb', l, hl⟩ := hall
  have hcut' : ∀ i : ℕ, (i * fs'.dsb.blockSize : ℤ) < newSize ↔
      (i * fs'.dsb.blockSize : ℤ) < mi₁.data.size := by
    intro i
    rw [hl] at hn₁ hn₂
    rw [hb', mul_lt_iff_lt hbs hn₁ hn₂, hl, mul_lt_mul_iff_left₀ hbz, Nat.cast_lt]
  have hnn := hs.nonneg
  have hbd := hg'.bounded
  refine ⟨hd', ⟨hg'.toStreamCore.resize (by omega) (by omega) hcut', ?_⟩, rfl,
    resize _ _ _ hcut' hq', hb'⟩
  intro hind
  exact (hg'.early hind).2

/-- The two disks hold the same blocks: only metadata and counts differ. -/
structure SameBlocks (fs fs' : Myfs) : Prop where
  dataArea : fs'.dataArea = fs.dataArea
  bv : fs'.bv = fs.bv
  blockSize : fs'.dsb.blockSize = fs.dsb.blockSize

theorem SameBlocks.refl (fs : Myfs) : SameBlocks fs fs := ⟨rfl, rfl, rfl⟩

theorem updateInode_same {fs fs' : Myfs} {mi : Inode} (h : updateInode fs mi = .ok fs') :
    SameBlocks fs fs' := by
  unfold updateInode at h
  dsimp only at h
  split at h
  · cases h
  · cases h
    exact ⟨rfl, rfl, rfl⟩

/-- The last part of the calls: the inode and the super block are written. -/
theorem finish_same {fs fs' : Myfs} {mi mi' : Inode}
    (h : (updateInode fs mi).map (fun fs => ((0 : ℤ), mi, writeSuperBlock fs)) =
      .ok (0, mi', fs')) : mi' = mi ∧ SameBlocks fs fs' := by
  cases hu : updateInode fs mi with
  | error e =>
    rw [hu] at h
    cases h
  | ok fs₁ =>
    rw [hu] at h
    cases h
    obtain ⟨h₁, h₂, h₃⟩ := updateInode_same hu
    exact ⟨rfl, h₁, h₂, h₃⟩

theorem myfsSetFileSize_ok {fs fs' : Myfs} {mi mi' : Inode} {n : ℤ}
    (h : myfsSetFileSize fs mi n = .ok (0, mi', fs')) :
    (n = mi.data.size ∧ mi' = mi ∧ fs' = fs) ∨
    (n < mi.data.size ∧ ∃ mi₁ fs₁, shrinkDstream fs mi n = (0, mi₁, fs₁) ∧
      mi'.data = mi₁.data ∧ SameBlocks fs₁ fs') ∨
    (mi.data.size < n ∧ ∃ mi₁ fs₁, growDstream fs mi n = .ok (0, mi₁, fs₁) ∧
      mi'.data = mi₁.data ∧ SameBlocks fs₁ fs') := by
  have finish : ∀ r : ℤ × Inode × Myfs, (if r.1 ≠ 0 then .ok (r.1, r.2.1, r.2.2)
      else (updateInode r.2.2 { r.2.1 with lastModifiedTime := r.2.2.now }).map
        fun fs => (0, { r.2.1 with lastModifiedTime := r.2.2.now }, writeSuperBlock fs)) =
        (.ok (0, mi', fs') : Except Halt _) →
      r.1 = 0 ∧ mi'.data = r.2.1.data ∧ SameBlocks r.2.2 fs' := by
    intro r hr
    split at hr
    · rename_i hbad
      simp only [Except.ok.injEq, Prod.mk.injEq] at hr
      exact absurd hr.1 hbad
    · rename_i herr
      obtain ⟨rfl, hsame⟩ := finish_same hr
      exact ⟨not_not.mp herr, rfl, hsame⟩
  unfold myfsSetFileSize at h
  split at h
  · rename_i he
    simp only [Except.ok.injEq, Prod.mk.injEq, true_and] at h
    exact Or.inl ⟨he, h.1.symm, h.2.symm⟩
  rename_i hne
  split at h
  · rename_i hlt
    obtain ⟨herr, hmi, hsame⟩ := finish (shrinkDstream fs mi n) h
    exact Or.inr (Or.inl ⟨hlt, _, _, Prod.ext herr rfl, hmi, hsame⟩)
  · rename_i hge
    cases hg : growDstream fs mi n with
    | error e =>
      rw [hg] at h
      cases h
    | ok r =>
      rw [hg] at h
      obtain ⟨herr, hmi, hsame⟩ := finish r h
      exact Or.inr (Or.inr ⟨by omega, _, _, congrArg Except.ok (Prod.ext herr rfl), hmi, hsame⟩)

theorem growForWrite_ok {fs fs' : Myfs} {mi mi' : Inode} {n : ℤ}
    (h : growForWrite fs mi n = .ok (0, mi', fs')) :
    (n ≤ mi.data.size ∧ mi' = mi ∧ fs' = fs) ∨
    (mi.data.size < n ∧ ∃ mi₁ fs₁, growDstream fs mi n = .ok (0, mi₁, fs₁) ∧
      mi'.data = mi₁.data ∧ SameBlocks fs₁ fs') := by
  unfold growForWrite at h
  split at h
  · rename_i hlt
    cases hg : growDstream fs mi n with
    | error e =>
      rw [hg] at h
      cases h
    | ok r =>
      rw [hg] at h
      obtain ⟨err, mi₁, fs₁⟩ := r
      simp only [Except.bind] at h
      split at h
      · rename_i hbad
        simp only [Except.ok.injEq, Prod.mk.injEq] at h
        exact absurd h.1 hbad
      · rename_i herr
        rw [not_not] at herr
        subst herr
        obtain ⟨rfl, hsame⟩ := finish_same h
        exact Or.inr ⟨hlt, mi₁, fs₁, rfl, rfl, hsame⟩
  · rename_i hge
    simp only [Except.ok.injEq, Prod.mk.injEq, true_and] at h
    exact Or.inl ⟨by omega, h.1.symm, h.2.symm⟩

/-- The position a write starts at: a negative one counts as 0. -/
def startPos (pos : ℤ) : ℤ := if pos < 0 then 0 else pos

theorem myfsWriteDataStream_ok {fs fs' : Myfs} {mi mi' : Inode} {pos : ℤ} {buf : ℕ → UInt8}
    {len count : ℕ} (h : myfsWriteDataStream fs mi pos buf len = .ok (0, count, mi', fs')) :
    (len = 0 ∧ mi' = mi ∧ fs' = fs) ∨
    (0 < len ∧ ∃ mi₁ fs₁ fs₂ done, growForWrite fs mi (startPos pos + len) = .ok (0, mi₁, fs₁) ∧
      writeBytes fs₁ mi₁ (startPos pos) buf len = .ok (0, done, fs₂) ∧
      mi'.data = mi₁.data ∧ SameBlocks fs₂ fs') := by
  unfold myfsWriteDataStream at h
  split at h
  · rename_i hlen
    simp only [Except.ok.injEq, Prod.mk.injEq, true_and] at h
    exact Or.inl ⟨hlen, h.2.1.symm, h.2.2.symm⟩
  rename_i hlen
  refine Or.inr ⟨by omega, ?_⟩
  dsimp only at h
  rw [← startPos] at h
  cases hg : growForWrite fs mi (startPos pos + len) with
  | error e =>
    rw [hg] at h
    cases h
  | ok r =>
    rw [hg] at h
    obtain ⟨err, mi₁, fs₁⟩ := r
    simp only [Except.bind] at h
    split at h
    · rename_i hbad
      simp only [Except.ok.injEq, Prod.mk.injEq] at h
      exact absurd h.1 hbad
    rename_i herr
    rw [not_not] at herr
    subst herr
    cases hw : writeBytes fs₁ mi₁ (startPos pos) buf len with
    | error e =>
      rw [hw] at h
      cases h
    | ok r =>
      rw [hw] at h
      obtain ⟨err, written, fs₂⟩ := r
      dsimp only at h
      split at h
      · rename_i hbad
        simp only [Except.ok.injEq, Prod.mk.injEq] at h
        exact absurd h.1 hbad
      rename_i herr
      rw [not_not] at herr
      subst herr
      cases hu : updateInode fs₂ { mi₁ with lastModifiedTime := fs₂.now } with
      | error e =>
        rw [hu] at h
        cases h
      | ok fs₃ =>
        rw [hu] at h
        cases h
        exact ⟨mi₁, fs₁, fs₂, _, rfl, hw, rfl, updateInode_same hu⟩

theorem SameBlocks.maxIndex {fs fs' : Myfs} (h : SameBlocks fs fs') :
    maxIndex fs' = maxIndex fs := by
  simp only [DataStreamBlocks.maxIndex, h.blockSize]

theorem SameBlocks.sound {fs fs' : Myfs} (h : SameBlocks fs fs') (hd : DiskSound fs) :
    DiskSound fs' :=
  ⟨by rw [h.bv]; exact hd.zero, by rw [h.bv]; exact hd.int32, by rw [h.blockSize]; exact hd.pow⟩

theorem StreamShape.same {fs fs' : Myfs} {mi mi' : Inode} (h : StreamShape fs mi)
    (hsame : SameBlocks fs fs') (hmi : mi'.data = mi.data) : StreamShape fs' mi' := by
  have hmax := hsame.maxIndex
  obtain ⟨hda, hbv, hbs⟩ := hsame
  constructor
  · constructor
    · rw [hmi]; exact h.nonneg
    · rw [hmi, hbs]; exact h.bounded
    · rw [hmi, hbs]; exact h.direct
    · rw [hmi, hbv]; exact h.directRange
    · rw [hmi, hbs]; exact h.needed
    · rw [hmi, hbv]; exact h.indirectRange
    · rw [hmi, hbs, hda, hmax]; exact h.entry
    · rw [hmi, hbv, hda, hmax]; exact h.entryRange
    · rw [hmi]; exact h.doubleIndirect
  · rw [hmi, hbs]; exact h.only

/-- A shrink that keeps every block boundary below the new size gives a stream of good
shape again. -/
theorem StreamShape.shrink {fs fs' : Myfs} {mi mi' : Inode} {S : ℕ → Prop} {n : ℤ} {q : ℕ}
    (hs : StreamShape fs mi) (hbs : 0 < fs.dsb.blockSize) (h₀ : 0 ≤ n) (hle : n ≤ mi.data.size)
    (hq : (q * fs.dsb.blockSize : ℤ) < n - 1 + fs.dsb.blockSize)
    (hkeep : ∀ i ≤ numDirectBlocks, (i * fs.dsb.blockSize : ℤ) < n → i < q)
    (hsize : mi'.data.size = n) (hdbl : mi'.data.doubleIndirect = 0)
    (hdirect : ∀ i < numDirectBlocks, mi'.data.direct i = if q ≤ i then 0 else mi.data.direct i)
    (hindirect : mi'.data.indirect = if q ≤ numDirectBlocks then 0 else mi.data.indirect)
    (hfreed : Freed fs fs' S) : StreamShape fs' mi' := by
  have hbz : (0 : ℤ) < fs.dsb.blockSize := by exact_mod_cast hbs
  have hbound := hs.bounded
  have below : ∀ i : ℕ, i < q → (i * fs.dsb.blockSize : ℤ) < n := by
    intro i hi
    have : (i + 1 : ℤ) ≤ q := by omega
    nlinarith
  have hmax : maxIndex fs' = maxIndex fs := by simp only [maxIndex, hfreed.blockSize]
  have hkept : mi'.data.indirect ≠ 0 →
      numDirectBlocks < q ∧ mi'.data.indirect = mi.data.indirect := by
    intro hne
    rw [hindirect] at hne ⊢
    split at hne
    · exact absurd rfl hne
    · rename_i hq'
      exact ⟨by omega, if_neg hq'⟩
  have hbig : directSize fs.dsb.blockSize < n → mi'.data.indirect = mi.data.indirect := by
    intro hlt
    have := hkeep numDirectBlocks le_rfl hlt
    rw [hindirect, if_neg (by omega)]
  refine ⟨⟨by omega, ?_, ?_, ?_, ?_, ?_, ?_, ?_, hdbl⟩, ?_⟩
  · rw [hfreed.blockSize, hsize]
    omega
  · intro i hi
    rw [hdirect i hi, hfreed.blockSize, hsize]
    split
    · rename_i hqi
      refine ⟨fun h => absurd rfl h, fun h => ?_⟩
      have := hkeep i (by omega) h
      omega
    · rename_i hqi
      rw [hs.direct i hi]
      refine ⟨fun _ => below i (by omega), fun h => by omega⟩
  · intro i hi
    rw [hdirect i hi, hfreed.numbits]
    have := hs.directRange i hi
    split <;> omega
  · intro hlt
    rw [hfreed.blockSize, hsize] at hlt
    rw [hbig hlt]
    exact hs.needed (by omega)
  · rw [hindirect, hfreed.numbits]
    have := hs.indirectRange
    split <;> omega
  · intro j hj hlt
    rw [hfreed.blockSize, hsize] at hlt
    rw [hbig (directSize_lt_of_entry hlt), hfreed.dataArea]
    exact hs.entry j (by omega) (by omega)
  · intro hne j hj
    obtain ⟨_, he⟩ := hkept hne
    rw [he] at hne
    rw [he, hfreed.dataArea, hfreed.numbits]
    exact hs.entryRange hne j (by omega)
  · intro hne
    obtain ⟨hlt, _⟩ := hkept hne
    rw [hfreed.blockSize, hsize]
    exact below _ hlt

/-- A block address is marked used in the bitmap. -/
def BlockUsed (fs : Myfs) (a : ℤ) : Prop := 0 ≤ a ∧ fs.bv.bit a.toNat = true

theorem Freed.blockUsed {fs fs' : Myfs} {S : ℕ → Prop} (h : Freed fs fs' S) (a : ℤ) :
    BlockUsed fs' a ↔ BlockUsed fs a ∧ ¬ S a.toNat := by
  unfold BlockUsed
  rw [h.bits, and_assoc]

theorem shrinkFreed_ne_zero {fs : Myfs} {mi : Inode} {q : ℕ} : ¬ ShrinkFreed fs mi q 0 := by
  rintro ⟨_, ⟨i, _, _, hne, he⟩ | ⟨hne, ⟨j, hj, _, hnz, he⟩ | ⟨_, he⟩⟩⟩
  · exact hne he
  · exact hnz j hj le_rfl he
  · exact hne he.symm

theorem Freed.sound {fs fs' : Myfs} {mi : Inode} {q : ℕ} (h : Freed fs fs' (ShrinkFreed fs mi q))
    (hd : DiskSound fs) : DiskSound fs' :=
  ⟨(h.bits 0).mpr ⟨hd.zero, shrinkFreed_ne_zero⟩, by rw [h.numbits]; exact hd.int32,
    by rw [h.blockSize]; exact hd.pow⟩

theorem allocated_not_used {fs fs' : Myfs} {addr : ℕ} (h : Allocated fs fs' addr 1) :
    ¬ BlockUsed fs addr := by
  rintro ⟨_, hset⟩
  rw [Int.toNat_natCast, h.taken.clear addr le_rfl (by omega)] at hset
  cases hset

theorem allocated_used {fs fs' : Myfs} {addr : ℕ} (h : Allocated fs fs' addr 1) :
    BlockUsed fs' addr := by
  refine ⟨by omega, ?_⟩
  rw [Int.toNat_natCast, h.taken.bits, decide_eq_true (by omega), Bool.or_true]

theorem allocated_used_mono {fs fs' : Myfs} {addr : ℕ} (h : Allocated fs fs' addr 1) {a : ℤ}
    (ha : BlockUsed fs a) : BlockUsed fs' a := by
  refine ⟨ha.1, ?_⟩
  rw [h.taken.bits, ha.2, Bool.true_or]

theorem DataWritten.indirect_kept {fs fs' : Myfs} {mi : Inode} (h : DataWritten fs fs' mi)
    (hs : StreamShape fs mi) (hap : IndirectApart fs mi) (hne : mi.data.indirect ≠ 0) :
    fs'.dataArea mi.data.indirect = fs.dataArea mi.data.indirect :=
  h.others _ (hap (hs.only hne))

theorem DataWritten.sound {fs fs' : Myfs} {mi : Inode} (h : DataWritten fs fs' mi)
    (hd : DiskSound fs) : DiskSound fs' := by
  rw [h.frame]
  exact ⟨hd.zero, hd.int32, hd.pow⟩

/-- A stream keeps its shape while the disk changes around it, as long as its indirect
block is left alone. -/
theorem StreamShape.around {fs fs' : Myfs} {mi : Inode} (h : StreamShape fs mi)
    (hbs : fs'.dsb.blockSize = fs.dsb.blockSize) (hnum : fs'.bv.numbits = fs.bv.numbits)
    (hkept : mi.data.indirect ≠ 0 →
      fs'.dataArea mi.data.indirect = fs.dataArea mi.data.indirect) : StreamShape fs' mi := by
  have hmax : maxIndex fs' = maxIndex fs := by simp only [maxIndex, hbs]
  constructor
  · constructor
    · exact h.nonneg
    · rw [hbs]; exact h.bounded
    · rw [hbs]; exact h.direct
    · rw [hnum]; exact h.directRange
    · rw [hbs]; exact h.needed
    · rw [hnum]; exact h.indirectRange
    · intro j hj hlt
      rw [hbs] at hlt
      rw [hkept (h.needed (directSize_lt_of_entry hlt))]
      exact h.entry j (by omega) hlt
    · intro hne j hj
      rw [hkept hne, hnum]
      exact h.entryRange hne j (by omega)
    · exact h.doubleIndirect
  · rw [hbs]; exact h.only

theorem DataWritten.shape {fs fs' : Myfs} {mi : Inode} (h : DataWritten fs fs' mi)
    (hs : StreamShape fs mi) (hap : IndirectApart fs mi) : StreamShape fs' mi :=
  hs.around (by rw [h.frame]) (by rw [h.frame]) (h.indirect_kept hs hap)

/-- A data stream with nothing in it, as `myfs_allocate_inode` leaves it. -/
def emptyStream : DataStream := ⟨fun _ => 0, 0, 0, 0⟩

theorem streamShape_empty {fs : Myfs} {mi : Inode} (hn : 0 < fs.bv.numbits)
    (h : mi.data = emptyStream) : StreamShape fs mi := by
  have hsize : mi.data.size = 0 := by rw [h]; rfl
  have hdirect : ∀ i, mi.data.direct i = 0 := by intro i; rw [h]; rfl
  have hind : mi.data.indirect = 0 := by rw [h]; rfl
  have hnone : ∀ i : ℕ, ¬ (i * fs.dsb.blockSize : ℤ) < 0 := by
    intro i
    have : (0 : ℤ) ≤ i * fs.dsb.blockSize := by positivity
    omega
  constructor
  · constructor
    · omega
    · rw [hsize, maxIndirectRange_eq]
      positivity
    · intro i _
      rw [hdirect, hsize]
      exact ⟨fun h => absurd rfl h, fun h => absurd h (hnone i)⟩
    · intro i _
      rw [hdirect]
      omega
    · intro hlt
      rw [hsize] at hlt
      exact absurd hlt (hnone _)
    · omega
    · intro j _ hlt
      rw [hsize] at hlt
      exact absurd hlt (hnone _)
    · intro hne
      exact absurd hind hne
    · rw [h]; rfl
  · intro hne
    exact absurd hind hne

end DataStreamShape
