import Mathlib.Tactic
import Mathlib.Logic.Relation
import FsKit.DataStreamBlocks

/-! Growth of a data stream, said once: `grow_dstream` is a sequence of small steps that
each install one fresh block. -/
namespace DataStreamGrowth

open MachineIntegers
open BitVectorSearch BlockBitmap BlockRounding InodeTable LittleEndian DataStreamBlocks

theorem roundUp_two_pow (size : ℤ) (k : ℕ) (h : 0 ≤ size + 2 ^ k - 1) :
    roundUp size ((2 ^ k : ℕ) : ℤ) = (size + 2 ^ k - 1) / 2 ^ k * 2 ^ k := by
  obtain ⟨x, hx⟩ := Int.eq_ofNat_of_zero_le h
  unfold roundUp
  push_cast
  rw [hx, maskDown_two_pow]
  push_cast
  rfl

/-- Rounding up to a block: the result is a multiple of the block size, and it is the
least one that is not below the size. -/
theorem roundUp_spec (size : ℤ) {b k : ℕ} (hb : b = 2 ^ k) (h : 0 ≤ size + b - 1) :
    ∃ m : ℕ, roundUp size b = m * b ∧ size ≤ m * b ∧ (m * b : ℤ) < size + b := by
  subst hb
  have hpos : (0 : ℤ) < ((2 ^ k : ℕ) : ℤ) := by positivity
  have hr := roundUp_two_pow size k (by push_cast at h; exact h)
  have hq := Int.ediv_nonneg h hpos.le
  have hd := Int.mul_ediv_add_emod (size + ((2 ^ k : ℕ) : ℤ) - 1) ((2 ^ k : ℕ) : ℤ)
  have hm₀ := Int.emod_nonneg (size + ((2 ^ k : ℕ) : ℤ) - 1) hpos.ne'
  have hm₁ := Int.emod_lt_of_pos (size + ((2 ^ k : ℕ) : ℤ) - 1) hpos
  push_cast at hr hq hd hm₀ hm₁ ⊢
  refine ⟨((size + 2 ^ k - 1) / 2 ^ k).toNat, ?_⟩
  rw [Int.toNat_of_nonneg hq, hr]
  refine ⟨rfl, ?_, ?_⟩ <;> nlinarith

theorem blockEntry_zero (i : ℕ) : blockEntry (fun _ => 0) i = 0 := word64_zero _

theorem blockEntry_put_self (block : Block) (i : ℕ) {v : ℤ} (h₀ : 0 ≤ v) (h₁ : v < 2 ^ 31) :
    blockEntry (putWord64 block (8 * i) v) i = v :=
  word64_putWord64 block (8 * i) (by omega) (by omega)

theorem blockEntry_put_ne (block : Block) {i j : ℕ} (v : ℤ) (h : j ≠ i) :
    blockEntry (putWord64 block (8 * i) v) j = blockEntry block j :=
  word64_putWord64_of_disjoint block v (by omega)

/-- In the exact mode a request for one block is one search for one bit. -/
theorem allocateLoop_exact_one (bv : BitVector) :
    allocateLoop .exactAllocation 1 bv 1 =
      ((getFreeRangeOfBits bv 1).1, 1, (getFreeRangeOfBits bv 1).2.2) := by
  rw [allocateLoop, if_neg (by decide)]
  generalize getFreeRangeOfBits bv 1 = r
  obtain ⟨start, biggest, bv'⟩ := r
  dsimp only
  split
  · rfl
  · rename_i hs
    rw [not_not] at hs
    subst hs
    simp [looseRetry]

theorem exact_one_count (fs : Myfs) :
    (realAllocateBlocks fs 1 0 .exactAllocation).2.1 = 1 := by
  unfold realAllocateBlocks
  rw [if_neg (by decide)]
  split
  · rfl
  · have h1 : toInt32 1 = 1 := by decide
    rw [h1, show (1 : ℤ).toNat = 1 from rfl, allocateLoop_exact_one]
    dsimp only
    split
    · rfl
    · split <;> rfl

/-- The outcomes of a request for one block of the stream. -/
theorem growBlock_cases (fs : Myfs) :
    (∃ start : ℕ, (growBlock fs).1 = 0 ∧ (growBlock fs).2.1 = start ∧
      Allocated fs (growBlock fs).2.2 start 1) ∨
    ((growBlock fs).1 = ENOSPC ∧ Refused fs (growBlock fs).2.2) ∨
    (growBlock fs).1 = EINVAL := by
  have hcount := exact_one_count fs
  have hcases := realAllocateBlocks_cases fs 1 0 .exactAllocation
  unfold growBlock myfsAllocateBlocks
  generalize realAllocateBlocks fs 1 0 .exactAllocation = r at hcount hcases ⊢
  obtain ⟨err, n, addr, fs'⟩ := r
  dsimp only at hcount hcases ⊢
  subst hcount
  rcases hcases with ⟨rfl, start, n, _, hn, rfl, ha⟩ | ⟨rfl | ⟨hbad, _⟩, hr⟩ | ⟨rfl, _⟩
  · have hone : n = 1 := by omega
    subst hone
    have hpos : ¬ ((start : ℕ) : ℤ) < 0 := by omega
    exact Or.inl ⟨start, by simp [hpos, ha]⟩
  · exact Or.inr (Or.inl ⟨rfl, hr⟩)
  · omega
  · exact Or.inr (Or.inr rfl)

theorem growBlock_ok {fs : Myfs} (h : (growBlock fs).1 = 0) :
    ∃ start : ℕ, (growBlock fs).2.1 = start ∧ Allocated fs (growBlock fs).2.2 start 1 := by
  rcases growBlock_cases fs with ⟨start, _, h₂, h₃⟩ | ⟨hbad, _⟩ | hbad
  · exact ⟨start, h₂, h₃⟩
  · rw [h] at hbad; cases hbad
  · rw [h] at hbad; cases hbad

/-- One step of growth: a fresh block becomes a direct block, the indirect block, or the
next entry of the indirect block. -/
inductive GrowStep (newSize : ℤ) : Myfs × Inode → Myfs × Inode → Prop where
  | direct {fs fs' : Myfs} {mi : Inode} {addr i : ℕ} (short : mi.data.size < newSize)
      (slot : i < numDirectBlocks) (size : mi.data.size = i * fs.dsb.blockSize)
      (fresh : Allocated fs fs' addr 1) :
      GrowStep newSize (fs, mi)
        (fs', setSize (setDirect mi i addr) (mi.data.size + fs.dsb.blockSize))
  | indirect {fs fs' : Myfs} {mi : Inode} {addr : ℕ} (short : mi.data.size < newSize)
      (size : directSize fs.dsb.blockSize ≤ mi.data.size) (none : mi.data.indirect = 0)
      (fresh : Allocated fs fs' addr 1) :
      GrowStep newSize (fs, mi) (storeBlock fs' addr fun _ => 0, setIndirect mi addr)
  | entry {fs fs' : Myfs} {mi : Inode} {addr j : ℕ} (short : mi.data.size < newSize)
      (slot : j < maxIndex fs) (size : mi.data.size = (numDirectBlocks + j) * fs.dsb.blockSize)
      (some : mi.data.indirect ≠ 0) (fresh : Allocated fs fs' addr 1) :
      GrowStep newSize (fs, mi)
        (storeBlock fs' mi.data.indirect
          (putWord64 (fs.dataArea mi.data.indirect) (8 * j) addr),
          setSize mi (mi.data.size + fs.dsb.blockSize))

abbrev GrowSteps (newSize : ℤ) := Relation.ReflTransGen (GrowStep newSize)

/-- The disk on which a loop of the growth ends: the one it has reached, or that one after the
request for the next block was refused. -/
def Stopped (fs fs' : Myfs) (err : ℤ) : Prop :=
  err = 0 ∧ fs' = fs ∨ err ≠ 0 ∧ (growBlock fs).1 = err ∧ (growBlock fs).2.2 = fs'

/-- The loop over the direct blocks as steps of growth. `base` is the rounded size the
growth starts from, and the stream has grown by `i` blocks when the loop is entered. -/
theorem growDirect_run {newSize needed base : ℤ} (left : ℕ) {fs fs' : Myfs} {mi mi' : Inode}
    {i i' err : ℤ} (hleft : left ≤ numDirectBlocks)
    (hsize : mi.data.size = (numDirectBlocks - left : ℕ) * fs.dsb.blockSize)
    (hbase : mi.data.size = base + i * fs.dsb.blockSize) (hi : i ≤ needed)
    (hshort : ∀ j < needed, base + j * fs.dsb.blockSize < newSize)
    (h : growDirect needed left fs mi i = (err, i', mi', fs')) :
    ∃ fs₁, GrowSteps newSize (fs, mi) (fs₁, mi') ∧ Stopped fs₁ fs' err ∧
      mi'.data.size = base + i' * fs.dsb.blockSize ∧ i' ≤ needed ∧
      (err = 0 → i' = needed ∨ mi'.data.size = directSize fs.dsb.blockSize) := by
  induction left generalizing fs mi i with
  | zero =>
    simp only [growDirect, Prod.mk.injEq] at h
    obtain ⟨rfl, rfl, rfl, rfl⟩ := h
    exact ⟨fs, .refl, .inl ⟨rfl, rfl⟩, hbase, hi, fun _ => .inr hsize⟩
  | succ left ih =>
    rw [growDirect] at h
    split at h
    · rename_i hle
      simp only [Prod.mk.injEq] at h
      obtain ⟨rfl, rfl, rfl, rfl⟩ := h
      exact ⟨fs, .refl, .inl ⟨rfl, rfl⟩, hbase, hi, fun _ => .inl (by omega)⟩
    · rename_i hlt
      have hok := @growBlock_ok fs
      generalize hr : growBlock fs = r at h hok
      obtain ⟨e, addr, fs₁⟩ := r
      dsimp only at h hok
      split at h
      · rename_i hbad
        simp only [Prod.mk.injEq] at h
        obtain ⟨rfl, rfl, rfl, rfl⟩ := h
        exact ⟨fs, .refl, .inr ⟨hbad, by rw [hr], by rw [hr]⟩, hbase, hi, fun h0 => absurd h0 hbad⟩
      · rename_i herr
        obtain ⟨start, rfl, ha⟩ := hok (not_not.mp herr)
        have hbs := ha.blockSize
        have hstep : GrowStep newSize (fs, mi) (fs₁, setSize
            (setDirect mi (numDirectBlocks - (left + 1)) start)
            (mi.data.size + fs.dsb.blockSize)) :=
          .direct (by rw [hbase]; exact hshort i (by omega)) (by omega) hsize ha
        rw [← hbs] at hshort
        rw [hbs] at h
        obtain ⟨fs₂, hrun, hstop, hs', hi', hend⟩ := ih (by omega) (by
            simp only [setSize_size, setDirect_size, hbs]
            rw [hsize, show numDirectBlocks - left = numDirectBlocks - (left + 1) + 1 by omega]
            push_cast
            ring) (by
            simp only [setSize_size, setDirect_size, hbs]
            rw [hbase]
            ring) (by omega) hshort h
        rw [hbs] at hs' hend
        exact ⟨fs₂, .head hstep hrun, hstop, hs', hi', hend⟩

theorem growIndirect_run {newSize needed base : ℤ} (left : ℕ) {fs fs' : Myfs} {mi mi' : Inode}
    {i err : ℤ} (hleft : left ≤ maxIndex fs) (hind : mi.data.indirect ≠ 0)
    (hsize : mi.data.size = (numDirectBlocks + (maxIndex fs - left : ℕ)) * fs.dsb.blockSize)
    (hbase : mi.data.size = base + i * fs.dsb.blockSize) (hi : i ≤ needed)
    (hshort : ∀ j < needed, base + j * fs.dsb.blockSize < newSize)
    (h : growIndirect needed left fs mi i = (err, mi', fs')) :
    ∃ fs₁, GrowSteps newSize (fs, mi) (fs₁, mi') ∧ Stopped fs₁ fs' err ∧
      mi'.data.size ≤ base + needed * fs.dsb.blockSize := by
  have hbound : mi.data.size ≤ base + needed * fs.dsb.blockSize := by
    rw [hbase]
    gcongr
  induction left generalizing fs mi i with
  | zero =>
    simp only [growIndirect, Prod.mk.injEq] at h
    obtain ⟨rfl, rfl, rfl⟩ := h
    exact ⟨fs, .refl, .inl ⟨rfl, rfl⟩, hbound⟩
  | succ left ih =>
    rw [growIndirect] at h
    split at h
    · simp only [Prod.mk.injEq] at h
      obtain ⟨rfl, rfl, rfl⟩ := h
      exact ⟨fs, .refl, .inl ⟨rfl, rfl⟩, hbound⟩
    · rename_i hlt
      have hok := @growBlock_ok fs
      generalize hr : growBlock fs = r at h hok
      obtain ⟨e, addr, fs₁⟩ := r
      dsimp only at h hok
      split at h
      · rename_i hbad
        simp only [Prod.mk.injEq] at h
        obtain ⟨rfl, rfl, rfl⟩ := h
        exact ⟨fs, .refl, .inr ⟨hbad, by rw [hr], by rw [hr]⟩, hbound⟩
      · rename_i herr
        obtain ⟨start, rfl, ha⟩ := hok (not_not.mp herr)
        have hbs := ha.blockSize
        have hmax : maxIndex fs₁ = maxIndex fs := by simp only [maxIndex, hbs]
        rw [hbs, hmax, ha.dataArea] at h
        have hstep : GrowStep newSize (fs, mi) (_, _) :=
          .entry (by rw [hbase]; exact hshort i (by omega)) (by omega) hsize hind ha
        generalize hfs₂ : storeBlock fs₁ mi.data.indirect _ = fs₂ at h hstep
        have hbs₂ : fs₂.dsb.blockSize = fs.dsb.blockSize := by rw [← hfs₂, storeBlock_dsb, hbs]
        have hmax₂ : maxIndex fs₂ = maxIndex fs := by rw [← hfs₂, storeBlock_maxIndex, hmax]
        have hsize₂ : mi.data.size + (fs.dsb.blockSize : ℤ) =
            (numDirectBlocks + (maxIndex fs₂ - left : ℕ)) * fs₂.dsb.blockSize := by
          rw [hmax₂, hbs₂, hsize,
            show maxIndex fs - left = maxIndex fs - (left + 1) + 1 by omega]
          push_cast
          ring
        have hbase₂ : mi.data.size + (fs.dsb.blockSize : ℤ) =
            base + (i + 1) * fs₂.dsb.blockSize := by
          rw [hbs₂, hbase]
          ring
        have hind₂ : (setSize mi (mi.data.size + fs.dsb.blockSize)).data.indirect ≠ 0 := hind
        have hbound₂ : mi.data.size + (fs.dsb.blockSize : ℤ) ≤
            base + needed * fs₂.dsb.blockSize := by
          rw [hbase₂]
          gcongr
          omega
        rw [← hbs₂] at hshort
        obtain ⟨fs₃, hrun, hstop, hs'⟩ :=
          ih (by omega) hind₂ hsize₂ hbase₂ (by omega) hshort h hbound₂
        rw [hbs₂] at hs'
        exact ⟨fs₃, .head hstep hrun, hstop, hs'⟩

theorem GrowStep.bit_mono {newSize : ℤ} {s t : Myfs × Inode} (h : GrowStep newSize s t)
    {p : ℕ} (hp : s.1.bv.bit p = true) : t.1.bv.bit p = true := by
  cases h with
  | direct _ _ _ fresh => rw [fresh.taken.bits, hp, Bool.true_or]
  | indirect _ _ _ fresh => rw [storeBlock_bv, fresh.taken.bits, hp, Bool.true_or]
  | entry _ _ _ _ fresh => rw [storeBlock_bv, fresh.taken.bits, hp, Bool.true_or]

theorem GrowSteps.bit_mono {newSize : ℤ} {s t : Myfs × Inode} (h : GrowSteps newSize s t)
    {p : ℕ} (hp : s.1.bv.bit p = true) : t.1.bv.bit p = true := by
  induction h with
  | refl => exact hp
  | tail _ hstep ih => exact hstep.bit_mono ih

theorem GrowSteps.blockSize {newSize : ℤ} {s t : Myfs × Inode} (h : GrowSteps newSize s t) :
    t.1.dsb.blockSize = s.1.dsb.blockSize := by
  induction h with
  | refl => rfl
  | tail _ hstep ih =>
    cases hstep with
    | direct _ _ _ fresh => exact fresh.blockSize.trans ih
    | indirect _ _ _ fresh => exact fresh.blockSize.trans ih
    | entry _ _ _ _ fresh => exact fresh.blockSize.trans ih

/-- A stream that has grown holds a block that was free before. -/
theorem GrowSteps.fresh_bit {newSize : ℤ} {s t : Myfs × Inode} (h : GrowSteps newSize s t)
    (hlt : s.2.data.size < t.2.data.size) :
    ∃ p, s.1.bv.bit p = false ∧ t.1.bv.bit p = true := by
  rcases Relation.ReflTransGen.cases_head h with rfl | ⟨u, hstep, hrest⟩
  · exact absurd hlt (lt_irrefl _)
  · have hfresh : ∃ p, s.1.bv.bit p = false ∧ u.1.bv.bit p = true := by
      cases hstep with
      | @direct fs fs' mi addr i _ _ _ fresh =>
        refine ⟨addr, fresh.taken.clear addr le_rfl (by omega), ?_⟩
        rw [fresh.taken.bits, decide_eq_true (by omega), Bool.or_true]
      | @indirect fs fs' mi addr _ _ _ fresh =>
        refine ⟨addr, fresh.taken.clear addr le_rfl (by omega), ?_⟩
        rw [storeBlock_bv, fresh.taken.bits, decide_eq_true (by omega), Bool.or_true]
      | @entry fs fs' mi addr j _ _ _ _ fresh =>
        refine ⟨addr, fresh.taken.clear addr le_rfl (by omega), ?_⟩
        rw [storeBlock_bv, fresh.taken.bits, decide_eq_true (by omega), Bool.or_true]
    obtain ⟨p, h₁, h₂⟩ := hfresh
    exact ⟨p, h₁, GrowSteps.bit_mono hrest h₂⟩

theorem fresh_ne_zero {fs fs' : Myfs} {addr : ℕ} (hzero : fs.bv.bit 0 = true)
    (ha : Allocated fs fs' addr 1) : addr ≠ 0 := by
  rintro rfl
  have := ha.taken.clear 0 le_rfl (by omega)
  rw [hzero] at this
  cases this

theorem openIndirect_run {newSize err : ℤ} {fs fs' : Myfs} {mi mi' : Inode}
    (hshort : mi.data.size < newSize) (hsize : directSize fs.dsb.blockSize ≤ mi.data.size)
    (hzero : fs.bv.bit 0 = true) (h : openIndirect fs mi = (err, mi', fs')) :
    ∃ fs₁, GrowSteps newSize (fs, mi) (fs₁, mi') ∧ Stopped fs₁ fs' err ∧
      mi'.data.size = mi.data.size ∧ (err = 0 → mi'.data.indirect ≠ 0) := by
  unfold openIndirect at h
  split at h
  · rename_i hnone
    have hok := @growBlock_ok fs
    generalize hr : growBlock fs = r at h hok
    obtain ⟨e, addr, fs₁⟩ := r
    dsimp only at h hok
    split at h
    · rename_i hbad
      simp only [Prod.mk.injEq] at h
      obtain ⟨rfl, rfl, rfl⟩ := h
      exact ⟨fs, .refl, .inr ⟨hbad, by rw [hr], by rw [hr]⟩, rfl, fun h0 => absurd h0 hbad⟩
    · rename_i herr
      obtain ⟨start, rfl, ha⟩ := hok (not_not.mp herr)
      simp only [Prod.mk.injEq] at h
      obtain ⟨rfl, rfl, rfl⟩ := h
      refine ⟨_, .single (.indirect hshort hsize hnone ha), .inl ⟨rfl, rfl⟩, rfl, fun _ => ?_⟩
      have := fresh_ne_zero hzero ha
      simpa using this
  · rename_i hne
    simp only [Prod.mk.injEq] at h
    obtain ⟨rfl, rfl, rfl⟩ := h
    exact ⟨fs, .refl, .inl ⟨rfl, rfl⟩, rfl, fun _ => hne⟩

/-- What a call of the growth leaves: the stream has grown by steps, and its size is cut back
to the one wanted if it got there. -/
def Outcome (newSize err bound : ℤ) (s : Myfs × Inode) (fs' : Myfs) (mi' : Inode) : Prop :=
  ∃ fs₁ mi₁, GrowSteps newSize s (fs₁, mi₁) ∧ mi₁.data.size ≤ bound ∧
    (err = 0 ∧ fs' = fs₁ ∧ mi' = setSize mi₁ newSize ∧ newSize ≤ mi₁.data.size ∨
      err ≠ 0 ∧ mi' = mi₁ ∧ (fs' = fs₁ ∨ Stopped fs₁ fs' err))

theorem Stopped.outcome {newSize err bound : ℤ} {s : Myfs × Inode} {fs₁ fs' : Myfs} {mi : Inode}
    (h : Stopped fs₁ fs' err) (hrun : GrowSteps newSize s (fs₁, mi)) (hle : mi.data.size ≤ bound)
    (herr : err ≠ 0) : Outcome newSize err bound s fs' mi :=
  ⟨fs₁, mi, hrun, hle, .inr ⟨herr, rfl, .inr h⟩⟩

theorem growEnd_outcome {newSize err bound : ℤ} {s : Myfs × Inode} {fs fs' : Myfs}
    {mi mi' : Inode} (hrun : GrowSteps newSize s (fs, mi)) (hle : mi.data.size ≤ bound)
    (h : growEnd fs mi = (err, mi', fs')) : Outcome newSize err bound s fs' mi' := by
  unfold growEnd at h
  split at h
  all_goals
    simp only [Prod.mk.injEq] at h
    obtain ⟨rfl, rfl, rfl⟩ := h
    exact ⟨_, _, hrun, hle, .inr ⟨by decide, rfl, .inl rfl⟩⟩

/-- The second half of the growth. -/
theorem growIndirectRange_run (base : ℤ) {newSize needed i err : ℤ} {fs fs' : Myfs}
    {mi mi' : Inode} {m : ℕ} (hm : mi.data.size = m * fs.dsb.blockSize) (hbs : 0 < fs.dsb.blockSize)
    (hbase : mi.data.size = base + i * fs.dsb.blockSize) (hi : i ≤ needed)
    (hshort : ∀ j < needed, base + j * fs.dsb.blockSize < newSize)
    (hlt : mi.data.size < newSize) (hzero : fs.bv.bit 0 = true)
    (h : growIndirectRange fs mi newSize needed i = (err, mi', fs')) :
    Outcome newSize err (base + needed * fs.dsb.blockSize) (fs, mi) fs' mi' := by
  have hbound : mi.data.size ≤ base + needed * fs.dsb.blockSize := by
    rw [hbase]
    gcongr
  unfold growIndirectRange at h
  dsimp only at h
  split at h
  swap
  · exact growEnd_outcome .refl hbound h
  rename_i hrange
  obtain ⟨⟨e₁, mi₁, fs₁⟩, hopen⟩ : ∃ r, openIndirect fs mi = r := ⟨_, rfl⟩
  obtain ⟨fs₀, hrun₁, hstop₁, hsz, hind⟩ := openIndirect_run hlt hrange.1 hzero hopen
  rw [hopen] at h
  dsimp only at h
  split at h
  · rename_i hbad
    simp only [Prod.mk.injEq] at h
    obtain ⟨rfl, rfl, rfl⟩ := h
    exact hstop₁.outcome hrun₁ (by rw [hsz]; exact hbound) hbad
  rename_i herr
  rw [not_not] at herr
  subst herr
  obtain ⟨_, rfl⟩ | ⟨hbad, _⟩ := hstop₁
  swap
  · exact absurd rfl hbad
  have hbs₁ : fs₁.dsb.blockSize = fs.dsb.blockSize := hrun₁.blockSize
  have hb : (0 : ℤ) < fs.dsb.blockSize := by exact_mod_cast hbs
  -- the loop starts at the entry behind the last mapped one
  have hmge : numDirectBlocks ≤ m := by
    have := hrange.1
    rw [hm, directSize] at this
    exact_mod_cast le_of_mul_le_mul_right this hb
  have hmlt : m - numDirectBlocks < maxIndex fs := by
    have := hrange.2
    rw [hm, maxIndirectRange, indirectSize, directSize, ← add_mul] at this
    have := lt_of_mul_lt_mul_right this hb.le
    unfold maxIndex
    omega
  have hindex : ((mi₁.data.size - directSize fs.dsb.blockSize) / (fs.dsb.blockSize : ℤ)).toNat =
      m - numDirectBlocks := by
    rw [hsz, hm, directSize, ← sub_mul, Int.mul_ediv_cancel _ hb.ne']
    omega
  rw [hindex] at h
  have hmax : maxIndex fs₁ = maxIndex fs := by simp only [maxIndex, hbs₁]
  obtain ⟨⟨e₂, mi₂, fs₃⟩, hloop⟩ : ∃ r, growIndirect needed
    (maxIndex fs₁ - (m - numDirectBlocks)) fs₁ mi₁ i = r := ⟨_, rfl⟩
  rw [hloop] at h
  dsimp only at h
  obtain ⟨fs₂, hrun₂, hstop₂, hle⟩ := growIndirect_run _ (by omega) (hind rfl)
    (by
      rw [hsz, hm, hbs₁, show maxIndex fs₁ - (maxIndex fs₁ - (m - numDirectBlocks)) =
        m - numDirectBlocks by omega]
      push_cast [Nat.cast_sub hmge]
      ring)
    (by rw [hsz, hbs₁, hbase]) hi (by rw [hbs₁]; exact hshort) hloop
  rw [hbs₁] at hle
  split at h
  · rename_i hbad
    simp only [Prod.mk.injEq] at h
    obtain ⟨rfl, rfl, rfl⟩ := h
    exact hstop₂.outcome (hrun₁.trans hrun₂) hle hbad
  rename_i herr
  rw [not_not] at herr
  subst herr
  obtain ⟨_, rfl⟩ | ⟨hbad, _⟩ := hstop₂
  swap
  · exact absurd rfl hbad
  split at h
  · rename_i hdone
    simp only [Prod.mk.injEq] at h
    obtain ⟨rfl, rfl, rfl⟩ := h
    exact ⟨_, mi₂, hrun₁.trans hrun₂, hle, .inl ⟨rfl, rfl, rfl, hdone⟩⟩
  · exact growEnd_outcome (hrun₁.trans hrun₂) hle h

/-- `grow_dstream` on a stream that is too short: it refuses a size out of range, or the size
is rounded up and blocks are installed one by one. -/
theorem growDstream_run {fs fs' : Myfs} {mi mi' : Inode} {newSize err : ℤ} {k : ℕ}
    (hb : fs.dsb.blockSize = 2 ^ k) (h₀ : 0 ≤ mi.data.size) (hlt : mi.data.size < newSize)
    (hzero : fs.bv.bit 0 = true) (h : growDstream fs mi newSize = .ok (err, mi', fs')) :
    (err = E2BIG ∧ mi' = mi ∧ fs' = fs) ∨
    ∃ (m n : ℕ), mi.data.size ≤ m * fs.dsb.blockSize ∧
      (m * fs.dsb.blockSize : ℤ) < mi.data.size + fs.dsb.blockSize ∧
      (n * fs.dsb.blockSize : ℤ) < newSize + fs.dsb.blockSize ∧
      Outcome newSize err (n * fs.dsb.blockSize) (fs, setSize mi (m * fs.dsb.blockSize))
        fs' mi' := by
  have hbs : 0 < fs.dsb.blockSize := by rw [hb]; positivity
  have hbz : (0 : ℤ) < fs.dsb.blockSize := by exact_mod_cast hbs
  obtain ⟨m, hm, hm₁, hm₂⟩ := roundUp_spec mi.data.size hb (by omega)
  obtain ⟨n, hn, hn₁, hn₂⟩ := roundUp_spec newSize hb (by omega)
  unfold growDstream at h
  dsimp only at h
  split at h
  · simp only [Except.ok.injEq, Prod.mk.injEq] at h
    exact .inl ⟨h.1.symm, h.2.1.symm, h.2.2.symm⟩
  rw [hm, hn] at h
  refine .inr ⟨m, n, hm₁, hm₂, hn₂, ?_⟩
  split at h
  · rename_i hsame
    simp only [Except.ok.injEq, Prod.mk.injEq] at h
    obtain ⟨rfl, rfl, rfl⟩ := h
    refine ⟨fs, setSize mi (m * fs.dsb.blockSize), .refl, ?_, .inl ⟨rfl, rfl, rfl, ?_⟩⟩
    · rw [setSize_size, hsame]
    · rw [setSize_size, hsame]
      exact hn₁
  rename_i hne
  have hmn : m < n := by
    have : (m * fs.dsb.blockSize : ℤ) < (n + 1) * fs.dsb.blockSize := by nlinarith
    have := lt_of_mul_lt_mul_right this hbz.le
    have hmn' : m ≠ n := by rintro rfl; exact hne rfl
    omega
  have hneed : ((n * fs.dsb.blockSize : ℤ) - m * fs.dsb.blockSize) / fs.dsb.blockSize = n - m := by
    rw [← sub_mul, Int.mul_ediv_cancel _ hbz.ne']
  have hshort : ∀ j < (n - m : ℤ), m * fs.dsb.blockSize + j * fs.dsb.blockSize < newSize := by
    intro j hj
    nlinarith
  have hsum : (m * fs.dsb.blockSize : ℤ) + (n - m) * fs.dsb.blockSize = n * fs.dsb.blockSize := by
    ring
  have hdiv : ((m * fs.dsb.blockSize : ℤ) / fs.dsb.blockSize).toNat = m := by
    rw [Int.mul_ediv_cancel _ hbz.ne', Int.toNat_natCast]
  rw [hneed, hdiv] at h
  split at h
  · rename_i hdir
    have hm6 : m < numDirectBlocks := by
      rw [directSize] at hdir
      exact_mod_cast lt_of_mul_lt_mul_right hdir hbz.le
    split at h
    · cases h
    obtain ⟨⟨e, i, mi₁, fs₁⟩, hloop⟩ : ∃ r, growDirect (n - m) (numDirectBlocks - m) fs
      (setSize mi (m * fs.dsb.blockSize)) 0 = r := ⟨_, rfl⟩
    rw [hloop] at h
    dsimp only at h
    obtain ⟨fs₀, hrun, hstop, hsz, hi, hend⟩ := growDirect_run (numDirectBlocks - m) (by omega)
      (by rw [setSize_size, show numDirectBlocks - (numDirectBlocks - m) = m by omega])
      (by rw [setSize_size]; ring) (by omega) hshort hloop
    have hle : mi₁.data.size ≤ n * fs.dsb.blockSize := by
      rw [hsz, ← hsum]
      gcongr
    split at h
    · rename_i hbad
      simp only [Except.ok.injEq, Prod.mk.injEq] at h
      obtain ⟨rfl, rfl, rfl⟩ := h
      exact hstop.outcome hrun hle hbad
    rename_i herr
    rw [not_not] at herr
    subst herr
    obtain ⟨_, rfl⟩ | ⟨hbad, _⟩ := hstop
    swap
    · exact absurd rfl hbad
    split at h
    · rename_i hdone
      simp only [Except.ok.injEq, Prod.mk.injEq] at h
      obtain ⟨rfl, rfl, rfl⟩ := h
      exact ⟨_, mi₁, hrun, hle, .inl ⟨rfl, rfl, rfl, hdone⟩⟩
    · rename_i hmore
      rw [Except.ok.injEq] at h
      have hbs₁ : fs₁.dsb.blockSize = fs.dsb.blockSize := hrun.blockSize
      have hi6 : mi₁.data.size = numDirectBlocks * fs.dsb.blockSize := by
        rcases hend rfl with rfl | hfull
        · rw [hsz, hsum] at hmore
          omega
        · exact hfull
      obtain ⟨fs₂, mi₂, hrun₂, hle₂, hlast⟩ := growIndirectRange_run (m * fs.dsb.blockSize)
        (m := numDirectBlocks) (by rw [hi6, hbs₁]) (by rw [hbs₁]; exact hbs)
        (by rw [hsz, hbs₁]) hi (by rw [hbs₁]; exact hshort) (by omega)
        (hrun.bit_mono hzero) h
      rw [hbs₁, hsum] at hle₂
      exact ⟨fs₂, mi₂, hrun.trans hrun₂, hle₂, hlast⟩
  · rw [Except.ok.injEq] at h
    have hlt' : (m * fs.dsb.blockSize : ℤ) < newSize := by
      have := hshort 0 (by omega)
      omega
    have hout := growIndirectRange_run (m * fs.dsb.blockSize)
      (m := m) (by rw [setSize_size]) hbs (by rw [setSize_size]; ring) (by omega) hshort
      (by rw [setSize_size]; exact hlt') hzero h
    rwa [hsum] at hout

/-- `grow_dstream` that returns 0: the size is rounded up, blocks are installed one by one
until the wanted size is reached, and the size is cut back to it. -/
theorem growDstream_steps {fs fs' : Myfs} {mi mi' : Inode} {newSize : ℤ} {k : ℕ}
    (hb : fs.dsb.blockSize = 2 ^ k) (h₀ : 0 ≤ mi.data.size) (hlt : mi.data.size < newSize)
    (hzero : fs.bv.bit 0 = true) (h : growDstream fs mi newSize = .ok (0, mi', fs')) :
    ∃ (m : ℕ) (mi'' : Inode), mi.data.size ≤ m * fs.dsb.blockSize ∧
      (m * fs.dsb.blockSize : ℤ) < mi.data.size + fs.dsb.blockSize ∧
      mi' = setSize mi'' newSize ∧ newSize ≤ mi''.data.size ∧
      mi''.data.size < newSize + fs.dsb.blockSize ∧
      GrowSteps newSize (fs, setSize mi (m * fs.dsb.blockSize)) (fs', mi'') := by
  rcases growDstream_run hb h₀ hlt hzero h with ⟨hbad, _⟩ | ⟨m, n, hm₁, hm₂, hn, hout⟩
  · cases hbad
  obtain ⟨fs₁, mi₁, hrun, hle, ⟨_, rfl, rfl, hge⟩ | ⟨hbad, _⟩⟩ := hout
  · exact ⟨m, mi₁, hm₁, hm₂, rfl, hge, by omega, hrun⟩
  · exact absurd rfl hbad

end DataStreamGrowth
