import Mathlib.Tactic
import FsKit.DataStreamShape
import FsKit.ResourceOwnership
import FsKit.TransitionTrace

/-! Size and block map of one file over sequences of `myfs_set_file_size` and
`myfs_write_data_stream`. Shrinking rounds the new size with `new_size - 1`, which loses
the last block of a size that is one byte over a block boundary; the sequences in which
that never happens to a direct block or to the indirect block are those that agree. -/
namespace FileSizeAgreement

open BlockBitmap InodeTable DataStreamBlocks DataStreamGrowth DataStreamShape
open ResourceOwnership TransitionTrace

structure Stream where
  fs : Myfs
  mi : Inode

inductive Call where
  | setFileSize (newSize : ℤ)
  | write (pos : ℤ) (buf : ℕ → UInt8) (len : ℕ)

def next (s : Stream) : Call → Stream
  | .setFileSize n =>
    match myfsSetFileSize s.fs s.mi n with
    | .ok (_, mi, fs) => ⟨fs, mi⟩
    | .error _ => s
  | .write pos buf len =>
    match myfsWriteDataStream s.fs s.mi pos buf len with
    | .ok (_, _, mi, fs) => ⟨fs, mi⟩
    | .error _ => s

/-- The call returns 0; sizes are asked for up to the end of the indirect range. -/
def Enabled (s : Stream) : Call → Prop
  | .setFileSize n => 0 ≤ n ∧ n ≤ maxIndirectRange s.fs.dsb.blockSize ∧
      Succeeds (myfsSetFileSize s.fs s.mi n)
  | .write pos buf len => Succeeds (myfsWriteDataStream s.fs s.mi pos buf len)

instance (s : Stream) (e : Call) : Decidable (Enabled s e) :=
  match e with
  | .setFileSize n => inferInstanceAs (Decidable (0 ≤ n ∧ n ≤ maxIndirectRange s.fs.dsb.blockSize ∧
      Succeeds (myfsSetFileSize s.fs s.mi n)))
  | .write pos buf len =>
    inferInstanceAs (Decidable (Succeeds (myfsWriteDataStream s.fs s.mi pos buf len)))

/-- A write of no bytes asks for no change of the size. -/
def requestedSize (s : Stream) : Call → ℤ
  | .setFileSize n => n
  | .write pos _ len =>
    if len = 0 then s.mi.data.size else max s.mi.data.size (startPos pos + len)

/-- The block map of the file agrees with its size. -/
structure MapAgrees (s : Stream) : Prop where
  direct : ∀ i < numDirectBlocks,
    (s.mi.data.direct i ≠ 0 ↔ (i * s.fs.dsb.blockSize : ℤ) < s.mi.data.size)
  indirect : s.mi.data.indirect ≠ 0 ↔ directSize s.fs.dsb.blockSize < s.mi.data.size
  entry : ∀ i, numDirectBlocks ≤ i → (i * s.fs.dsb.blockSize : ℤ) < s.mi.data.size →
    blockEntry (s.fs.dataArea s.mi.data.indirect) (i - numDirectBlocks) ≠ 0
  notSuperBlock : ∀ pos, 0 ≤ pos → pos < s.mi.data.size →
    filePosToDiskAddr s.fs s.mi pos ≠ .ok 0

def CallMeets (s : Stream) (e : Call) : Prop :=
  (next s e).mi.data.size = requestedSize s e ∧ MapAgrees (next s e)

/-- A shrink to one byte over a block boundary stays well inside the indirect range. -/
def RoundsWell (s : Stream) : Call → Prop
  | .setFileSize n => n < s.mi.data.size → n % s.fs.dsb.blockSize = 1 →
      directSize s.fs.dsb.blockSize + 1 < n
  | .write _ _ _ => True

theorem StreamShape.agrees {s : Stream} (hd : DiskSound s.fs) (h : StreamShape s.fs s.mi) :
    MapAgrees s := by
  have hbz : (0 : ℤ) < s.fs.dsb.blockSize := by exact_mod_cast hd.blockSize_pos
  have hentry : ∀ j, (((numDirectBlocks + j : ℕ) : ℤ) * s.fs.dsb.blockSize) < s.mi.data.size →
      j < maxIndex s.fs := by
    intro j hlt
    have hb := h.bounded
    rw [maxIndirectRange_eq] at hb
    have := lt_of_mul_lt_mul_right (lt_of_lt_of_le hlt hb) hbz.le
    omega
  refine ⟨h.direct, h.indirect, ?_, ?_⟩
  · intro i hi hlt
    rw [← Nat.add_sub_cancel' hi] at hlt
    exact h.entry _ (hentry _ hlt) hlt
  · intro pos h₀ hlt hpos
    rcases filePosToDiskAddr_data hd.blockSize_pos h₀ hlt h.bounded hpos with
      ⟨i, hi, hlt, hz⟩ | ⟨j, hj, hlt, hz⟩
    · exact (h.direct i hi).mpr hlt hz
    · exact h.entry j hj hlt hz

/-- The slots of the inode that hold a block of their own. -/
inductive Slot where
  | direct (i : ℕ)
  | indirect
  deriving DecidableEq, Repr

def holds (fs : Myfs) (mi : Inode) : Slot → Prop
  | .direct i => i < numDirectBlocks ∧ (i * fs.dsb.blockSize : ℤ) < mi.data.size
  | .indirect => mi.data.indirect ≠ 0

def slotAddr (mi : Inode) : Slot → ℤ
  | .direct i => mi.data.direct i
  | .indirect => mi.data.indirect

/-- The slots hold used blocks, all different, and no entry of the indirect block, mapped
or left over, is one of them. -/
structure SlotsApart (fs : Myfs) (mi : Inode) : Prop where
  owned : OwnedOnce (holds fs mi) (slotAddr mi) (BlockUsed fs)
  entries : mi.data.indirect ≠ 0 → ∀ j < maxIndex fs, ∀ p, holds fs mi p →
    blockEntry (fs.dataArea mi.data.indirect) j ≠ slotAddr mi p

theorem SlotsApart.resize {fs : Myfs} {mi : Inode} {size : ℤ} (h : SlotsApart fs mi)
    (hsame : ∀ i : ℕ, (i * fs.dsb.blockSize : ℤ) < size ↔
      (i * fs.dsb.blockSize : ℤ) < mi.data.size) : SlotsApart fs (setSize mi size) := by
  have hholds : ∀ p, holds fs (setSize mi size) p → holds fs mi p := by
    intro p hp
    cases p with
    | direct i => exact ⟨hp.1, (hsame i).mp hp.2⟩
    | indirect => exact hp
  refine ⟨h.owned.congr (fun p hp => ⟨hholds p hp, ?_⟩) (fun _ ha => ha), ?_⟩
  · cases p <;> rfl
  · intro hne j hj p hp
    have := h.entries hne j hj p (hholds p hp)
    cases p with
    | direct i => exact this
    | indirect => exact this

theorem SlotsApart.step {newSize : ℤ} {s t : Myfs × Inode} (hstep : GrowStep newSize s t)
    (hd : DiskSound s.1) (hg : Growing newSize s.1 s.2) (h : SlotsApart s.1 s.2) :
    SlotsApart t.1 t.2 := by
  have hbz : (0 : ℤ) < s.1.dsb.blockSize := by exact_mod_cast hd.blockSize_pos
  cases hstep with
  | @direct fs fs' mi addr i short slot size fresh =>
    dsimp only at h hg hbz ⊢
    have hbs := fresh.blockSize
    constructor
    · apply h.owned.take (Slot.direct i)
      · intro p hp hne
        cases p with
        | direct l =>
          have hl : l ≠ i := fun he => hne (by rw [he])
          obtain ⟨hl6, hlt⟩ := hp
          rw [setSize_size, hbs, size, ← add_one_mul, mul_lt_mul_iff_left₀ hbz] at hlt
          refine ⟨⟨hl6, ?_⟩, ?_⟩
          · rw [size, mul_lt_mul_iff_left₀ hbz]
            omega
          · simp only [slotAddr, setSize_direct, setDirect_direct, Function.update_of_ne hl]
        | indirect => exact ⟨hp, rfl⟩
      · simp only [slotAddr, setSize_direct, setDirect_direct, Function.update_self]
        exact allocated_not_used fresh
      · simp only [slotAddr, setSize_direct, setDirect_direct, Function.update_self]
        exact allocated_used fresh
      · intro a ha
        exact allocated_used_mono fresh ha
    · intro hne
      have := (hg.early hne).1
      rw [size, directSize] at this
      have := le_of_mul_le_mul_right this hbz
      omega
  | @indirect fs fs' mi addr short size hnone fresh =>
    dsimp only at h hg hbz ⊢
    have hbs := fresh.blockSize
    constructor
    · apply h.owned.take Slot.indirect
      · intro p hp hne
        cases p with
        | direct l =>
          refine ⟨⟨hp.1, ?_⟩, rfl⟩
          have := hp.2
          rwa [storeBlock_dsb, hbs] at this
        | indirect => exact absurd rfl hne
      · exact allocated_not_used fresh
      · have hused := allocated_used fresh
        exact hused
      · intro a ha
        exact allocated_used_mono fresh ha
    · intro hne j hj p hp
      rw [setIndirect_indirect, storeBlock_dataArea, Function.update_self, blockEntry_zero]
      cases p with
      | direct l =>
        have hlt := hp.2
        rw [storeBlock_dsb, hbs] at hlt
        exact ((hg.direct l hp.1).mpr hlt).symm
      | indirect => exact hne.symm
  | @entry fs fs' mi addr j short slot size hsome fresh =>
    dsimp only at h hg hbz ⊢
    have hbs := fresh.blockSize
    have hold : ∀ p, holds (storeBlock fs' mi.data.indirect (LittleEndian.putWord64
        (fs.dataArea mi.data.indirect) (8 * j) addr))
        (setSize mi (mi.data.size + fs.dsb.blockSize)) p → holds fs mi p := by
      intro p hp
      cases p with
      | direct l =>
        refine ⟨hp.1, ?_⟩
        rw [size, ← Nat.cast_add, mul_lt_mul_iff_left₀ hbz, Nat.cast_lt]
        have := hp.1
        omega
      | indirect => exact hp
    have hsame : ∀ p, slotAddr (setSize mi (mi.data.size + fs.dsb.blockSize)) p =
        slotAddr mi p := by
      intro p
      cases p <;> rfl
    have hin := fresh.taken.inside
    have hint := hd.int32
    dsimp only at hint
    constructor
    · exact h.owned.congr (fun p hp => ⟨hold p hp, hsame p⟩)
        (fun a ha => allocated_used_mono fresh ha)
    · intro _ l hl p hp
      rw [setSize_indirect, storeBlock_dataArea, Function.update_self, hsame]
      by_cases he : l = j
      · subst he
        rw [blockEntry_put_self _ _ (by omega) (by omega)]
        intro he
        apply allocated_not_used fresh
        rw [he]
        exact h.owned.marked p (hold p hp)
      · rw [blockEntry_put_ne _ _ he]
        refine h.entries hsome l ?_ p (hold p hp)
        rw [storeBlock_maxIndex] at hl
        simp only [maxIndex, hbs] at hl ⊢
        exact hl

theorem SlotsApart.indirectApart {fs : Myfs} {mi : Inode} (h : SlotsApart fs mi)
    (hs : StreamShape fs mi) : IndirectApart fs mi := by
  rintro hbig (⟨i, hi, hlt, he⟩ | ⟨j, hj, _, he⟩)
  · have := h.owned.once (.direct i) .indirect ⟨hi, hlt⟩ (hs.needed hbig) he
    cases this
  · exact h.entries (hs.needed hbig) j hj .indirect (hs.needed hbig) he

theorem SlotsApart.same {fs fs' : Myfs} {mi mi' : Inode} (h : SlotsApart fs mi)
    (hsame : SameBlocks fs fs') (hmi : mi'.data = mi.data) : SlotsApart fs' mi' := by
  have hholds : ∀ p, holds fs' mi' p → holds fs mi p := by
    intro p hp
    cases p with
    | direct i =>
      obtain ⟨hi, hlt⟩ := hp
      rw [hsame.blockSize, hmi] at hlt
      exact ⟨hi, hlt⟩
    | indirect =>
      intro hz
      apply hp
      rw [hmi, hz]
  have haddr : ∀ p, slotAddr mi' p = slotAddr mi p := by
    intro p
    cases p <;> simp only [slotAddr, hmi]
  constructor
  · refine h.owned.congr (fun p hp => ⟨hholds p hp, haddr p⟩) ?_
    intro a ha
    unfold BlockUsed
    rw [hsame.bv]
    exact ha
  · intro hne j hj p hp
    rw [hmi] at hne
    rw [hmi, hsame.dataArea, haddr]
    exact h.entries hne j (by rwa [hsame.maxIndex] at hj) p (hholds p hp)

theorem SlotsApart.written {fs fs' : Myfs} {mi : Inode} (h : SlotsApart fs mi)
    (hs : StreamShape fs mi) (hw : DataWritten fs fs' mi) : SlotsApart fs' mi := by
  have hkept := hw.indirect_kept hs (h.indirectApart hs)
  have hdsb : fs'.dsb = fs.dsb := by rw [hw.frame]
  have hbv : fs'.bv = fs.bv := by rw [hw.frame]
  have hholds : ∀ p, holds fs' mi p → holds fs mi p := by
    intro p hp
    cases p with
    | direct i =>
      obtain ⟨hi, hlt⟩ := hp
      rw [hdsb] at hlt
      exact ⟨hi, hlt⟩
    | indirect => exact hp
  constructor
  · refine h.owned.congr (fun p hp => ⟨hholds p hp, rfl⟩) ?_
    intro a ha
    unfold BlockUsed
    rw [hbv]
    exact ha
  · intro hne j hj p hp
    rw [hkept hne]
    refine h.entries hne j ?_ p (hholds p hp)
    simp only [maxIndex, hdsb] at hj ⊢
    exact hj

/-- A shrink that keeps the boundaries below the new size frees no slot that is left. -/
theorem SlotsApart.shrink {fs fs' : Myfs} {mi mi' : Inode} {n : ℤ} {q : ℕ}
    (h : SlotsApart fs mi) (hs : StreamShape fs mi) (hle : n ≤ mi.data.size)
    (hkeep : ∀ i ≤ numDirectBlocks, (i * fs.dsb.blockSize : ℤ) < n → i < q)
    (hsize : mi'.data.size = n)
    (hdirect : ∀ i < numDirectBlocks, mi'.data.direct i = if q ≤ i then 0 else mi.data.direct i)
    (hindirect : mi'.data.indirect = if q ≤ numDirectBlocks then 0 else mi.data.indirect)
    (hfreed : Freed fs fs' (ShrinkFreed fs mi q)) : SlotsApart fs' mi' := by
  -- a slot that is left was there before, with the same block
  have hleft : ∀ p, holds fs' mi' p → holds fs mi p ∧ slotAddr mi' p = slotAddr mi p ∧
      (p = .indirect → numDirectBlocks < q) ∧ ∀ i, p = .direct i → i < q := by
    intro p hp
    cases p with
    | direct i =>
      obtain ⟨hi, hlt⟩ := hp
      rw [hfreed.blockSize, hsize] at hlt
      have hq := hkeep i (by omega) hlt
      refine ⟨⟨hi, by omega⟩, ?_, by simp, ?_⟩
      · simp only [slotAddr, hdirect i hi]
        rw [if_neg (by omega)]
      · intro i' he
        cases he
        exact hq
    | indirect =>
      have hne : mi'.data.indirect ≠ 0 := hp
      rw [hindirect] at hne
      split at hne
      · exact absurd rfl hne
      · rename_i hq
        refine ⟨hne, ?_, fun _ => by omega, by simp⟩
        simp only [slotAddr, hindirect, if_neg hq]
  constructor
  · refine (h.owned.release_iff (fun p hp => ⟨(hleft p hp).1, (hleft p hp).2.1⟩)
      hfreed.blockUsed).mpr ?_
    rintro p hp ⟨_, hfree⟩
    obtain ⟨hold, haddr, hind, hdir⟩ := hleft p hp
    have hpos : ((slotAddr mi p).toNat : ℤ) = slotAddr mi p :=
      Int.toNat_of_nonneg (h.owned.marked p hold).1
    rw [hpos] at hfree
    rcases hfree with ⟨i, hqi, hi, hne, he⟩ | ⟨hne, ⟨j, _, hj, _, he⟩ | ⟨hq, he⟩⟩
    · -- a freed direct slot would be the slot itself, which is below `q`
      have := h.owned.once (.direct i) p ⟨hi, (hs.direct i hi).mp hne⟩ hold he
      have := hdir i this.symm
      omega
    · rw [hpos] at he
      exact h.entries hne j hj p hold he
    · have := h.owned.once p .indirect hold hne he
      have := hind this
      omega
  · intro hne j hj p hp
    obtain ⟨hold, haddr, _, _⟩ := hleft p hp
    have hi : mi'.data.indirect = mi.data.indirect := (hleft .indirect hne).2.1
    rw [hi] at hne
    rw [haddr, hi, hfreed.dataArea]
    refine h.entries hne j ?_ p hold
    simp only [maxIndex, hfreed.blockSize] at hj ⊢
    exact hj

/-- Rounding `n - 1` keeps every boundary below `n` up to the indirect range, unless `n`
is one over a boundary there. -/
theorem rounding_keeps_iff {n : ℤ} {b q : ℕ} (hb : 2 ≤ b) (h₀ : 0 ≤ n) (hq₁ : n - 1 ≤ q * b)
    (hq₂ : (q * b : ℤ) < n - 1 + b) :
    (∀ i ≤ numDirectBlocks, (i * b : ℤ) < n → i < q) ↔ (n % b = 1 → directSize b + 1 < n) := by
  have hbz : (0 : ℤ) < b := by omega
  constructor
  · intro hkeep hone
    by_contra hle
    have hn : n = ((n / b).toNat : ℕ) * b + 1 := by
      rw [Int.toNat_of_nonneg (Int.ediv_nonneg h₀ hbz.le)]
      have := Int.mul_ediv_add_emod n b
      rw [mul_comm]
      omega
    have hi : (n / b).toNat ≤ numDirectBlocks := by
      have : ((n / b).toNat * b : ℤ) ≤ numDirectBlocks * b := by
        rw [directSize] at hle
        omega
      exact_mod_cast le_of_mul_le_mul_right this hbz
    have hlt := hkeep _ hi (by omega)
    have : ((n / b).toNat + 1 : ℤ) * b ≤ q * b := by
      apply mul_le_mul_of_nonneg_right _ hbz.le
      omega
    rw [add_mul] at this
    omega
  · intro hround i hi hlt
    by_contra hge
    have hle : (q * b : ℤ) ≤ i * b := by
      apply mul_le_mul_of_nonneg_right _ hbz.le
      omega
    have hn : n = 1 + b * i := by
      rw [mul_comm (b : ℤ)]
      omega
    have hone : n % b = 1 := by
      rw [hn, Int.add_mul_emod_self_left]
      exact Int.emod_eq_of_lt (by omega) (by omega)
    have := hround hone
    have hbig : (i * b : ℤ) ≤ numDirectBlocks * b := by
      apply mul_le_mul_of_nonneg_right _ hbz.le
      omega
    rw [directSize] at this
    rw [mul_comm (b : ℤ)] at hn
    omega

/-- What holds between two calls on the file. -/
structure Sound (s : Stream) : Prop where
  disk : DiskSound s.fs
  large : 2 ≤ s.fs.dsb.blockSize
  shape : StreamShape s.fs s.mi
  apart : SlotsApart s.fs s.mi

theorem growDstream_sound {s : Stream} {mi₁ mi' : Inode} {fs₁ fs' : Myfs} {n : ℤ} (h : Sound s)
    (hlt : s.mi.data.size < n) (hg : growDstream s.fs s.mi n = .ok (0, mi₁, fs₁))
    (hsame : SameBlocks fs₁ fs') (hmi : mi'.data = mi₁.data) :
    Sound ⟨fs', mi'⟩ ∧ mi'.data.size = n := by
  obtain ⟨hd, hs, hsize, hap, hbs⟩ := growDstream_keeps (Q := SlotsApart)
    (fun _ _ _ hsame hq => hq.resize hsame) (fun _ _ hst hd hg hq => hq.step hst hd hg)
    h.disk h.shape h.apart hlt hg
  refine ⟨⟨hsame.sound hd, ?_, hs.same hsame hmi, hap.same hsame hmi⟩, by rw [hmi, hsize]⟩
  have := h.large
  simp only
  rw [hsame.blockSize, hbs]
  exact this

/-- Shrinking: the call always sets the size, and it keeps the map exactly when the
rounding keeps the boundaries. -/
theorem shrink_meets_iff {s : Stream} {mi₁ mi' : Inode} {fs₁ fs' : Myfs} {n : ℤ} (h : Sound s)
    (h₀ : 0 ≤ n) (hlt : n < s.mi.data.size) (hg : shrinkDstream s.fs s.mi n = (0, mi₁, fs₁))
    (hsame : SameBlocks fs₁ fs') (hmi : mi'.data = mi₁.data) :
    mi'.data.size = n ∧
    ((n % s.fs.dsb.blockSize = 1 → directSize s.fs.dsb.blockSize + 1 < n) →
      Sound ⟨fs', mi'⟩) ∧
    (MapAgrees ⟨fs', mi'⟩ →
      n % s.fs.dsb.blockSize = 1 → directSize s.fs.dsb.blockSize + 1 < n) := by
  obtain ⟨k, hk⟩ := h.disk.pow
  have hlarge := h.large
  obtain ⟨q, hq, hq₁, hq₂⟩ := roundUp_spec (n - 1) hk (by omega)
  obtain ⟨mi₂, fs₂, he, hsize, hdbl, hdirect, hindirect, hfreed⟩ :=
    shrinkDstream_spec hk h.disk.int32 h.shape h₀ hlt.le hq hq₂
  rw [hg] at he
  obtain ⟨_, rfl, rfl⟩ : 0 = (0 : ℤ) ∧ mi₁ = mi₂ ∧ fs₁ = fs₂ := by simpa using he
  have hround := rounding_keeps_iff hlarge h₀ hq₁ hq₂
  refine ⟨by rw [hmi, hsize], fun hwell => ?_, fun hagree => hround.mp ?_⟩
  · have hkeep := hround.mpr hwell
    have hshape := h.shape.shrink h.disk.blockSize_pos h₀ hlt.le hq₂ hkeep hsize hdbl hdirect
      hindirect hfreed
    have hapart := h.apart.shrink h.shape hlt.le hkeep hsize hdirect hindirect hfreed
    refine ⟨hsame.sound (hfreed.sound h.disk), ?_, hshape.same hsame hmi, hapart.same hsame hmi⟩
    simp only
    rw [hsame.blockSize, hfreed.blockSize]
    exact hlarge
  · intro i hi hin
    by_contra hge
    rcases Nat.lt_or_eq_of_le hi with hi' | rfl
    · -- a direct slot below the new size was cleared
      refine (hagree.direct i hi').mpr ?_ ?_
      · simp only
        rw [hsame.blockSize, hfreed.blockSize, hmi, hsize]
        exact hin
      · simp only
        rw [hmi, hdirect i hi', if_pos (by omega)]
    · -- the indirect block was given up although the new size needs it
      refine hagree.indirect.mpr ?_ ?_
      · simp only
        rw [hsame.blockSize, hfreed.blockSize, hmi, hsize]
        exact hin
      · simp only
        rw [hmi, hindirect, if_pos (by omega)]

theorem write_sound {s : Stream} {pos : ℤ} {buf : ℕ → UInt8} {len count : ℕ} {mi' : Inode}
    {fs' : Myfs} (h : Sound s)
    (hw : myfsWriteDataStream s.fs s.mi pos buf len = .ok (0, count, mi', fs')) :
    Sound ⟨fs', mi'⟩ ∧ mi'.data.size = requestedSize s (.write pos buf len) := by
  rcases myfsWriteDataStream_ok hw with ⟨hlen, rfl, rfl⟩ |
    ⟨hlen, mi₁, fs₁, fs₂, written, hgrow, hbytes, hmi, hsame⟩
  · exact ⟨h, by simp only [requestedSize, hlen, if_true]⟩
  have hstart : 0 ≤ startPos pos := by
    unfold startPos
    split <;> omega
  have hmid : Sound ⟨fs₁, mi₁⟩ ∧
      mi₁.data.size = max s.mi.data.size (startPos pos + len) := by
    rcases growForWrite_ok hgrow with ⟨hle, rfl, rfl⟩ | ⟨hlt, mi₂, fs₃, hg, hmi₂, hsame₂⟩
    · exact ⟨h, (max_eq_left hle).symm⟩
    · obtain ⟨hs, hsz⟩ := growDstream_sound h hlt hg hsame₂ hmi₂
      exact ⟨hs, by rw [hsz, max_eq_right hlt.le]⟩
  obtain ⟨hs, hsz⟩ := hmid
  have hap := hs.apart.indirectApart hs.shape
  have hdw := writeBytes_written hs.disk.blockSize_pos hs.shape.bounded hap hstart hlen
    (by rw [hsz]; exact le_max_right _ _) hbytes
  refine ⟨⟨hsame.sound (hdw.sound hs.disk), ?_, (hdw.shape hs.shape hap).same hsame hmi,
    (hs.apart.written hs.shape hdw).same hsame hmi⟩, ?_⟩
  · have := hs.large
    simp only at this ⊢
    rw [hsame.blockSize, hdw.frame]
    exact this
  · rw [hmi, hsz, requestedSize, if_neg (by omega)]

theorem Sound.agrees {s : Stream} (h : Sound s) : MapAgrees s := StreamShape.agrees h.disk h.shape

theorem step_sound {s : Stream} {e : Call} (h : Sound s) (he : Enabled s e)
    (hr : RoundsWell s e) :
    Sound (next s e) ∧ (next s e).mi.data.size = requestedSize s e := by
  cases e with
  | setFileSize n =>
    obtain ⟨h₀, _, ⟨mi', fs'⟩, hcall⟩ := he
    have hnext : next s (.setFileSize n) = ⟨fs', mi'⟩ := by simp only [next, hcall]
    rw [hnext]
    rcases myfsSetFileSize_ok hcall with ⟨rfl, rfl, rfl⟩ |
      ⟨hlt, mi₁, fs₁, hg, hmi, hsame⟩ | ⟨hlt, mi₁, fs₁, hg, hmi, hsame⟩
    · exact ⟨h, rfl⟩
    · obtain ⟨hsz, hs, _⟩ := shrink_meets_iff h h₀ hlt hg hsame hmi
      exact ⟨hs (hr hlt), hsz⟩
    · exact growDstream_sound h hlt hg hsame hmi
  | write pos buf len =>
    obtain ⟨⟨count, mi', fs'⟩, hcall⟩ := he
    have hnext : next s (.write pos buf len) = ⟨fs', mi'⟩ := by simp only [next, hcall]
    rw [hnext]
    exact write_sound h hcall

theorem callMeets_iff {s : Stream} {e : Call} (h : Sound s) (he : Enabled s e) :
    CallMeets s e ↔ RoundsWell s e := by
  constructor
  · intro hmeets
    cases e with
    | write pos buf len => trivial
    | setFileSize n =>
      intro hlt
      obtain ⟨h₀, _, ⟨mi', fs'⟩, hcall⟩ := he
      have hnext : next s (.setFileSize n) = ⟨fs', mi'⟩ := by simp only [next, hcall]
      have hagree := hmeets.2
      rw [hnext] at hagree
      rcases myfsSetFileSize_ok hcall with ⟨rfl, _⟩ |
        ⟨_, mi₁, fs₁, hg, hmi, hsame⟩ | ⟨hgt, _⟩
      · omega
      · exact (shrink_meets_iff h h₀ hlt hg hsame hmi).2.2 hagree
      · omega
  · intro hr
    obtain ⟨hs, hsz⟩ := step_sound h he hr
    exact ⟨hsz, hs.agrees⟩

/-- An empty file on a disk whose block 0 is in use. -/
structure Fresh (s : Stream) : Prop where
  empty : s.mi.data = emptyStream
  superBlock : s.fs.bv.bit 0 = true
  room : 0 < s.fs.bv.numbits
  int32 : s.fs.bv.numbits < 2 ^ 31
  pow : ∃ k, s.fs.dsb.blockSize = 2 ^ k
  large : 512 ≤ s.fs.dsb.blockSize

theorem Fresh.sound {s : Stream} (h : Fresh s) : Sound s := by
  have hlarge := h.large
  have hsize : s.mi.data.size = 0 := by rw [h.empty]; rfl
  have hnone : ∀ p, ¬ holds s.fs s.mi p := by
    intro p hp
    cases p with
    | direct i =>
      have hlt := hp.2
      have : (0 : ℤ) ≤ i * s.fs.dsb.blockSize := by positivity
      omega
    | indirect => exact hp (by rw [h.empty]; rfl)
  refine ⟨⟨h.superBlock, h.int32, h.pow⟩, by omega, streamShape_empty h.room h.empty,
    ⟨fun p hp => absurd hp (hnone p), fun p _ hp => absurd hp (hnone p)⟩, ?_⟩
  intro hne
  exact absurd hne (hnone .indirect)

/-- Over every sequence of calls that return 0, size and block map agree after each call
exactly when no shrink to one byte over a block boundary stays at or below the start of
the indirect range. -/
theorem size_and_map_agree_iff (s : Stream) (h : Fresh s) (es : List Call)
    (hv : EveryStep next Enabled s es) :
    EveryStep next CallMeets s es ↔ EveryStep next RoundsWell s es :=
  everyStep_congr_of_inv (fun s _ (hs : Sound s) he hr => (step_sound hs he hr).1)
    (fun s _ (hs : Sound s) he => callMeets_iff hs he) h.sound hv

/-- An empty file with inode 1 on the small disk. -/
def smallFile : Stream := ⟨madeDisk, freshInode madeDisk 0 1⟩

theorem smallFile_fresh : Fresh smallFile :=
  ⟨rfl, by decide +kernel, by decide +kernel, by decide +kernel, ⟨9, by decide +kernel⟩,
    by decide +kernel⟩

theorem size_and_map_agree_smallFile :
    EveryStep next CallMeets smallFile [.setFileSize 4000, .write 100 (fun _ => 7) 20,
      .setFileSize 514, .setFileSize 1024] := by
  refine (size_and_map_agree_iff smallFile smallFile_fresh _ ?_).mpr ?_
  · exact ⟨by decide +kernel, by decide +kernel, by decide +kernel, by decide +kernel, trivial⟩
  · exact ⟨fun _ => by decide +kernel, trivial, fun _ => by decide +kernel,
      fun _ => by decide +kernel, trivial⟩

/-- Growing a file to 512 bytes and shrinking it to 1 byte frees its only block. -/
theorem one_byte_file_unmapped :
    EveryStep next Enabled smallFile [.setFileSize 512, .setFileSize 1] ∧
    ¬ EveryStep next CallMeets smallFile [.setFileSize 512, .setFileSize 1] := by
  constructor
  · exact ⟨by decide +kernel, by decide +kernel, trivial⟩
  · rintro ⟨_, ⟨_, hmap⟩, _⟩
    have hsize : (next (next smallFile (.setFileSize 512)) (.setFileSize 1)).mi.data.size = 1 := by
      decide +kernel
    have hslot :
        (next (next smallFile (.setFileSize 512)) (.setFileSize 1)).mi.data.direct 0 = 0 := by
      decide +kernel
    refine (hmap.direct 0 (by decide)).mpr ?_ hslot
    rw [hsize, Nat.cast_zero, zero_mul]
    exact Int.zero_lt_one

end FileSizeAgreement
