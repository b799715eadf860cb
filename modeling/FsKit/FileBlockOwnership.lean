import Mathlib.Tactic
import FsKit.DataStreamShape
import FsKit.ResourceOwnership
import FsKit.TransitionTrace

/-! The blocks of any number of files under interleaved writes, size changes and frees.
`shrink_dstream` frees the entries of the indirect block without clearing them, and a
later shrink of the same file frees what it finds there once more. No block is shared or
mapped while free exactly as long as such a left-over entry names no mapped block. -/
namespace FileBlockOwnership

open BlockBitmap InodeTable DataStreamBlocks DataStreamGrowth DataStreamShape
open ResourceOwnership TransitionTrace

variable {ι : Type}

structure FileTable (ι : Type) where
  fs : Myfs
  files : ι → Inode

inductive Call (ι : Type) where
  | write (f : ι) (pos : ℤ) (buf : ℕ → UInt8) (len : ℕ)
  | setFileSize (f : ι) (newSize : ℤ)
  | free (f : ι)

section

variable [DecidableEq ι]

def FileTable.store (w : FileTable ι) (f : ι) (mi : Inode) (fs : Myfs) : FileTable ι :=
  ⟨fs, Function.update w.files f mi⟩

def next (w : FileTable ι) : Call ι → FileTable ι
  | .write f pos buf len =>
    match myfsWriteDataStream w.fs (w.files f) pos buf len with
    | .ok (_, _, mi, fs) => w.store f mi fs
    | .error _ => w
  | .setFileSize f n =>
    match myfsSetFileSize w.fs (w.files f) n with
    | .ok (_, mi, fs) => w.store f mi fs
    | .error _ => w
  | .free f =>
    w.store f (myfsFreeDataStream w.fs (w.files f)).2.1 (myfsFreeDataStream w.fs (w.files f)).2.2

/-- The call returns 0, and a file is shrunk to whole blocks only. -/
def Enabled (w : FileTable ι) : Call ι → Prop
  | .write f pos buf len => Succeeds (myfsWriteDataStream w.fs (w.files f) pos buf len)
  | .setFileSize f n => (n < (w.files f).data.size → (w.fs.dsb.blockSize : ℤ) ∣ n) ∧
      Succeeds (myfsSetFileSize w.fs (w.files f) n)
  | .free _ => True

end

instance (w : FileTable ι) (e : Call ι) : Decidable (Enabled w e) :=
  match e with
  | .write f pos buf len =>
    inferInstanceAs (Decidable (Succeeds (myfsWriteDataStream w.fs (w.files f) pos buf len)))
  | .setFileSize f n =>
    inferInstanceAs (Decidable ((n < (w.files f).data.size → (w.fs.dsb.blockSize : ℤ) ∣ n) ∧
      Succeeds (myfsSetFileSize w.fs (w.files f) n)))
  | .free _ => isTrue trivial

/-- The places of a file that name a block. -/
inductive Place where
  | direct (i : ℕ)
  | indirect
  | entry (j : ℕ)
  deriving DecidableEq, Repr

/-- Block index `i` of a file is below the end of the file when `i * bsize < size`. -/
def mapped (fs : Myfs) (mi : Inode) : Place → Prop
  | .direct i => i < numDirectBlocks ∧ (i * fs.dsb.blockSize : ℤ) < mi.data.size
  | .indirect => directSize fs.dsb.blockSize < mi.data.size
  | .entry j => (((numDirectBlocks + j : ℕ) : ℤ) * fs.dsb.blockSize) < mi.data.size

def placeAddr (fs : Myfs) (mi : Inode) : Place → ℤ
  | .direct i => mi.data.direct i
  | .indirect => mi.data.indirect
  | .entry j => blockEntry (fs.dataArea mi.data.indirect) j

/-- Every mapped block is marked used and occurs at one place of one file. -/
def NoSharing (w : FileTable ι) : Prop :=
  OwnedOnce (fun p : ι × Place => mapped w.fs (w.files p.1) p.2)
    (fun p => placeAddr w.fs (w.files p.1) p.2) (BlockUsed w.fs)

/-- The entries behind the last mapped one, up to the first zero, that earlier shrinks
left in the indirect block. -/
def LeftOver (fs : Myfs) (mi : Inode) (a : ℤ) : Prop :=
  directSize fs.dsb.blockSize < mi.data.size ∧ ∃ j < maxIndex fs,
    mi.data.size ≤ (((numDirectBlocks + j : ℕ) : ℤ) * fs.dsb.blockSize) ∧
    (∀ j' ≤ j, mi.data.size ≤ (((numDirectBlocks + j' : ℕ) : ℤ) * fs.dsb.blockSize) →
      blockEntry (fs.dataArea mi.data.indirect) j' ≠ 0) ∧
    blockEntry (fs.dataArea mi.data.indirect) j = a

/-- No left-over entry of `f` names a block that is mapped once `f` is cut to `n`. -/
def LeavesApart [DecidableEq ι] (w : FileTable ι) (f : ι) (n : ℤ) : Prop :=
  n < (w.files f).data.size → ∀ g p,
    mapped w.fs (if g = f then setSize (w.files g) n else w.files g) p →
    ¬ LeftOver w.fs (w.files f) (placeAddr w.fs (w.files g) p)

def ShrinksApart [DecidableEq ι] (w : FileTable ι) : Call ι → Prop
  | .write _ _ _ _ => True
  | .setFileSize f n => LeavesApart w f n
  | .free f => LeavesApart w f 0

/-- As `mapped`, for the middle of a growth, when the indirect block may be there already. -/
def held (fs : Myfs) (mi : Inode) : Place → Prop
  | .indirect => mi.data.indirect ≠ 0
  | p => mapped fs mi p

def HeldOnce (fs : Myfs) (files : ι → Inode) : Prop :=
  OwnedOnce (fun p : ι × Place => held fs (files p.1) p.2)
    (fun p => placeAddr fs (files p.1) p.2) (BlockUsed fs)

theorem mapped_iff_held {fs : Myfs} {mi : Inode} (h : StreamShape fs mi) (p : Place) :
    mapped fs mi p ↔ held fs mi p := by
  cases p with
  | direct i => exact Iff.rfl
  | indirect => exact h.indirect.symm
  | entry j => exact Iff.rfl

/-- What holds between two calls, next to `NoSharing`. -/
structure Sound (w : FileTable ι) : Prop where
  disk : DiskSound w.fs
  large : 2 ≤ w.fs.dsb.blockSize
  shape : ∀ f, StreamShape w.fs (w.files f)

theorem Sound.noSharing_iff {w : FileTable ι} (h : Sound w) :
    NoSharing w ↔ HeldOnce w.fs w.files := by
  have hiff : ∀ p : ι × Place, mapped w.fs (w.files p.1) p.2 ↔ held w.fs (w.files p.1) p.2 :=
    fun p => mapped_iff_held (h.shape p.1) p.2
  constructor
  · intro hn
    exact hn.congr (fun p hp => ⟨(hiff p).mpr hp, rfl⟩) (fun _ ha => ha)
  · intro hn
    exact hn.congr (fun p hp => ⟨(hiff p).mp hp, rfl⟩) (fun _ ha => ha)

/-- A place keeps its address when the inode is the same and the indirect block is too. -/
theorem placeAddr_kept {fs fs' : Myfs} {mi : Inode} {p : Place} (hp : held fs mi p)
    (hneed : directSize fs.dsb.blockSize < mi.data.size → mi.data.indirect ≠ 0)
    (hkept : mi.data.indirect ≠ 0 →
      fs'.dataArea mi.data.indirect = fs.dataArea mi.data.indirect) :
    placeAddr fs' mi p = placeAddr fs mi p := by
  cases p with
  | direct i => rfl
  | indirect => rfl
  | entry j =>
    simp only [placeAddr]
    rw [hkept (hneed (directSize_lt_of_entry hp))]

theorem held_of_blockSize {fs fs' : Myfs} {mi : Inode} {p : Place}
    (hbs : fs'.dsb.blockSize = fs.dsb.blockSize) (hp : held fs' mi p) : held fs mi p := by
  cases p with
  | direct i => exact ⟨hp.1, by have := hp.2; rwa [hbs] at this⟩
  | indirect => exact hp
  | entry j =>
    simp only [held, mapped, hbs] at hp
    exact hp

theorem HeldOnce.same {files files' : ι → Inode} {fs fs' : Myfs} (h : HeldOnce fs files)
    (hsame : SameBlocks fs fs') (hfiles : ∀ g, (files' g).data = (files g).data) :
    HeldOnce fs' files' := by
  refine h.congr ?_ ?_
  · rintro ⟨g, p⟩ hp
    have hg := hfiles g
    cases p with
    | direct i =>
      simp only [held, mapped, placeAddr, hg, hsame.blockSize] at hp ⊢
      exact ⟨hp, trivial⟩
    | indirect =>
      simp only [held, placeAddr, hg] at hp ⊢
      exact ⟨hp, trivial⟩
    | entry j =>
      simp only [held, mapped, placeAddr, hg, hsame.blockSize, hsame.dataArea] at hp ⊢
      exact ⟨hp, trivial⟩
  · intro a ha
    unfold BlockUsed
    rw [hsame.bv]
    exact ha

/-- A data block of `f` is no indirect block of any file. -/
theorem dataAddr_ne_indirect {w : FileTable ι} (ha : HeldOnce w.fs w.files) {f g : ι} {a : ℤ}
    (hd : DataAddr w.fs (w.files f) a) (hne : (w.files g).data.indirect ≠ 0) :
    (w.files g).data.indirect ≠ a := by
  intro he
  rcases hd with ⟨i, hi, hlt, hi'⟩ | ⟨j, hj, hlt, hj'⟩
  · have := ha.once (f, .direct i) (g, .indirect) ⟨hi, hlt⟩ hne (hi'.trans he.symm)
    cases congrArg Prod.snd this
  · have := ha.once (f, .entry j) (g, .indirect) hlt hne (hj'.trans he.symm)
    cases congrArg Prod.snd this

/-- Files of size 0 on a disk whose block 0 is in use. -/
structure Fresh (w : FileTable ι) : Prop where
  empty : ∀ f, (w.files f).data = emptyStream
  superBlock : w.fs.bv.bit 0 = true
  room : 0 < w.fs.bv.numbits
  int32 : w.fs.bv.numbits < 2 ^ 31
  pow : ∃ k, w.fs.dsb.blockSize = 2 ^ k
  large : 512 ≤ w.fs.dsb.blockSize

theorem Fresh.sound {w : FileTable ι} (h : Fresh w) : Sound w ∧ NoSharing w := by
  have hlarge := h.large
  have hnone : ∀ f p, ¬ mapped w.fs (w.files f) p := by
    intro f p hp
    have hsize : (w.files f).data.size = 0 := by rw [h.empty]; rfl
    have hmul : ∀ i : ℕ, (0 : ℤ) ≤ i * w.fs.dsb.blockSize := fun i => by positivity
    cases p with
    | direct i =>
      have := hp.2
      have := hmul i
      omega
    | indirect =>
      have := hmul numDirectBlocks
      simp only [mapped, directSize] at hp
      omega
    | entry j =>
      have := hmul (numDirectBlocks + j)
      simp only [mapped] at hp
      omega
  exact ⟨⟨⟨h.superBlock, h.int32, h.pow⟩, by omega, fun f => streamShape_empty h.room (h.empty f)⟩,
    fun p hp => absurd hp (hnone _ _), fun p _ hp => absurd hp (hnone _ _)⟩

variable [DecidableEq ι]

/-- While file `f` grows: the held blocks are apart and the other files are unchanged. -/
structure GrowsApart (files : ι → Inode) (f : ι) (fs : Myfs) (mi : Inode) : Prop where
  apart : HeldOnce fs (Function.update files f mi)
  others : ∀ g, g ≠ f → StreamShape fs (files g)

theorem GrowsApart.indirect_ne {files : ι → Inode} {f g : ι} {fs : Myfs} {mi : Inode}
    (h : GrowsApart files f fs mi) (hg : g ≠ f) (hne : (files g).data.indirect ≠ 0) :
    (files g).data.indirect ≠ mi.data.indirect ∧ BlockUsed fs (files g).data.indirect := by
  have hold : held fs (Function.update files f mi g) .indirect := by
    rw [Function.update_of_ne hg]
    exact hne
  have hused := h.apart.marked (g, .indirect) hold
  simp only [placeAddr, Function.update_of_ne hg] at hused
  refine ⟨fun he => ?_, hused⟩
  have hown : held fs (Function.update files f mi f) .indirect := by
    rw [Function.update_self]
    intro hz
    exact hne (by rw [he, hz])
  have := h.apart.once (g, .indirect) (f, .indirect) hold hown (by
    simp only [placeAddr, Function.update_of_ne hg, Function.update_self]
    exact he)
  exact hg (congrArg Prod.fst this)

/-- One more block for file `f`: a fresh address at the new place `p₀`, with nothing
stored outside the indirect block of `f` and fresh blocks. -/
theorem GrowsApart.grown {files : ι → Inode} {f : ι} {fs fs' : Myfs} {mi mi' : Inode} (p₀ : Place)
    (h : GrowsApart files f fs mi) (hbs : fs'.dsb.blockSize = fs.dsb.blockSize)
    (hnum : fs'.bv.numbits = fs.bv.numbits)
    (hown : ∀ p, held fs' mi' p → p ≠ p₀ → held fs mi p ∧ placeAddr fs' mi' p = placeAddr fs mi p)
    (hfresh : ¬ BlockUsed fs (placeAddr fs' mi' p₀)) (hnew : BlockUsed fs' (placeAddr fs' mi' p₀))
    (hmono : ∀ a, BlockUsed fs a → BlockUsed fs' a)
    (hdata : ∀ a, BlockUsed fs a → a ≠ mi.data.indirect → fs'.dataArea a = fs.dataArea a) :
    GrowsApart files f fs' mi' := by
  have hkept : ∀ g, g ≠ f → (files g).data.indirect ≠ 0 →
      fs'.dataArea (files g).data.indirect = fs.dataArea (files g).data.indirect := by
    intro g hg hne
    obtain ⟨h₁, h₂⟩ := h.indirect_ne hg hne
    exact hdata _ h₂ h₁
  constructor
  · apply h.apart.take (f, p₀)
    · rintro ⟨g, p⟩ hp hne
      by_cases hg : g = f
      · subst hg
        simp only [Function.update_self] at hp ⊢
        exact hown p hp (fun he => hne (by rw [he]))
      · simp only [Function.update_of_ne hg] at hp ⊢
        have hold := held_of_blockSize hbs hp
        exact ⟨hold, placeAddr_kept hold (h.others g hg).needed (hkept g hg)⟩
    · simp only [Function.update_self]
      exact hfresh
    · simp only [Function.update_self]
      exact hnew
    · exact hmono
  · intro g hg
    exact (h.others g hg).around hbs hnum (hkept g hg)

theorem GrowsApart.step {files : ι → Inode} {f : ι} {newSize : ℤ} {s t : Myfs × Inode}
    (hstep : GrowStep newSize s t) (hd : DiskSound s.1) (hg : Growing newSize s.1 s.2)
    (h : GrowsApart files f s.1 s.2) : GrowsApart files f t.1 t.2 := by
  have hbz : (0 : ℤ) < s.1.dsb.blockSize := by exact_mod_cast hd.blockSize_pos
  cases hstep with
  | @direct fs fs' mi addr i short slot size fresh =>
    dsimp only at h hg hbz ⊢
    have hbs := fresh.blockSize
    have haddr : placeAddr fs' (setSize (setDirect mi i addr) (mi.data.size + fs.dsb.blockSize))
        (.direct i) = addr := by
      simp only [placeAddr, setSize_direct, setDirect_direct, Function.update_self]
    apply h.grown (.direct i) hbs fresh.taken.numbits
    · intro p hp hne
      cases p with
      | direct l =>
        have hl : l ≠ i := fun he => hne (by rw [he])
        obtain ⟨hl6, hlt⟩ := hp
        rw [setSize_size, hbs, size, ← add_one_mul, mul_lt_mul_iff_left₀ hbz] at hlt
        refine ⟨⟨hl6, ?_⟩, ?_⟩
        · rw [size, mul_lt_mul_iff_left₀ hbz]
          omega
        · simp only [placeAddr, setSize_direct, setDirect_direct, Function.update_of_ne hl]
      | indirect => exact ⟨hp, rfl⟩
      | entry j =>
        have hlt : (((numDirectBlocks + j : ℕ) : ℤ) * fs'.dsb.blockSize) <
          mi.data.size + fs.dsb.blockSize := hp
        rw [hbs, size, ← add_one_mul, mul_lt_mul_iff_left₀ hbz] at hlt
        omega
    · rw [haddr]
      exact allocated_not_used fresh
    · rw [haddr]
      exact allocated_used fresh
    · intro a ha
      exact allocated_used_mono fresh ha
    · intro a _ _
      rw [fresh.dataArea]
  | @indirect fs fs' mi addr short size hnone fresh =>
    dsimp only at h hg hbz ⊢
    have hbs := fresh.blockSize
    apply h.grown .indirect (by rw [storeBlock_dsb, hbs])
      (by rw [storeBlock_bv, fresh.taken.numbits])
    · intro p hp hne
      cases p with
      | direct l =>
        refine ⟨⟨hp.1, ?_⟩, rfl⟩
        have := hp.2
        rwa [storeBlock_dsb, hbs] at this
      | indirect => exact absurd rfl hne
      | entry j =>
        have hlt : (((numDirectBlocks + j : ℕ) : ℤ) * fs'.dsb.blockSize) < mi.data.size := hp
        rw [hbs] at hlt
        exact absurd hnone (hg.needed (directSize_lt_of_entry hlt))
    · exact allocated_not_used fresh
    · have hused := allocated_used fresh
      exact hused
    · intro a ha
      exact allocated_used_mono fresh ha
    · intro a ha _
      have hne : a ≠ (addr : ℤ) := by
        rintro rfl
        exact allocated_not_used fresh ha
      rw [storeBlock_dataArea, Function.update_of_ne hne, fresh.dataArea]
  | @entry fs fs' mi addr j short slot size hsome fresh =>
    dsimp only at h hg hbz ⊢
    have hbs := fresh.blockSize
    have hin := fresh.taken.inside
    have hint := hd.int32
    dsimp only at hint
    have haddr : placeAddr (storeBlock fs' mi.data.indirect (LittleEndian.putWord64
        (fs.dataArea mi.data.indirect) (8 * j) addr))
        (setSize mi (mi.data.size + fs.dsb.blockSize)) (.entry j) = addr := by
      simp only [placeAddr, setSize_indirect, storeBlock_dataArea, Function.update_self]
      exact blockEntry_put_self _ _ (by omega) (by omega)
    have hend : ∀ l : ℕ, (l * fs.dsb.blockSize : ℤ) < mi.data.size + fs.dsb.blockSize →
        l ≠ numDirectBlocks + j → (l * fs.dsb.blockSize : ℤ) < mi.data.size := by
      intro l hlt hne
      rw [size, ← add_one_mul, mul_lt_mul_iff_left₀ hbz] at hlt
      rw [size, mul_lt_mul_iff_left₀ hbz]
      omega
    apply h.grown (.entry j) (by rw [storeBlock_dsb, hbs])
      (by rw [storeBlock_bv, fresh.taken.numbits])
    · intro p hp hne
      cases p with
      | direct l =>
        obtain ⟨hl6, hlt⟩ := hp
        rw [storeBlock_dsb, hbs] at hlt
        exact ⟨⟨hl6, hend l hlt (by omega)⟩, rfl⟩
      | indirect => exact ⟨hp, rfl⟩
      | entry l =>
        have hl : l ≠ j := fun he => hne (by rw [he])
        have hlt : (((numDirectBlocks + l : ℕ) : ℤ) * fs'.dsb.blockSize) <
          mi.data.size + fs.dsb.blockSize := hp
        rw [hbs] at hlt
        refine ⟨hend _ hlt (by omega), ?_⟩
        simp only [placeAddr, setSize_indirect, storeBlock_dataArea, Function.update_self]
        exact blockEntry_put_ne _ _ hl
    · rw [haddr]
      exact allocated_not_used fresh
    · rw [haddr]
      have hused := allocated_used fresh
      exact hused
    · intro a ha
      exact allocated_used_mono fresh ha
    · intro a _ hne
      rw [storeBlock_dataArea, Function.update_of_ne hne, fresh.dataArea]

theorem GrowsApart.resize {files : ι → Inode} {f : ι} {fs : Myfs} {mi : Inode} {size : ℤ}
    (hsame : ∀ i : ℕ, (i * fs.dsb.blockSize : ℤ) < size ↔
      (i * fs.dsb.blockSize : ℤ) < mi.data.size)
    (h : GrowsApart files f fs mi) : GrowsApart files f fs (setSize mi size) := by
  refine ⟨h.apart.congr ?_ (fun _ ha => ha), h.others⟩
  rintro ⟨g, p⟩ hp
  by_cases hg : g = f
  · subst hg
    simp only [Function.update_self] at hp ⊢
    cases p with
    | direct i => exact ⟨⟨hp.1, (hsame i).mp hp.2⟩, rfl⟩
    | indirect => exact ⟨hp, rfl⟩
    | entry j => exact ⟨(hsame _).mp hp, rfl⟩
  · simp only [Function.update_of_ne hg] at hp ⊢
    exact ⟨hp, trivial⟩

/-- A change of file `f` alone keeps the other files as they are. -/
theorem store_sound {w : FileTable ι} {f : ι} {mi : Inode} {fs : Myfs} (hd : DiskSound fs)
    (hlarge : 2 ≤ fs.dsb.blockSize) (hf : StreamShape fs mi)
    (hothers : ∀ g, g ≠ f → StreamShape fs (w.files g)) : Sound (w.store f mi fs) := by
  refine ⟨hd, hlarge, fun g => ?_⟩
  by_cases hg : g = f
  · subst hg
    simp only [FileTable.store, Function.update_self]
    exact hf
  · simp only [FileTable.store, Function.update_of_ne hg]
    exact hothers g hg

theorem grow_sound {w : FileTable ι} {f : ι} {mi₁ mi' : Inode} {fs₁ fs' : Myfs} {n : ℤ}
    (h : Sound w) (ha : HeldOnce w.fs w.files) (hlt : (w.files f).data.size < n)
    (hg : growDstream w.fs (w.files f) n = .ok (0, mi₁, fs₁))
    (hsame : SameBlocks fs₁ fs') (hmi : mi'.data = mi₁.data) :
    Sound (w.store f mi' fs') ∧ HeldOnce fs' (w.store f mi' fs').files ∧ mi'.data.size = n := by
  have hstart : GrowsApart w.files f w.fs (w.files f) := by
    refine ⟨?_, fun g _ => h.shape g⟩
    rw [Function.update_eq_self]
    exact ha
  obtain ⟨hd, hs, hsize, hap, hbs⟩ := growDstream_keeps (Q := GrowsApart w.files f)
    (fun _ _ _ hsame hq => hq.resize hsame) (fun _ _ hst hd hg hq => hq.step hst hd hg)
    h.disk (h.shape f) hstart hlt hg
  refine ⟨store_sound (hsame.sound hd) ?_ (hs.same hsame hmi)
    (fun g hg => (hap.others g hg).same hsame rfl), hap.apart.same hsame ?_, by rw [hmi, hsize]⟩
  · rw [hsame.blockSize, hbs]
    exact h.large
  · intro g
    by_cases he : g = f
    · subst he
      simp only [FileTable.store, Function.update_self]
      exact hmi
    · simp only [FileTable.store, Function.update_of_ne he]

theorem written_sound {w : FileTable ι} {f : ι} {fs₂ fs' : Myfs} (mi' : Inode) (h : Sound w)
    (ha : HeldOnce w.fs w.files) (hw : DataWritten w.fs fs₂ (w.files f))
    (hsame : SameBlocks fs₂ fs') (hmi : mi'.data = (w.files f).data) :
    Sound (w.store f mi' fs') ∧ HeldOnce fs' (w.store f mi' fs').files := by
  have hdsb : fs₂.dsb = w.fs.dsb := by rw [hw.frame]
  have hbv : fs₂.bv = w.fs.bv := by rw [hw.frame]
  have hkept : ∀ g, (w.files g).data.indirect ≠ 0 →
      fs₂.dataArea (w.files g).data.indirect = w.fs.dataArea (w.files g).data.indirect := by
    intro g hne
    exact hw.others _ fun hd => dataAddr_ne_indirect ha hd hne rfl
  have hshape : ∀ g, StreamShape fs₂ (w.files g) := fun g =>
    (h.shape g).around (by rw [hdsb]) (by rw [hbv]) (hkept g)
  have hheld : HeldOnce fs₂ w.files := by
    refine ha.congr ?_ ?_
    · rintro ⟨g, p⟩ hp
      have hold : held w.fs (w.files g) p := held_of_blockSize (by rw [hdsb]) hp
      exact ⟨hold, placeAddr_kept hold (h.shape g).needed (hkept g)⟩
    · intro a hu
      unfold BlockUsed
      rw [hbv]
      exact hu
  refine ⟨store_sound (hsame.sound (hw.sound h.disk)) ?_ ((hshape f).same hsame hmi)
    (fun g _ => (hshape g).same hsame rfl), hheld.same hsame ?_⟩
  · rw [hsame.blockSize, hdsb]
    exact h.large
  · intro g
    by_cases he : g = f
    · subst he
      simp only [FileTable.store, Function.update_self]
      exact hmi
    · simp only [FileTable.store, Function.update_of_ne he]

theorem write_sound {w : FileTable ι} {f : ι} {pos : ℤ} {buf : ℕ → UInt8} {len count : ℕ}
    {mi' : Inode} {fs' : Myfs} (h : Sound w) (ha : HeldOnce w.fs w.files)
    (hw : myfsWriteDataStream w.fs (w.files f) pos buf len = .ok (0, count, mi', fs')) :
    Sound (w.store f mi' fs') ∧ HeldOnce fs' (w.store f mi' fs').files := by
  rcases myfsWriteDataStream_ok hw with ⟨_, rfl, rfl⟩ |
    ⟨hlen, mi₁, fs₁, fs₂, written, hgrow, hbytes, hmi, hsame⟩
  · have hw : w.store f (w.files f) w.fs = w := by
      simp only [FileTable.store, Function.update_eq_self]
    rw [hw]
    exact ⟨h, ha⟩
  have hstart : 0 ≤ startPos pos := by
    unfold startPos
    split <;> omega
  have hmid : Sound (w.store f mi₁ fs₁) ∧ HeldOnce fs₁ (w.store f mi₁ fs₁).files ∧
      startPos pos + len ≤ mi₁.data.size := by
    rcases growForWrite_ok hgrow with ⟨hle, rfl, rfl⟩ | ⟨hlt, mi₂, fs₃, hg, hmi₂, hsame₂⟩
    · have hw : w.store f (w.files f) w.fs = w := by
        simp only [FileTable.store, Function.update_eq_self]
      rw [hw]
      exact ⟨h, ha, hle⟩
    · obtain ⟨hs, hheld, hsz⟩ := grow_sound h ha hlt hg hsame₂ hmi₂
      exact ⟨hs, hheld, hsz.ge⟩
  obtain ⟨hs, hheld, hsz⟩ := hmid
  have hfile : (w.store f mi₁ fs₁).files f = mi₁ := by
    simp only [FileTable.store, Function.update_self]
  have hshape := hs.shape f
  rw [hfile] at hshape
  have hap : IndirectApart fs₁ mi₁ := by
    intro hbig hd
    refine dataAddr_ne_indirect (w := w.store f mi₁ fs₁) (f := f) (g := f) hheld ?_ ?_ rfl
    · rw [hfile]
      exact hd
    · rw [hfile]
      exact hshape.needed hbig
  have hdw : DataWritten fs₁ fs₂ mi₁ := writeBytes_written hs.disk.blockSize_pos hshape.bounded
    hap hstart hlen hsz hbytes
  obtain ⟨hs', hheld'⟩ := written_sound (w := w.store f mi₁ fs₁) (f := f) mi' hs hheld
    (by rw [hfile]; exact hdw) hsame (by rw [hfile]; exact hmi)
  have hstore : (w.store f mi₁ fs₁).store f mi' fs' = w.store f mi' fs' := by
    simp only [FileTable.store, Function.update_idem]
  rw [hstore] at hs' hheld'
  exact ⟨hs', hheld'⟩

/-- With whole blocks, the entries a shrink frees are mapped ones it drops or left-over
ones of earlier shrinks. -/
theorem loopEntry_iff {fs : Myfs} {mi : Inode} {q p : ℕ} (hd : DiskSound fs)
    (hs : StreamShape fs mi) (hind : mi.data.indirect ≠ 0)
    (hlt : (q * fs.dsb.blockSize : ℤ) < mi.data.size) :
    LoopEntry (fs.dataArea mi.data.indirect) (maxIndex fs) (q - numDirectBlocks) p ↔
      (∃ j, q ≤ numDirectBlocks + j ∧ held fs mi (.entry j) ∧ placeAddr fs mi (.entry j) = p) ∨
        LeftOver fs mi p := by
  have hbz : (0 : ℤ) < fs.dsb.blockSize := by exact_mod_cast hd.blockSize_pos
  have hinside : ∀ j, held fs mi (.entry j) → j < maxIndex fs := by
    intro j hj
    have := lt_of_lt_of_le hj hs.bounded
    rw [maxIndirectRange_eq] at this
    have := lt_of_mul_lt_mul_right this hbz.le
    omega
  have hbehind : ∀ j : ℕ, mi.data.size ≤ (((numDirectBlocks + j : ℕ) : ℤ) * fs.dsb.blockSize) →
      q ≤ numDirectBlocks + j := by
    intro j hj
    have := lt_of_mul_lt_mul_right (lt_of_lt_of_le hlt hj) hbz.le
    omega
  constructor
  · rintro ⟨j, hqj, hj, hne, he⟩
    by_cases hin : (((numDirectBlocks + j : ℕ) : ℤ) * fs.dsb.blockSize) < mi.data.size
    · exact Or.inl ⟨j, by omega, hin, he⟩
    · refine Or.inr ⟨hs.only hind, j, hj, by omega, ?_, he⟩
      intro j' hj' hle
      have := hbehind j' hle
      exact hne j' (by omega) hj'
  · rintro (⟨j, hqj, hin, he⟩ | ⟨_, j, hj, hle, hne, he⟩)
    · refine ⟨j, by omega, hinside j hin, ?_, he⟩
      intro j' _ hj'
      have hmul : (((numDirectBlocks + j' : ℕ) : ℤ) * fs.dsb.blockSize) ≤
          ((numDirectBlocks + j : ℕ) : ℤ) * fs.dsb.blockSize := by
        apply mul_le_mul_of_nonneg_right _ hbz.le
        omega
      have hin' : held fs mi (.entry j') := lt_of_le_of_lt hmul hin
      exact hs.entry j' (hinside j' hin') hin'
    · refine ⟨j, by have := hbehind j hle; omega, hj, ?_, he⟩
      intro j' _ hj'
      by_cases hin : (((numDirectBlocks + j' : ℕ) : ℤ) * fs.dsb.blockSize) < mi.data.size
      · exact hs.entry j' (by omega) hin
      · exact hne j' hj' (by omega)

theorem mapped_of_cut {w : FileTable ι} {f g : ι} {p : Place} {n : ℤ}
    (hle : n ≤ (w.files f).data.size)
    (hp : mapped w.fs (if g = f then setSize (w.files g) n else w.files g) p) :
    mapped w.fs (w.files g) p := by
  split at hp
  · rename_i hg
    subst hg
    cases p with
    | direct i => exact ⟨hp.1, lt_of_lt_of_le hp.2 hle⟩
    | indirect => exact lt_of_lt_of_le hp hle
    | entry j => exact lt_of_lt_of_le hp hle
  · exact hp

/-- A shrink of `f` to whole blocks: what it frees of the blocks that stay mapped is what
left-over entries name. -/
theorem shrinkFreed_kept_iff {w : FileTable ι} {f g : ι} {p : Place} {n : ℤ} {q : ℕ}
    (h : Sound w) (ha : NoSharing w) (hq : n = q * w.fs.dsb.blockSize)
    (hp : mapped w.fs (if g = f then setSize (w.files g) n else w.files g) p)
    (hle : n ≤ (w.files f).data.size) :
    ShrinkFreed w.fs (w.files f) q (placeAddr w.fs (w.files g) p).toNat ↔
      n < (w.files f).data.size ∧ LeftOver w.fs (w.files f) (placeAddr w.fs (w.files g) p) := by
  have hbz : (0 : ℤ) < w.fs.dsb.blockSize := by exact_mod_cast h.disk.blockSize_pos
  have hs := h.shape f
  have hold := mapped_of_cut hle hp
  -- a place of `f` that the shrink drops holds another block than the kept place
  have hdrop : ∀ p', mapped w.fs (w.files f) p' → ¬ mapped w.fs (setSize (w.files f) n) p' →
      placeAddr w.fs (w.files f) p' ≠ placeAddr w.fs (w.files g) p := by
    intro p' hp' hnot he
    have := ha.once (f, p') (g, p) hp' hold he
    obtain ⟨rfl, rfl⟩ := Prod.mk.inj this
    rw [if_pos rfl] at hp
    exact hnot hp
  have hpos : ((placeAddr w.fs (w.files g) p).toNat : ℤ) = placeAddr w.fs (w.files g) p :=
    Int.toNat_of_nonneg (ha.marked (g, p) hold).1
  have hcut : ∀ i : ℕ, q ≤ i → ¬ (i * w.fs.dsb.blockSize : ℤ) < n := by
    intro i hi hlt
    rw [hq] at hlt
    have := lt_of_mul_lt_mul_right hlt hbz.le
    omega
  unfold ShrinkFreed
  rw [← hq, hpos]
  apply and_congr_right
  intro hlt
  constructor
  · rintro (⟨i, hqi, hi, hne, he⟩ | ⟨hind, hloop | ⟨hq6, he⟩⟩)
    · exact absurd he (hdrop (.direct i) ⟨hi, (hs.direct i hi).mp hne⟩
        (fun hm => hcut i hqi hm.2))
    · rw [loopEntry_iff h.disk hs hind (by rw [← hq]; exact hlt), hpos] at hloop
      rcases hloop with ⟨j, hqj, hin, he⟩ | hleft
      · exact absurd he (hdrop (.entry j) hin (hcut _ hqj))
      · exact hleft
    · exact absurd he.symm (hdrop .indirect (hs.only hind) (hcut _ hq6))
  · intro hleft
    have hind := hs.needed hleft.1
    refine Or.inr ⟨hind, Or.inl ?_⟩
    rw [loopEntry_iff h.disk hs hind (by rw [← hq]; exact hlt), hpos]
    exact Or.inr hleft

/-- Rounding the last byte of a multiple of the block size gives the multiple back. -/
theorem rounded_whole_blocks {n : ℤ} {b q : ℕ} (hb : 2 ≤ b) (hdvd : (b : ℤ) ∣ n)
    (hq₁ : n - 1 ≤ q * b) (hq₂ : (q * b : ℤ) < n - 1 + b) : n = q * b := by
  have hbz : (0 : ℤ) < b := by omega
  obtain ⟨c, rfl⟩ := hdvd
  have h₁ : c < q + 1 := by
    by_contra hge
    have : (b : ℤ) * (q + 1) ≤ b * c := mul_le_mul_of_nonneg_left (by omega) hbz.le
    nlinarith
  have h₂ : (q : ℤ) < c + 1 := by
    by_contra hge
    have : (b : ℤ) * (c + 1) ≤ b * q := mul_le_mul_of_nonneg_left (by omega) hbz.le
    nlinarith
  have : c = q := by omega
  rw [this, mul_comm]

/-- The mapped places after a shrink of `f` to `q` whole blocks, and their addresses. -/
theorem shrink_places {w : FileTable ι} {f : ι} {mi' : Inode} {fs' : Myfs} {n : ℤ} {q : ℕ}
    (hbz : (0 : ℤ) < w.fs.dsb.blockSize) (hqn : n = q * w.fs.dsb.blockSize)
    (hbs : fs'.dsb.blockSize = w.fs.dsb.blockSize) (hda : fs'.dataArea = w.fs.dataArea)
    (hsize : mi'.data.size = n)
    (hdirect : ∀ i < numDirectBlocks,
      mi'.data.direct i = if q ≤ i then 0 else (w.files f).data.direct i)
    (hindirect : mi'.data.indirect =
      if q ≤ numDirectBlocks then 0 else (w.files f).data.indirect) (g : ι) (p : Place) :
    (mapped fs' ((w.store f mi' fs').files g) p ↔
      mapped w.fs (if g = f then setSize (w.files g) n else w.files g) p) ∧
    (mapped fs' ((w.store f mi' fs').files g) p →
      placeAddr fs' ((w.store f mi' fs').files g) p = placeAddr w.fs (w.files g) p) := by
  have hkeep : ∀ i : ℕ, (i * w.fs.dsb.blockSize : ℤ) < n → i < q := by
    intro i hi
    rw [hqn] at hi
    exact_mod_cast lt_of_mul_lt_mul_right hi hbz.le
  by_cases hgf : g = f
  · subst hgf
    simp only [FileTable.store, Function.update_self, if_true]
    cases p with
    | direct i =>
      simp only [mapped, placeAddr, setSize_size, hbs, hsize, true_and]
      rintro ⟨hi, hlt⟩
      have := hkeep i hlt
      rw [hdirect i hi, if_neg (by omega)]
    | indirect =>
      simp only [mapped, placeAddr, setSize_size, hbs, hsize, true_and]
      intro hlt
      have := hkeep numDirectBlocks hlt
      rw [hindirect, if_neg (by omega)]
    | entry j =>
      simp only [mapped, placeAddr, setSize_size, hbs, hsize, true_and]
      intro hlt
      have := hkeep _ hlt
      rw [hindirect, if_neg (by omega), hda]
  · simp only [FileTable.store, Function.update_of_ne hgf, if_neg hgf]
    cases p with
    | direct i => simp only [mapped, placeAddr, hbs, true_and, implies_true]
    | indirect => simp only [mapped, placeAddr, hbs, true_and, implies_true]
    | entry j => simp only [mapped, placeAddr, hbs, hda, true_and, implies_true]

/-- A shrink of `f` to whole blocks keeps the blocks apart exactly when no left-over entry
of its indirect block names a block that stays mapped. -/
theorem shrink_sound_iff {w : FileTable ι} {f : ι} {mi₁ mi' : Inode} {fs₁ fs' : Myfs} {n : ℤ}
    (h : Sound w) (ha : NoSharing w) (hle : n ≤ (w.files f).data.size) (h₀ : 0 ≤ n)
    (hdvd : (w.fs.dsb.blockSize : ℤ) ∣ n)
    (hg : shrinkDstream w.fs (w.files f) n = (0, mi₁, fs₁))
    (hsame : SameBlocks fs₁ fs') (hmi : mi'.data = mi₁.data) :
    Sound (w.store f mi' fs') ∧ (NoSharing (w.store f mi' fs') ↔ LeavesApart w f n) := by
  obtain ⟨k, hk⟩ := h.disk.pow
  have hlarge := h.large
  have hbz : (0 : ℤ) < w.fs.dsb.blockSize := by exact_mod_cast h.disk.blockSize_pos
  obtain ⟨q, hq, hq₁, hq₂⟩ := roundUp_spec (n - 1) hk (by omega)
  have hqn := rounded_whole_blocks hlarge hdvd hq₁ hq₂
  obtain ⟨mi₂, fs₂, he, hsize, hdbl, hdirect, hindirect, hfreed⟩ :=
    shrinkDstream_spec hk h.disk.int32 (h.shape f) h₀ hle hq hq₂
  rw [hg] at he
  obtain ⟨_, rfl, rfl⟩ : 0 = (0 : ℤ) ∧ mi₁ = mi₂ ∧ fs₁ = fs₂ := by simpa using he
  have hkeep : ∀ i ≤ numDirectBlocks, (i * w.fs.dsb.blockSize : ℤ) < n → i < q := by
    intro i _ hi
    rw [hqn] at hi
    exact_mod_cast lt_of_mul_lt_mul_right hi hbz.le
  have hshape := (h.shape f).shrink h.disk.blockSize_pos h₀ hle hq₂ hkeep hsize hdbl
    hdirect hindirect hfreed
  have hbs : fs'.dsb.blockSize = w.fs.dsb.blockSize := by rw [hsame.blockSize, hfreed.blockSize]
  have hda : fs'.dataArea = w.fs.dataArea := by rw [hsame.dataArea, hfreed.dataArea]
  refine ⟨store_sound (hsame.sound (hfreed.sound h.disk)) (by rw [hbs]; exact hlarge)
    (hshape.same hsame hmi) (fun g _ => (h.shape g).around hbs
      (by rw [hsame.bv, hfreed.numbits]) (fun _ => by rw [hda])), ?_⟩
  rw [← hmi] at hsize hdirect hindirect
  have hplaces := shrink_places hbz hqn hbs hda hsize hdirect hindirect
  have hused : ∀ a, BlockUsed fs' a ↔
      BlockUsed w.fs a ∧ ¬ ShrinkFreed w.fs (w.files f) q a.toNat := by
    intro a
    rw [← hfreed.blockUsed a]
    unfold BlockUsed
    rw [hsame.bv]
  have hrel : NoSharing (w.store f mi' fs') ↔ ∀ p : ι × Place,
      mapped fs' ((w.store f mi' fs').files p.1) p.2 →
      ¬ ShrinkFreed w.fs (w.files f) q (placeAddr w.fs (w.files p.1) p.2).toNat :=
    ha.release_iff (fun p hp => ⟨mapped_of_cut hle ((hplaces p.1 p.2).1.mp hp),
      (hplaces p.1 p.2).2 hp⟩) hused
  rw [hrel]
  constructor
  · intro hall hlt g p hp hleft
    refine hall (g, p) ((hplaces g p).1.mpr hp) ?_
    exact (shrinkFreed_kept_iff h ha hqn hp hle).mpr ⟨hlt, hleft⟩
  · rintro hall ⟨g, p⟩ hp hfree
    have hm := (hplaces g p).1.mp hp
    obtain ⟨hlt, hleft⟩ := (shrinkFreed_kept_iff h ha hqn hm hle).mp hfree
    exact hall hlt g p hm hleft

theorem store_self (w : FileTable ι) (f : ι) : w.store f (w.files f) w.fs = w := by
  simp only [FileTable.store, Function.update_eq_self]

/-- The step lemma: a call keeps the invariants, and it keeps the blocks apart exactly
when it is no shrink that hits a left-over entry. -/
theorem step_sound_iff {w : FileTable ι} {e : Call ι} (h : Sound w) (ha : NoSharing w)
    (he : Enabled w e) : Sound (next w e) ∧ (NoSharing (next w e) ↔ ShrinksApart w e) := by
  have hheld := h.noSharing_iff.mp ha
  cases e with
  | write f pos buf len =>
    obtain ⟨⟨count, mi', fs'⟩, hcall⟩ := he
    have hnext : next w (.write f pos buf len) = w.store f mi' fs' := by simp only [next, hcall]
    obtain ⟨hs, hh⟩ := write_sound h hheld hcall
    rw [hnext]
    exact ⟨hs, fun _ => trivial, fun _ => hs.noSharing_iff.mpr hh⟩
  | setFileSize f n =>
    obtain ⟨hdvd, ⟨mi', fs'⟩, hcall⟩ := he
    have hnext : next w (.setFileSize f n) = w.store f mi' fs' := by simp only [next, hcall]
    rw [hnext]
    rcases myfsSetFileSize_ok hcall with ⟨rfl, rfl, rfl⟩ |
      ⟨hlt, mi₁, fs₁, hg, hmi, hsame⟩ | ⟨hlt, mi₁, fs₁, hg, hmi, hsame⟩
    · rw [store_self]
      exact ⟨h, fun _ hlt => absurd hlt (lt_irrefl _), fun _ => ha⟩
    · have h₀ : 0 ≤ n := by
        by_contra hneg
        unfold shrinkDstream at hg
        rw [if_pos (Or.inl (by omega))] at hg
        cases hg
      exact shrink_sound_iff h ha hlt.le h₀ (hdvd hlt) hg hsame hmi
    · obtain ⟨hs, hh, _⟩ := grow_sound h hheld hlt hg hsame hmi
      exact ⟨hs, fun _ hgt => absurd hgt (not_lt.mpr hlt.le), fun _ => hs.noSharing_iff.mpr hh⟩
  | free f =>
    have hnn := (h.shape f).nonneg
    obtain ⟨k, hk⟩ := h.disk.pow
    have hlarge := h.large
    obtain ⟨q, hq, hq₁, hq₂⟩ := roundUp_spec (0 - 1) hk (by omega)
    obtain ⟨mi₁, fs₁, hg, _⟩ :=
      shrinkDstream_spec hk h.disk.int32 (h.shape f) le_rfl hnn hq hq₂
    have hnext : next w (.free f) = w.store f mi₁ (writeSuperBlock fs₁) := by
      simp only [next, myfsFreeDataStream, hg]
    rw [hnext]
    exact shrink_sound_iff h ha hnn le_rfl (dvd_zero _) hg ⟨rfl, rfl, rfl⟩ rfl

/-- Over every interleaving of calls that return 0, no block is shared or mapped while free
in any state exactly when no call shrinks a file over a left-over entry that names a block
still mapped. -/
theorem no_block_shared_iff (w : FileTable ι) (h : Fresh w) (es : List (Call ι))
    (hv : EveryStep next Enabled w es) :
    EveryState next NoSharing w es ↔ EveryStep next ShrinksApart w es :=
  everyState_iff_everyStep (fun _ _ hs ha he _ => (step_sound_iff hs ha he).1)
    (fun _ _ hs ha he => (step_sound_iff hs ha he).2) h.sound.1 h.sound.2 hv

/-- Two empty files with inodes 1 and 2 on the small disk. -/
def twoFiles : FileTable (Fin 2) := ⟨madeDisk, fun f => freshInode madeDisk 0 (f.val + 1)⟩

theorem twoFiles_fresh : Fresh twoFiles :=
  ⟨fun _ => rfl, by decide +kernel, by decide +kernel, by decide +kernel, ⟨9, by decide +kernel⟩,
    by decide +kernel⟩

theorem no_block_shared_twoFiles :
    EveryState next NoSharing twoFiles
      [.setFileSize 0 4096, .write 1 10 (fun _ => 7) 600, .setFileSize 0 3584] := by
  refine (no_block_shared_iff twoFiles twoFiles_fresh _ ?_).mpr ?_
  · exact ⟨by decide +kernel, by decide +kernel, by decide +kernel, trivial⟩
  · refine ⟨fun hlt => absurd hlt (by decide +kernel), trivial, fun _ g p _ => ?_, trivial⟩
    rintro ⟨_, j, hj, hle, hne, _⟩
    have hsize : ((next (next twoFiles (.setFileSize 0 4096))
        (.write 1 10 (fun _ => 7) 600)).files 0).data.size = 4096 := by decide +kernel
    have hbs : (next (next twoFiles (.setFileSize 0 4096))
        (.write 1 10 (fun _ => 7) 600)).fs.dsb.blockSize = 512 := by decide +kernel
    rw [hsize, hbs] at hle hne
    simp only [numDirectBlocks] at hle hne
    exact hne 2 (by omega) (by decide) (by decide +kernel)

/-- File 0 grows to eight blocks and is cut to seven, file 1 gets the block that was given
up, and cutting file 0 to six blocks frees that block once more. -/
theorem stale_entry_frees_other_file :
    EveryStep next Enabled twoFiles
      [.setFileSize 0 4096, .setFileSize 0 3584, .setFileSize 1 512, .setFileSize 0 3072] ∧
    ¬ EveryState next NoSharing twoFiles
      [.setFileSize 0 4096, .setFileSize 0 3584, .setFileSize 1 512, .setFileSize 0 3072] := by
  constructor
  · exact ⟨by decide +kernel, by decide +kernel, by decide +kernel, by decide +kernel, trivial⟩
  · rintro ⟨_, _, _, _, h⟩
    have hused := (h.marked (1, .direct 0) ⟨by decide, by decide +kernel⟩).2
    revert hused
    decide +kernel

end FileBlockOwnership
