import Mathlib.Tactic
import FsKit.BitmapWriteBack
import FsKit.DataStreamShape

/-! A file that is written and then deleted gives back exactly the blocks it took. The books
of the disk are compared with those before the first write: the bits that are set beyond
them are, each once, the blocks of the one file that grew. Growth may stop anywhere for want
of space, and the pointers in use always form a row without a gap, which is what the loops
of the deletion walk. -/
namespace StreamDeletion

open MachineIntegers
open BitVectorSearch BlockBitmap InodeTable DataStreamBlocks DataStreamGrowth DataStreamShape

/-- A disk in use: the bitmap lies inside the disk, the super block is marked, blocks have
a size the file system accepts, and the device takes every write. -/
structure Working (fs : Myfs) : Prop where
  map : MapInside fs
  superBlock : fs.bv.bit 0 = true
  pow : ∃ k, fs.dsb.blockSize = 2 ^ k
  large : 512 ≤ fs.dsb.blockSize
  writable : fs.readOnly = false
  answers : ∀ b n, fs.cacheFails b n = false

/-- What no call on a stream changes. -/
structure SameHost (fs fs' : Myfs) : Prop where
  numbits : fs'.bv.numbits = fs.bv.numbits
  blockSize : fs'.dsb.blockSize = fs.dsb.blockSize
  numBlocks : fs'.dsb.numBlocks = fs.dsb.numBlocks
  inodesStart : fs'.dsb.inodesStart = fs.dsb.inodesStart
  numInodeBlocks : fs'.dsb.numInodeBlocks = fs.dsb.numInodeBlocks
  readOnly : fs'.readOnly = fs.readOnly
  cacheFails : fs'.cacheFails = fs.cacheFails

theorem SameHost.refl (fs : Myfs) : SameHost fs fs := ⟨rfl, rfl, rfl, rfl, rfl, rfl, rfl⟩

theorem SameHost.trans {fs fs₁ fs₂ : Myfs} (h : SameHost fs fs₁) (k : SameHost fs₁ fs₂) :
    SameHost fs fs₂ :=
  ⟨k.numbits.trans h.numbits, k.blockSize.trans h.blockSize, k.numBlocks.trans h.numBlocks,
    k.inodesStart.trans h.inodesStart, k.numInodeBlocks.trans h.numInodeBlocks,
    k.readOnly.trans h.readOnly, k.cacheFails.trans h.cacheFails⟩

theorem SameHost.allocated {fs fs' : Myfs} {start n : ℕ} (h : Allocated fs fs' start n) :
    SameHost fs fs' := by
  have hnum := h.taken.numbits
  obtain ⟨area, hf⟩ := h.frame
  rw [hf]
  exact ⟨hnum, rfl, rfl, rfl, rfl, rfl, rfl⟩

/-- The blocks `L` were taken since `fs₀`, each of them once, and nothing else happened to
the books. -/
structure Taken (fs₀ fs : Myfs) (L : List ℕ) : Prop where
  bits : ∀ p, fs.bv.bit p = true ↔ fs₀.bv.bit p = true ∨ p ∈ L
  apart : ∀ p ∈ L, fs₀.bv.bit p = false
  once : L.Nodup
  inside : ∀ p ∈ L, p < fs₀.bv.numbits
  used : fs.dsb.usedBlocks = fs₀.dsb.usedBlocks + L.length
  host : SameHost fs₀ fs

theorem Taken.refl (fs : Myfs) : Taken fs fs [] :=
  ⟨by simp, by simp, List.nodup_nil, by simp, by simp, .refl fs⟩

theorem Taken.perm {fs₀ fs : Myfs} {L L' : List ℕ} (h : Taken fs₀ fs L) (hp : L.Perm L') :
    Taken fs₀ fs L' :=
  ⟨fun p => by rw [h.bits, hp.mem_iff], fun p hp' => h.apart p (hp.mem_iff.mpr hp'),
    hp.nodup_iff.mp h.once, fun p hp' => h.inside p (hp.mem_iff.mpr hp'),
    by rw [h.used, hp.length_eq], h.host⟩

/-- A change that leaves the books alone. -/
structure SameBooks (fs fs' : Myfs) : Prop where
  bits : ∀ p, fs'.bv.bit p = fs.bv.bit p
  used : fs'.dsb.usedBlocks = fs.dsb.usedBlocks
  host : SameHost fs fs'

theorem SameBooks.refl (fs : Myfs) : SameBooks fs fs := ⟨fun _ => rfl, rfl, .refl fs⟩

theorem SameBooks.store (fs : Myfs) (a : ℤ) (block : Block) :
    SameBooks fs (storeBlock fs a block) :=
  ⟨fun _ => rfl, rfl, ⟨rfl, rfl, rfl, rfl, rfl, rfl, rfl⟩⟩

theorem SameBooks.refused {fs fs' : Myfs} (h : Refused fs fs') : SameBooks fs fs' := by
  obtain ⟨full, rfl⟩ := h
  exact ⟨fun _ => rfl, rfl, ⟨rfl, rfl, rfl, rfl, rfl, rfl, rfl⟩⟩

theorem SameBooks.superBlock (fs : Myfs) : SameBooks fs (writeSuperBlock fs) :=
  ⟨fun _ => rfl, rfl, ⟨rfl, rfl, rfl, rfl, rfl, rfl, rfl⟩⟩

theorem Taken.same {fs₀ fs fs' : Myfs} {L : List ℕ} (h : Taken fs₀ fs L) (k : SameBooks fs fs') :
    Taken fs₀ fs' L :=
  ⟨fun p => by rw [k.bits, h.bits], h.apart, h.once, h.inside, by rw [k.used, h.used],
    h.host.trans k.host⟩

theorem Taken.take {fs₀ fs fs' : Myfs} {L : List ℕ} {p : ℕ} (h : Taken fs₀ fs L)
    (ha : Allocated fs fs' p 1) : Taken fs₀ fs' (p :: L) := by
  have hclear : fs.bv.bit p = false := ha.taken.clear p le_rfl (by omega)
  have hnew : ¬ (fs₀.bv.bit p = true ∨ p ∈ L) := by
    rw [← h.bits, hclear]
    exact Bool.false_ne_true
  have hin := ha.taken.inside
  have hnum := h.host.numbits
  refine ⟨fun q => ?_, ?_, ?_, ?_, ?_, h.host.trans (.allocated ha)⟩
  · rw [ha.taken.bits, Bool.or_eq_true, h.bits, decide_eq_true_eq, List.mem_cons, or_assoc,
      or_comm (a := q = p)]
    constructor
    · rintro (h₁ | h₂ | h₃)
      · exact .inl h₁
      · exact .inr (.inl h₂)
      · exact .inr (.inr (by omega))
    · rintro (h₁ | h₂ | h₃)
      · exact .inl h₁
      · exact .inr (.inl h₂)
      · exact .inr (.inr (by omega))
  · intro q hq
    rcases List.mem_cons.mp hq with rfl | hq
    · exact Bool.eq_false_iff.mpr fun hset => hnew (.inl hset)
    · exact h.apart q hq
  · exact List.nodup_cons.mpr ⟨fun hp => hnew (.inr hp), h.once⟩
  · intro q hq
    rcases List.mem_cons.mp hq with rfl | hq
    · omega
    · exact h.inside q hq
  · obtain ⟨area, hf⟩ := ha.frame
    have hu : fs'.dsb.usedBlocks = fs.dsb.usedBlocks + 1 := by rw [hf]; rfl
    rw [hu, h.used, List.length_cons]
    push_cast
    ring

theorem freeWriteBack_one {bits : ℕ → BitVec 32} {off : ℕ} {n : ℤ} {fs : Myfs}
    (h : (writeBlocks fs n (fun k => chunkByte bits (off + k)) ((0 : ℕ) + 1)).1 = (0 : ℕ) + 1) :
    (freeWriteBack bits off (0 + 1) n fs).1 = true := by
  rw [freeWriteBack]
  simp only [Nat.cast_zero, zero_add] at h
  generalize writeBlocks fs n (fun k => chunkByte bits (off + k)) 1 = r at h ⊢
  obtain ⟨amt, fs'⟩ := r
  dsimp only at h ⊢
  rw [if_neg (not_not.mpr h), freeWriteBack]

section Books
variable {fs₀ : Myfs} (hw : Working fs₀)
include hw

theorem Working.host {fs : Myfs} (h : SameHost fs₀ fs) :
    fs.bv.numbits < 2 ^ 31 ∧ (fs.bv.numbits : ℤ) ≤ fs.dsb.numBlocks := by
  rw [h.numbits, h.numBlocks]
  exact ⟨hw.map.int32, hw.map.covers⟩

theorem Working.pos : 0 < fs₀.dsb.blockSize := by
  have := hw.large
  omega

/-- The bitmap block of every block but the super block can be written. -/
theorem Working.storable {fs : Myfs} (h : SameHost fs₀ fs) {p : ℕ} (h₀ : p ≠ 0)
    (hp : p < fs₀.bv.numbits) :
    BitmapWriteBack.Storable fs (p / (8 * fs.dsb.blockSize)) (1 / (8 * fs.dsb.blockSize)) := by
  have hb : 512 ≤ fs.dsb.blockSize := by rw [h.blockSize]; exact hw.large
  have hcov := hw.map.covers
  have hone : 1 / (8 * fs.dsb.blockSize) = 0 := Nat.div_eq_of_lt (by omega)
  have hq : p / (8 * fs.dsb.blockSize) < p := Nat.div_lt_self (by omega) (by omega)
  refine ⟨by rw [h.readOnly, hw.writable], ?_, by rw [h.cacheFails, hw.answers]⟩
  rw [hone, h.numBlocks]
  generalize p / (8 * fs.dsb.blockSize) = q at hq
  push_cast
  omega

theorem Taken.mem_ne_zero {fs : Myfs} {L : List ℕ} (h : Taken fs₀ fs L) {p : ℕ} (hp : p ∈ L) :
    p ≠ 0 := by
  rintro rfl
  have := h.apart 0 hp
  rw [hw.superBlock] at this
  cases this

theorem Taken.free {fs : Myfs} {L : List ℕ} {p : ℕ} (h : Taken fs₀ fs (p :: L)) :
    Taken fs₀ (myfsFreeBlocks fs p 1).2 L := by
  have hp₀ := h.mem_ne_zero hw List.mem_cons_self
  have hpn := h.inside p List.mem_cons_self
  obtain ⟨hint, hcov⟩ := hw.host h.host
  have hpL : p ∉ L := (List.nodup_cons.mp h.once).1
  have hok : (myfsFreeBlocks fs p 1).1 = 0 := by
    have hst := hw.storable h.host hp₀ hpn
    have hone : 1 / (8 * fs.dsb.blockSize) = 0 :=
      Nat.div_eq_of_lt (by have := h.host.blockSize; have := hw.large; omega)
    have hw1 := (BitmapWriteBack.writeBlocks_eq_iff
      { fs with bv := clearedVector fs.bv p 1 } (p / (8 * fs.dsb.blockSize)) 0
      (fun k => chunkByte (clearedVector fs.bv p 1).bits
        (p / (8 * fs.dsb.blockSize) * fs.dsb.blockSize + k))).mpr
      (by rw [hone] at hst; exact ⟨hst.writable, hst.inside, hst.works⟩)
    have heq := BitmapWriteBack.myfsFreeBlocks_eq fs p 1
    rw [Nat.cast_one] at heq
    rw [heq, hone, BitmapWriteBack.settleFree, if_pos (freeWriteBack_one hw1)]
  obtain ⟨area, hf⟩ := myfsFreeBlocks_frame fs p 1 hok
  have hfreed := freed_one fs (Nat.cast_nonneg p) (by rw [h.host.numbits]; omega) hint
  refine ⟨fun q => ?_, fun q hq => h.apart q (List.mem_cons_of_mem _ hq),
    (List.nodup_cons.mp h.once).2, fun q hq => h.inside q (List.mem_cons_of_mem _ hq), ?_, ?_⟩
  · rw [hfreed.bits, h.bits, List.mem_cons]
    have hcast : ((q : ℤ) = p) ↔ q = p := Nat.cast_inj
    rw [hcast]
    constructor
    · rintro ⟨h₁ | h₁ | h₁, hne⟩
      · exact .inl h₁
      · exact absurd h₁ hne
      · exact .inr h₁
    · rintro (h₁ | h₁)
      · refine ⟨.inl h₁, ?_⟩
        rintro rfl
        rw [h.apart q List.mem_cons_self] at h₁
        cases h₁
      · refine ⟨.inr (.inr h₁), ?_⟩
        rintro rfl
        exact hpL h₁
  · rw [hf]
    have hu := h.used
    have hlen : ((1 : ℤ).tdiv 8).tdiv fs.dsb.blockSize = 0 := by
      rw [show (1 : ℤ).tdiv 8 = 0 from rfl, Int.zero_tdiv]
    rw [List.length_cons] at hu
    push_cast at hu
    dsimp only
    rw [hlen, hu]
    ring
  · refine h.host.trans ⟨hfreed.numbits, hfreed.blockSize, ?_, ?_, ?_, ?_, ?_⟩ <;> rw [hf]

theorem allocateOne_settled {fs : Myfs} {L : List ℕ} (h : Taken fs₀ fs L) :
    (realAllocateBlocks fs 1 0 .exactAllocation).1 ≠ EINVAL := by
  have hzero : fs.bv.bit 0 = true := (h.bits 0).mpr (.inl hw.superBlock)
  unfold realAllocateBlocks
  rw [if_neg (by decide)]
  split
  · exact (by decide : ENOSPC ≠ EINVAL)
  have h1 : toInt32 1 = 1 := by decide
  have hout := searchOutcome_getFree fs.bv 1
  rw [h1, show (1 : ℤ).toNat = 1 from rfl, allocateLoop_exact_one]
  generalize getFreeRangeOfBits fs.bv 1 = r at hout ⊢
  obtain ⟨start, biggest, bv⟩ := r
  dsimp only at hout ⊢
  split
  · exact (by decide : ENOSPC ≠ EINVAL)
  rename_i hs
  obtain ⟨p, hp, _, ht⟩ | ⟨hs', _⟩ := hout
  swap
  · exact absurd hs' hs
  dsimp only at hp ht
  subst hp
  have hin := ht.inside
  have hp₀ : p ≠ 0 := by
    rintro rfl
    have := ht.clear 0 le_rfl (by decide)
    rw [hzero] at this
    cases this
  have hst := hw.storable h.host hp₀ (by rw [← h.host.numbits]; omega)
  have hlen := BitmapWriteBack.tdiv_tdiv_nat 1 fs.dsb.blockSize
  rw [Nat.cast_one] at hlen
  rw [BitmapWriteBack.tdiv_tdiv_nat, hlen]
  have hamt := (BitmapWriteBack.writeBlocks_eq_iff { fs with bv := bv }
    (p / (8 * fs.dsb.blockSize)) (1 / (8 * fs.dsb.blockSize)) (fun k => chunkByte bv.bits
      (((p / (8 * fs.dsb.blockSize) : ℕ) * fs.dsb.blockSize : ℤ).toNat + k))).mpr
    ⟨hst.writable, hst.inside, hst.works⟩
  generalize writeBlocks { fs with bv := bv } _ _ _ = w at hamt ⊢
  obtain ⟨amt, fs'⟩ := w
  dsimp only at hamt ⊢
  rw [if_neg (not_not.mpr hamt)]
  exact (by decide : (0 : ℤ) ≠ EINVAL)

/-- A request for one block gets it or is refused for want of space. -/
theorem Taken.stopped {fs fs' : Myfs} {L : List ℕ} {err : ℤ} (h : Taken fs₀ fs L)
    (hstop : Stopped fs fs' err) : SameBooks fs fs' ∧ fs'.dataArea = fs.dataArea := by
  rcases hstop with ⟨_, rfl⟩ | ⟨herr, hbad, rfl⟩
  · exact ⟨.refl _, rfl⟩
  rcases growBlock_cases fs with ⟨_, h₀, _⟩ | ⟨_, hr⟩ | hinval
  · exact absurd (hbad.symm.trans h₀) herr
  · refine ⟨.refused hr, ?_⟩
    obtain ⟨full, hr⟩ := hr
    rw [hr]
  · exfalso
    have hne := allocateOne_settled hw h
    unfold growBlock myfsAllocateBlocks at hinval
    generalize realAllocateBlocks fs 1 0 .exactAllocation = r at hne hinval
    obtain ⟨e, n, addr, fs₁⟩ := r
    dsimp only at hne hinval
    split_ifs at hinval
    · exact hne hinval
    · cases hinval
    · cases hinval

end Books

/-- The indirect block as a list: none or one. -/
def single (a : ℕ) : List ℕ := if a = 0 then [] else [a]

/-- The stream as its blocks: the direct ones `D`, the entries `E` of the indirect block, and
the indirect block `a`, with 0 for none. Each row starts at its first slot and has no gap. -/
structure Layout (fs : Myfs) (mi : Inode) (D E : List ℕ) (a : ℕ) : Prop where
  direct : ∀ i, mi.data.direct i = (D.getD i 0 : ℕ)
  directRoom : D.length ≤ numDirectBlocks
  indirect : mi.data.indirect = a
  full : a ≠ 0 → D.length = numDirectBlocks
  entry : a ≠ 0 → ∀ j < maxIndex fs, blockEntry (fs.dataArea a) j = (E.getD j 0 : ℕ)
  entryRoom : E.length ≤ maxIndex fs
  none : a = 0 → E = []
  doubleIndirect : mi.data.doubleIndirect = 0

/-- The stream has `n` data blocks, and they and its indirect block are what was taken. -/
def Books (fs₀ fs : Myfs) (mi : Inode) (n : ℕ) : Prop :=
  ∃ D E a, Layout fs mi D E a ∧ Taken fs₀ fs (E ++ (single a ++ D)) ∧ D.length + E.length = n

theorem Books.resize {fs₀ fs : Myfs} {mi : Inode} {n : ℕ} (h : Books fs₀ fs mi n) (size : ℤ) :
    Books fs₀ fs (setSize mi size) n := by
  obtain ⟨D, E, a, hl, ht, hn⟩ := h
  exact ⟨D, E, a, ⟨hl.direct, hl.directRoom, hl.indirect, hl.full, hl.entry, hl.entryRoom,
    hl.none, hl.doubleIndirect⟩, ht, hn⟩

theorem Books.stamped {fs₀ fs : Myfs} {mi mi' : Inode} {n : ℕ} (h : Books fs₀ fs mi n)
    (hdata : mi'.data = mi.data) : Books fs₀ fs mi' n := by
  obtain ⟨D, E, a, hl, ht, hn⟩ := h
  refine ⟨D, E, a, ⟨?_, hl.directRoom, ?_, hl.full, hl.entry, hl.entryRoom, hl.none, ?_⟩, ht, hn⟩
  · rw [hdata]; exact hl.direct
  · rw [hdata]; exact hl.indirect
  · rw [hdata]; exact hl.doubleIndirect

/-- A change of metadata only. -/
theorem Books.same {fs₀ fs fs' : Myfs} {mi : Inode} {n : ℕ} (h : Books fs₀ fs mi n)
    (k : SameBooks fs fs') (hdata : fs'.dataArea = fs.dataArea) : Books fs₀ fs' mi n := by
  obtain ⟨D, E, a, hl, ht, hn⟩ := h
  have hmax : maxIndex fs' = maxIndex fs := by simp only [maxIndex, k.host.blockSize]
  refine ⟨D, E, a, ⟨hl.direct, hl.directRoom, hl.indirect, hl.full, ?_, ?_, hl.none,
    hl.doubleIndirect⟩, ht.same k, hn⟩
  · rw [hdata, hmax]
    exact hl.entry
  · rw [hmax]
    exact hl.entryRoom

theorem getD_append_single (l : List ℕ) (p i : ℕ) :
    (l ++ [p]).getD i 0 = if i = l.length then p else l.getD i 0 := by
  rcases Nat.lt_trichotomy i l.length with h | h | h
  · rw [List.getD_append _ _ _ _ h, if_neg (by omega)]
  · rw [h, List.getD_append_right _ _ _ _ le_rfl, if_pos rfl, Nat.sub_self]
    rfl
  · rw [List.getD_eq_default _ _ (by simp; omega), List.getD_eq_default _ _ (by omega),
      if_neg (by omega)]

section Growth
variable {fs₀ : Myfs} (hw : Working fs₀)
include hw

/-- One step of growth adds one block to one of the rows. -/
theorem Books.step {newSize : ℤ} {s t : Myfs × Inode} (hstep : GrowStep newSize s t) {n : ℕ}
    (h : Books fs₀ s.1 s.2 n) (hsize : s.2.data.size = n * s.1.dsb.blockSize) :
    ∃ n' : ℕ, Books fs₀ t.1 t.2 n' ∧ t.2.data.size = n' * t.1.dsb.blockSize := by
  obtain ⟨D, E, a, hl, ht, hn⟩ := h
  have hb : (0 : ℤ) < s.1.dsb.blockSize := by
    rw [ht.host.blockSize]
    exact_mod_cast hw.pos
  cases hstep with
  | @direct fs fs' mi addr i short slot size fresh =>
    dsimp only at hl ht hsize hb ⊢
    have hni : n = i := by
      rw [size] at hsize
      exact_mod_cast (mul_right_cancel₀ hb.ne' hsize).symm
    have hz : a = 0 := by
      by_contra hne
      have := hl.full hne
      omega
    have hE := hl.none hz
    subst hz hE
    have hD : D.length = i := by simpa [hni] using hn
    have hbs := fresh.blockSize
    refine ⟨n + 1, ⟨D ++ [addr], [], 0, ⟨fun l => ?_, ?_, hl.indirect, fun h => absurd rfl h,
      fun h => absurd rfl h, Nat.zero_le _, fun _ => rfl, hl.doubleIndirect⟩, ?_, ?_⟩, ?_⟩
    · rw [setSize_direct, setDirect_direct, getD_append_single, hD]
      by_cases hli : l = i
      · rw [hli, Function.update_self, if_pos rfl]
      · rw [Function.update_of_ne hli, if_neg hli, hl.direct]
    · rw [List.length_append, List.length_singleton, hD]
      exact slot
    · exact (ht.take fresh).perm (by simp [single, List.perm_append_singleton addr D |>.symm])
    · simp [hD, hni]
    · rw [setSize_size, hsize, hbs]
      push_cast
      ring
  | @indirect fs fs' mi addr short size none fresh =>
    dsimp only at hl ht hsize hb ⊢
    have hz : a = 0 := by exact_mod_cast hl.indirect.symm.trans none
    have hE := hl.none hz
    subst hz hE
    have hD : D.length = numDirectBlocks := by
      have hge : numDirectBlocks ≤ n := by
        rw [hsize, directSize] at size
        exact_mod_cast le_of_mul_le_mul_right size hb
      have := hl.directRoom
      simp only [List.length_nil] at hn
      omega
    have haddr : addr ≠ 0 := (ht.take fresh).mem_ne_zero hw List.mem_cons_self
    refine ⟨n, ⟨D, [], addr, ⟨hl.direct, hl.directRoom, rfl, fun _ => hD, fun _ j _ => ?_,
      Nat.zero_le _, fun h => absurd h haddr, hl.doubleIndirect⟩, ?_, hn⟩, ?_⟩
    · rw [storeBlock_dataArea, Function.update_self, blockEntry_zero]
      rfl
    · refine ((ht.take fresh).same (.store _ _ _)).perm ?_
      simp [single, haddr]
    · rw [setIndirect_size, hsize, storeBlock_dsb, fresh.blockSize]
  | @entry fs fs' mi addr j short slot size some fresh =>
    dsimp only at hl ht hsize hb ⊢
    have ha : a ≠ 0 := by
      rintro rfl
      exact some hl.indirect
    have hnj : n = numDirectBlocks + j := by
      rw [size] at hsize
      exact_mod_cast (mul_right_cancel₀ hb.ne' hsize).symm
    have hD := hl.full ha
    have hE : E.length = j := by omega
    have hmax : maxIndex fs' = maxIndex fs := by simp only [maxIndex, fresh.blockSize]
    have hpn := (ht.take fresh).inside addr List.mem_cons_self
    have hint := hw.map.int32
    refine ⟨n + 1, ⟨D, E ++ [addr], a, ⟨hl.direct, hl.directRoom, hl.indirect, hl.full,
      fun _ l hlt => ?_, ?_, fun h => absurd h ha, hl.doubleIndirect⟩, ?_, ?_⟩, ?_⟩
    · rw [storeBlock_maxIndex, hmax] at hlt
      rw [storeBlock_dataArea, hl.indirect, Function.update_self, getD_append_single, hE]
      by_cases hlj : l = j
      · rw [hlj, blockEntry_put_self _ _ (by omega) (by omega), if_pos rfl]
      · rw [blockEntry_put_ne _ _ hlj, if_neg hlj]
        exact hl.entry ha l hlt
    · rw [storeBlock_maxIndex, hmax, List.length_append, List.length_singleton, hE]
      exact slot
    · refine ((ht.take fresh).same (.store _ _ _)).perm ?_
      rw [List.append_assoc]
      exact List.perm_middle.symm
    · simp only [List.length_append, List.length_singleton]
      omega
    · rw [setSize_size, hsize, storeBlock_dsb, fresh.blockSize]
      push_cast
      ring

theorem Books.steps {newSize : ℤ} {s t : Myfs × Inode} (hrun : GrowSteps newSize s t) {n : ℕ}
    (h : Books fs₀ s.1 s.2 n) (hsize : s.2.data.size = n * s.1.dsb.blockSize) :
    ∃ n' : ℕ, Books fs₀ t.1 t.2 n' ∧ t.2.data.size = n' * t.1.dsb.blockSize := by
  induction hrun with
  | refl => exact ⟨n, h, hsize⟩
  | tail _ hstep ih =>
    obtain ⟨m, hm, hs⟩ := ih
    exact hm.step hw hstep hs

omit hw in
theorem blocks_unique {size : ℤ} {b n m : ℕ} (hb : 0 < b) (h₁ : size ≤ n * b)
    (h₂ : (n * b : ℤ) < size + b) (h₃ : size ≤ m * b) (h₄ : (m * b : ℤ) < size + b) : n = m := by
  have hn := mul_lt_iff_lt hb h₁ h₂
  have hm := mul_lt_iff_lt hb h₃ h₄
  rcases Nat.lt_trichotomy n m with hlt | rfl | hlt
  · have := (hn n).mp ((hm n).mpr hlt)
    omega
  · rfl
  · have := (hm m).mp ((hn m).mpr hlt)
    omega

/-- Between two calls the stream has as many blocks as its size needs. -/
structure AtRest (fs₀ fs : Myfs) (mi : Inode) : Prop where
  nonneg : 0 ≤ mi.data.size
  books : ∃ n : ℕ, Books fs₀ fs mi n ∧ mi.data.size ≤ n * fs.dsb.blockSize ∧
    (n * fs.dsb.blockSize : ℤ) < mi.data.size + fs.dsb.blockSize

omit hw in
theorem AtRest.stamped {fs fs' : Myfs} {mi mi' : Inode} (h : AtRest fs₀ fs mi)
    (k : SameBooks fs fs') (hdata : fs'.dataArea = fs.dataArea) (hmi : mi'.data = mi.data) :
    AtRest fs₀ fs' mi' := by
  obtain ⟨h₀, n, hb, h₁, h₂⟩ := h
  rw [← hmi] at h₀ h₁ h₂
  rw [← k.host.blockSize] at h₁ h₂
  exact ⟨h₀, n, (hb.same k hdata).stamped hmi, h₁, h₂⟩

theorem Books.blockSize {fs : Myfs} {mi : Inode} {n : ℕ} (h : Books fs₀ fs mi n) :
    0 < fs.dsb.blockSize ∧ ∃ k, fs.dsb.blockSize = 2 ^ k := by
  obtain ⟨D, E, a, _, ht, _⟩ := h
  rw [ht.host.blockSize]
  exact ⟨hw.pos, hw.pow⟩

theorem roundUp_rest {fs : Myfs} {mi : Inode} {n : ℕ} (h : Books fs₀ fs mi n)
    (h₀ : 0 ≤ mi.data.size) (h₁ : mi.data.size ≤ n * fs.dsb.blockSize)
    (h₂ : (n * fs.dsb.blockSize : ℤ) < mi.data.size + fs.dsb.blockSize) :
    roundUp mi.data.size fs.dsb.blockSize = n * fs.dsb.blockSize := by
  obtain ⟨hpos, k, hk⟩ := h.blockSize hw
  obtain ⟨m, hm, hm₁, hm₂⟩ := roundUp_spec mi.data.size hk (by omega)
  rw [hm, blocks_unique hpos h₁ h₂ hm₁ hm₂]

/-- The slot behind the last block is empty, so the growth does not die. -/
theorem growDstream_returns {fs : Myfs} {mi : Inode} (newSize : ℤ) (h : AtRest fs₀ fs mi) :
    ∃ r, growDstream fs mi newSize = .ok r := by
  obtain ⟨h₀, n, hbooks, h₁, h₂⟩ := h
  have hround := roundUp_rest hw hbooks h₀ h₁ h₂
  obtain ⟨hpos, _⟩ := hbooks.blockSize hw
  obtain ⟨D, E, a, hl, ht, hn⟩ := hbooks
  have hbz : (0 : ℤ) < fs.dsb.blockSize := by exact_mod_cast hpos
  unfold growDstream
  dsimp only
  rw [hround]
  split
  · exact ⟨_, rfl⟩
  split
  · exact ⟨_, rfl⟩
  split
  swap
  · exact ⟨_, rfl⟩
  rename_i hdir
  have hn6 : n < numDirectBlocks := by
    rw [directSize] at hdir
    exact_mod_cast lt_of_mul_lt_mul_right hdir hbz.le
  have hslot : (setSize mi (n * fs.dsb.blockSize)).data.direct
      ((n * fs.dsb.blockSize : ℤ) / fs.dsb.blockSize).toNat = 0 := by
    rw [Int.mul_ediv_cancel _ hbz.ne', Int.toNat_natCast, setSize_direct, hl.direct,
      List.getD_eq_default _ _ (by omega)]
    rfl
  rw [if_neg (not_not.mpr hslot)]
  generalize growDirect _ _ _ _ _ = r
  obtain ⟨e, i, mi₁, fs₁⟩ := r
  dsimp only
  split_ifs
  · exact ⟨_, rfl⟩
  · exact ⟨_, rfl⟩
  · exact ⟨_, rfl⟩

omit hw in
theorem GrowSteps.inodeNum {newSize : ℤ} {s t : Myfs × Inode} (h : GrowSteps newSize s t) :
    t.2.inodeNum = s.2.inodeNum := by
  induction h with
  | refl => rfl
  | tail _ hstep ih => cases hstep <;> exact ih

/-- Wherever the growth stops, the stream is at rest. -/
theorem AtRest.grown {fs fs' : Myfs} {mi mi' : Inode} {newSize err : ℤ} (h : AtRest fs₀ fs mi)
    (hlt : mi.data.size < newSize) (hg : growDstream fs mi newSize = .ok (err, mi', fs')) :
    AtRest fs₀ fs' mi' ∧ mi'.inodeNum = mi.inodeNum ∧ (err = 0 → mi'.data.size = newSize) := by
  obtain ⟨h₀, n, hbooks, h₁, h₂⟩ := h
  obtain ⟨hpos, k, hk⟩ := hbooks.blockSize hw
  have hzero : fs.bv.bit 0 = true := by
    obtain ⟨D, E, a, _, ht, _⟩ := hbooks
    exact (ht.bits 0).mpr (.inl hw.superBlock)
  rcases growDstream_run hk h₀ hlt hzero hg with
    ⟨rfl, rfl, rfl⟩ | ⟨m, q, hm₁, hm₂, hq, fs₁, mi₁, hrun, hle, hend⟩
  · exact ⟨⟨h₀, n, hbooks, h₁, h₂⟩, rfl, fun h => by cases h⟩
  obtain rfl := blocks_unique hpos hm₁ hm₂ h₁ h₂
  obtain ⟨n', hbooks', hsize'⟩ := Books.steps hw hrun (hbooks.resize _) (setSize_size _ _)
  have hnum : mi₁.inodeNum = mi.inodeNum := GrowSteps.inodeNum hrun
  have hbs : fs₁.dsb.blockSize = fs.dsb.blockSize := hrun.blockSize
  have hbz : (0 : ℤ) < fs.dsb.blockSize := by exact_mod_cast hpos
  dsimp only at hbooks' hsize'
  rcases hend with ⟨rfl, rfl, rfl, hge⟩ | ⟨herr, rfl, hfs⟩
  · refine ⟨⟨?_, n', hbooks'.resize _, ?_, ?_⟩, hnum, fun _ => rfl⟩
    · rw [setSize_size]
      omega
    · rw [setSize_size, ← hsize']
      exact hge
    · rw [setSize_size, ← hsize', hbs]
      omega
  · have hrest : AtRest fs₀ fs₁ mi' := by
      refine ⟨?_, n', hbooks', hsize'.le, ?_⟩
      · rw [hsize']
        positivity
      · rw [← hsize', hbs]
        omega
    refine ⟨?_, hnum, fun h => absurd h herr⟩
    rcases hfs with rfl | hstop
    · exact hrest
    · obtain ⟨D, E, a, hl, ht, hn⟩ := hbooks'
      obtain ⟨hsame, hdata⟩ := ht.stopped hw hstop
      exact hrest.stamped hsame hdata rfl

/-- Every position inside the file is in a data block of its own. -/
theorem filePosToDiskAddr_rest {fs : Myfs} {mi : Inode} {n : ℕ} {pos : ℤ} {D E : List ℕ} {a : ℕ}
    (hl : Layout fs mi D E a) (ht : Taken fs₀ fs (E ++ (single a ++ D)))
    (hn : D.length + E.length = n) (h₀ : 0 ≤ pos) (hpos : pos < n * fs.dsb.blockSize) :
    ∃ p : ℕ, filePosToDiskAddr fs mi pos = .ok p ∧ (p ∈ E ∨ p ∈ D) := by
  have hb : 0 < fs.dsb.blockSize := by
    rw [ht.host.blockSize]
    exact hw.pos
  have hbz : (0 : ℤ) < fs.dsb.blockSize := by exact_mod_cast hb
  obtain ⟨_, hcov⟩ := hw.host ht.host
  have hcheck : ∀ p : ℕ, (p ∈ E ∨ p ∈ D) → checkAddr fs p = .ok (p : ℤ) := by
    intro p hp
    have hin := ht.inside p (by simp only [List.mem_append]; tauto)
    rw [← ht.host.numbits] at hin
    unfold checkAddr
    rw [if_neg (by omega)]
  -- the index of the block, which lies in one of the two rows
  obtain ⟨q, hq⟩ : ∃ q : ℕ, pos / fs.dsb.blockSize = q :=
    Int.eq_ofNat_of_zero_le (Int.ediv_nonneg h₀ hbz.le)
  have hqn : q < n := by
    have : pos / (fs.dsb.blockSize : ℤ) < n := Int.ediv_lt_of_lt_mul hbz hpos
    omega
  have hqle : (q : ℤ) * fs.dsb.blockSize ≤ pos := by
    rw [← hq]
    exact Int.ediv_mul_le _ hbz.ne'
  have hqlt : pos < (q + 1) * fs.dsb.blockSize := by
    rw [← hq]
    exact Int.lt_ediv_add_one_mul_self _ hbz
  unfold filePosToDiskAddr
  dsimp only
  split
  · rename_i hdir
    have hq6 : q < numDirectBlocks := by
      rw [directSize] at hdir
      have : (q : ℤ) * fs.dsb.blockSize < numDirectBlocks * fs.dsb.blockSize := by omega
      exact_mod_cast lt_of_mul_lt_mul_right this hbz.le
    have hqD : q < D.length := by
      by_contra hge
      by_cases ha : a = 0
      · have := hl.none ha
        subst this
        simp only [List.length_nil] at hn
        omega
      · have := hl.full ha
        omega
    refine ⟨D.getD q 0, ?_⟩
    have hmem : D.getD q 0 ∈ D := by
      rw [List.getD_eq_getElem _ _ hqD]
      exact List.getElem_mem hqD
    rw [hq, Int.toNat_natCast, hl.direct]
    exact ⟨hcheck _ (.inr hmem), .inr hmem⟩
  · rename_i hdir
    have hq6 : numDirectBlocks ≤ q := by
      rw [directSize, not_lt] at hdir
      have : (numDirectBlocks : ℤ) * fs.dsb.blockSize < (q + 1) * fs.dsb.blockSize := by omega
      have := lt_of_mul_lt_mul_right this hbz.le
      omega
    have ha : a ≠ 0 := by
      intro ha
      have := hl.none ha
      subst this
      have := hl.directRoom
      simp only [List.length_nil] at hn
      omega
    have hD := hl.full ha
    have hroom := hl.entryRoom
    have hrange : pos < maxIndirectRange fs.dsb.blockSize := by
      rw [maxIndirectRange_eq]
      refine lt_of_lt_of_le hpos ?_
      gcongr
      omega
    rw [if_pos hrange]
    have hindex : ((pos - directSize fs.dsb.blockSize) / (fs.dsb.blockSize : ℤ)).toNat =
        q - numDirectBlocks := by
      rw [directSize, Int.sub_mul_ediv_right _ _ hbz.ne', hq]
      omega
    have hmem : E.getD (q - numDirectBlocks) 0 ∈ E := by
      rw [List.getD_eq_getElem _ _ (by omega)]
      exact List.getElem_mem _
    refine ⟨E.getD (q - numDirectBlocks) 0, ?_⟩
    rw [hindex, hl.indirect, hl.entry ha _ (by omega)]
    exact ⟨hcheck _ (.inl hmem), .inl hmem⟩

omit hw in
/-- The bytes of the file go to its data blocks, none of which is the indirect block. -/
theorem Layout.store {fs : Myfs} {mi : Inode} {D E : List ℕ} {a p : ℕ} (hl : Layout fs mi D E a)
    (ht : Taken fs₀ fs (E ++ (single a ++ D))) (hp : p ∈ E ∨ p ∈ D) (block : Block) :
    Layout (storeBlock fs p block) mi D E a := by
  refine ⟨hl.direct, hl.directRoom, hl.indirect, hl.full, fun ha j hj => ?_, hl.entryRoom,
    hl.none, hl.doubleIndirect⟩
  have hne : (a : ℤ) ≠ p := by
    intro he
    have hap : a = p := by exact_mod_cast he
    have honce := ht.once
    rw [single, if_neg ha, List.nodup_append] at honce
    rcases hp with hp | hp
    · exact honce.2.2 p hp a (by simp) hap.symm
    · have := honce.2.1
      rw [List.singleton_append, List.nodup_cons] at this
      exact this.1 (hap ▸ hp)
  rw [storeBlock_dataArea, Function.update_of_ne hne]
  exact hl.entry ha j hj

theorem Books.written {fs : Myfs} {mi : Inode} {n : ℕ} {pos : ℤ} (h : Books fs₀ fs mi n)
    (h₀ : 0 ≤ pos) (hpos : pos < n * fs.dsb.blockSize) :
    ∃ p : ℕ, filePosToDiskAddr fs mi pos = .ok p ∧
      ∀ block, Books fs₀ (storeBlock fs p block) mi n := by
  obtain ⟨D, E, a, hl, ht, hn⟩ := h
  obtain ⟨p, haddr, hp⟩ := filePosToDiskAddr_rest hw hl ht hn h₀ hpos
  exact ⟨p, haddr, fun block => ⟨D, E, a, hl.store ht hp block, ht.same (.store _ _ _), hn⟩⟩

theorem writeLoop_books {mi : Inode} {buf : ℕ → UInt8} {len n : ℕ} (fuel : ℕ) {fs : Myfs}
    {pos : ℤ} {done : ℕ} (h : Books fs₀ fs mi n) (h₀ : 0 ≤ pos)
    (hpos : pos + (len - done : ℕ) ≤ n * fs.dsb.blockSize) :
    ∃ done' fs', writeLoop mi buf len fuel fs pos done = .ok (0, done', fs') ∧
      Books fs₀ fs' mi n ∧ fs'.dsb = fs.dsb := by
  induction fuel generalizing fs pos done with
  | zero => exact ⟨done, fs, rfl, h, rfl⟩
  | succ fuel ih =>
    rw [writeLoop]
    split
    · exact ⟨done, fs, rfl, h, rfl⟩
    rename_i hmore
    obtain ⟨p, haddr, hstore⟩ := h.written hw h₀ (by omega)
    dsimp only
    generalize hamt : (if len - done < fs.dsb.blockSize then len - done
      else fs.dsb.blockSize) = amt
    have hle : amt ≤ len - done := by
      rw [← hamt]
      split <;> omega
    have hchunk : writeChunk fs mi pos 0 amt (fun k => buf (done + k)) = .ok (some
        (storeBlock fs p (copyInto (fs.dataArea p) 0 amt fun k => buf (done + k)))) := by
      unfold writeChunk
      rw [haddr]
      dsimp only [bind, Except.bind]
      rw [if_neg (by omega)]
      rfl
    rw [hchunk]
    obtain ⟨done', fs', hrun, hbooks, hdsb⟩ := ih (hstore (copyInto (fs.dataArea p) 0 amt
      fun k => buf (done + k))) (show 0 ≤ pos + amt by omega)
      (show pos + amt + (len - (done + amt) : ℕ) ≤ _ by rw [storeBlock_dsb]; omega)
    exact ⟨done', fs', hrun, hbooks, hdsb⟩

theorem writeBytes_books {mi : Inode} (buf : ℕ → UInt8) {len n : ℕ} {fs : Myfs} {pos : ℤ}
    (h : Books fs₀ fs mi n) (h₀ : 0 ≤ pos) (hlen : 0 < len)
    (hpos : pos + len ≤ n * fs.dsb.blockSize) :
    ∃ done fs', writeBytes fs mi pos buf len = .ok (0, done, fs') ∧ Books fs₀ fs' mi n ∧
      fs'.dsb = fs.dsb := by
  obtain ⟨p, haddr, hstore⟩ := h.written hw h₀ (by omega)
  unfold writeBytes
  dsimp only
  rw [haddr]
  dsimp only [Except.bind]
  rw [if_neg (by omega)]
  split
  · generalize hamt : (if len < fs.dsb.blockSize - (pos % fs.dsb.blockSize).toNat then len
      else fs.dsb.blockSize - (pos % fs.dsb.blockSize).toNat) = amt
    have hle : amt ≤ len := by
      rw [← hamt]
      split <;> omega
    exact writeLoop_books hw len (hstore _) (by omega) (by rw [storeBlock_dsb]; omega)
  · exact writeLoop_books hw len h h₀ (by omega)

omit hw in
theorem AtRest.host {fs : Myfs} {mi : Inode} (h : AtRest fs₀ fs mi) : SameHost fs₀ fs := by
  obtain ⟨_, _, ⟨_, _, _, _, ht, _⟩, _⟩ := h
  exact ht.host

end Growth

/-- `update_inode` takes the number: its record lies in the inode table or in the block right
behind it. -/
def Accepted (fs : Myfs) (ia : ℤ) : Prop :=
  (ia * myfsInode).tdiv fs.dsb.blockSize ≤ fs.dsb.numInodeBlocks

instance (fs : Myfs) (ia : ℤ) : Decidable (Accepted fs ia) :=
  inferInstanceAs (Decidable ((ia * myfsInode).tdiv fs.dsb.blockSize ≤ fs.dsb.numInodeBlocks))

/-- A block with bits of the bitmap, which are written from block 1 on. -/
def BitmapBlock (fs : Myfs) (b : ℤ) : Prop :=
  ∃ p < fs.bv.numbits, b = ((p / 8 / fs.dsb.blockSize : ℕ) : ℤ) + 1

def recordBlock (fs : Myfs) (ia : ℤ) : ℤ :=
  fs.dsb.inodesStart + (ia * myfsInode).tdiv fs.dsb.blockSize

/-- The blocks that the calls on the stream of inode `ia` write besides its own: the super block,
those of the bitmap, and the one with the record of the inode. -/
def MetaBlock (fs : Myfs) (ia b : ℤ) : Prop := b = 0 ∨ BitmapBlock fs b ∨ b = recordBlock fs ia

/-- These blocks are marked, so that no file gets one of them. -/
def Reserved (fs : Myfs) (ia : ℤ) : Prop := ∀ b, MetaBlock fs ia b → BlockUsed fs b

theorem SameHost.metaBlock {fs fs' : Myfs} (h : SameHost fs fs') (ia b : ℤ) :
    MetaBlock fs' ia b ↔ MetaBlock fs ia b := by
  unfold MetaBlock BitmapBlock recordBlock
  rw [h.numbits, h.blockSize, h.inodesStart]

/-- The blocks of a new file were free before the first write. -/
theorem AtRest.pointer_free {fs₀ fs : Myfs} {mi : Inode} (h : AtRest fs₀ fs mi) {b : ℤ}
    (hb : Pointer fs mi b) (hne : b ≠ 0) : ¬BlockUsed fs₀ b := by
  obtain ⟨_, _, ⟨D, E, a, hl, ht, _⟩, _⟩ := h
  have hfree : ∀ {p : ℕ}, p ∈ E ++ (single a ++ D) → ¬BlockUsed fs₀ p := by
    intro p hp hused
    have hclear := ht.apart p hp
    rw [BlockUsed, Int.toNat_natCast, hclear] at hused
    exact Bool.false_ne_true hused.2
  have hslot : ∀ {xs : List ℕ} {i : ℕ}, ((xs.getD i 0 : ℕ) : ℤ) ≠ 0 → xs.getD i 0 ∈ xs := by
    intro xs i hx
    by_cases hi : i < xs.length
    · rw [List.getD_eq_getElem _ _ hi]
      exact List.getElem_mem hi
    · rw [List.getD_eq_default _ _ (not_lt.mp hi)] at hx
      exact absurd rfl hx
  rcases hb with ⟨i, _, rfl⟩ | rfl | ⟨ha, j, hj, rfl⟩
  · rw [hl.direct] at hne ⊢
    exact hfree (List.mem_append_right _ (List.mem_append_right _ (hslot hne)))
  · rw [hl.indirect] at hne ⊢
    have hsingle : a ∈ single a := by
      rw [single, if_neg (by exact_mod_cast hne)]
      exact List.mem_singleton_self a
    exact hfree (List.mem_append_right _ (List.mem_append_left _ hsingle))
  · rw [hl.indirect] at hne ha ⊢
    rw [hl.entry (by exact_mod_cast ha) j hj] at hne ⊢
    exact hfree (List.mem_append_left _ (hslot hne))

/-- Only the block with the record of the inode is written. -/
theorem updateInode_other {fs fs' : Myfs} {mi : Inode} (h : updateInode fs mi = .ok fs') {b : ℤ}
    (hb : b ≠ recordBlock fs mi.inodeNum) : fs'.metaArea b = fs.metaArea b := by
  unfold updateInode at h
  dsimp only at h
  split at h
  · cases h
  · cases h
    exact Function.update_of_ne hb _ _

theorem updateInode_returns {fs₀ fs : Myfs} (h : SameHost fs₀ fs) (mi : Inode)
    (hin : Accepted fs₀ mi.inodeNum) :
    ∃ fs', updateInode fs mi = .ok fs' ∧ SameBooks fs fs' ∧ fs'.dataArea = fs.dataArea := by
  unfold Accepted at hin
  unfold updateInode
  dsimp only
  rw [h.blockSize, h.inodesStart, h.numInodeBlocks, if_neg (by omega)]
  exact ⟨_, rfl, ⟨fun _ => rfl, rfl, ⟨rfl, rfl, rfl, rfl, rfl, rfl, rfl⟩⟩, rfl⟩

section Calls
variable {fs₀ : Myfs} (hw : Working fs₀)
include hw

theorem growForWrite_rests {fs : Myfs} {mi : Inode} (h : AtRest fs₀ fs mi)
    (hin : Accepted fs₀ mi.inodeNum) (newSize : ℤ) :
    ∃ err mi' fs', growForWrite fs mi newSize = .ok (err, mi', fs') ∧ AtRest fs₀ fs' mi' ∧
      mi'.inodeNum = mi.inodeNum ∧ (err = 0 → newSize ≤ mi'.data.size) := by
  unfold growForWrite
  split
  swap
  · rename_i hle
    exact ⟨0, mi, fs, rfl, h, rfl, fun _ => not_lt.mp hle⟩
  rename_i hlt
  obtain ⟨⟨err, mi₁, fs₁⟩, hg⟩ := growDstream_returns hw newSize h
  obtain ⟨hrest, hnum, hsize⟩ := h.grown hw hlt hg
  rw [hg]
  dsimp only [Except.bind]
  split
  · rename_i herr
    exact ⟨err, mi₁, fs₁, rfl, hrest, hnum, fun h => absurd h herr⟩
  rename_i herr
  obtain ⟨fs₂, hup, hsame, hdata⟩ := updateInode_returns hrest.host
    { mi₁ with lastModifiedTime := fs₁.now } (by rw [← hnum] at hin; exact hin)
  rw [hup]
  refine ⟨0, _, _, rfl, ?_, hnum, fun _ => (hsize (not_not.mp herr)).ge⟩
  exact (hrest.stamped hsame hdata rfl).stamped (.superBlock _) rfl rfl

/-- A write returns, whatever its error, and leaves the stream at rest. -/
theorem AtRest.write {fs : Myfs} {mi : Inode} (h : AtRest fs₀ fs mi)
    (hin : Accepted fs₀ mi.inodeNum) (pos : ℤ) (buf : ℕ → UInt8) (len : ℕ) :
    ∃ err count mi' fs', myfsWriteDataStream fs mi pos buf len = .ok (err, count, mi', fs') ∧
      AtRest fs₀ fs' mi' ∧ mi'.inodeNum = mi.inodeNum := by
  unfold myfsWriteDataStream
  split
  · exact ⟨0, len, mi, fs, rfl, h, rfl⟩
  rename_i hlen
  dsimp only
  have hp : 0 ≤ if pos < 0 then 0 else pos := by split <;> omega
  generalize (if pos < 0 then 0 else pos) = p at hp ⊢
  obtain ⟨err, mi₁, fs₁, hg, hrest, hnum, hsize⟩ := growForWrite_rests hw h hin (p + len)
  rw [hg]
  dsimp only [Except.bind]
  split
  · exact ⟨err, len, mi₁, fs₁, rfl, hrest, hnum⟩
  rename_i herr
  have hroom := hsize (not_not.mp herr)
  obtain ⟨h₀, n, hbooks, h₁, h₂⟩ := hrest
  obtain ⟨done, fs₂, hwr, hbooks₂, hdsb⟩ := writeBytes_books hw buf hbooks hp
    (Nat.pos_of_ne_zero hlen) (hroom.trans h₁)
  rw [hwr]
  dsimp only
  have hrest₂ : AtRest fs₀ fs₂ mi₁ :=
    ⟨h₀, n, hbooks₂, by rw [hdsb]; exact h₁, by rw [hdsb]; exact h₂⟩
  obtain ⟨fs₃, hup, hsame, hdata⟩ := updateInode_returns hrest₂.host
    { mi₁ with lastModifiedTime := fs₂.now } (by rw [← hnum] at hin; exact hin)
  rw [if_neg (by decide), hup]
  exact ⟨0, done, _, fs₃, rfl, hrest₂.stamped hsame hdata rfl, hnum⟩

end Calls

/-- A call of `myfs_write_data_stream` in the range of `fs_off_t`. -/
structure Write where
  pos : ℤ
  buf : ℕ → UInt8
  len : ℕ
  nonneg : 0 ≤ pos
  inRange : pos + len < 2 ^ 63

/-- The calls one after the other, whatever each of them returns. -/
def writeAll : List Write → Myfs → Inode → Except Halt (Inode × Myfs)
  | [], fs, mi => .ok (mi, fs)
  | w :: ws, fs, mi =>
    (myfsWriteDataStream fs mi w.pos w.buf w.len).bind fun (_, _, mi, fs) => writeAll ws fs mi

theorem AtRest.writeAll {fs₀ : Myfs} (hw : Working fs₀) (ws : List Write) {fs : Myfs} {mi : Inode}
    (h : AtRest fs₀ fs mi) (hin : Accepted fs₀ mi.inodeNum) :
    ∃ mi' fs', writeAll ws fs mi = .ok (mi', fs') ∧ AtRest fs₀ fs' mi' := by
  induction ws generalizing fs mi with
  | nil => exact ⟨mi, fs, rfl, h⟩
  | cons w ws ih =>
    obtain ⟨err, count, mi₁, fs₁, hwr, hrest, hnum⟩ := h.write hw hin w.pos w.buf w.len
    rw [StreamDeletion.writeAll, hwr]
    exact ih hrest (by rw [hnum]; exact hin)

theorem drop_eq_getD_cons {l : List ℕ} {i : ℕ} (h : i < l.length) :
    l.drop i = l.getD i 0 :: l.drop (i + 1) := by
  rw [List.drop_eq_getElem_cons h, List.getD_eq_getElem _ _ h]

section Deletion
variable {fs₀ : Myfs} (hw : Working fs₀)
include hw

/-- The loop over the indirect block, which stops at the first zero, frees the whole row. -/
theorem Taken.freeEntries {block : Block} {E R : List ℕ} {maxIdx : ℕ}
    (hentry : ∀ j < maxIdx, blockEntry block j = (E.getD j 0 : ℕ)) (hroom : E.length ≤ maxIdx)
    (left : ℕ) (hleft : left ≤ maxIdx) {fs : Myfs}
    (h : Taken fs₀ fs (E.drop (maxIdx - left) ++ R)) :
    Taken fs₀ (freeEntries block maxIdx left fs) R := by
  induction left generalizing fs with
  | zero =>
    rw [Nat.sub_zero, List.drop_of_length_le hroom] at h
    exact h
  | succ left ih =>
    rw [DataStreamBlocks.freeEntries, hentry _ (by omega)]
    by_cases hlast : maxIdx - (left + 1) < E.length
    · rw [drop_eq_getD_cons hlast, show maxIdx - (left + 1) + 1 = maxIdx - left by omega,
        List.cons_append] at h
      have hne := h.mem_ne_zero hw List.mem_cons_self
      rw [if_neg (by exact_mod_cast hne)]
      exact ih (by omega) (h.free hw)
    · rw [List.drop_of_length_le (by omega)] at h
      rw [List.getD_eq_default _ _ (by omega), if_pos Nat.cast_zero]
      exact h

theorem Taken.freeDirect {D : List ℕ} (hroom : D.length ≤ numDirectBlocks) (left : ℕ)
    (hleft : left ≤ numDirectBlocks) {fs : Myfs} {mi : Inode}
    (hdirect : ∀ i, numDirectBlocks - left ≤ i → mi.data.direct i = (D.getD i 0 : ℕ))
    (h : Taken fs₀ fs (D.drop (numDirectBlocks - left))) :
    Taken fs₀ (freeDirect left fs mi).2 [] := by
  induction left generalizing fs mi with
  | zero =>
    rw [Nat.sub_zero, List.drop_of_length_le hroom] at h
    exact h
  | succ left ih =>
    rw [DataStreamBlocks.freeDirect, hdirect _ le_rfl]
    by_cases hlast : numDirectBlocks - (left + 1) < D.length
    · rw [drop_eq_getD_cons hlast,
        show numDirectBlocks - (left + 1) + 1 = numDirectBlocks - left by omega] at h
      have hne := h.mem_ne_zero hw List.mem_cons_self
      rw [if_neg (by exact_mod_cast hne)]
      refine ih (by omega) (fun i hi => ?_) (h.free hw)
      rw [setDirect_direct, Function.update_of_ne (by omega)]
      exact hdirect i (by omega)
    · rw [List.drop_of_length_le (by omega)] at h
      rw [List.getD_eq_default _ _ (by omega), if_pos Nat.cast_zero]
      exact h

/-- The part of the deletion that frees the entries and the indirect block. -/
theorem Taken.shrinkIndirect {fs : Myfs} {mi : Inode} {D E : List ℕ} {a : ℕ}
    (hl : Layout fs mi D E a) (h : Taken fs₀ fs (E ++ (single a ++ D))) (ha : a ≠ 0) :
    Taken fs₀ (shrinkIndirect fs mi 0).2 D ∧
      (shrinkIndirect fs mi 0).1.data.direct = mi.data.direct := by
  have hdir : ¬ directSize fs.dsb.blockSize < 0 := by
    rw [directSize, not_lt]
    positivity
  unfold DataStreamBlocks.shrinkIndirect
  dsimp only
  rw [if_neg hdir, if_pos rfl, hl.indirect]
  refine ⟨?_, rfl⟩
  have hE : Taken fs₀ fs (E.drop (maxIndex fs - maxIndex fs) ++ (a :: D)) := by
    rw [Nat.sub_self, List.drop_zero]
    rw [single, if_neg ha] at h
    exact h
  exact (Taken.freeEntries hw (hl.entry ha) hl.entryRoom (maxIndex fs) le_rfl hE).free hw

theorem AtRest.deleted {fs : Myfs} {mi : Inode} (h : AtRest fs₀ fs mi) :
    Taken fs₀ (myfsFreeDataStream fs mi).2.2 [] := by
  obtain ⟨h₀, n, hbooks, h₁, h₂⟩ := h
  have hround := roundUp_rest hw hbooks h₀ h₁ h₂
  obtain ⟨hpos, k, hk⟩ := hbooks.blockSize hw
  obtain ⟨D, E, a, hl, ht, hn⟩ := hbooks
  have hbz : (0 : ℤ) < fs.dsb.blockSize := by exact_mod_cast hpos
  have hlarge : 512 ≤ fs.dsb.blockSize := by
    rw [ht.host.blockSize]
    exact hw.large
  have hnew : roundUp (0 - 1) fs.dsb.blockSize = 0 := by
    obtain ⟨m, hm, _, hm₂⟩ := roundUp_spec (0 - 1) hk (by omega)
    have hm0 : m = 0 := by
      have : (m * fs.dsb.blockSize : ℤ) < 1 * fs.dsb.blockSize := by omega
      have := lt_of_mul_lt_mul_right this hbz.le
      omega
    rw [hm, hm0]
    simp
  have hdouble : 0 ≤ maxDoubleIndirectRange fs.dsb.blockSize := by
    unfold maxDoubleIndirectRange maxIndirectRange indirectSize directSize
    positivity
  have hrange : 0 < maxIndirectRange fs.dsb.blockSize := by
    rw [maxIndirectRange_eq]
    exact mul_pos (by simp [numDirectBlocks]; omega) hbz
  have hdir : 0 < directSize fs.dsb.blockSize := mul_pos (by decide) hbz
  unfold myfsFreeDataStream shrinkDstream
  dsimp only
  rw [if_neg (by omega), hround, hnew]
  split
  · rename_i hnone
    -- nothing was ever mapped
    have hn0 : n = 0 := by
      rcases mul_eq_zero.mp hnone with h | h
      · exact_mod_cast h
      · omega
    have hD : D = [] := List.eq_nil_of_length_eq_zero (by omega)
    have hE : E = [] := List.eq_nil_of_length_eq_zero (by omega)
    have ha : a = 0 := by
      by_contra hne
      have := hl.full hne
      rw [hD] at this
      cases this
    subst hD hE ha
    exact ht.same (.superBlock _)
  · have hno : (if 0 < maxDoubleIndirectRange fs.dsb.blockSize ∧ mi.data.doubleIndirect ≠ 0 then
        shrinkDoubleIndirect fs mi 0 else (mi, fs)) = (mi, fs) :=
      if_neg fun h => h.2 hl.doubleIndirect
    rw [hno]
    dsimp only
    obtain ⟨⟨mi₁, fs₁⟩, hr⟩ : ∃ r, (if 0 < maxIndirectRange fs.dsb.blockSize ∧
      mi.data.indirect ≠ 0 then shrinkIndirect fs mi 0 else (mi, fs)) = r := ⟨_, rfl⟩
    have hpart : Taken fs₀ fs₁ D ∧ mi₁.data.direct = mi.data.direct := by
      by_cases ha : a = 0
      · have hE := hl.none ha
        subst ha hE
        rw [if_neg (fun h => h.2 hl.indirect)] at hr
        obtain ⟨rfl, rfl⟩ := Prod.mk.inj hr
        exact ⟨ht, rfl⟩
      · rw [if_pos ⟨hrange, by rw [hl.indirect]; exact_mod_cast ha⟩] at hr
        have := Taken.shrinkIndirect hw hl ht ha
        rwa [hr] at this
    obtain ⟨ht₁, hd₁⟩ := hpart
    rw [hr]
    dsimp only
    rw [Int.zero_ediv, Int.toNat_zero, Nat.sub_zero]
    refine Taken.same (Taken.freeDirect hw hl.directRoom numDirectBlocks le_rfl (fun i _ => ?_)
      ?_) (.superBlock _)
    · rw [hd₁, hl.direct]
    · rw [Nat.sub_self, List.drop_zero]
      exact ht₁

end Deletion

theorem atRest_empty {fs : Myfs} {mi : Inode} (hw : Working fs) (h : mi.data = emptyStream) :
    AtRest fs fs mi := by
  have hpos := hw.pos
  refine ⟨by rw [h]; exact le_rfl, 0, ⟨[], [], 0, ⟨?_, Nat.zero_le _, ?_, fun h => absurd rfl h,
    fun h => absurd rfl h, Nat.zero_le _, fun _ => rfl, ?_⟩, .refl fs, rfl⟩, ?_, ?_⟩
  · rw [h]
    exact fun _ => rfl
  · rw [h]
    rfl
  · rw [h]
    rfl
  · rw [h]
    simp [emptyStream]
  · rw [h]
    simp [emptyStream]
    omega

/-- Deleting a file gives back exactly what it took: after any writes to a new file, whether
they succeed or stop for want of space or at the size limit, freeing its stream leaves every bit
of the bitmap and the used-block count as they were before the first write. Up to then none of its
blocks is one that holds metadata. -/
theorem deletion_restores_books (fs : Myfs) (mi : Inode) (hw : Working fs)
    (hnew : mi.data = emptyStream) (hin : Accepted fs mi.inodeNum)
    (hreserved : Reserved fs mi.inodeNum) (ws : List Write) :
    ∃ mi' fs', writeAll ws fs mi = .ok (mi', fs') ∧
      (∀ b, Pointer fs' mi' b → b ≠ 0 → ¬MetaBlock fs mi.inodeNum b) ∧
      (∀ p, (myfsFreeDataStream fs' mi').2.2.bv.bit p = fs.bv.bit p) ∧
      (myfsFreeDataStream fs' mi').2.2.dsb.usedBlocks = fs.dsb.usedBlocks := by
  obtain ⟨mi', fs', hrun, hrest⟩ := (atRest_empty hw hnew).writeAll hw ws hin
  have hback := hrest.deleted hw
  refine ⟨mi', fs', hrun, fun b hb hne hmeta => hrest.pointer_free hb hne (hreserved b hmeta),
    fun p => ?_, by simpa using hback.used⟩
  rw [Bool.eq_iff_iff, hback.bits]
  simp

/-- The small disk on a device that takes every write. -/
def workingDisk : Myfs := { madeDisk with cacheFails := fun _ _ => false }

theorem workingDisk_working : Working workingDisk := by
  obtain ⟨hin, _⟩ := createStorageMap_exact (show smallDisk.dsb.usedBlocks = 0 from rfl)
    (by decide +kernel)
  have hmade : MapInside madeDisk := by
    unfold madeDisk preAllocateBlocks
    exact @step_inside _ (.alloc 2 .looseAllocation) hin fun _ => by decide +kernel
  have hmap : MapInside workingDisk := by
    unfold workingDisk
    generalize madeDisk = fs at hmade
    exact ⟨hmade.inside, hmade.covers, hmade.int32⟩
  exact ⟨hmap, by decide +kernel, ⟨9, by decide +kernel⟩,
    by decide +kernel, by decide +kernel, fun _ _ => rfl⟩

/-- Three writes to a new file; the last one does not fit on a disk of 16 blocks. -/
def someWrites : List Write :=
  [⟨100, fun _ => 7, 700, by decide, by decide⟩, ⟨5000, fun _ => 8, 10, by decide, by decide⟩,
    ⟨0, fun _ => 9, 100000, by decide, by decide⟩]

theorem workingDisk_reserved : Reserved workingDisk 1 := by
  have hnum : workingDisk.bv.numbits = 16 := by decide +kernel
  have hsize : workingDisk.dsb.blockSize = 512 := by decide +kernel
  intro b hb
  rcases hb with rfl | ⟨p, hp, rfl⟩ | hrecord
  · exact ⟨le_rfl, by decide +kernel⟩
  · have hzero : p / 8 / workingDisk.dsb.blockSize = 0 := by
      rw [hsize]
      omega
    rw [hzero]
    exact ⟨by decide, by decide +kernel⟩
  · rw [hrecord]
    exact ⟨by decide +kernel, by decide +kernel⟩

theorem deletion_restores_workingDisk :
    ∃ mi' fs', writeAll someWrites workingDisk (freshInode workingDisk 0 1) = .ok (mi', fs') ∧
      (∀ b, Pointer fs' mi' b → b ≠ 0 → ¬MetaBlock workingDisk 1 b) ∧
      (∀ p, (myfsFreeDataStream fs' mi').2.2.bv.bit p = workingDisk.bv.bit p) ∧
      (myfsFreeDataStream fs' mi').2.2.dsb.usedBlocks = workingDisk.dsb.usedBlocks :=
  deletion_restores_books workingDisk (freshInode workingDisk 0 1) workingDisk_working rfl
    (by decide +kernel) workingDisk_reserved someWrites

end StreamDeletion
