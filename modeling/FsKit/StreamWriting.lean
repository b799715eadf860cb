import Mathlib.Tactic
import FsKit.BlockSupply
import FsKit.StreamContents
import FsKit.StreamDeletion

/-! Writes to a file (`myfs_write_data_stream` of `dstream.c`) store the bytes they are given and
nothing else. A write that goes past the end grows the stream first, which leaves every byte
below the old end where it was. -/
namespace StreamWriting

open BitVectorSearch BlockBitmap InodeTable LittleEndian DataStreamBlocks DataStreamGrowth
open DataStreamShape FileBlockOwnership BlockSupply StreamContents
open StreamDeletion (Accepted BitmapBlock MetaBlock recordBlock)

section Overwriting
variable {fs : Myfs} {mi : Inode}

/-- The blocks of a file are different ones, and none of them is its indirect block. -/
structure BlocksApart (fs : Myfs) (mi : Inode) : Prop where
  once : ∀ i j : ℕ, (i * fs.dsb.blockSize : ℤ) < mi.data.size →
    (j * fs.dsb.blockSize : ℤ) < mi.data.size → blockAddr fs mi i = blockAddr fs mi j → i = j
  indirect : ∀ i : ℕ, (i * fs.dsb.blockSize : ℤ) < mi.data.size →
    directSize fs.dsb.blockSize < mi.data.size → blockAddr fs mi i ≠ mi.data.indirect

theorem directSize_lt_of_slot {i : ℕ} (hi : (i * fs.dsb.blockSize : ℤ) < mi.data.size)
    (h6 : ¬i < numDirectBlocks) : directSize fs.dsb.blockSize < mi.data.size := by
  refine lt_of_le_of_lt ?_ hi
  unfold directSize
  gcongr
  omega

/-- The map of a file is the same on every disk with the same indirect block. -/
theorem blockAddr_kept {fs' : Myfs} {i : ℕ} (hi : (i * fs.dsb.blockSize : ℤ) < mi.data.size)
    (hkept : directSize fs.dsb.blockSize < mi.data.size →
      fs'.dataArea mi.data.indirect = fs.dataArea mi.data.indirect) :
    blockAddr fs' mi i = blockAddr fs mi i := by
  unfold blockAddr
  by_cases h6 : i < numDirectBlocks
  · rw [if_pos h6, if_pos h6]
  · rw [if_neg h6, if_neg h6, hkept (directSize_lt_of_slot hi h6)]

/-- Storing to a block of the file leaves its map. -/
theorem BlocksApart.blockAddr_store (h : BlocksApart fs mi) {i₀ : ℕ}
    (h₀ : (i₀ * fs.dsb.blockSize : ℤ) < mi.data.size) (block : Block) {i : ℕ}
    (hi : (i * fs.dsb.blockSize : ℤ) < mi.data.size) :
    blockAddr (storeBlock fs (blockAddr fs mi i₀) block) mi i = blockAddr fs mi i := by
  refine blockAddr_kept hi fun hlt => ?_
  rw [storeBlock_dataArea, Function.update_of_ne (Ne.symm (h.indirect i₀ h₀ hlt))]

theorem BlocksApart.store (h : BlocksApart fs mi) {i₀ : ℕ}
    (h₀ : (i₀ * fs.dsb.blockSize : ℤ) < mi.data.size) (block : Block) :
    BlocksApart (storeBlock fs (blockAddr fs mi i₀) block) mi := by
  constructor
  · intro i j hi hj
    rw [h.blockAddr_store h₀ block hi, h.blockAddr_store h₀ block hj]
    exact h.once i j hi hj
  · intro i hi
    rw [h.blockAddr_store h₀ block hi]
    exact h.indirect i hi

theorem mapped_store (hm : Mapped fs mi) (h : BlocksApart fs mi) {i₀ : ℕ}
    (h₀ : (i₀ * fs.dsb.blockSize : ℤ) < mi.data.size) (block : Block) :
    Mapped (storeBlock fs (blockAddr fs mi i₀) block) mi := by
  refine ⟨hm.blockSize, hm.nonneg, hm.bounded, fun i hi => ?_⟩
  rw [h.blockAddr_store h₀ block hi]
  exact hm.blocks i hi

theorem slot_below (fs : Myfs) {p : ℕ} (hp : (p : ℤ) < mi.data.size) :
    ((p / fs.dsb.blockSize : ℕ) * fs.dsb.blockSize : ℤ) < mi.data.size := by
  have : p / fs.dsb.blockSize * fs.dsb.blockSize ≤ p := Nat.div_mul_le_self p _
  have : ((p / fs.dsb.blockSize * fs.dsb.blockSize : ℕ) : ℤ) ≤ p := by exact_mod_cast this
  push_cast at this ⊢
  omega

/-- A copy of `amt` bytes to position `q`, inside one block. -/
theorem fileByte_copy (hm : Mapped fs mi) (h : BlocksApart fs mi) {q amt : ℕ} (src : ℕ → UInt8)
    (hq : (q : ℤ) < mi.data.size) (hin : q % fs.dsb.blockSize + amt ≤ fs.dsb.blockSize) {p : ℕ}
    (hp : (p : ℤ) < mi.data.size) :
    fileByte (storeBlock fs (blockAddr fs mi (q / fs.dsb.blockSize))
      (copyInto (fs.dataArea (blockAddr fs mi (q / fs.dsb.blockSize))) (q % fs.dsb.blockSize) amt
        src)) mi p = if q ≤ p ∧ p < q + amt then src (p - q) else fileByte fs mi p := by
  have hb := hm.blockSize
  have hqd := Nat.div_add_mod q fs.dsb.blockSize
  have hpd := Nat.div_add_mod p fs.dsb.blockSize
  have hpm := Nat.mod_lt p hb
  have haddr := h.blockAddr_store (slot_below fs hq) (copyInto
    (fs.dataArea (blockAddr fs mi (q / fs.dsb.blockSize))) (q % fs.dsb.blockSize) amt src)
    (slot_below fs hp)
  unfold fileByte
  rw [storeBlock_dsb, haddr, storeBlock_dataArea]
  by_cases hsame : p / fs.dsb.blockSize = q / fs.dsb.blockSize
  · rw [hsame] at hpd ⊢
    rw [Function.update_self, copyInto]
    by_cases hcase : q ≤ p ∧ p < q + amt
    · rw [if_pos hcase, if_pos (by omega)]
      congr 1
      omega
    · rw [if_neg hcase, if_neg (by omega)]
  · have hne : blockAddr fs mi (p / fs.dsb.blockSize) ≠ blockAddr fs mi (q / fs.dsb.blockSize) :=
      fun he => hsame (h.once _ _ (slot_below fs hp) (slot_below fs hq) he)
    rw [Function.update_of_ne hne, if_neg]
    rintro ⟨hle, hlt⟩
    obtain ⟨hdiv, _⟩ := div_mod_inside (b := fs.dsb.blockSize) (p := q) (k := p - q) (by omega)
    rw [show q + (p - q) = p by omega] at hdiv
    exact hsame hdiv

/-- The first `count` bytes of `buf` are in the file from `q` on, and nothing else changed. -/
structure Overwritten (fs fs' : Myfs) (mi : Inode) (q : ℕ) (buf : ℕ → UInt8) (count : ℕ) :
    Prop where
  mapped : Mapped fs' mi
  apart : BlocksApart fs' mi
  blockSize : fs'.dsb.blockSize = fs.dsb.blockSize
  bytes : ∀ p : ℕ, (p : ℤ) < mi.data.size →
    fileByte fs' mi p = if q ≤ p ∧ p < q + count then buf (p - q) else fileByte fs mi p

theorem Overwritten.refl (hm : Mapped fs mi) (h : BlocksApart fs mi) (q : ℕ) (buf : ℕ → UInt8) :
    Overwritten fs fs mi q buf 0 :=
  ⟨hm, h, rfl, fun p _ => (if_neg (by omega)).symm⟩

/-- One more copy, behind the bytes that are there. -/
theorem Overwritten.copy {fs₁ : Myfs} {q count : ℕ} {buf : ℕ → UInt8}
    (h : Overwritten fs fs₁ mi q buf count) (amt : ℕ) (hend : (q + count : ℤ) < mi.data.size)
    (hin : (q + count) % fs.dsb.blockSize + amt ≤ fs.dsb.blockSize) :
    Overwritten fs (storeBlock fs₁ (blockAddr fs₁ mi ((q + count) / fs.dsb.blockSize))
      (copyInto (fs₁.dataArea (blockAddr fs₁ mi ((q + count) / fs.dsb.blockSize)))
        ((q + count) % fs.dsb.blockSize) amt fun k => buf (count + k))) mi q buf (count + amt) := by
  have hbs := h.blockSize
  have hend' : ((q + count : ℕ) : ℤ) < mi.data.size := by push_cast; exact hend
  rw [← hbs] at hin ⊢
  refine ⟨mapped_store h.mapped h.apart (slot_below fs₁ hend') _,
    h.apart.store (slot_below fs₁ hend') _, hbs, fun p hp => ?_⟩
  rw [fileByte_copy h.mapped h.apart _ hend' hin hp, h.bytes p hp]
  by_cases hnew : q + count ≤ p ∧ p < q + count + amt
  · rw [if_pos hnew, if_pos (by omega)]
    congr 1
    omega
  · rw [if_neg hnew]
    by_cases hold : q ≤ p ∧ p < q + count
    · rw [if_pos hold, if_pos (by omega)]
    · rw [if_neg hold, if_neg (by omega)]

/-- The loop writes the rest of the request, a block a round, from a block boundary on. -/
theorem writeLoop_writes {q len : ℕ} {buf : ℕ → UInt8} (hb : 0 < fs.dsb.blockSize)
    (hend : (q + len : ℤ) ≤ mi.data.size) (fuel count : ℕ) (fs₁ : Myfs)
    (hfuel : len ≤ fuel + count) (hcount : count ≤ len)
    (halign : count < len → (q + count) % fs.dsb.blockSize = 0)
    (h : Overwritten fs fs₁ mi q buf count) :
    ∃ fs', writeLoop mi buf len fuel fs₁ (q + count : ℕ) count = .ok (0, len, fs') ∧
      Overwritten fs fs' mi q buf len := by
  induction fuel generalizing count fs₁ with
  | zero =>
    obtain rfl : count = len := by omega
    exact ⟨fs₁, rfl, h⟩
  | succ fuel ih =>
    rw [writeLoop]
    by_cases hdone : len ≤ count
    · obtain rfl : count = len := by omega
      rw [if_pos le_rfl]
      exact ⟨fs₁, rfl, h⟩
    rw [if_neg hdone, h.blockSize]
    have hlt : (q + count : ℤ) < mi.data.size := by omega
    obtain ⟨haddr, hpos⟩ := h.mapped.addr (p := q + count) (by push_cast; exact hlt)
    rw [h.blockSize] at haddr hpos
    generalize hamt : (if len - count < fs.dsb.blockSize then len - count
      else fs.dsb.blockSize) = amt
    have hle : amt ≤ fs.dsb.blockSize ∧ 0 < amt ∧ count + amt ≤ len ∧
        (count + amt < len → amt = fs.dsb.blockSize) := by
      split at hamt <;> omega
    have hzero := halign (by omega)
    have hcopy := h.copy amt hlt (by omega)
    rw [hzero] at hcopy
    have hchunk : writeChunk fs₁ mi (q + count : ℕ) 0 amt (fun k => buf (count + k)) =
        .ok (some (storeBlock fs₁ (blockAddr fs₁ mi ((q + count) / fs.dsb.blockSize))
          (copyInto (fs₁.dataArea (blockAddr fs₁ mi ((q + count) / fs.dsb.blockSize))) 0 amt
            fun k => buf (count + k)))) := by
      unfold writeChunk
      rw [haddr]
      exact if_neg (by omega)
    dsimp only
    rw [hchunk]
    obtain ⟨fs', hrun, hout⟩ := ih (count + amt) _ (by omega) (by omega) (fun hlt' => by
      rw [hle.2.2.2 hlt', ← Nat.add_assoc, Nat.add_mod_right, hzero]) hcopy
    refine ⟨fs', ?_, hout⟩
    rw [← hrun]
    dsimp only [Except.bind]
    push_cast
    rw [add_assoc]

/-- Bytes inside a file are overwritten in place. -/
theorem writeBytes_writes {q len : ℕ} (buf : ℕ → UInt8) (hm : Mapped fs mi) (h : BlocksApart fs mi)
    (hlen : 0 < len) (hend : (q + len : ℤ) ≤ mi.data.size) :
    ∃ fs', writeBytes fs mi q buf len = .ok (0, len, fs') ∧ Overwritten fs fs' mi q buf len := by
  have hb := hm.blockSize
  have hq : (q : ℤ) < mi.data.size := by omega
  obtain ⟨haddr, hpos⟩ := hm.addr hq
  have hmod : ((q : ℤ) % fs.dsb.blockSize).toNat = q % fs.dsb.blockSize := by
    rw [← Int.natCast_mod, Int.toNat_natCast]
  have hlt := Nat.mod_lt q hb
  have hstart := Overwritten.refl hm h q buf
  unfold writeBytes
  dsimp only
  rw [haddr]
  dsimp only [Except.bind]
  rw [if_neg (by omega)]
  by_cases haligned : (q : ℤ) % fs.dsb.blockSize = 0
  · rw [if_neg (not_not_intro haligned)]
    exact writeLoop_writes hb hend len 0 fs (by omega) (by omega)
      (fun _ => by rw [Nat.add_zero]; exact_mod_cast haligned) hstart
  · rw [if_pos haligned, hmod]
    generalize hamt : (if len < fs.dsb.blockSize - q % fs.dsb.blockSize then len
      else fs.dsb.blockSize - q % fs.dsb.blockSize) = amt
    have hle : amt ≤ len ∧ q % fs.dsb.blockSize + amt ≤ fs.dsb.blockSize ∧
        (amt < len → amt = fs.dsb.blockSize - q % fs.dsb.blockSize) := by
      split at hamt <;> omega
    have hcopy := hstart.copy amt (by omega) (by rw [Nat.add_zero]; exact hle.2.1)
    simp only [Nat.add_zero, Nat.zero_add] at hcopy
    obtain ⟨fs', hrun, hout⟩ := writeLoop_writes hb hend len amt _ (by omega) hle.1
      (fun hlt' => by
        have hqd := Nat.div_add_mod q fs.dsb.blockSize
        have : q + amt = fs.dsb.blockSize * (q / fs.dsb.blockSize) + fs.dsb.blockSize := by
          rw [hle.2.2 hlt']
          omega
        rw [this, Nat.add_mod_right, Nat.mul_mod_right]) hcopy
    refine ⟨fs', ?_, hout⟩
    rw [← hrun]
    push_cast
    rfl

end Overwriting

section Ownership
variable {ι : Type} {fs : Myfs} {mi : Inode}

theorem StreamShape.streamMapped (h : StreamShape fs mi) (hb : 0 < fs.dsb.blockSize)
    (hcover : (fs.bv.numbits : ℤ) ≤ fs.dsb.numBlocks) : Mapped fs mi := by
  refine ⟨hb, h.nonneg, h.bounded, fun i hi => ?_⟩
  unfold blockAddr
  by_cases h6 : i < numDirectBlocks
  · have hne := (h.direct i h6).2 hi
    obtain ⟨h₀, h₁⟩ := h.directRange i h6
    rw [if_pos h6]
    omega
  · have hin : i - numDirectBlocks < maxIndex fs := by
      have hlt := lt_of_lt_of_le hi h.bounded
      rw [maxIndirectRange_eq] at hlt
      have := lt_of_mul_lt_mul_right hlt (by positivity)
      omega
    have hind := h.needed (directSize_lt_of_slot hi h6)
    have hne := h.entry _ hin (by rwa [Nat.add_sub_cancel' (by omega)])
    obtain ⟨h₀, h₁⟩ := h.entryRange hind _ hin
    rw [if_neg h6]
    omega

/-- The place of block `i` of a file. -/
def placeOf (i : ℕ) : Place :=
  if i < numDirectBlocks then .direct i else .entry (i - numDirectBlocks)

theorem placeOf_inj {i j : ℕ} (h : placeOf i = placeOf j) : i = j := by
  unfold placeOf at h
  split at h <;> split at h <;>
    simp only [Place.direct.injEq, Place.entry.injEq, reduceCtorEq] at h <;>
    omega

theorem placeAddr_placeOf (fs : Myfs) (mi : Inode) (i : ℕ) :
    placeAddr fs mi (placeOf i) = blockAddr fs mi i := by
  unfold placeOf blockAddr
  split <;> rfl

theorem held_placeOf {i : ℕ} (hi : (i * fs.dsb.blockSize : ℤ) < mi.data.size) :
    held fs mi (placeOf i) := by
  unfold placeOf
  split
  · rename_i h6
    exact ⟨h6, hi⟩
  · show (((numDirectBlocks + (i - numDirectBlocks) : ℕ) : ℤ) * fs.dsb.blockSize) < mi.data.size
    rwa [Nat.add_sub_cancel' (by omega)]

theorem HeldOnce.blocksApart {files : ι → Inode} (h : HeldOnce fs files) {f : ι}
    (hs : StreamShape fs (files f)) : BlocksApart fs (files f) := by
  constructor
  · intro i j hi hj heq
    have := h.once (f, placeOf i) (f, placeOf j) (held_placeOf hi) (held_placeOf hj)
      (by rw [placeAddr_placeOf, placeAddr_placeOf, heq])
    exact placeOf_inj (congrArg Prod.snd this)
  · intro i hi hlt heq
    have := h.once (f, placeOf i) (f, .indirect) (held_placeOf hi) (hs.needed hlt)
      (by rw [placeAddr_placeOf, heq]; rfl)
    have hplace : placeOf i = .indirect := congrArg Prod.snd this
    unfold placeOf at hplace
    split at hplace <;> cases hplace

/-- The bytes of a file are those of its places. -/
theorem fileByte_of_places {fs' : Myfs} (hbs : fs'.dsb.blockSize = fs.dsb.blockSize)
    (hneed : directSize fs.dsb.blockSize < mi.data.size → mi.data.indirect ≠ 0)
    (hkept : ∀ p, held fs mi p →
      fs'.dataArea (placeAddr fs mi p) = fs.dataArea (placeAddr fs mi p)) {p : ℕ}
    (hp : (p : ℤ) < mi.data.size) : fileByte fs' mi p = fileByte fs mi p := by
  have hslot := slot_below fs hp
  have haddr : blockAddr fs' mi (p / fs.dsb.blockSize) = blockAddr fs mi (p / fs.dsb.blockSize) :=
    blockAddr_kept hslot fun hlt => hkept .indirect (hneed hlt)
  have hdata := hkept _ (held_placeOf hslot)
  rw [placeAddr_placeOf] at hdata
  unfold fileByte
  rw [hbs, haddr, hdata]

end Ownership

section Growing

/-- The stream `mi` on `fs` has grown out of `mi₀` on `fs₀`: it has the blocks it had, and only
fresh blocks and its indirect block were stored to. -/
structure GrownFrom (fs₀ : Myfs) (mi₀ : Inode) (fs : Myfs) (mi : Inode) : Prop where
  blockSize : fs.dsb.blockSize = fs₀.dsb.blockSize
  longer : ∀ i : ℕ, (i * fs₀.dsb.blockSize : ℤ) < mi₀.data.size →
    (i * fs₀.dsb.blockSize : ℤ) < mi.data.size
  direct : ∀ i < numDirectBlocks, (i * fs₀.dsb.blockSize : ℤ) < mi₀.data.size →
    mi.data.direct i = mi₀.data.direct i
  indirect : mi₀.data.indirect ≠ 0 → mi.data.indirect = mi₀.data.indirect
  opened : mi₀.data.indirect = 0 → mi.data.indirect ≠ 0 → ¬BlockUsed fs₀ mi.data.indirect
  entry : ∀ j : ℕ, (((numDirectBlocks + j : ℕ) : ℤ) * fs₀.dsb.blockSize) < mi₀.data.size →
    blockEntry (fs.dataArea mi.data.indirect) j = blockEntry (fs₀.dataArea mi₀.data.indirect) j
  used : ∀ a, BlockUsed fs₀ a → BlockUsed fs a
  data : ∀ a, BlockUsed fs₀ a → a ≠ mi₀.data.indirect → fs.dataArea a = fs₀.dataArea a

variable {fs₀ fs : Myfs} {mi₀ mi : Inode}

theorem GrownFrom.refl (fs : Myfs) (mi : Inode) : GrownFrom fs mi fs mi :=
  ⟨rfl, fun _ h => h, fun _ _ _ => rfl, fun _ => rfl, fun h hne => absurd h hne, fun _ _ => rfl,
    fun _ h => h, fun _ _ _ => rfl⟩

theorem GrownFrom.resize {size : ℤ} (hsame : ∀ i : ℕ, (i * fs.dsb.blockSize : ℤ) < size ↔
      (i * fs.dsb.blockSize : ℤ) < mi.data.size) (h : GrownFrom fs₀ mi₀ fs mi) :
    GrownFrom fs₀ mi₀ fs (setSize mi size) := by
  refine ⟨h.blockSize, fun i hi => ?_, h.direct, h.indirect, h.opened, h.entry, h.used, h.data⟩
  have := h.longer i hi
  rw [← h.blockSize] at this ⊢
  exact (hsame i).2 this

/-- The indirect block of a growing stream is its old one or a block that was free. -/
theorem GrownFrom.indirect_apart (h : GrownFrom fs₀ mi₀ fs mi) (hne : mi.data.indirect ≠ 0) {a : ℤ}
    (hused : BlockUsed fs₀ a) (ha : a ≠ mi₀.data.indirect) : a ≠ mi.data.indirect := by
  by_cases h0 : mi₀.data.indirect = 0
  · rintro rfl
    exact h.opened h0 hne hused
  · rwa [h.indirect h0]

theorem GrownFrom.step {newSize : ℤ} {s t : Myfs × Inode} (hstep : GrowStep newSize s t)
    (hneed : directSize fs₀.dsb.blockSize < mi₀.data.size → mi₀.data.indirect ≠ 0)
    (hb : 0 < fs₀.dsb.blockSize) (h : GrownFrom fs₀ mi₀ s.1 s.2) : GrownFrom fs₀ mi₀ t.1 t.2 := by
  have hbz : (0 : ℤ) < fs₀.dsb.blockSize := by exact_mod_cast hb
  cases hstep with
  | @direct fs fs' mi addr i short slot size fresh =>
    dsimp only at h ⊢
    have hbs := h.blockSize
    rw [hbs] at size
    refine ⟨fresh.blockSize.trans hbs, fun l hl => ?_, fun l hl hlt => ?_, h.indirect, h.opened, ?_,
      fun a ha => allocated_used_mono fresh (h.used a ha), ?_⟩
    · have := h.longer l hl
      rw [setSize_size, hbs]
      omega
    · have hne : l ≠ i := by
        rintro rfl
        have := h.longer l hlt
        omega
      rw [setSize_direct, setDirect_direct, Function.update_of_ne hne]
      exact h.direct l hl hlt
    · rw [fresh.dataArea]
      exact h.entry
    · rw [fresh.dataArea]
      exact h.data
  | @indirect fs fs' mi addr short size hnone fresh =>
    dsimp only at h ⊢
    have h0 : mi₀.data.indirect = 0 := by
      by_contra hne
      exact hne ((h.indirect hne).symm.trans hnone)
    have hfresh : ¬BlockUsed fs₀ addr := fun hu => allocated_not_used fresh (h.used _ hu)
    refine ⟨fresh.blockSize.trans h.blockSize, h.longer, h.direct, fun hne => absurd h0 hne,
      fun _ _ => hfresh, fun j hj => ?_, fun a ha => allocated_used_mono fresh (h.used a ha),
      fun a ha hne => ?_⟩
    · exact absurd h0 (hneed (directSize_lt_of_entry hj))
    · have haddr : a ≠ addr := by
        rintro rfl
        exact hfresh ha
      rw [storeBlock_dataArea, Function.update_of_ne haddr, fresh.dataArea]
      exact h.data a ha hne
  | @entry fs fs' mi addr j short slot size hsome fresh =>
    dsimp only at h ⊢
    have hbs := h.blockSize
    rw [hbs] at size
    refine ⟨fresh.blockSize.trans hbs, fun l hl => ?_, h.direct, h.indirect, h.opened,
      fun l hl => ?_, fun a ha => allocated_used_mono fresh (h.used a ha), fun a ha hne => ?_⟩
    · have := h.longer l hl
      rw [setSize_size, hbs]
      omega
    · have hne : l ≠ j := by
        rintro rfl
        have := h.longer _ hl
        push_cast at this
        omega
      rw [setSize_indirect, storeBlock_dataArea, Function.update_self, blockEntry_put_ne _ _ hne]
      exact h.entry l hl
    · rw [storeBlock_dataArea, Function.update_of_ne (h.indirect_apart hsome ha hne),
        fresh.dataArea]
      exact h.data a ha hne

end Growing

section Metadata
variable {ι : Type} {w : FileTable ι} {f : ι} {fs fs' fs₀ fs₁ : Myfs} {mi mi' mi₀ mi₁ : Inode}
  {n a : ℤ}

/-- Files on disks with the same indirect blocks have the same pointers. -/
theorem pointer_same (hdata : mi'.data = mi.data) (hbs : fs'.dsb.blockSize = fs.dsb.blockSize)
    (hkept : mi.data.indirect ≠ 0 →
      fs'.dataArea mi.data.indirect = fs.dataArea mi.data.indirect) :
    Pointer fs' mi' a ↔ Pointer fs mi a := by
  have hindex : maxIndex fs' = maxIndex fs := by
    unfold maxIndex
    rw [hbs]
  unfold Pointer
  rw [hdata, hindex]
  refine or_congr_right (or_congr_right ?_)
  constructor
  · rintro ⟨hne, hentry⟩
    rw [hkept hne] at hentry
    exact ⟨hne, hentry⟩
  · rintro ⟨hne, hentry⟩
    rw [← hkept hne] at hentry
    exact ⟨hne, hentry⟩

/-- Blocks were allocated since `fs₀`, and only blocks of the bitmap were written for that. -/
structure Booked (fs₀ fs : Myfs) : Prop where
  used : ∀ a, BlockUsed fs₀ a → BlockUsed fs a
  numbits : fs.bv.numbits = fs₀.bv.numbits
  blockSize : fs.dsb.blockSize = fs₀.dsb.blockSize
  written : ∀ b, ¬BitmapBlock fs₀ b → fs.metaArea b = fs₀.metaArea b

theorem Booked.allocated {addr : ℕ} (h : Booked fs₀ fs) (ha : Allocated fs fs' addr 1) :
    Booked fs₀ fs' := by
  refine ⟨fun a hu => allocated_used_mono ha (h.used a hu), ha.taken.numbits.trans h.numbits,
    ha.blockSize.trans h.blockSize, fun b hb => (ha.written b ?_).trans (h.written b hb)⟩
  have hin := ha.taken.inside
  rw [h.numbits] at hin
  rw [h.blockSize, show 1 / 8 / fs₀.dsb.blockSize = 0 from Nat.zero_div _]
  rintro ⟨hle, hlt⟩
  exact hb ⟨addr, by omega, by omega⟩

theorem Booked.store (h : Booked fs₀ fs) (addr : ℤ) (block : Block) :
    Booked fs₀ (storeBlock fs addr block) := ⟨h.used, h.numbits, h.blockSize, h.written⟩

/-- The stream `mi` has only pointers that `mi₀` has, and blocks that were free. -/
structure Gained (fs₀ : Myfs) (mi₀ : Inode) (fs : Myfs) (mi : Inode) : Prop where
  booked : Booked fs₀ fs
  pointers : ∀ a, Pointer fs mi a → a ≠ 0 → Pointer fs₀ mi₀ a ∨ ¬BlockUsed fs₀ a

theorem Gained.refl (fs : Myfs) (mi : Inode) : Gained fs mi fs mi :=
  ⟨⟨fun _ hu => hu, rfl, rfl, fun _ _ => rfl⟩, fun _ ha _ => .inl ha⟩

/-- A fresh block was free from the start. -/
theorem Gained.fresh {addr : ℕ} (h : Gained fs₀ mi₀ fs mi) (ha : Allocated fs fs' addr 1) :
    ¬BlockUsed fs₀ addr := fun hu => allocated_not_used ha (h.booked.used _ hu)

theorem Gained.step {s t : Myfs × Inode} (hstep : GrowStep n s t) (hd : DiskSound s.1)
    (h : Gained fs₀ mi₀ s.1 s.2) : Gained fs₀ mi₀ t.1 t.2 := by
  cases hstep with
  | @direct fs fs' mi addr i short slot size fresh =>
    refine ⟨h.booked.allocated fresh, ?_⟩
    rintro a (⟨l, hl, ha⟩ | ha | ⟨hne, j, hj, ha⟩) h₀
    · rw [setSize_direct, setDirect_direct] at ha
      by_cases hli : l = i
      · rw [hli, Function.update_self] at ha
        exact .inr (ha ▸ h.fresh fresh)
      · rw [Function.update_of_ne hli] at ha
        exact h.pointers a (.inl ⟨l, hl, ha⟩) h₀
    · exact h.pointers a (.inr (.inl ha)) h₀
    · rw [maxIndex, fresh.blockSize] at hj
      rw [fresh.dataArea] at ha
      exact h.pointers a (.inr (.inr ⟨hne, j, hj, ha⟩)) h₀
  | @indirect fs fs' mi addr short size hnone fresh =>
    refine ⟨(h.booked.allocated fresh).store _ _, ?_⟩
    rintro a (⟨l, hl, ha⟩ | ha | ⟨-, j, hj, ha⟩) h₀
    · exact h.pointers a (.inl ⟨l, hl, ha⟩) h₀
    · exact .inr (ha ▸ h.fresh fresh)
    · rw [setIndirect_indirect, storeBlock_dataArea, Function.update_self] at ha
      exact absurd (ha.symm.trans (blockEntry_zero j)) h₀
  | @entry fs fs' mi addr j short slot size hsome fresh =>
    refine ⟨(h.booked.allocated fresh).store _ _, ?_⟩
    rintro a (⟨l, hl, ha⟩ | ha | ⟨-, l, hl, ha⟩) h₀
    · exact h.pointers a (.inl ⟨l, hl, ha⟩) h₀
    · exact h.pointers a (.inr (.inl ha)) h₀
    · rw [setSize_indirect, storeBlock_dataArea, Function.update_self] at ha
      rw [storeBlock_maxIndex, maxIndex, fresh.blockSize] at hl
      by_cases hlj : l = j
      · have hin := fresh.taken.inside
        have hint : fs.bv.numbits < 2 ^ 31 := hd.int32
        rw [hlj, blockEntry_put_self _ _ (by omega) (by omega)] at ha
        exact .inr (ha ▸ h.fresh fresh)
      · rw [blockEntry_put_ne _ _ hlj] at ha
        exact h.pointers a (.inr (.inr ⟨hsome, l, hl, ha⟩)) h₀

/-- A growth takes free blocks. -/
theorem growDstream_gained (h : Sound w) (hlt : (w.files f).data.size < n)
    (hg : growDstream w.fs (w.files f) n = .ok (0, mi₁, fs₁)) :
    Gained w.fs (w.files f) fs₁ mi₁ := by
  obtain ⟨-, -, -, hgained, -⟩ := growDstream_keeps (Q := Gained w.fs (w.files f))
    (fun fs mi size _ hq => ⟨hq.booked, hq.pointers⟩)
    (fun s t hstep hd _ hq => hq.step hstep hd) h.disk (h.shape f) (.refl _ _) hlt hg
  exact hgained

end Metadata

section Files
variable {ι : Type} {w : FileTable ι} {f : ι} {fs₁ : Myfs} {mi₁ : Inode} {n : ℤ}

theorem held_ne_zero {fs : Myfs} {mi : Inode} (h : StreamShape fs mi) {p : Place}
    (hp : held fs mi p) : placeAddr fs mi p ≠ 0 := by
  cases p with
  | direct i => exact (h.direct i hp.1).2 hp.2
  | indirect => exact hp
  | entry j =>
    have hlt := lt_of_lt_of_le (show _ < mi.data.size from hp) h.bounded
    rw [maxIndirectRange_eq] at hlt
    have := lt_of_mul_lt_mul_right hlt (by positivity)
    exact h.entry j (by omega) hp

/-- The places of the files, the indirect one of `f` apart, are not the indirect block of `f`. -/
theorem held_ne_indirect (h : Sound w) (ha : HeldOnce w.fs w.files) {g : ι} {p : Place}
    (hp : held w.fs (w.files g) p) (hne : ¬(g = f ∧ p = .indirect)) :
    placeAddr w.fs (w.files g) p ≠ (w.files f).data.indirect := by
  intro heq
  by_cases h0 : (w.files f).data.indirect = 0
  · exact held_ne_zero (h.shape g) hp (heq.trans h0)
  · have := ha.once (g, p) (f, .indirect) hp h0 heq
    exact hne ⟨congrArg Prod.fst this, congrArg Prod.snd this⟩

/-- A growth of `f` leaves what the places of all files hold, its indirect block apart. -/
theorem GrownFrom.kept (h : Sound w) (ha : HeldOnce w.fs w.files)
    (hg : GrownFrom w.fs (w.files f) fs₁ mi₁) {g : ι} {p : Place} (hp : held w.fs (w.files g) p)
    (hne : ¬(g = f ∧ p = .indirect)) : fs₁.dataArea (placeAddr w.fs (w.files g) p) =
      w.fs.dataArea (placeAddr w.fs (w.files g) p) :=
  hg.data _ (ha.marked (g, p) hp) (held_ne_indirect h ha hp hne)

theorem GrownFrom.blockAddr (hg : GrownFrom w.fs (w.files f) fs₁ mi₁) {i : ℕ}
    (hi : (i * w.fs.dsb.blockSize : ℤ) < (w.files f).data.size) :
    blockAddr fs₁ mi₁ i = blockAddr w.fs (w.files f) i := by
  unfold StreamContents.blockAddr
  by_cases h6 : i < numDirectBlocks
  · rw [if_pos h6, if_pos h6, hg.direct i h6 hi]
  · rw [if_neg h6, if_neg h6, hg.entry _ (by rwa [Nat.add_sub_cancel' (by omega)])]

/-- No file loses or changes a byte when `f` grows. -/
theorem GrownFrom.bytes [DecidableEq ι] (h : Sound w) (ha : HeldOnce w.fs w.files)
    (hg : GrownFrom w.fs (w.files f) fs₁ mi₁) (g : ι) {p : ℕ}
    (hp : (p : ℤ) < (w.files g).data.size) :
    fileByte fs₁ (if g = f then mi₁ else w.files g) p = fileByte w.fs (w.files g) p := by
  by_cases hgf : g = f
  · subst hgf
    have hslot := slot_below w.fs hp
    have hdata := hg.kept h ha (held_placeOf hslot) fun hc => by
      have := hc.2
      unfold placeOf at this
      split at this <;> cases this
    rw [placeAddr_placeOf] at hdata
    rw [if_pos rfl]
    unfold fileByte
    rw [hg.blockSize, hg.blockAddr hslot, hdata]
  · rw [if_neg hgf]
    exact fileByte_of_places hg.blockSize (h.shape g).needed
      (fun p hp => hg.kept h ha hp fun hc => hgf hc.1) hp

theorem sameHost_step {newSize : ℤ} {s t : Myfs × Inode} (hstep : GrowStep newSize s t) :
    StreamDeletion.SameHost s.1 t.1 := by
  cases hstep with
  | direct _ _ _ fresh => exact .allocated fresh
  | indirect _ _ _ fresh =>
    exact (StreamDeletion.SameHost.allocated fresh).trans
      (StreamDeletion.SameBooks.store _ _ _).host
  | entry _ _ _ _ fresh =>
    exact (StreamDeletion.SameHost.allocated fresh).trans
      (StreamDeletion.SameBooks.store _ _ _).host

theorem sameHost_steps {newSize : ℤ} {s t : Myfs × Inode} (hrun : GrowSteps newSize s t) :
    StreamDeletion.SameHost s.1 t.1 := by
  induction hrun with
  | refl => exact .refl _
  | tail _ hstep ih => exact ih.trans (sameHost_step hstep)

/-- What a growth of `f` gives, next to the invariants of the files. -/
theorem grown (h : Sound w) (hlt : (w.files f).data.size < n)
    (hg : growDstream w.fs (w.files f) n = .ok (0, mi₁, fs₁)) :
    GrownFrom w.fs (w.files f) fs₁ mi₁ ∧ StreamDeletion.SameHost w.fs fs₁ ∧
      mi₁.inodeNum = (w.files f).inodeNum ∧ mi₁.data.size = n := by
  obtain ⟨k, hb⟩ := h.disk.pow
  have hpos := h.disk.blockSize_pos
  obtain ⟨_, _, hsize, hfrom, _⟩ := growDstream_keeps (Q := GrownFrom w.fs (w.files f))
    (fun fs mi size hsame hq => hq.resize hsame)
    (fun s t hstep _ _ hq => hq.step hstep (h.shape f).needed hpos) h.disk (h.shape f)
    (GrownFrom.refl _ _) hlt hg
  obtain ⟨m, mi'', _, _, rfl, _, _, hrun⟩ :=
    growDstream_steps hb (h.shape f).nonneg hlt h.disk.zero hg
  exact ⟨hfrom, sameHost_steps hrun, StreamDeletion.GrowSteps.inodeNum hrun, hsize⟩

theorem fileByte_same {fs fs' : Myfs} {mi mi' : Inode} (hsame : SameBlocks fs fs')
    (hmi : mi'.data = mi.data) (p : ℕ) : fileByte fs' mi' p = fileByte fs mi p := by
  unfold fileByte blockAddr
  rw [hsame.dataArea, hsame.blockSize, hmi]

/-- The blocks that are written as metadata in a call on `f` are marked, and no file has one of
them: on the one disk a write to the one area does not show in the other. -/
structure MetadataApart (w : FileTable ι) (f : ι) : Prop where
  reserved : StreamDeletion.Reserved w.fs (w.files f).inodeNum
  unmapped : ∀ g a, Pointer w.fs (w.files g) a → a ≠ 0 → ¬MetaBlock w.fs (w.files f).inodeNum a

/-- What can be said once the stream of `f` is long enough for the write. -/
structure Prepared [DecidableEq ι] (w : FileTable ι) (f : ι) (n : ℤ) (fs₁ : Myfs) (mi₁ : Inode) :
    Prop where
  sound : Sound (w.store f mi₁ fs₁)
  held : HeldOnce fs₁ (w.store f mi₁ fs₁).files
  size : mi₁.data.size = max (w.files f).data.size n
  host : StreamDeletion.SameHost w.fs fs₁
  inodeNum : mi₁.inodeNum = (w.files f).inodeNum
  bytes : ∀ g, ∀ p : ℕ, (p : ℤ) < (w.files g).data.size →
    fileByte fs₁ ((w.store f mi₁ fs₁).files g) p = fileByte w.fs (w.files g) p
  metaArea : ∀ b, ¬MetaBlock w.fs (w.files f).inodeNum b → fs₁.metaArea b = w.fs.metaArea b
  apart : MetadataApart w f → MetadataApart (w.store f mi₁ fs₁) f

theorem store_files [DecidableEq ι] (w : FileTable ι) (f g : ι) (mi : Inode) (fs : Myfs) :
    (w.store f mi fs).files g = if g = f then mi else w.files g :=
  Function.update_apply w.files f mi g

theorem store_store [DecidableEq ι] (w : FileTable ι) (f : ι) (mi mi' : Inode) (fs fs' : Myfs) :
    (w.store f mi fs).store f mi' fs' = w.store f mi' fs' := by
  simp [FileTable.store]

/-- A call that keeps the marks and gives `f` no blocks but its own and free ones. -/
theorem MetadataApart.store [DecidableEq ι] (h : MetadataApart w f)
    (hhost : StreamDeletion.SameHost w.fs fs₁) (hnum : mi₁.inodeNum = (w.files f).inodeNum)
    (hused : ∀ a, BlockUsed w.fs a → BlockUsed fs₁ a)
    (hself : ∀ a, Pointer fs₁ mi₁ a → a ≠ 0 → Pointer w.fs (w.files f) a ∨ ¬BlockUsed w.fs a)
    (hothers : ∀ g, g ≠ f → (w.files g).data.indirect ≠ 0 →
      fs₁.dataArea (w.files g).data.indirect = w.fs.dataArea (w.files g).data.indirect) :
    MetadataApart (w.store f mi₁ fs₁) f := by
  have hfile : (w.store f mi₁ fs₁).files f = mi₁ := by rw [store_files, if_pos rfl]
  constructor
  · intro b hb
    rw [hfile, hnum] at hb
    exact hused b (h.reserved b ((hhost.metaBlock _ b).mp hb))
  · intro g a ha hne hmeta
    rw [hfile, hnum] at hmeta
    have hmeta₀ := (hhost.metaBlock _ a).mp hmeta
    rw [store_files] at ha
    split at ha
    · rcases hself a ha hne with hold | hfree
      · exact h.unmapped f a hold hne hmeta₀
      · exact hfree (h.reserved a hmeta₀)
    · rename_i hgf
      exact h.unmapped g a ((pointer_same rfl hhost.blockSize (hothers g hgf)).mp ha) hne hmeta₀

/-- A call that leaves the maps of all files. -/
theorem MetadataApart.kept [DecidableEq ι] (h : MetadataApart w f)
    (hhost : StreamDeletion.SameHost w.fs fs₁) (hnum : mi₁.inodeNum = (w.files f).inodeNum)
    (hdata : mi₁.data = (w.files f).data) (hbv : fs₁.bv = w.fs.bv)
    (hmap : ∀ g, (w.files g).data.indirect ≠ 0 →
      fs₁.dataArea (w.files g).data.indirect = w.fs.dataArea (w.files g).data.indirect) :
    MetadataApart (w.store f mi₁ fs₁) f := by
  refine h.store hhost hnum (fun a hu => ?_) (fun a ha _ => .inl ?_) fun g _ => hmap g
  · rwa [BlockUsed, hbv]
  · exact (pointer_same hdata hhost.blockSize (hmap f)).mp ha

theorem growForWrite_prepared [DecidableEq ι] (h : Sound w) (ha : HeldOnce w.fs w.files)
    (hin : Accepted w.fs (w.files f).inodeNum) (hmax : n ≤ maxIndirectRange w.fs.dsb.blockSize)
    (hsup : Supplies (blocksNeeded w.fs (w.files f) n) w.fs) :
    ∃ mi₁ fs₁, growForWrite w.fs (w.files f) n = .ok (0, mi₁, fs₁) ∧ Prepared w f n fs₁ mi₁ := by
  unfold growForWrite
  by_cases hlt : (w.files f).data.size < n
  · obtain ⟨k, hb⟩ := h.disk.pow
    obtain ⟨⟨err, mi₂, fs₂⟩, hgrow, herr⟩ := growDstream_supply hb (h.shape f).nonneg hlt hmax
      fun i hi hle => by
        by_contra hne
        exact absurd (((h.shape f).direct i hi).1 hne) (not_lt.2 hle)
    obtain rfl : err = 0 := herr.2 hsup
    obtain ⟨hfrom, hhost, hnum, hsize⟩ := grown h hlt hgrow
    obtain ⟨fs₃, hupd, hbooks, _⟩ := StreamDeletion.updateInode_returns hhost
      { mi₂ with lastModifiedTime := fs₂.now } (by rw [show _ = _ from hnum]; exact hin)
    have hsame : SameBlocks fs₂ (writeSuperBlock fs₃) :=
      ⟨(updateInode_same hupd).dataArea, (updateInode_same hupd).bv,
        (updateInode_same hupd).blockSize⟩
    have hdata : ({ mi₂ with lastModifiedTime := fs₂.now } : Inode).data = mi₂.data := rfl
    obtain ⟨hsound, hheld, hsize'⟩ := grow_sound h ha hlt hgrow hsame hdata
    have hgained := growDstream_gained h hlt hgrow
    have hhost' := hhost.trans (hbooks.host.trans (StreamDeletion.SameBooks.superBlock fs₃).host)
    refine ⟨{ mi₂ with lastModifiedTime := fs₂.now }, writeSuperBlock fs₃, ?_, hsound, hheld, ?_,
      hhost', hnum, fun g p hp => ?_, fun b hb => ?_, fun hapart => ?_⟩
    · rw [if_pos hlt, hgrow]
      dsimp only [Except.bind]
      rw [if_neg (by decide), hupd]
      rfl
    · rw [hsize', max_eq_right hlt.le]
    · rw [← hfrom.bytes h ha g hp, store_files]
      split
      · exact fileByte_same hsame rfl p
      · exact fileByte_same hsame rfl p
    · have hrecord : b ≠ recordBlock fs₂ mi₂.inodeNum := by
        unfold recordBlock
        rw [hhost.inodesStart, hhost.blockSize, hnum]
        exact fun he => hb (.inr (.inr he))
      refine (StreamDeletion.updateInode_other hupd hrecord).trans ?_
      exact hgained.booked.written b fun hbitmap => hb (.inr (.inl hbitmap))
    · refine hapart.store hhost' hnum (fun a hu => ?_) (fun a ha' hne => ?_) fun g hne hind => ?_
      · rw [BlockUsed, hsame.bv]
        exact hgained.booked.used a hu
      · rw [pointer_same hdata hsame.blockSize fun _ => by rw [hsame.dataArea]] at ha'
        exact hgained.pointers a ha' hne
      · rw [hsame.dataArea]
        exact GrownFrom.kept h ha hfrom (p := .indirect) hind fun heq => hne heq.1
  · rw [if_neg hlt]
    refine ⟨w.files f, w.fs, rfl, ?_⟩
    have hself := store_self w f
    refine ⟨by rwa [hself], by rwa [hself], (max_eq_left (not_lt.1 hlt)).symm, .refl _, rfl, ?_,
      fun _ _ => rfl, fun hapart => by rwa [hself]⟩
    intro g p _
    rw [hself]

/-- No place of another file names a data block of `f`. -/
theorem not_dataAddr_of_held (ha : HeldOnce w.fs w.files) {g : ι} {p : Place}
    (hp : held w.fs (w.files g) p) (hne : g ≠ f) :
    ¬DataAddr w.fs (w.files f) (placeAddr w.fs (w.files g) p) := by
  rintro (⟨i, hi, hlt, he⟩ | ⟨j, hj, hlt, he⟩)
  · have := ha.once (g, p) (f, .direct i) hp ⟨hi, hlt⟩ he.symm
    exact hne (congrArg Prod.fst this)
  · have := ha.once (g, p) (f, .entry j) hp hlt he.symm
    exact hne (congrArg Prod.fst this)

/-- Bytes inside `f` are overwritten: those of the request get there, and no other byte of any
file changes. -/
theorem overwrite (h : Sound w) (ha : HeldOnce w.fs w.files)
    (hcover : (w.fs.bv.numbits : ℤ) ≤ w.fs.dsb.numBlocks) {q len : ℕ} (buf : ℕ → UInt8)
    (hlen : 0 < len) (hend : (q + len : ℤ) ≤ (w.files f).data.size) :
    ∃ fs', writeBytes w.fs (w.files f) q buf len = .ok (0, len, fs') ∧
      fs' = { w.fs with dataArea := fs'.dataArea } ∧
      (∀ p : ℕ, (p : ℤ) < (w.files f).data.size → fileByte fs' (w.files f) p =
        if q ≤ p ∧ p < q + len then buf (p - q) else fileByte w.fs (w.files f) p) ∧
      (∀ g, g ≠ f → ∀ p : ℕ, (p : ℤ) < (w.files g).data.size →
        fileByte fs' (w.files g) p = fileByte w.fs (w.files g) p) ∧
      ∀ g, (w.files g).data.indirect ≠ 0 →
        fs'.dataArea (w.files g).data.indirect = w.fs.dataArea (w.files g).data.indirect := by
  have hb := h.disk.blockSize_pos
  obtain ⟨fs', hrun, hover⟩ := writeBytes_writes buf
    (StreamShape.streamMapped (h.shape f) hb hcover)
    (HeldOnce.blocksApart ha (h.shape f)) hlen hend
  have hapart : IndirectApart w.fs (w.files f) := fun hlt hd =>
    dataAddr_ne_indirect ha hd ((h.shape f).needed hlt) rfl
  have hwritten : DataWritten w.fs fs' (w.files f) :=
    writeBytes_written hb (h.shape f).bounded hapart (Int.natCast_nonneg q) hlen hend hrun
  refine ⟨fs', hrun, hwritten.frame, hover.bytes, fun g hne p hp => ?_, fun g hne => ?_⟩
  · exact fileByte_of_places hover.blockSize (h.shape g).needed
      (fun p hp => hwritten.others _ (not_dataAddr_of_held ha hp hne)) hp
  · exact hwritten.others _ fun hd => dataAddr_ne_indirect ha hd hne rfl

end Files

theorem twoFiles_apart : MetadataApart twoFiles 0 := by
  constructor
  · have hnum : twoFiles.fs.bv.numbits = 16 := by decide +kernel
    have hsize : twoFiles.fs.dsb.blockSize = 512 := by decide +kernel
    intro b hb
    rcases hb with rfl | ⟨p, hp, rfl⟩ | hrecord
    · exact ⟨le_rfl, by decide +kernel⟩
    · have hzero : p / 8 / twoFiles.fs.dsb.blockSize = 0 := by
        rw [hsize]
        omega
      rw [hzero]
      exact ⟨by decide, by decide +kernel⟩
    · rw [hrecord]
      exact ⟨by decide +kernel, by decide +kernel⟩
  · rintro g a (⟨i, _, rfl⟩ | rfl | ⟨hne, _⟩) h₀
    · exact absurd rfl h₀
    · exact absurd rfl h₀
    · exact absurd rfl hne

end StreamWriting
