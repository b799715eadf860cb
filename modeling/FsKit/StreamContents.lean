import Mathlib.Tactic
import FsKit.FileBlockOwnership

/-! The bytes of a file (`dstream.c`): byte `p` is in the block that the map of the file has for
it. Reading and writing are compared with this view; both look an address up before they know
whether there is a byte to copy. -/
namespace StreamContents

open BitVectorSearch BlockBitmap InodeTable LittleEndian DataStreamBlocks

section Bytes
variable {fs : Myfs} {mi : Inode}

/-- The address in slot `i` of the block map. -/
def blockAddr (fs : Myfs) (mi : Inode) (i : ℕ) : ℤ :=
  if i < numDirectBlocks then mi.data.direct i
  else blockEntry (fs.dataArea mi.data.indirect) (i - numDirectBlocks)

/-- Byte `p` of the file. -/
def fileByte (fs : Myfs) (mi : Inode) (p : ℕ) : UInt8 :=
  fs.dataArea (blockAddr fs mi (p / fs.dsb.blockSize)) (p % fs.dsb.blockSize)

/-- The block map agrees with the size: every block below it is a valid one. -/
structure Mapped (fs : Myfs) (mi : Inode) : Prop where
  blockSize : 0 < fs.dsb.blockSize
  nonneg : 0 ≤ mi.data.size
  bounded : mi.data.size ≤ maxIndirectRange fs.dsb.blockSize
  blocks : ∀ i : ℕ, (i * fs.dsb.blockSize : ℤ) < mi.data.size →
    0 < blockAddr fs mi i ∧ blockAddr fs mi i < fs.dsb.numBlocks

theorem filePosToDiskAddr_slot (hb : 0 < fs.dsb.blockSize) {p : ℕ}
    (hp : (p : ℤ) < maxIndirectRange fs.dsb.blockSize) :
    filePosToDiskAddr fs mi p = checkAddr fs (blockAddr fs mi (p / fs.dsb.blockSize)) := by
  have hdiv : ((p : ℤ) / fs.dsb.blockSize).toNat = p / fs.dsb.blockSize := by
    rw [← Int.natCast_div, Int.toNat_natCast]
  unfold filePosToDiskAddr blockAddr
  dsimp only
  by_cases hdir : (p : ℤ) < directSize fs.dsb.blockSize
  · have hslot : p / fs.dsb.blockSize < numDirectBlocks := by
      rw [Nat.div_lt_iff_lt_mul hb]
      unfold directSize at hdir
      exact_mod_cast hdir
    rw [if_pos hdir, if_pos hslot, hdiv]
  · have hslot : numDirectBlocks ≤ p / fs.dsb.blockSize := by
      rw [Nat.le_div_iff_mul_le hb]
      unfold directSize at hdir
      exact_mod_cast not_lt.1 hdir
    have hentry : (((p : ℤ) - directSize fs.dsb.blockSize) / fs.dsb.blockSize).toNat =
        p / fs.dsb.blockSize - numDirectBlocks := by
      unfold directSize
      rw [Int.sub_mul_ediv_right _ _ (by omega), ← Int.natCast_div]
      omega
    rw [if_neg hdir, if_pos hp, if_neg (by omega), hentry]

theorem checkAddr_valid {a : ℤ} (h₀ : 0 ≤ a) (h₁ : a ≤ fs.dsb.numBlocks) : checkAddr fs a = .ok a :=
  if_neg (by omega)

/-- A position below the size is looked up. -/
theorem Mapped.addr (h : Mapped fs mi) {p : ℕ} (hp : (p : ℤ) < mi.data.size) :
    filePosToDiskAddr fs mi p = .ok (blockAddr fs mi (p / fs.dsb.blockSize)) ∧
      0 < blockAddr fs mi (p / fs.dsb.blockSize) := by
  have hle : ((p / fs.dsb.blockSize * fs.dsb.blockSize : ℕ) : ℤ) ≤ p := by
    exact_mod_cast Nat.div_mul_le_self p fs.dsb.blockSize
  obtain ⟨hpos, hlt⟩ := h.blocks (p / fs.dsb.blockSize) (by push_cast at hle ⊢; omega)
  rw [filePosToDiskAddr_slot h.blockSize (lt_of_lt_of_le hp h.bounded)]
  exact ⟨checkAddr_valid hpos.le hlt.le, hpos⟩

theorem div_mod_inside {b p k : ℕ} (hk : p % b + k < b) :
    (p + k) / b = p / b ∧ (p + k) % b = p % b + k := by
  have hb : 0 < b := by omega
  rw [show p + k = b * (p / b) + (p % b + k) by have := Nat.div_add_mod p b; omega]
  constructor
  · rw [Nat.mul_add_div hb, Nat.div_eq_of_lt hk, Nat.add_zero]
  · rw [Nat.mul_add_mod, Nat.mod_eq_of_lt hk]

/-- Positions in one block have their bytes side by side. -/
theorem fileByte_inside {p k : ℕ} (hk : p % fs.dsb.blockSize + k < fs.dsb.blockSize) :
    fileByte fs mi (p + k) =
      fs.dataArea (blockAddr fs mi (p / fs.dsb.blockSize)) (p % fs.dsb.blockSize + k) := by
  obtain ⟨hdiv, hmod⟩ := div_mod_inside hk
  rw [fileByte, hdiv, hmod]

end Bytes

section Reading
variable {fs : Myfs} {mi : Inode}

/-- The loop copies the rest of the request, a block a round. `q` is where the request starts,
and the loop is entered with `count` bytes of it done, at a block boundary. -/
theorem readLoop_reads (h : Mapped fs mi) {q len : ℕ} (hend : (q + len : ℤ) ≤ mi.data.size)
    (fuel count : ℕ) (out : ℕ → UInt8) (hfuel : len ≤ fuel + count) (hcount : count ≤ len)
    (halign : count < len → (q + count) % fs.dsb.blockSize = 0)
    (hout : ∀ k < count, out k = fileByte fs mi (q + k)) :
    ∃ out', readLoop fs mi len fuel (q + count : ℕ) count out = .ok (0, len, out') ∧
      (∀ k < len, out' k = fileByte fs mi (q + k)) ∧ ∀ k, len ≤ k → out' k = out k := by
  induction fuel generalizing count out with
  | zero =>
    obtain rfl : count = len := by omega
    exact ⟨out, rfl, hout, fun _ _ => rfl⟩
  | succ fuel ih =>
    have hb := h.blockSize
    rw [readLoop]
    by_cases hdone : len ≤ count
    · obtain rfl : count = len := by omega
      rw [if_pos le_rfl]
      exact ⟨out, rfl, hout, fun _ _ => rfl⟩
    rw [if_neg hdone]
    obtain ⟨haddr, hpos⟩ := h.addr (p := q + count) (by push_cast; omega)
    rw [haddr]
    dsimp only [Except.bind]
    rw [if_neg (by omega)]
    generalize hamt : (if len - count < fs.dsb.blockSize then len - count
      else fs.dsb.blockSize) = amt
    have hle : amt ≤ fs.dsb.blockSize ∧ 0 < amt ∧ count + amt ≤ len ∧
        (count + amt < len → amt = fs.dsb.blockSize) := by
      split at hamt <;> omega
    have hbytes : ∀ k < amt, fs.dataArea (blockAddr fs mi ((q + count) / fs.dsb.blockSize)) k =
        fileByte fs mi (q + count + k) := by
      intro k hk
      have hzero := halign (by omega)
      rw [fileByte_inside (by omega), hzero, Nat.zero_add]
    obtain ⟨out', hrun, hbelow, habove⟩ := ih (count + amt)
      (copyInto out count amt (fs.dataArea (blockAddr fs mi ((q + count) / fs.dsb.blockSize))))
      (by omega) (by omega) (fun hlt => by
        rw [hle.2.2.2 hlt, ← Nat.add_assoc, Nat.add_mod_right, halign (by omega)])
      (fun k hk => by
        unfold copyInto
        by_cases hin : count ≤ k
        · rw [if_pos (by omega), hbytes _ (by omega), show q + count + (k - count) = q + k by omega]
        · rw [if_neg (by omega), hout k (by omega)])
    refine ⟨out', ?_, hbelow, fun k hk => ?_⟩
    · rw [← hrun]
      push_cast
      rw [add_assoc]
    · rw [habove k hk]
      exact if_neg (by omega)

/-- The number of bytes that a read of `len` bytes from `p` on can get. -/
def readable (mi : Inode) (p len : ℕ) : ℕ := min len (mi.data.size - p).toNat

/-- The call returns 0 and `*_len` is the number of readable bytes; these stand in the buffer,
and the rest of the buffer is as it was. -/
def ReadsFile (fs : Myfs) (mi : Inode) (p : ℕ) (buf : ℕ → UInt8) (len : ℕ) : Prop :=
  ∃ out, myfsReadDataStream fs mi p buf len = .ok (0, readable mi p len, out) ∧
    (∀ k < readable mi p len, out k = fileByte fs mi (p + k)) ∧
    ∀ k, readable mi p len ≤ k → out k = buf k

/-- Before the end of the file the read is right. -/
theorem readsFile_below (h : Mapped fs mi) {p : ℕ} (buf : ℕ → UInt8) (len : ℕ)
    (hp : (p : ℤ) < mi.data.size) (hlen : 0 < len) : ReadsFile fs mi p buf len := by
  have hb := h.blockSize
  obtain ⟨haddr, hpos⟩ := h.addr hp
  have hcut : (if mi.data.size < (p : ℤ) + len then (mi.data.size - p).toNat else len) =
      readable mi p len := by
    unfold readable
    split <;> omega
  have hend : (p + readable mi p len : ℤ) ≤ mi.data.size := by
    unfold readable
    omega
  unfold ReadsFile myfsReadDataStream
  dsimp only
  rw [if_neg (by omega), if_neg (by omega), if_neg (by omega), hcut, haddr]
  dsimp only [Except.bind]
  rw [if_neg (by omega)]
  generalize readable mi p len = n at hend ⊢
  have hmod : ((p : ℤ) % fs.dsb.blockSize).toNat = p % fs.dsb.blockSize := by
    rw [← Int.natCast_mod, Int.toNat_natCast]
  have hlt := Nat.mod_lt p hb
  by_cases haligned : (p : ℤ) % fs.dsb.blockSize = 0
  · rw [if_neg (not_not_intro haligned)]
    exact readLoop_reads h hend n 0 buf (by omega) (by omega)
      (fun _ => by rw [Nat.add_zero]; exact_mod_cast haligned) (fun k hk => by omega)
  · rw [if_pos haligned, hmod]
    generalize hamt : (if n < fs.dsb.blockSize - p % fs.dsb.blockSize then n
      else fs.dsb.blockSize - p % fs.dsb.blockSize) = amt
    have hle : amt ≤ n ∧ p % fs.dsb.blockSize + amt ≤ fs.dsb.blockSize ∧
        (amt < n → amt = fs.dsb.blockSize - p % fs.dsb.blockSize) := by
      split at hamt <;> omega
    obtain ⟨out, hrun, hbelow, habove⟩ := readLoop_reads h hend n amt
      (copyInto buf 0 amt fun k => fs.dataArea (blockAddr fs mi (p / fs.dsb.blockSize))
        (p % fs.dsb.blockSize + k)) (by omega) hle.1
      (fun hlt' => by
        have hp := Nat.div_add_mod p fs.dsb.blockSize
        have : p + amt = fs.dsb.blockSize * (p / fs.dsb.blockSize) + fs.dsb.blockSize := by
          rw [hle.2.2 hlt']
          omega
        rw [this, Nat.add_mod_right, Nat.mul_mod_right])
      (fun k hk => by
        unfold copyInto
        rw [if_pos (by omega), fileByte_inside (by omega), Nat.sub_zero])
    refine ⟨out, ?_, hbelow, fun k hk => ?_⟩
    · rw [← hrun]
      push_cast
      rfl
    · rw [habove k hk]
      exact if_neg (by omega)

/-- The slot of the block map behind the last byte holds an address. -/
def EndSlotValid (fs : Myfs) (mi : Inode) : Prop :=
  let slot := (mi.data.size / fs.dsb.blockSize).toNat
  mi.data.size < maxIndirectRange fs.dsb.blockSize ∧ 0 ≤ blockAddr fs mi slot ∧
    blockAddr fs mi slot ≤ fs.dsb.numBlocks

/-- The read asks for bytes at the end of a file that fills its last block, and what the map
has in the next slot is no address. -/
def ReadsBadSlot (fs : Myfs) (mi : Inode) (p len : ℕ) : Prop :=
  0 < len ∧ (p : ℤ) = mi.data.size ∧ mi.data.size % fs.dsb.blockSize = 0 ∧ ¬EndSlotValid fs mi

/-- The address that is looked up behind the end of the indirect range is never used. -/
theorem filePosToDiskAddr_beyond (mi : Inode) {p : ℕ}
    (hp : maxIndirectRange fs.dsb.blockSize ≤ (p : ℤ)) :
    filePosToDiskAddr fs mi p = .ok (-1) ∨ filePosToDiskAddr fs mi p = .error .myfsDie := by
  have hdir : directSize fs.dsb.blockSize ≤ maxIndirectRange fs.dsb.blockSize := by
    unfold maxIndirectRange indirectSize
    have : (0 : ℤ) ≤ fs.dsb.blockSize / 8 * fs.dsb.blockSize := by positivity
    omega
  unfold filePosToDiskAddr
  dsimp only
  rw [if_neg (by omega), if_neg (by omega)]
  split
  · unfold checkAddr
    split
    · exact Or.inr rfl
    · exact Or.inl rfl
  · exact Or.inl rfl

/-- What a read at the end of the file does: it is done as soon as the lookup comes back. -/
theorem read_at_end {p : ℕ} (buf : ℕ → UInt8) {len : ℕ} (hlen : 0 < len)
    (hp : (p : ℤ) = mi.data.size) :
    myfsReadDataStream fs mi p buf len = (filePosToDiskAddr fs mi p).bind fun addr =>
      if addr < 0 then .ok (EINVAL, 0, buf) else .ok (0, 0, buf) := by
  unfold myfsReadDataStream
  dsimp only
  rw [if_neg (by omega), if_neg (by omega), if_neg (by omega), if_pos (by omega),
    show (mi.data.size - p).toNat = 0 by omega]
  have hnone : ∀ src : ℕ → UInt8, copyInto buf 0 0 src = buf := fun src =>
    funext fun i => if_neg (by omega)
  have hamt : (if 0 < fs.dsb.blockSize - ((p : ℤ) % fs.dsb.blockSize).toNat then 0
      else fs.dsb.blockSize - ((p : ℤ) % fs.dsb.blockSize).toNat) = 0 := by
    split <;> omega
  rw [hamt]
  congr 1
  funext addr
  rw [hnone]
  split
  · rfl
  · split <;> rfl

/-- At the end of the file the lookup gives an address unless it meets a slot without one. -/
theorem endSlot_lookup_iff (h : Mapped fs mi) {p len : ℕ} (hlen : 0 < len)
    (hp : (p : ℤ) = mi.data.size) :
    (∃ a, filePosToDiskAddr fs mi p = .ok a ∧ 0 ≤ a) ↔ ¬ReadsBadSlot fs mi p len := by
  have hb := h.blockSize
  have hslot : (mi.data.size / fs.dsb.blockSize).toNat = p / fs.dsb.blockSize := by
    rw [← hp, ← Int.natCast_div, Int.toNat_natCast]
  by_cases hin : (p : ℤ) < maxIndirectRange fs.dsb.blockSize
  · have hlookup : (∃ a, filePosToDiskAddr fs mi p = .ok a ∧ 0 ≤ a) ↔ EndSlotValid fs mi := by
      rw [filePosToDiskAddr_slot hb hin]
      unfold EndSlotValid checkAddr
      dsimp only
      rw [hslot, ← hp]
      constructor
      · rintro ⟨a, hok, _⟩
        split at hok
        · cases hok
        · exact ⟨hin, by omega, by omega⟩
      · rintro ⟨_, h₀, h₁⟩
        exact ⟨_, if_neg (by omega), h₀⟩
    rw [hlookup]
    constructor
    · exact fun hvalid hbad => hbad.2.2.2 hvalid
    · intro hgood
      by_contra hinvalid
      -- Inside its last block the file has a slot of its own for the position.
      have hmod : mi.data.size % fs.dsb.blockSize ≠ 0 := fun hz => hgood ⟨hlen, hp, hz, hinvalid⟩
      have hlt : ((p / fs.dsb.blockSize : ℕ) * fs.dsb.blockSize : ℤ) < mi.data.size := by
        have hsum := Int.mul_ediv_add_emod mi.data.size fs.dsb.blockSize
        have hnonneg := Int.emod_nonneg mi.data.size (show (fs.dsb.blockSize : ℤ) ≠ 0 by omega)
        rw [Int.natCast_div, hp, mul_comm]
        omega
      obtain ⟨hpos, hle⟩ := h.blocks _ hlt
      apply hinvalid
      unfold EndSlotValid
      dsimp only
      rw [hslot, ← hp]
      exact ⟨hin, hpos.le, hle.le⟩
  · have hbound := h.bounded
    have hbad : ReadsBadSlot fs mi p len := by
      refine ⟨hlen, hp, ?_, fun hvalid => hin (by rw [hp]; exact hvalid.1)⟩
      rw [show mi.data.size = maxIndirectRange fs.dsb.blockSize by omega]
      unfold maxIndirectRange indirectSize directSize
      rw [← add_mul]
      exact Int.mul_emod_left _ _
    refine iff_of_false ?_ (not_not_intro hbad)
    rintro ⟨a, hok, ha⟩
    rcases filePosToDiskAddr_beyond mi (not_lt.1 hin) with hneg | hdie
    · rw [hneg] at hok
      cases hok
      omega
    · rw [hdie] at hok
      cases hok

/-- A read returns the bytes of the file exactly if it is not one at the end of a file that
fills its last block, where the slot behind it would have to hold an address. -/
theorem read_returns_bytes_iff (fs : Myfs) (mi : Inode) (h : Mapped fs mi) (p : ℕ)
    (buf : ℕ → UInt8) (len : ℕ) : ReadsFile fs mi p buf len ↔ ¬ReadsBadSlot fs mi p len := by
  have hb := h.blockSize
  rcases Nat.eq_zero_or_pos len with rfl | hlen
  · have hzero : readable mi p 0 = 0 := Nat.zero_min _
    refine iff_of_true ⟨buf, ?_, fun k hk => by omega, fun _ _ => rfl⟩ fun hbad => by
      exact absurd hbad.1 (by decide)
    rw [hzero]
    rfl
  rcases lt_trichotomy (p : ℤ) mi.data.size with hlt | heq | hgt
  · exact iff_of_true (readsFile_below h buf len hlt hlen) fun hbad => by
      have := hbad.2.1
      omega
  · have hzero : readable mi p len = 0 := by
      unfold readable
      omega
    -- The read comes back with no bytes exactly if the lookup gives an address.
    have hreads : ReadsFile fs mi p buf len ↔ ∃ a, filePosToDiskAddr fs mi p = .ok a ∧ 0 ≤ a := by
      unfold ReadsFile
      rw [hzero, read_at_end buf hlen heq]
      constructor
      · rintro ⟨out, hok, _⟩
        cases haddr : filePosToDiskAddr fs mi p with
        | error e =>
          rw [haddr] at hok
          cases hok
        | ok a =>
          rw [haddr] at hok
          refine ⟨a, rfl, ?_⟩
          by_contra hneg
          dsimp only [Except.bind] at hok
          rw [if_pos (not_le.1 hneg)] at hok
          cases hok
      · rintro ⟨a, haddr, ha⟩
        rw [haddr]
        exact ⟨buf, if_neg (not_lt.2 ha), fun k hk => by omega, fun _ _ => rfl⟩
    rw [hreads]
    exact endSlot_lookup_iff h hlen heq
  · have hzero : readable mi p len = 0 := by
      unfold readable
      omega
    refine iff_of_true ⟨buf, ?_, fun k hk => by omega, fun _ _ => rfl⟩ fun hbad => by
      have := hbad.2.1
      omega
    unfold myfsReadDataStream
    dsimp only
    rw [if_neg (by omega), if_neg (show ¬(p : ℤ) < 0 by omega), if_pos hgt, hzero]

/-- The small disk with a volume name in its block 0, and a file of `size` bytes on it. -/
def namedDisk : Myfs :=
  { smallDisk with dataArea := fun b i => if b = 0 then 65 else UInt8.ofNat i }

def directFile (size : ℤ) : Inode :=
  { uid := 0
    gid := 0
    mode := 0
    inodeNum := 1
    flags := 0
    createTime := 0
    lastModifiedTime := 0
    data := ⟨fun i => if i < numDirectBlocks then 5 + i else 0, 0, 0, size⟩
    contents := none
    counter := 0 }

theorem directFile_mapped {size : ℤ} (h₀ : 0 ≤ size) (h₁ : size ≤ 3072) :
    Mapped namedDisk (directFile size) := by
  refine ⟨by decide, h₀, le_trans h₁ (by decide), fun i hi => ?_⟩
  have hslot : i < numDirectBlocks := by
    unfold numDirectBlocks
    by_contra hge
    have : (6 * 512 : ℤ) ≤ i * 512 := by omega
    exact absurd (lt_of_le_of_lt this (lt_of_lt_of_le hi h₁)) (by decide)
  have haddr : blockAddr namedDisk (directFile size) i = 5 + i := by
    unfold blockAddr
    rw [if_pos hslot]
    exact if_pos hslot
  unfold numDirectBlocks at hslot
  rw [haddr]
  exact ⟨by omega, show (5 : ℤ) + i < 16 by omega⟩

/-- A read across the end of a file of 1000 bytes gets the last 100 of them. -/
theorem read_returns_bytes_1000 : ReadsFile namedDisk (directFile 1000) 900 (fun _ => 0) 4096 :=
  (read_returns_bytes_iff namedDisk (directFile 1000)
    (directFile_mapped (by decide) (by decide)) 900
    (fun _ => 0) 4096).2 fun hbad => absurd hbad.2.1 (by decide)

/-- A file that fills its direct blocks: the read at its end takes the entry for the next block
out of the super block. -/
theorem read_at_end_of_direct_range_dies :
    Mapped namedDisk (directFile 3072) ∧
    myfsReadDataStream namedDisk (directFile 3072) 3072 (fun _ => 0) 1 = .error .myfsDie ∧
    ¬ReadsFile namedDisk (directFile 3072) 3072 (fun _ => 0) 1 := by
  have hlookup : filePosToDiskAddr namedDisk (directFile 3072) (3072 : ℕ) = .error .myfsDie := by
    rw [filePosToDiskAddr_slot (by decide) (by decide)]
    exact if_pos (Or.inr (by decide +kernel))
  have hdies : myfsReadDataStream namedDisk (directFile 3072) (3072 : ℕ) (fun _ => 0) 1 =
      .error .myfsDie := by
    rw [read_at_end _ (by decide) rfl, hlookup]
    rfl
  refine ⟨directFile_mapped (by decide) (by decide), hdies, fun ⟨out, hok, _⟩ => ?_⟩
  have := hdies.symm.trans hok
  cases this

end Reading

end StreamContents
