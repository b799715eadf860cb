import Mathlib.Tactic
import FsKit.InodeTable
import FsKit.MakeAndMount

/-! The inode records on disk (`update_inode` of `inode.c`, `myfs_read_vnode` of `file.c`), in
the 64-bit arithmetic of the source. A table of records is compared with the map from inode
numbers to the inodes that were stored last. -/
namespace InodeRecords

open MachineIntegers
open BlockBitmap InodeTable LittleEndian MakeAndMount

section Records

/-- `inodes_start + ((ia * sizeof(myfs_inode)) / bsize)`, where the product is unsigned. -/
def recordAddr (fs : Myfs) (ia : ℤ) : ℤ :=
  toInt64 (fs.dsb.inodesStart + ia * myfsInode % 2 ^ 64 / fs.dsb.blockSize)

/-- `(ia % (bsize / sizeof(myfs_inode))) * sizeof(myfs_inode)`. -/
def recordOffset (fs : Myfs) (ia : ℤ) : ℕ :=
  (ia % 2 ^ 64 % ((fs.dsb.blockSize : ℤ) / myfsInode)).toNat * myfsInode

/-- Byte `k` of the record of inode `ia`. -/
def recordByte (fs : Myfs) (ia : ℤ) (k : ℕ) : UInt8 :=
  fs.metaArea (recordAddr fs ia) (recordOffset fs ia + k)

def updateInode (fs : Myfs) (mi : Inode) : Except Halt Myfs :=
  let addr := recordAddr fs mi.inodeNum
  let offset := recordOffset fs mi.inodeNum
  if toInt64 (fs.dsb.inodesStart + fs.dsb.numInodeBlocks) < addr then .error .myfsDie
  else .ok { fs with
    metaArea := Function.update fs.metaArea addr fun i =>
      if offset ≤ i ∧ i < offset + myfsInode then inodeByte mi (i - offset)
      else fs.metaArea addr i }

/-- The signed 32-bit integer in the four bytes from `p` on. -/
@[irreducible] def word32 (buf : ℕ → UInt8) (p : ℕ) : ℤ :=
  Int.bmod (∑ k ∈ Finset.range 4, (buf (p + k)).toNat * 256 ^ k : ℕ) (2 ^ 32)

def INODE_MAGIC1 : ℤ := 0x496e6f64

/-- The inode whose record is in `buf`, with a new `etc` part. -/
def decodeInode (buf : ℕ → UInt8) : Inode :=
  { uid := word32 buf 4
    gid := word32 buf 8
    mode := word32 buf 12
    inodeNum := word64 buf 16
    flags := word32 buf 24
    createTime := word64 buf 32
    lastModifiedTime := word64 buf 40
    data := ⟨fun i => word64 buf (56 + 8 * i), word64 buf 104, word64 buf 112, word64 buf 120⟩
    contents := none
    counter := 0 }

/-- `CHECK_INODE` ends the call when the magic number is wrong or the size is negative. -/
def myfsReadVnode (fs : Myfs) (ia : ℤ) : Except Halt Inode :=
  let mi := decodeInode (recordByte fs ia)
  if word32 (recordByte fs ia) 0 ≠ INODE_MAGIC1 then .error .myfsDie
  else if mi.data.size < 0 then .error .myfsDie
  else .ok mi

end Records

section Fields

def Int32 (x : ℤ) : Prop := -2 ^ 31 ≤ x ∧ x < 2 ^ 31

def Int64 (x : ℤ) : Prop := -2 ^ 63 ≤ x ∧ x < 2 ^ 63

/-- The fields are values of their C types. -/
structure CInode (mi : Inode) : Prop where
  uid : Int32 mi.uid
  gid : Int32 mi.gid
  mode : Int32 mi.mode
  inodeNum : Int64 mi.inodeNum
  flags : Int32 mi.flags
  createTime : Int64 mi.createTime
  lastModifiedTime : Int64 mi.lastModifiedTime
  direct : ∀ i < numDirectBlocks, Int64 (mi.data.direct i)
  indirect : Int64 mi.data.indirect
  doubleIndirect : Int64 mi.data.doubleIndirect
  size : Int64 mi.data.size

/-- Two inodes agree in all fields but those of the `etc` part. -/
structure SameFields (mi mi' : Inode) : Prop where
  uid : mi.uid = mi'.uid
  gid : mi.gid = mi'.gid
  mode : mi.mode = mi'.mode
  inodeNum : mi.inodeNum = mi'.inodeNum
  flags : mi.flags = mi'.flags
  createTime : mi.createTime = mi'.createTime
  lastModifiedTime : mi.lastModifiedTime = mi'.lastModifiedTime
  direct : ∀ i < numDirectBlocks, mi.data.direct i = mi'.data.direct i
  indirect : mi.data.indirect = mi'.data.indirect
  doubleIndirect : mi.data.doubleIndirect = mi'.data.doubleIndirect
  size : mi.data.size = mi'.data.size

theorem word64_of_bytes {buf : ℕ → UInt8} {p : ℕ} {v : ℤ} (h : ∀ k < 8, buf (p + k) = leByte v k)
    (hv : Int64 v) : word64 buf p = v := by
  have hput : word64 buf p = word64 (putWord64 buf p v) p := by
    refine word64_congr fun k hk => ?_
    unfold putWord64
    rw [if_pos (by omega), Nat.add_sub_cancel_left, h k hk]
  rw [hput, word64_putWord64 buf p hv.1 hv.2]

theorem word32_of_bytes {buf : ℕ → UInt8} {p : ℕ} {v : ℤ} (h : ∀ k < 4, buf (p + k) = leByte v k)
    (hv : Int32 v) : word32 buf p = v := by
  have hsum : ((∑ k ∈ Finset.range 4, (buf (p + k)).toNat * 256 ^ k : ℕ) : ℤ) = v % 2 ^ 32 := by
    push_cast
    simp only [Finset.sum_range_succ, Finset.sum_range_zero]
    rw [h 0 (by decide), h 1 (by decide), h 2 (by decide), h 3 (by decide)]
    simp only [leByte_toNat]
    omega
  obtain ⟨h₀, h₁⟩ := hv
  unfold word32
  rw [hsum, Int.bmod_def]
  split <;> omega

/-- Field by field: the bytes of a record give back what they were made from. -/
theorem decodeInode_record {buf : ℕ → UInt8} {mi : Inode} (hc : CInode mi)
    (h : ∀ k < myfsInode, buf k = inodeByte mi k) :
    SameFields (decodeInode buf) mi ∧ word32 buf 0 = INODE_MAGIC1 := by
  have hbyte : ∀ p w v, p + w ≤ 128 → (∀ k < w, inodeByte mi (p + k) = leByte v k) →
      ∀ k < w, buf (p + k) = leByte v k := by
    intro p w v hp hv k hk
    rw [h _ (by unfold myfsInode; omega), hv k hk]
  constructor
  · constructor
    · refine word32_of_bytes (hbyte 4 4 mi.uid (by decide) fun k hk => ?_) hc.uid
      interval_cases k <;> rfl
    · refine word32_of_bytes (hbyte 8 4 mi.gid (by decide) fun k hk => ?_) hc.gid
      interval_cases k <;> rfl
    · refine word32_of_bytes (hbyte 12 4 mi.mode (by decide) fun k hk => ?_) hc.mode
      interval_cases k <;> rfl
    · refine word64_of_bytes (hbyte 16 8 mi.inodeNum (by decide) fun k hk => ?_) hc.inodeNum
      interval_cases k <;> rfl
    · refine word32_of_bytes (hbyte 24 4 mi.flags (by decide) fun k hk => ?_) hc.flags
      interval_cases k <;> rfl
    · refine word64_of_bytes (hbyte 32 8 mi.createTime (by decide) fun k hk => ?_) hc.createTime
      interval_cases k <;> rfl
    · refine word64_of_bytes (hbyte 40 8 mi.lastModifiedTime (by decide) fun k hk => ?_)
        hc.lastModifiedTime
      interval_cases k <;> rfl
    · intro i hi
      unfold numDirectBlocks at hi
      refine word64_of_bytes (hbyte (56 + 8 * i) 8 (mi.data.direct i) (by omega) fun k hk => ?_)
        (hc.direct i hi)
      interval_cases i <;> interval_cases k <;> rfl
    · refine word64_of_bytes (hbyte 104 8 mi.data.indirect (by decide) fun k hk => ?_) hc.indirect
      interval_cases k <;> rfl
    · refine word64_of_bytes (hbyte 112 8 mi.data.doubleIndirect (by decide) fun k hk => ?_)
        hc.doubleIndirect
      interval_cases k <;> rfl
    · refine word64_of_bytes (hbyte 120 8 mi.data.size (by decide) fun k hk => ?_) hc.size
      interval_cases k <;> rfl
  · refine word32_of_bytes (hbyte 0 4 INODE_MAGIC1 (by decide) fun k hk => ?_)
      ⟨by decide, by decide⟩
    interval_cases k <;> rfl

end Fields

section Places
variable {fs : Myfs} {c : ℤ} {ia ib : ℤ}

/-- Blocks hold a whole number of records. -/
def WholeRecords (fs : Myfs) : Prop :=
  0 < fs.dsb.blockSize ∧ myfsInode ∣ fs.dsb.blockSize ∧ fs.dsb.blockSize < 2 ^ 31

theorem WholeRecords.per_block (h : WholeRecords fs) :
    ∃ c : ℤ, 0 < c ∧ (fs.dsb.blockSize : ℤ) = 128 * c := by
  obtain ⟨hpos, ⟨c, hc⟩, _⟩ := h
  refine ⟨c, ?_, by rw [hc]; rfl⟩
  rcases Nat.eq_zero_or_pos c with rfl | hc'
  · omega
  · exact_mod_cast hc'

/-- The inode numbers whose byte position in the table is a 64-bit value. -/
def Addressable (ia : ℤ) : Prop := 0 ≤ ia ∧ ia < 2 ^ 57

theorem recordAddr_eq (hb : (fs.dsb.blockSize : ℤ) = 128 * c) (h : Addressable ia) :
    recordAddr fs ia = toInt64 (fs.dsb.inodesStart + ia / c) := by
  obtain ⟨h₀, h₁⟩ := h
  unfold recordAddr myfsInode
  push_cast
  rw [Int.emod_eq_of_lt (by omega) (by omega), hb, mul_comm ia,
    Int.mul_ediv_mul_of_pos _ _ (by decide)]

theorem recordOffset_eq (hc : 0 < c) (hb : (fs.dsb.blockSize : ℤ) = 128 * c) (h : Addressable ia) :
    (recordOffset fs ia : ℤ) = ia % c * 128 := by
  obtain ⟨h₀, h₁⟩ := h
  unfold recordOffset myfsInode
  push_cast
  rw [Int.emod_eq_of_lt h₀ (by omega), hb, Int.mul_ediv_cancel_left _ (by decide),
    Int.toNat_of_nonneg (Int.emod_nonneg _ hc.ne')]

theorem toInt64_inj {s x y : ℤ} (hx : 0 ≤ x) (hx' : x < 2 ^ 57) (hy : 0 ≤ y) (hy' : y < 2 ^ 57)
    (h : toInt64 (s + x) = toInt64 (s + y)) : x = y := by
  unfold toInt64 at h
  rw [Int.bmod_def, Int.bmod_def] at h
  split at h <;> split at h <;> omega

/-- Two inodes have their records in different blocks or a record apart in one block. -/
theorem records_disjoint (hw : WholeRecords fs) (ha : Addressable ia) (hb : Addressable ib)
    (hne : ia ≠ ib) : recordAddr fs ia ≠ recordAddr fs ib ∨
      recordOffset fs ia + myfsInode ≤ recordOffset fs ib ∨
      recordOffset fs ib + myfsInode ≤ recordOffset fs ia := by
  obtain ⟨c, hc, hsize⟩ := hw.per_block
  by_cases haddr : recordAddr fs ia = recordAddr fs ib
  · right
    have hoff := recordOffset_eq hc hsize ha
    have hoff' := recordOffset_eq hc hsize hb
    rw [recordAddr_eq hsize ha, recordAddr_eq hsize hb] at haddr
    have hbound : ∀ x, Addressable x → 0 ≤ x / c ∧ x / c < 2 ^ 57 := by
      rintro x ⟨h₀, h₁⟩
      exact ⟨Int.ediv_nonneg h₀ hc.le, lt_of_le_of_lt (Int.ediv_le_self _ h₀) h₁⟩
    have hdiv :=
      toInt64_inj (hbound ia ha).1 (hbound ia ha).2 (hbound ib hb).1 (hbound ib hb).2 haddr
    have hmod : ia % c ≠ ib % c := by
      intro hmod
      apply hne
      rw [← Int.mul_ediv_add_emod ia c, ← Int.mul_ediv_add_emod ib c, hdiv, hmod]
    unfold myfsInode
    omega
  · exact Or.inl haddr

/-- On a disk whose block numbers are 64-bit values the update is the one in the unbounded
arithmetic of the rest of the development. -/
theorem updateInode_eq (hw : WholeRecords fs) {mi : Inode} (h : Addressable mi.inodeNum)
    (hstart : 0 ≤ fs.dsb.inodesStart) (hnum : 0 ≤ fs.dsb.numInodeBlocks)
    (hend : fs.dsb.inodesStart + fs.dsb.numInodeBlocks < 2 ^ 62) :
    updateInode fs mi = InodeTable.updateInode fs mi := by
  obtain ⟨c, hc, hb⟩ := hw.per_block
  obtain ⟨h₀, h₁⟩ := h
  have hq : 0 ≤ mi.inodeNum / c := Int.ediv_nonneg h₀ hc.le
  have hq' := Int.ediv_le_self c h₀
  have haddr : recordAddr fs mi.inodeNum =
      fs.dsb.inodesStart + (mi.inodeNum * myfsInode).tdiv fs.dsb.blockSize := by
    rw [recordAddr_eq hb ⟨h₀, h₁⟩, toInt64_of_lt (by omega) (by omega), hb,
      Int.tdiv_eq_ediv_of_nonneg (by positivity), mul_comm mi.inodeNum]
    congr 1
    exact (Int.mul_ediv_mul_of_pos _ _ (by decide)).symm
  have hoff : recordOffset fs mi.inodeNum =
      ((mi.inodeNum.tmod ((fs.dsb.blockSize : ℤ).tdiv myfsInode)) * myfsInode).toNat := by
    have hoff := recordOffset_eq hc hb ⟨h₀, h₁⟩
    rw [hb, Int.tdiv_eq_ediv_of_nonneg (by positivity),
      show (128 * c) / (myfsInode : ℤ) = c from Int.mul_ediv_cancel_left _ (by decide),
      Int.tmod_eq_emod_of_nonneg h₀]
    unfold myfsInode
    omega
  unfold updateInode InodeTable.updateInode
  rw [haddr, hoff, toInt64_of_lt (by omega) (by omega)]

end Places

section Runs
variable {fs fs' : Myfs}

/-- The calls of a run, one after the other, as long as they come back. -/
def updateAll : Myfs → List Inode → Except Halt Myfs
  | fs, [] => .ok fs
  | fs, mi :: mis => (updateInode fs mi).bind fun fs => updateAll fs mis

/-- The map that the table stands for, and what a run of updates makes of it. -/
abbrev Stored := ℤ → Option Inode

def store (σ : Stored) (mi : Inode) : Stored := Function.update σ mi.inodeNum (some mi)

def stored (σ : Stored) (mis : List Inode) : Stored := mis.foldl store σ

/-- An inode that the table can hold: its fields are C values, its number is addressable and
its size is one that `CHECK_INODE` lets through. -/
structure Storable (mi : Inode) : Prop where
  fields : CInode mi
  addressable : Addressable mi.inodeNum
  size : 0 ≤ mi.data.size

/-- The table holds the records of a map. -/
def Represents (fs : Myfs) (σ : Stored) : Prop :=
  ∀ ia mi, σ ia = some mi → Storable mi ∧ mi.inodeNum = ia ∧
    ∀ k < myfsInode, recordByte fs ia k = inodeByte mi k

theorem recordByte_area (fs : Myfs) (area : ℤ → Block) (ia : ℤ) (k : ℕ) :
    recordByte { fs with metaArea := area } ia k =
      area (recordAddr fs ia) (recordOffset fs ia + k) := rfl

/-- What one update does to the record of each inode. -/
theorem updateInode_records (hw : WholeRecords fs) {mi : Inode} (hs : Addressable mi.inodeNum)
    (h : updateInode fs mi = .ok fs') : fs'.dsb = fs.dsb ∧
    (∀ k < myfsInode, recordByte fs' mi.inodeNum k = inodeByte mi k) ∧
    ∀ ia, Addressable ia → ia ≠ mi.inodeNum →
      ∀ k < myfsInode, recordByte fs' ia k = recordByte fs ia k := by
  unfold updateInode at h
  dsimp only at h
  split at h
  · cases h
  cases h
  refine ⟨rfl, fun k hk => ?_, fun ia ha hne k hk => ?_⟩
  · rw [recordByte_area, Function.update_self, if_pos (by omega), Nat.add_sub_cancel_left]
  · rw [recordByte_area]
    rcases records_disjoint hw ha hs hne with haddr | hoff
    · rw [Function.update_of_ne haddr]
      rfl
    · by_cases haddr : recordAddr fs ia = recordAddr fs mi.inodeNum
      · rw [haddr, Function.update_self, if_neg (by omega), ← haddr]
        rfl
      · rw [Function.update_of_ne haddr]
        rfl

theorem Represents.updateInode {σ : Stored} (hr : Represents fs σ) (hw : WholeRecords fs)
    {mi : Inode} (hs : Storable mi) (h : updateInode fs mi = .ok fs') :
    Represents fs' (store σ mi) := by
  obtain ⟨_, hself, hother⟩ := updateInode_records hw hs.addressable h
  intro ia mi' hmi
  unfold store at hmi
  by_cases hia : ia = mi.inodeNum
  · subst hia
    rw [Function.update_self] at hmi
    cases hmi
    exact ⟨hs, rfl, hself⟩
  · rw [Function.update_of_ne hia] at hmi
    obtain ⟨hs', hnum, hbytes⟩ := hr ia mi' hmi
    refine ⟨hs', hnum, fun k hk => ?_⟩
    rw [hother ia (hnum ▸ hs'.addressable) hia k hk, hbytes k hk]

theorem wholeRecords_of_dsb (hw : WholeRecords fs) (h : fs'.dsb = fs.dsb) : WholeRecords fs' := by
  unfold WholeRecords at hw ⊢
  rwa [h]

/-- A run of updates keeps the table and the map together. -/
theorem Represents.updateAll {σ : Stored} {mis : List Inode} (hr : Represents fs σ)
    (hw : WholeRecords fs) (hs : ∀ mi ∈ mis, Storable mi) (h : updateAll fs mis = .ok fs') :
    Represents fs' (stored σ mis) := by
  induction mis generalizing fs σ with
  | nil =>
    cases h
    exact hr
  | cons mi mis ih =>
    rw [InodeRecords.updateAll] at h
    cases hu : InodeRecords.updateInode fs mi with
    | error e =>
      rw [hu] at h
      cases h
    | ok fs₁ =>
      rw [hu] at h
      have hmi := hs mi List.mem_cons_self
      have hdsb := (updateInode_records hw hmi.addressable hu).1
      exact ih (hr.updateInode hw hmi hu) (wholeRecords_of_dsb hw hdsb)
        (fun mi' h' => hs mi' (List.mem_cons_of_mem _ h')) h

/-- A run without an update of `ia` leaves its record. -/
theorem updateAll_other {mis : List Inode} {ia : ℤ} (hw : WholeRecords fs) (ha : Addressable ia)
    (hs : ∀ mi ∈ mis, Storable mi ∧ mi.inodeNum ≠ ia) (h : updateAll fs mis = .ok fs') :
    ∀ k < myfsInode, recordByte fs' ia k = recordByte fs ia k := by
  induction mis generalizing fs with
  | nil =>
    cases h
    exact fun k _ => rfl
  | cons mi mis ih =>
    rw [updateAll] at h
    cases hu : updateInode fs mi with
    | error e =>
      rw [hu] at h
      cases h
    | ok fs₁ =>
      rw [hu] at h
      obtain ⟨hmi, hne⟩ := hs mi List.mem_cons_self
      obtain ⟨hdsb, _, hother⟩ := updateInode_records hw hmi.addressable hu
      intro k hk
      rw [ih (wholeRecords_of_dsb hw hdsb) (fun mi' h' => hs mi' (List.mem_cons_of_mem _ h'))
        h k hk,
        hother ia ha hne.symm k hk]

theorem Represents.read {σ : Stored} {ia : ℤ} {mi : Inode} (hr : Represents fs σ)
    (h : σ ia = some mi) : ∃ got, myfsReadVnode fs ia = .ok got ∧ SameFields got mi := by
  obtain ⟨hs, _, hbytes⟩ := hr ia mi h
  obtain ⟨hfields, hmagic⟩ := decodeInode_record hs.fields hbytes
  have hsize := hs.size
  unfold myfsReadVnode
  dsimp only
  rw [if_neg (not_not_intro hmagic), if_neg (by rw [hfields.size]; omega)]
  exact ⟨_, rfl, hfields⟩

/-- After any run of updates of inodes the table can hold, every inode number reads back the
fields stored last, and a record none of the updates was for is as it was. -/
theorem records_persist (fs fs' : Myfs) (hw : WholeRecords fs) (mis : List Inode)
    (hs : ∀ mi ∈ mis, Storable mi) (h : updateAll fs mis = .ok fs') :
    (∀ ia mi, stored (fun _ => none) mis ia = some mi →
      ∃ got, myfsReadVnode fs' ia = .ok got ∧ SameFields got mi) ∧
    (∀ ia, Addressable ia → (∀ mi ∈ mis, mi.inodeNum ≠ ia) →
      ∀ k < myfsInode, recordByte fs' ia k = recordByte fs ia k) := by
  have hempty : Represents fs fun _ => none := fun _ _ hn => by cases hn
  constructor
  · intro ia mi hmi
    exact (hempty.updateAll hw hs h).read hmi
  · intro ia ha hne
    exact updateAll_other hw ha (fun mi hmi => ⟨hs mi hmi, hne mi hmi⟩) h

/-- A file of 1000 bytes in block 20. -/
def someFile (ia : ℤ) : Inode :=
  { uid := 1
    gid := 2
    mode := 0o644
    inodeNum := ia
    flags := 0
    createTime := 100
    lastModifiedTime := 200
    data := ⟨fun i => if i = 0 then 20 else 0, 0, 0, 1000⟩
    contents := none
    counter := 0 }

theorem someFile_storable {ia : ℤ} (h : Addressable ia) : Storable (someFile ia) := by
  obtain ⟨h₀, h₁⟩ := h
  refine ⟨?_, ⟨h₀, h₁⟩, show (0 : ℤ) ≤ 1000 by decide⟩
  unfold someFile
  constructor
  case inodeNum => exact ⟨by dsimp only; omega, by dsimp only; omega⟩
  case direct =>
    intro i _
    dsimp only
    split <;> exact ⟨by decide, by decide⟩
  all_goals exact ⟨by dsimp only; decide, by dsimp only; decide⟩

/-- Inodes 3 and 5 are stored, 3 once more; it reads back, and the record of 4 is untouched. -/
theorem records_persist_three_updates :
    ∃ fs', updateAll smallDisk [someFile 3, someFile 5, someFile 3] = .ok fs' ∧
      (∃ got, myfsReadVnode fs' 3 = .ok got ∧ SameFields got (someFile 3)) ∧
      ∀ k < myfsInode, recordByte fs' 4 k = recordByte smallDisk 4 k := by
  have hrun : ∃ fs', updateAll smallDisk [someFile 3, someFile 5, someFile 3] = .ok fs' := ⟨_, rfl⟩
  obtain ⟨fs', hrun⟩ := hrun
  have hs : ∀ mi ∈ [someFile 3, someFile 5, someFile 3], Storable mi := by
    intro mi hmi
    simp only [List.mem_cons, List.not_mem_nil, or_false] at hmi
    rcases hmi with rfl | rfl | rfl <;>
      exact someFile_storable ⟨by decide, by decide⟩
  obtain ⟨hread, hother⟩ :=
    records_persist smallDisk fs' ⟨by decide, by decide, by decide⟩ _ hs hrun
  refine ⟨fs', hrun, hread 3 (someFile 3) rfl, hother 4 ⟨by decide, by decide⟩ ?_⟩
  intro mi hmi
  simp only [List.mem_cons, List.not_mem_nil, or_false] at hmi
  rcases hmi with rfl | rfl | rfl <;> decide

/-- The byte position of inode 2^57 is 2^64, so its update is made over the record of inode 0;
and an inode with a negative size is stored but never read back. -/
theorem records_interfere_at_overflow :
    (∃ fs', updateAll smallDisk [someFile 0, someFile (2 ^ 57)] = .ok fs' ∧
      recordByte fs' 0 23 ≠ inodeByte (someFile 0) 23) ∧
    ∃ fs', updateAll smallDisk
        [{ someFile 3 with data := { (someFile 3).data with size := -1 } }] = .ok fs' ∧
      myfsReadVnode fs' 3 = .error .myfsDie := by
  refine ⟨⟨_, rfl, ?_⟩, _, rfl, ?_⟩
  · decide +kernel
  · unfold myfsReadVnode
    dsimp only
    rw [if_neg (by decide +kernel), if_pos (by decide +kernel)]

end Runs

end InodeRecords
