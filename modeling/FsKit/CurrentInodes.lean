import Mathlib.Tactic
import FsKit.FileHooks
import FsKit.MetadataFrames
import FsKit.TransitionTrace

/-! The inode metadata on disk over whole runs of calls. The vnode layer drops an inode without
writing it back, so every call has to leave the record of the inodes it changed and the inode map
as they are in memory. -/
namespace CurrentInodes

open MachineIntegers
open BlockBitmap hiding next
open InodeTable hiding Event next
open BitVectorSearch DataStreamBlocks DataStreamShape DirectoryOps
open FileHooks MetadataFrames TransitionTrace
open InodeRecords (Int32 Int64 recordAddr recordOffset recordByte SameFields myfsReadVnode)

section Map
variable {fs fs' : Myfs}

/-- One block of the inode map is written. -/
theorem writeMapBlock (hl : Layout fs) {q : ℕ} (hq : (q : ℤ) < fs.dsb.numInodeMapBlocks)
    (mem : ℕ → UInt8) :
    (writeBlocks fs (fs.dsb.inodeMapStart + q) mem 1).2 =
      { fs with metaArea := Function.update fs.metaArea (fs.dsb.inodeMapStart + q) mem } := by
  have hend := hl.mapEnd
  have hanswer := hl.answers (fs.dsb.inodeMapStart + q) 1
  unfold writeBlocks
  rw [if_neg (by rw [hl.writable]; decide), if_neg (by omega), if_neg (by omega),
    if_neg (by rw [hanswer]; simp)]
  dsimp only
  congr 1
  funext b
  by_cases hb : b = fs.dsb.inodeMapStart + q
  · subst hb
    rw [if_pos (by omega), Function.update_self]
    funext i
    rw [sub_self, Int.toNat_zero, Nat.zero_mul, Nat.zero_add]
  · rw [if_neg (by omega), Function.update_of_ne hb]

/-- The inode map changes in memory and on disk together, and no record changes. -/
structure MapChange (fs fs' : Myfs) : Prop where
  fixed : fixed fs' = fixed fs
  onDisk : MapOnDisk fs → MapOnDisk fs'
  records : ∀ ia, Numbered fs ia → ∀ k, recordByte fs' ia k = recordByte fs ia k

/-- The block of the map that has the changed bit is written from the new map. -/
theorem mapChange_of_block (hl : Layout fs) {bv : BitVector} {q : ℕ}
    (hq : (q : ℤ) < fs.dsb.numInodeMapBlocks) (hnum : bv.numbits = fs.inodeMap.numbits)
    (hbits : ∀ p, p / (8 * fs.dsb.blockSize) ≠ q → bitOf bv.bits p = bitOf fs.inodeMap.bits p) :
    MapChange fs { fs with
      inodeMap := bv
      metaArea := Function.update fs.metaArea (fs.dsb.inodeMapStart + q)
        fun k => chunkByte bv.bits (q * fs.dsb.blockSize + k) } := by
  have hpos := hl.pos
  refine ⟨by simp only [fixed, hnum], fun hm r hr i hi => ?_, fun ia hia k => ?_⟩
  · dsimp only at hr hi ⊢
    rcases eq_or_ne r q with rfl | hne
    · rw [Function.update_self]
    · rw [Function.update_of_ne (by omega), hm r hr i hi]
      refine (BitmapWriteBack.chunkByte_congr fun j hj => ?_).symm
      refine hbits _ ?_
      rw [BitmapWriteBack.bits_of_byte hpos hi hj]
      exact hne
  · have hin := hl.record_inTable hia
    have hne : recordAddr fs ia ≠ fs.dsb.inodeMapStart + q := by
      intro heq
      rw [heq] at hin
      exact hl.mapTable _ ⟨by omega, by omega⟩ hin
    have hblock := Function.update_of_ne hne
      (fun k => chunkByte bv.bits (q * fs.dsb.blockSize + k)) fs.metaArea
    exact congrFun hblock (recordOffset fs ia + k)

/-- Inode `ia` is allocated. -/
def Taken (fs : Myfs) (ia : ℤ) : Prop :=
  1 ≤ ia ∧ ia < fs.inodeMap.numbits ∧ fs.inodeMap.bit ia.toNat = true

theorem Taken.numbered {ia : ℤ} (h : Taken fs ia) : Numbered fs ia := by
  obtain ⟨h₁, h₂, -⟩ := h
  exact ⟨by omega, h₂⟩

/-- The block of the map that holds the bit of inode `p`. -/
theorem mapBlock (hl : Layout fs) (hm : MapSound fs) {p : ℕ} (hp : p < fs.inodeMap.numbits) :
    toInt32 (((p : ℤ).tdiv 8).tdiv fs.dsb.blockSize) = (p / (8 * fs.dsb.blockSize) : ℕ) ∧
      ((p / (8 * fs.dsb.blockSize) : ℕ) : ℤ) < fs.dsb.numInodeMapBlocks := by
  have hpos := hl.pos
  have hroom := hm.room
  have hint := hm.int32
  rw [BitmapWriteBack.tdiv_tdiv_nat]
  have hle : p / (8 * fs.dsb.blockSize) ≤ p := Nat.div_le_self _ _
  constructor
  · generalize p / (8 * fs.dsb.blockSize) = q at hle
    exact toInt32_of_lt (by omega) (by omega)
  · have hlt : (p : ℤ) < (8 * fs.dsb.blockSize : ℕ) * fs.dsb.numInodeMapBlocks := by
      push_cast
      rw [mul_assoc]
      omega
    rw [Int.natCast_ediv]
    exact Int.ediv_lt_of_lt_mul (by positivity) (by rw [mul_comm]; exact hlt)

/-- An inode is allocated: its bit was clear and is set in memory and on disk. -/
theorem allocateInode_spec (hl : Layout fs) (hm : MapSound fs) {mode : ℤ} {mi : Inode}
    (h : myfsAllocateInode fs mode = .ok (some mi, fs')) :
    ∃ start : ℕ, mi = freshInode fs mode start ∧ 1 ≤ start ∧ start < fs.inodeMap.numbits ∧
      fs.inodeMap.bit start = false ∧ MapSound fs' ∧ MapChange fs fs' ∧
      ∀ p, fs'.inodeMap.bit p = (fs.inodeMap.bit p || decide (p = start)) := by
  have hsound : MapSound (InodeTable.next fs (.alloc mode)) := step_sound hm trivial
  rw [InodeTable.next, h] at hsound
  rcases getFreeRangeOfBits_cases fs.inodeMap 1 with ⟨start, hs, -, -, ht⟩ | ⟨hs, -⟩
  swap
  · unfold myfsAllocateInode at h
    dsimp only at h
    rw [hs, if_pos (by decide)] at h
    cases h
  have hin := ht.inside
  have hbits := ht.bits
  have hclear := ht.clear start le_rfl (by simp)
  have hnum := ht.numbits
  simp only [Int.toNat_one] at hin hbits
  obtain ⟨hoff, hq⟩ := mapBlock hl hm (show start < fs.inodeMap.numbits by omega)
  unfold myfsAllocateInode at h
  dsimp only at h
  rw [hs, if_neg (by omega), hoff, if_neg (by omega)] at h
  generalize (getFreeRangeOfBits fs.inodeMap 1).2.2 = bv at h hbits hnum
  generalize hqdef : start / (8 * fs.dsb.blockSize) = q at h hq
  have hlayout : Layout { fs with inodeMap := bv } :=
    hl.of_fixed (by simp only [MetadataFrames.fixed, hnum])
  rw [show ((q : ℤ) * fs.dsb.blockSize).toNat = q * fs.dsb.blockSize by
    rw [← Nat.cast_mul, Int.toNat_natCast]] at h
  have hwrite := writeMapBlock hlayout hq fun k => chunkByte bv.bits (q * fs.dsb.blockSize + k)
  dsimp only at hwrite
  rw [hwrite] at h
  obtain ⟨hmi, hfs⟩ := Prod.mk.inj (Except.ok.inj h)
  cases hmi
  subst hfs
  refine ⟨start, rfl, ?_, by omega, hclear, hsound, ?_, fun p => ?_⟩
  · rcases Nat.eq_zero_or_pos start with rfl | hpos
    · rw [hm.zero] at hclear
      cases hclear
    · exact hpos
  · refine mapChange_of_block hl hq hnum fun p hp => ?_
    rw [← bit_eq_bitOf, ← bit_eq_bitOf, hbits]
    have hne : ¬(start ≤ p ∧ p < start + 1) := by
      rintro ⟨hlow, hhigh⟩
      obtain rfl : p = start := by omega
      exact hp hqdef
    rw [decide_eq_false hne, Bool.or_false]
  · have hdec : decide (start ≤ p ∧ p < start + 1) = decide (p = start) :=
      decide_eq_decide.2 (by omega)
    rw [← hdec]
    exact hbits p

/-- An inode is freed: its bit is clear in memory and on disk. -/
theorem freeInode_spec (hl : Layout fs) (hm : MapSound fs) {ia : ℤ} (h : Taken fs ia) :
    MapSound (myfsFreeInode fs ia).2 ∧ MapChange fs (myfsFreeInode fs ia).2 ∧
      ∀ p, (myfsFreeInode fs ia).2.inodeMap.bit p =
        (fs.inodeMap.bit p && !decide (p = ia.toNat)) := by
  have hsound : MapSound (InodeTable.next fs (.free ia)) := step_sound hm h
  obtain ⟨h₁, h₂, -⟩ := h
  have hint := hm.int32
  lift ia to ℕ using (by omega)
  obtain ⟨hoff, hq⟩ := mapBlock hl hm (show ia < fs.inodeMap.numbits by omega)
  have hconv : toInt32 ia = ia := toInt32_of_lt (by omega) (by omega)
  have hbits := bitOf_clearChunkBit fs.inodeMap.bits (Nat.mod_lt ia (by decide : 0 < 32))
    (i := ia / 32)
  rw [show ia / 32 * 32 + ia % 32 = ia by omega] at hbits
  refine ⟨hsound, ?_⟩
  unfold myfsFreeInode
  rw [hconv, unSetBV, if_neg (by omega), Int.toNat_natCast]
  dsimp only
  rw [hoff]
  generalize hqdef : ia / (8 * fs.dsb.blockSize) = q at hq
  generalize clearChunkBit fs.inodeMap.bits (ia / 32) (ia % 32) = bits at hbits
  have hlayout : Layout { fs with inodeMap := { fs.inodeMap with bits := bits, nextFree := ia } } :=
    hl.of_fixed rfl
  rw [show ((q : ℤ) * fs.dsb.blockSize).toNat = q * fs.dsb.blockSize by
    rw [← Nat.cast_mul, Int.toNat_natCast]]
  have hwrite := writeMapBlock hlayout hq fun k => chunkByte bits (q * fs.dsb.blockSize + k)
  dsimp only at hwrite
  rw [hwrite]
  refine ⟨mapChange_of_block hl hq rfl fun p hp => ?_, fun p => ?_⟩
  · rw [hbits]
    have hne : p ≠ ia := by
      rintro rfl
      exact hp hqdef
    rw [decide_eq_false hne]
    simp
  · exact hbits p

end Map

section Invariant
variable {v : Volume} {fs fs' : Myfs} {mi mi' : Inode} {ia : ℤ}

/-- The inode under number `ia` that memory and disk agree on. -/
structure Agrees (fs : Myfs) (ia : ℤ) (mi : Inode) : Prop where
  taken : Taken fs ia
  inodeNum : mi.inodeNum = ia
  good : Good fs mi
  recorded : Recorded fs mi

structure Inv (v : Volume) : Prop where
  layout : Layout v.fs
  mapSound : MapSound v.fs
  mapOnDisk : MapOnDisk v.fs
  records : ∀ ia, Taken v.fs ia → ∃ mi, Agrees v.fs ia mi
  loaded : ∀ ia mi, v.loaded ia = some mi → Agrees v.fs ia mi

theorem mapSound_fixed (hm : MapSound fs) (hfix : fixed fs' = fixed fs)
    (hmap : fs'.inodeMap = fs.inodeMap) : MapSound fs' := by
  have hblocks := congrArg (fun fs => fs.dsb.numInodeMapBlocks) hfix
  change fs'.dsb.numInodeMapBlocks = fs.dsb.numInodeMapBlocks at hblocks
  obtain ⟨h₁, h₂, h₃, h₄, h₅, h₆⟩ := hm
  refine ⟨?_, ?_, ?_, ?_, ?_, ?_⟩
  all_goals rw [hmap]
  · exact h₁
  · exact h₂
  · exact h₃
  · exact h₄
  · exact h₅
  · rw [blockSize_fixed hfix, hblocks]
    exact h₆

theorem RecordFrame.taken (h : RecordFrame ia fs fs') (ib : ℤ) : Taken fs' ib ↔ Taken fs ib := by
  unfold Taken
  rw [h.inodeMap]

/-- Another inode is not touched by a call made for `ia`. -/
theorem Agrees.other {ib : ℤ} (h : Agrees fs ib mi) (hl : Layout fs)
    (hframe : RecordFrame ia fs fs')
    (hn : Numbered fs ia) (hne : ib ≠ ia) : Agrees fs' ib mi := by
  refine ⟨(RecordFrame.taken hframe ib).2 h.taken, h.inodeNum, h.good.frame hframe.fixed, ?_⟩
  intro k hk
  rw [hframe.recordByte_other hl hn (by rw [h.inodeNum]; exact h.taken.numbered)
    (by rw [h.inodeNum]; exact hne) hk]
  exact h.recorded k hk

/-- After a call that saved inode `ia`, the volume with the inode it left. -/
theorem Inv.save (h : Inv v) (ha : Agrees v.fs ia mi) (hs : Saves v.fs fs' mi mi') :
    Inv (Volume.keep { v with fs := fs' } ia mi') := by
  have hnum := ha.inodeNum
  have hframe : RecordFrame ia v.fs fs' := by
    rw [← hnum]
    exact hs.frame
  have hself : Agrees fs' ia mi' :=
    ⟨(RecordFrame.taken hframe ia).2 ha.taken, hs.inodeNum.trans hnum, hs.good,
      hs.recorded ha.recorded⟩
  refine ⟨hframe.layout h.layout, mapSound_fixed h.mapSound hframe.fixed hframe.inodeMap,
    hframe.mapOnDisk h.layout ha.taken.numbered h.mapOnDisk, fun ib hib => ?_, fun ib mib hib => ?_⟩
  · rcases eq_or_ne ib ia with rfl | hne
    · exact ⟨mi', hself⟩
    · obtain ⟨mib, hb⟩ := h.records ib ((RecordFrame.taken hframe ib).1 hib)
      exact ⟨mib, hb.other h.layout hframe ha.taken.numbered hne⟩
  · unfold Volume.keep at hib
    dsimp only at hib
    rcases eq_or_ne ib ia with rfl | hne
    · rw [Function.update_self] at hib
      cases hib
      exact hself
    · rw [Function.update_of_ne hne] at hib
      exact (h.loaded ib mib hib).other h.layout hframe ha.taken.numbered hne

/-- Another inode loaded, as it is on disk. -/
theorem Inv.keep (h : Inv v) (ha : Agrees v.fs ia mi) : Inv (v.keep ia mi) := by
  refine ⟨h.layout, h.mapSound, h.mapOnDisk, h.records, fun ib mib hib => ?_⟩
  unfold Volume.keep at hib
  dsimp only at hib
  rcases eq_or_ne ib ia with rfl | hne
  · rw [Function.update_self] at hib
    cases hib
    exact ha
  · rw [Function.update_of_ne hne] at hib
    exact h.loaded ib mib hib

theorem Inv.drop (h : Inv v) (ia : ℤ) : Inv (v.drop ia) := by
  refine ⟨h.layout, h.mapSound, h.mapOnDisk, h.records, fun ib mib hib => ?_⟩
  unfold Volume.drop at hib
  dsimp only at hib
  rcases eq_or_ne ib ia with rfl | hne
  · rw [Function.update_self] at hib
    cases hib
  · rw [Function.update_of_ne hne] at hib
    exact h.loaded ib mib hib

/-- The record of an allocated inode is read back as it was stored. -/
theorem Agrees.read (h : Agrees fs ia mi) :
    ∃ got, myfsReadVnode fs ia = .ok got ∧ SameFields got mi ∧ got.contents = none ∧
      got.counter = 0 := by
  have hrecord : ∀ k < myfsInode, recordByte fs ia k = inodeByte mi k := by
    rw [← h.inodeNum]
    exact h.recorded
  obtain ⟨hfields, hmagic⟩ := InodeRecords.decodeInode_record h.good.storable.fields hrecord
  have hsize := h.good.storable.size
  unfold myfsReadVnode
  dsimp only
  rw [if_neg (not_not_intro hmagic), if_neg (by rw [hfields.size]; omega)]
  exact ⟨_, rfl, hfields, rfl, rfl⟩

/-- Inodes with the same fields have the same record. -/
theorem inodeByte_same (h : SameFields mi mi') (k : ℕ) :
    inodeByte mi k = inodeByte mi' k := by
  unfold inodeByte
  rw [h.uid, h.gid, h.mode, h.inodeNum, h.flags, h.createTime, h.lastModifiedTime, h.indirect,
    h.doubleIndirect, h.size]
  by_cases hd : k < 104
  · rw [h.direct _ (by unfold numDirectBlocks; omega)]
  · simp only [hd, if_false]

theorem Agrees.same (h : Agrees fs ia mi) (hs : SameFields mi' mi) : Agrees fs ia mi' := by
  have hc := h.good.storable.fields
  refine ⟨h.taken, hs.inodeNum.trans h.inodeNum, ⟨⟨⟨?_, ?_, ?_, ?_, ?_, ?_, ?_, fun i hi => ?_, ?_,
    ?_, ?_⟩, ?_, ?_⟩, ?_, ?_⟩, fun k hk => ?_⟩
  · rw [hs.uid]; exact hc.uid
  · rw [hs.gid]; exact hc.gid
  · rw [hs.mode]; exact hc.mode
  · rw [hs.inodeNum]; exact hc.inodeNum
  · rw [hs.flags]; exact hc.flags
  · rw [hs.createTime]; exact hc.createTime
  · rw [hs.lastModifiedTime]; exact hc.lastModifiedTime
  · rw [hs.direct i hi]; exact hc.direct i hi
  · rw [hs.indirect]; exact hc.indirect
  · rw [hs.doubleIndirect]; exact hc.doubleIndirect
  · rw [hs.size]; exact hc.size
  · rw [hs.inodeNum]; exact h.good.storable.addressable
  · rw [hs.size]; exact h.good.storable.size
  · rw [hs.size]; exact h.good.bounded
  · rw [hs.doubleIndirect]; exact h.good.doubleIndirect
  · rw [hs.inodeNum, inodeByte_same hs k]
    exact h.recorded k hk

end Invariant

section Directories
variable {fs fs' : Myfs} {mi mi' dir dir' : Inode}

theorem Saves.trans {fs₁ fs₂ : Myfs} {mi₁ mi₂ : Inode} (h : Saves fs fs₁ mi mi₁)
    (k : Saves fs₁ fs₂ mi₁ mi₂) : Saves fs fs₂ mi mi₂ := by
  refine ⟨h.frame.trans ?_, k.good, k.inodeNum.trans h.inodeNum, fun hr =>
    k.recorded (h.recorded hr)⟩
  rw [← h.inodeNum]
  exact k.frame

/-- The `etc` part of an inode is not recorded. -/
theorem saves_etc (hg : Good fs mi) (contents : Option (ℕ → UInt8)) (counter : ℤ) :
    Saves fs fs mi { mi with contents := contents, counter := counter } :=
  ⟨.refl _ _, ⟨⟨⟨hg.storable.fields.uid, hg.storable.fields.gid, hg.storable.fields.mode,
    hg.storable.fields.inodeNum, hg.storable.fields.flags, hg.storable.fields.createTime,
    hg.storable.fields.lastModifiedTime, hg.storable.fields.direct, hg.storable.fields.indirect,
    hg.storable.fields.doubleIndirect, hg.storable.fields.size⟩, hg.storable.addressable,
    hg.storable.size⟩, hg.bounded, hg.doubleIndirect⟩, rfl, fun hr => hr⟩

theorem loadContents_etc {ret : ℤ} {c : ℕ → UInt8} (h : loadContents fs dir = .ok (ret, c, dir')) :
    ∃ contents, dir' = { dir with contents := contents } := by
  unfold loadContents at h
  split at h
  · cases h
    exact ⟨dir.contents, rfl⟩
  unfold getDirContents at h
  generalize myfsReadDataStream fs dir 0 (fun _ => 0) dir.data.size.toNat = r at h
  cases r with
  | error e => cases h
  | ok r =>
    obtain ⟨ret₀, sz, buf⟩ := r
    dsimp only [Except.map, Except.bind] at h
    by_cases hsz : (sz : ℤ) ≠ dir.data.size
    · rw [if_pos hsz] at h
      dsimp only at h
      split at h
      · cases h
        exact ⟨dir.contents, rfl⟩
      · split at h
        · cases h
          exact ⟨dir.contents, rfl⟩
        · cases h
    · rw [if_neg hsz] at h
      cases h
      exact ⟨_, rfl⟩

theorem dirLookup_etc {ret vnid : ℤ} {name : Name}
    (h : dirLookup fs dir name = .ok (ret, vnid, dir')) :
    ∃ contents, dir' = { dir with contents := contents } := by
  unfold dirLookup at h
  cases hload : loadContents fs dir with
  | error e =>
    rw [hload] at h
    cases h
  | ok r =>
    obtain ⟨ret₀, c, dir₀⟩ := r
    obtain ⟨contents, hdir⟩ := loadContents_etc hload
    rw [hload] at h
    dsimp only [Except.map] at h
    refine ⟨contents, ?_⟩
    rw [← hdir]
    split at h
    · cases h
      rfl
    split at h
    · cases h
      rfl
    · cases h
      rfl

theorem dirInsert_saves {name : Name} {inum : ℤ} {stack : ℕ → UInt8} (hl : Layout fs)
    (hn : Numbered fs dir.inodeNum) (hg : Good fs dir)
    (h : dirInsert fs dir name inum stack = .ok (0, dir', fs')) : Saves fs fs' dir dir' := by
  unfold dirInsert at h
  cases hload : loadContents fs dir with
  | error e =>
    rw [hload] at h
    cases h
  | ok r =>
    obtain ⟨ret₀, c, dir₀⟩ := r
    obtain ⟨contents, rfl⟩ := loadContents_etc hload
    rw [hload] at h
    dsimp only [Except.bind] at h
    split at h
    · cases h
      exact saves_etc hg _ _
    have hetc := saves_etc hg
      (appendEntry { dir with contents := contents } c name inum stack).contents (dir.counter + 1)
    refine Saves.trans hetc ?_
    generalize hcall : myfsWriteDataStream fs _ 0 _ _ = r at h
    cases r with
    | error e => cases h
    | ok r =>
      obtain ⟨ret, count, dir₂, fs₂⟩ := r
      dsimp only [Except.map] at h
      cases h
      exact writeDataStream_saves hl hn hetc.good hcall

/-- A write inside the file leaves its pointers and what they point to. -/
theorem write_inside_maps {buf : ℕ → UInt8} {len count : ℕ} (hl : Layout fs) (hg : Good fs dir)
    (hp : MapsData fs dir) (hlen : (len : ℤ) ≤ dir.data.size)
    (h : myfsWriteDataStream fs dir 0 buf len = .ok (0, count, dir', fs'))
    (hfix : fixed fs' = fixed fs) : MapsData fs' dir' ∧ dir'.data = dir.data := by
  rcases myfsWriteDataStream_ok h with ⟨-, rfl, rfl⟩ |
    ⟨hpos, mi₁, fs₁, fs₂, done, hgrow, hbytes, hdata, hsame⟩
  · exact ⟨hp, rfl⟩
  rw [show startPos 0 = 0 from rfl, zero_add] at hgrow
  rw [show startPos 0 = 0 from rfl] at hbytes
  rcases growForWrite_ok hgrow with ⟨-, rfl, rfl⟩ | ⟨hlt, -⟩
  swap
  · omega
  obtain ⟨hbitmap, hmap, htable, -, -⟩ := areas_fixed hfix
  have hblocks := congrArg (fun fs => fs.dsb.numBlocks) hfix
  change fs'.dsb.numBlocks = fs₁.dsb.numBlocks at hblocks
  have hdatablock : DataBlock fs' = DataBlock fs₁ := by
    unfold DataBlock
    rw [hbitmap, hmap, htable, hblocks]
  have hmax : maxIndex fs' = maxIndex fs₁ := by
    unfold maxIndex
    rw [blockSize_fixed hfix]
  refine ⟨?_, hdata⟩
  by_cases hsome : mi₁.data.indirect = 0
  · refine ⟨fun a ha hne => ?_, fun hne => absurd (by rw [hdata]; exact hsome) hne⟩
    rw [hdatablock]
    refine hp.blocks a ?_ hne
    unfold Pointer at ha ⊢
    rw [hdata] at ha
    rcases ha with ha | ha | ha
    · exact .inl ha
    · exact .inr (.inl ha)
    · exact absurd hsome ha.1
  have hap : IndirectApart fs₁ mi₁ := fun _ => hp.indirect hsome
  have hwritten := writeBytes_written hl.pos hg.bounded hap le_rfl hpos (by omega) hbytes
  have hkept : fs'.dataArea mi₁.data.indirect = fs₁.dataArea mi₁.data.indirect := by
    rw [hsame.dataArea]
    exact hwritten.others _ (hp.indirect hsome)
  refine ⟨fun a ha hne => ?_, fun _ hd => hp.indirect hsome ?_⟩
  · rw [hdatablock]
    refine hp.blocks a ?_ hne
    unfold Pointer at ha ⊢
    rw [hdata, hmax, hkept] at ha
    exact ha
  · unfold DataAddr at hd ⊢
    rw [hdata, hmax, hkept, blockSize_fixed hfix] at hd
    exact hd

/-- A file can be made shorter as long as its blocks are in the ranges that exist. -/
theorem shrinkDstream_zero {n : ℤ} (hg : Good fs mi) (h₀ : 0 ≤ n) (hle : n ≤ mi.data.size) :
    (shrinkDstream fs mi n).1 = 0 := by
  have hbound := hg.bounded
  have hguard : ¬(n < 0 ∨ maxDoubleIndirectRange fs.dsb.blockSize < n) := by
    have : (0 : ℤ) ≤ fs.dsb.blockSize / 8 * indirectSize fs.dsb.blockSize := by
      unfold indirectSize
      positivity
    unfold maxDoubleIndirectRange
    omega
  unfold shrinkDstream
  dsimp only
  rw [if_neg hguard]
  split
  · rfl
  · rfl

theorem setFileSize_shorter {n err : ℤ} (hg : Good fs mi) (h₀ : 0 ≤ n) (hle : n ≤ mi.data.size)
    (h : myfsSetFileSize fs mi n = .ok (err, mi', fs')) : err = 0 := by
  have hshrink := shrinkDstream_zero hg h₀ hle
  unfold myfsSetFileSize at h
  split at h
  · cases h
    rfl
  rename_i hne
  rw [if_pos (by omega)] at h
  generalize shrinkDstream fs mi n = r at h hshrink
  obtain ⟨err₁, mi₁, fs₁⟩ := r
  obtain rfl : err₁ = 0 := hshrink
  dsimp only [Except.bind] at h
  rw [if_neg (not_not_intro rfl)] at h
  generalize updateInode fs₁ _ = r at h
  cases r with
  | error e => cases h
  | ok fs₂ =>
    cases h
    rfl

theorem dirDelete_saves {name : Name} (hl : Layout fs) (hn : Numbered fs dir.inodeNum)
    (hg : Good fs dir) (hp : MapsData fs dir) (h : dirDelete fs dir name = .ok (0, dir', fs')) :
    Saves fs fs' dir dir' := by
  unfold dirDelete at h
  split at h
  · cases h
  cases hload : loadContents fs dir with
  | error e =>
    rw [hload] at h
    cases h
  | ok r =>
    obtain ⟨ret₀, c, dir₀⟩ := r
    obtain ⟨contents, rfl⟩ := loadContents_etc hload
    rw [hload] at h
    dsimp only [Except.bind] at h
    split at h
    · cases h
      exact saves_etc hg _ _
    split at h
    · cases h
    rename_i p hfind
    have hetc := saves_etc hg (some (closeGap c dir.data.size.toNat p)) (dir.counter + 1)
    refine Saves.trans hetc ?_
    generalize hcall : myfsWriteDataStream fs _ 0 _ _ = r at h
    cases r with
    | error e => cases h
    | ok r =>
      obtain ⟨ret, nsize, dir₂, fs₂⟩ := r
      dsimp only at h
      by_cases hret : ret = 0
      swap
      · rw [if_pos (.inl hret)] at h
        cases h
        exact absurd rfl hret
      subst hret
      have hwrite := (fun hn' => writeDataStream_saves hl hn' hetc.good hcall) hn
      have hsize := hg.storable.size
      obtain ⟨hmaps, hdata⟩ := write_inside_maps hl hetc.good ⟨hp.blocks, hp.indirect⟩
        (by dsimp only; omega) hcall hwrite.frame.fixed
      split at h
      · cases h
        exact hwrite
      rename_i hcount
      have heq : (nsize : ℤ) = dir₂.data.size - (nextMde p (c (p + 8)).toNat - p : ℕ) := by
        by_contra hne
        exact hcount (.inr hne)
      generalize hset : myfsSetFileSize fs₂ dir₂ nsize = r at h
      cases r with
      | error e => cases h
      | ok r =>
        obtain ⟨err, dir₃, fs₃⟩ := r
        dsimp only [Except.map] at h
        cases h
        obtain rfl := setFileSize_shorter hwrite.good (by omega) (by omega) hset
        refine Saves.trans hwrite (setFileSize_saves (hwrite.frame.layout hl) ?_ hwrite.good
          (fun _ => hmaps) hset)
        rw [hwrite.inodeNum]
        exact hn.of_fixed hwrite.frame.fixed

end Directories

section Allocation
variable {v : Volume} {fs fs' fs₁ fs₂ : Myfs} {mi mi' : Inode} {ia ib : ℤ}

theorem int32_lor {x y : ℤ} (hx : Int32 x) (hy : Int32 y) : Int32 (Int.lor x y) := by
  obtain ⟨hx₁, hx₂⟩ := hx
  obtain ⟨hy₁, hy₂⟩ := hy
  rcases x with m | m <;> rcases y with n | n
  · have hlt : m ||| n < 2 ^ 31 := Nat.or_lt_two_pow (by simp at hx₂; omega) (by simp at hy₂; omega)
    change Int32 ((m ||| n : ℕ) : ℤ)
    exact ⟨by omega, by omega⟩
  · have hlt : Nat.ldiff n m < 2 ^ 31 := Nat.bitwise_lt_two_pow (by omega) (by simp at hx₂; omega)
    change Int32 (Int.negSucc (Nat.ldiff n m))
    exact ⟨by omega, by omega⟩
  · have hlt : Nat.ldiff m n < 2 ^ 31 := Nat.bitwise_lt_two_pow (by omega) (by simp at hy₂; omega)
    change Int32 (Int.negSucc (Nat.ldiff m n))
    exact ⟨by omega, by omega⟩
  · have hlt : m &&& n < 2 ^ 31 := Nat.and_lt_two_pow m (by omega)
    change Int32 (Int.negSucc (m &&& n))
    exact ⟨by omega, by omega⟩

theorem int32_land {x y : ℤ} (hx : Int32 x) (hy : Int32 y) : Int32 (Int.land x y) := by
  obtain ⟨hx₁, hx₂⟩ := hx
  obtain ⟨hy₁, hy₂⟩ := hy
  rcases x with m | m <;> rcases y with n | n
  · have hlt : m &&& n < 2 ^ 31 := Nat.and_lt_two_pow m (by simp at hy₂; omega)
    change Int32 ((m &&& n : ℕ) : ℤ)
    exact ⟨by omega, by omega⟩
  · have hlt : Nat.ldiff m n < 2 ^ 31 := Nat.bitwise_lt_two_pow (by simp at hx₂; omega) (by omega)
    change Int32 ((Nat.ldiff m n : ℕ) : ℤ)
    exact ⟨by omega, by omega⟩
  · have hlt : Nat.ldiff n m < 2 ^ 31 := Nat.bitwise_lt_two_pow (by simp at hy₂; omega) (by omega)
    change Int32 ((Nat.ldiff n m : ℕ) : ℤ)
    exact ⟨by omega, by omega⟩
  · have hlt : m ||| n < 2 ^ 31 := Nat.or_lt_two_pow (by omega) (by omega)
    change Int32 (Int.negSucc (m ||| n))
    exact ⟨by omega, by omega⟩

theorem int32_ifreg : Int32 mySIfreg := ⟨by decide, by decide⟩

theorem int32_ifdir : Int32 mySIfdir := ⟨by decide, by decide⟩

/-- A good inode with another owner and another mode. -/
theorem Good.owner (h : Good fs mi) {uid gid mode : ℤ} (hu : Int32 uid) (hg : Int32 gid)
    (hm : Int32 mode) : Good fs { mi with uid := uid, gid := gid, mode := mode } := by
  obtain ⟨⟨hc, haddr, hsize⟩, hbound, hdouble⟩ := h
  exact ⟨⟨⟨hu, hg, hm, hc.inodeNum, hc.flags, hc.createTime, hc.lastModifiedTime,
    hc.direct, hc.indirect, hc.doubleIndirect, hc.size⟩, haddr, hsize⟩, hbound, hdouble⟩

theorem Good.chmod (h : Good fs mi) {mode : ℤ} (hm : Int32 mode) :
    Good fs { mi with mode := mode } :=
  Good.owner h h.storable.fields.uid h.storable.fields.gid hm

/-- A good inode with other times. -/
theorem Good.times (h : Good fs mi) {created modified : ℤ} (hcreated : Int64 created)
    (hmodified : Int64 modified) :
    Good fs { mi with createTime := created, lastModifiedTime := modified } := by
  obtain ⟨⟨hc, haddr, hsize⟩, hbound, hdouble⟩ := h
  exact ⟨⟨⟨hc.uid, hc.gid, hc.mode, hc.inodeNum, hc.flags, hcreated, hmodified,
    hc.direct, hc.indirect, hc.doubleIndirect, hc.size⟩, haddr, hsize⟩, hbound, hdouble⟩

theorem freshInode_good (hl : Layout fs) {mode : ℤ} (hm : Int32 mode) {start : ℕ}
    (hs : start < fs.inodeMap.numbits) : Good fs (freshInode fs mode start) := by
  have hnum := hl.inodes
  have haddr := hl.addressable (show Numbered fs start from ⟨by omega, by omega⟩)
  have hnow := hl.now
  have hflags : Int32 0 := ⟨by decide, by decide⟩
  refine ⟨⟨⟨hl.uid, hl.gid, hm, ⟨?_, ?_⟩, hflags, hnow, hnow, fun _ _ => int64_zero,
    int64_zero, int64_zero, int64_zero⟩, haddr, le_rfl⟩, ?_, rfl⟩
  · change -2 ^ 63 ≤ (start : ℤ)
    omega
  · change (start : ℤ) < 2 ^ 63
    omega
  · change (0 : ℤ) ≤ maxIndirectRange fs.dsb.blockSize
    rw [maxIndirectRange_eq]
    positivity

/-- An inode that stays allocated while the map changes. -/
theorem Agrees.mapChange (h : Agrees fs ib mi) (hc : MapChange fs fs₁) (ht : Taken fs₁ ib) :
    Agrees fs₁ ib mi := by
  refine ⟨ht, h.inodeNum, h.good.frame hc.fixed, fun k hk => ?_⟩
  rw [hc.records mi.inodeNum (by rw [h.inodeNum]; exact h.taken.numbered) k]
  exact h.recorded k hk

theorem numInodes_fixed (h : fixed fs' = fixed fs) : fs'.inodeMap.numbits = fs.inodeMap.numbits :=
  congrArg (fun fs => fs.inodeMap.numbits) h

/-- A new inode is in the map, and its record has been written. -/
theorem Inv.enter (h : Inv v) {start : ℕ} (hm : MapSound fs₁) (hc : MapChange v.fs fs₁)
    (hone : 1 ≤ start) (hlt : start < v.fs.inodeMap.numbits)
    (hfree : v.fs.inodeMap.bit start = false)
    (hbits : ∀ p, fs₁.inodeMap.bit p = (v.fs.inodeMap.bit p || decide (p = start)))
    (hframe : RecordFrame start fs₁ fs₂) (hnum : mi.inodeNum = start) (hg : Good fs₂ mi)
    (hr : Recorded fs₂ mi) :
    Inv (Volume.keep { v with fs := fs₂ } start mi) ∧ v.loaded start = none := by
  have hl₁ := h.layout.of_fixed hc.fixed
  have hnumbits := numInodes_fixed hc.fixed
  have htaken : Taken fs₁ start := by
    refine ⟨by omega, by omega, ?_⟩
    rw [hbits, Int.toNat_natCast, decide_eq_true rfl, Bool.or_true]
  have hother : ∀ ib : ℤ, ib ≠ start → (Taken fs₁ ib ↔ Taken v.fs ib) := by
    intro ib hne
    unfold Taken
    rw [hnumbits, hbits]
    constructor
    · rintro ⟨h₁, h₂, h₃⟩
      rw [decide_eq_false (by omega), Bool.or_false] at h₃
      exact ⟨h₁, h₂, h₃⟩
    · rintro ⟨h₁, h₂, h₃⟩
      rw [h₃, Bool.true_or]
      exact ⟨h₁, h₂, rfl⟩
  have hold : ∀ {ib mib}, Agrees v.fs ib mib → ib ≠ start ∧ Agrees fs₂ ib mib := by
    intro ib mib hagrees
    have hne : ib ≠ start := by
      rintro rfl
      have hset := hagrees.taken.2.2
      rw [Int.toNat_natCast, hfree] at hset
      cases hset
    exact ⟨hne, (hagrees.mapChange hc ((hother ib hne).2 hagrees.taken)).other hl₁ hframe
      htaken.numbered hne⟩
  have hself : Agrees fs₂ start mi := ⟨(RecordFrame.taken hframe start).2 htaken, hnum, hg, hr⟩
  refine ⟨⟨hframe.layout hl₁, mapSound_fixed hm hframe.fixed hframe.inodeMap,
    hframe.mapOnDisk hl₁ htaken.numbered (hc.onDisk h.mapOnDisk), fun ib hib => ?_,
    fun ib mib hib => ?_⟩, ?_⟩
  · rcases eq_or_ne ib start with rfl | hne
    · exact ⟨mi, hself⟩
    · obtain ⟨mib, hb⟩ := h.records ib ((hother ib hne).1 ((RecordFrame.taken hframe ib).1 hib))
      exact ⟨mib, (hold hb).2⟩
  · unfold Volume.keep at hib
    dsimp only at hib
    rcases eq_or_ne ib start with rfl | hne
    · rw [Function.update_self] at hib
      cases hib
      exact hself
    · rw [Function.update_of_ne hne] at hib
      exact (hold (h.loaded ib mib hib)).2
  · cases hsome : v.loaded start with
    | none => rfl
    | some mib => exact absurd rfl (hold (h.loaded _ _ hsome)).1

/-- What `make_file` and `make_dir` leave when they return 0. -/
structure MadeInode (v : Volume) (fs₂ : Myfs) (mi : Inode) : Prop where
  inv : Inv (Volume.keep { v with fs := fs₂ } mi.inodeNum mi)
  fresh : v.loaded mi.inodeNum = none

theorem makeFile_made (h : Inv v) {mode ret : ℤ} (hmode : Int32 mode)
    (hcall : makeFile v.fs mode = .ok (ret, some mi, fs')) : MadeInode v fs' mi := by
  unfold makeFile at hcall
  generalize halloc : myfsAllocateInode v.fs mode = r at hcall
  cases r with
  | error e => cases hcall
  | ok r =>
    obtain ⟨mi₀, fs₁⟩ := r
    cases mi₀ with
    | none => cases hcall
    | some mi₀ =>
      obtain ⟨start, rfl, hone, hlt, hfree, hm, hc, hbits⟩ :=
        allocateInode_spec h.layout h.mapSound halloc
      dsimp only [Except.bind] at hcall
      generalize hu : updateInode fs₁ _ = u at hcall
      cases u with
      | error e => cases hcall
      | ok fs₂ =>
        cases hcall
        have hl₁ := h.layout.of_fixed hc.fixed
        have hnumbits := numInodes_fixed hc.fixed
        have hn : Numbered fs₁ start := ⟨by omega, by omega⟩
        obtain ⟨hframe, hrecorded⟩ := updateInode_recorded hl₁ hn hu
        have hgood := (Good.chmod (freshInode_good h.layout hmode hlt)
          (int32_lor hmode int32_ifreg)).frame (hframe.fixed.trans hc.fixed)
        obtain ⟨hinv, hnone⟩ := h.enter hm hc hone hlt hfree hbits hframe rfl hgood hrecorded
        exact ⟨hinv, hnone⟩

theorem makeDir_made (h : Inv v) {parent : Option Inode} {mode ret : ℤ} {stack : ℕ → UInt8}
    (hmode : Int32 mode) (hcall : makeDir v.fs parent mode stack = .ok (ret, some mi, fs')) :
    MadeInode v fs' mi := by
  unfold makeDir at hcall
  generalize halloc : myfsAllocateInode v.fs mode = r at hcall
  cases r with
  | error e => cases hcall
  | ok r =>
    obtain ⟨mi₀, fs₁⟩ := r
    cases mi₀ with
    | none => cases hcall
    | some mi₀ =>
      obtain ⟨start, rfl, hone, hlt, hfree, hm, hc, hbits⟩ :=
        allocateInode_spec h.layout h.mapSound halloc
      dsimp only [Except.bind] at hcall
      generalize hwrite : myfsWriteDataStream fs₁ _ 0 _ 32 = w at hcall
      cases w with
      | error e => cases hcall
      | ok w =>
        obtain ⟨ret₁, len, mi₂, fs₂⟩ := w
        dsimp only at hcall
        split at hcall
        · cases hcall
        rename_i hret
        obtain ⟨rfl, -⟩ : ret₁ = 0 ∧ len = 32 := by
          constructor
          · by_contra hne
            exact hret (.inl hne)
          · by_contra hne
            exact hret (.inr hne)
        have hl₁ := h.layout.of_fixed hc.fixed
        have hnumbits := numInodes_fixed hc.fixed
        have hn : Numbered fs₁ start := ⟨by omega, by omega⟩
        have hgood := (Good.chmod (freshInode_good h.layout hmode hlt)
          (int32_lor hmode int32_ifdir)).frame hc.fixed
        have hs := writeDataStream_saves hl₁ hn hgood hwrite
        have hnum : mi₂.inodeNum = start := hs.inodeNum
        have hl₂ := hs.frame.layout hl₁
        generalize hu : updateInode fs₂ _ = u at hcall
        cases u with
        | error e => cases hcall
        | ok fs₃ =>
          cases hcall
          obtain ⟨hframe, hrecorded⟩ := updateInode_recorded hl₂
            (by rw [hnum]; exact hn.of_fixed hs.frame.fixed) hu
          rw [hnum] at hframe
          obtain ⟨hinv, hnone⟩ := h.enter hm hc hone hlt hfree hbits (hs.frame.trans hframe) hnum
            (hs.good.frame hframe.fixed) hrecorded
          rw [← hnum] at hinv hnone
          exact ⟨hinv, hnone⟩

/-- The checks of a new name return at once with an error, or they leave the fields. -/
theorem checkNewName_ok {parent parent' : Inode} {name : Name} {err : Option ℤ}
    (h : checkNewName fs parent name = .ok (err, parent')) :
    err ≠ some 0 ∧ ∃ contents, parent' = { parent with contents := contents } := by
  unfold checkNewName at h
  split at h
  · cases h
  split at h
  · cases h
    exact ⟨by decide, parent.contents, rfl⟩
  split at h
  · cases h
    exact ⟨by decide, parent.contents, rfl⟩
  generalize hlookup : dirLookup fs parent name = r at h
  cases r with
  | error e => cases h
  | ok r =>
    obtain ⟨ret, vnid, dir⟩ := r
    have hetc := dirLookup_etc hlookup
    dsimp only [Except.map] at h
    split at h
    · cases h
      exact ⟨by decide, hetc⟩
    · cases h
      exact ⟨by decide, hetc⟩

/-- What `myfs_create` and `myfs_mkdir` have done when they return 0. -/
theorem newName_ok (make : Inode → Except Halt (ℤ × Option Inode × Myfs)) {parent parent' : Inode}
    {name : Name} {stack : ℕ → UInt8}
    (h : ((checkNewName fs parent name).bind fun
      | (some err, parent) => .ok (err, parent, fs)
      | (none, parent) => (make parent).bind (insertNew parent name stack)) =
        .ok (0, parent', fs')) :
    ∃ contents ret mi fs₁, make { parent with contents := contents } = .ok (ret, some mi, fs₁) ∧
      dirInsert fs₁ { parent with contents := contents } name mi.inodeNum stack =
        .ok (0, parent', fs') := by
  generalize hcheck : checkNewName fs parent name = r at h
  cases r with
  | error e => cases h
  | ok r =>
    obtain ⟨err, parent₁⟩ := r
    obtain ⟨herr, contents, rfl⟩ := checkNewName_ok hcheck
    dsimp only [Except.bind] at h
    cases err with
    | some err =>
      cases h
      exact absurd rfl herr
    | none =>
      dsimp only at h
      generalize hmake : make _ = m at h
      cases m with
      | error e => cases h
      | ok m =>
        obtain ⟨ret, made, fs₁⟩ := m
        dsimp only [insertNew] at h
        split at h
        · rename_i hneg
          cases h
          omega
        cases made with
        | none => cases h
        | some mi =>
          refine ⟨contents, ret, mi, fs₁, hmake, ?_⟩
          dsimp only at h
          generalize dirInsert fs₁ _ name mi.inodeNum stack = d at h
          cases d with
          | error e => cases h
          | ok d =>
            obtain ⟨ret₂, parent₂, fs₂⟩ := d
            dsimp only [Except.map] at h
            split at h
            · rename_i hne
              cases h
              exact absurd rfl hne
            · cases h
              rfl

/-- The new inode is entered into the directory. -/
theorem MadeInode.insert {parent parent' : Inode} {dir : ℤ} {name : Name} {stack : ℕ → UInt8}
    {contents : Option (ℕ → UInt8)} (h : MadeInode v fs₁ mi) (hdir : v.loaded dir = some parent)
    (hcall : dirInsert fs₁ { parent with contents := contents } name mi.inodeNum stack =
      .ok (0, parent', fs₂)) :
    Inv ((Volume.keep { v with fs := fs₂ } dir parent').keep mi.inodeNum mi) ∧
      dir ≠ mi.inodeNum := by
  have hne : dir ≠ mi.inodeNum := by
    intro heq
    rw [heq, h.fresh] at hdir
    cases hdir
  have ha : Agrees fs₁ dir parent := by
    refine h.inv.loaded dir parent ?_
    unfold Volume.keep
    dsimp only
    rw [Function.update_of_ne hne]
    exact hdir
  have hetc := saves_etc ha.good contents parent.counter
  have hins := dirInsert_saves h.inv.layout (by rw [ha.inodeNum]; exact ha.taken.numbered)
    hetc.good hcall
  have hinv := h.inv.save ha (Saves.trans hetc hins)
  refine ⟨?_, hne⟩
  have hcomm := Function.update_comm hne (some parent') (some mi) v.loaded
  unfold Volume.keep at hinv ⊢
  dsimp only at hinv ⊢
  rw [hcomm]
  exact hinv

end Allocation

section Calls
variable {v v' : Volume} {mi : Inode} {ia : ℤ}

theorem map_ok {α β : Type} {f : α → β} {x : Except Halt α} {b : β} (h : x.map f = .ok b) :
    ∃ a, x = .ok a ∧ f a = b := by
  cases x with
  | error e => cases h
  | ok a => exact ⟨a, rfl, Except.ok.inj h⟩

theorem bind_ok {α β : Type} {f : α → Except Halt β} {x : Except Halt α} {b : β}
    (h : x.bind f = .ok b) : ∃ a, x = .ok a ∧ f a = .ok b := by
  cases x with
  | error e => cases h
  | ok a => exact ⟨a, rfl, h⟩

theorem callOn_ok {act : Inode → Except Halt (ℤ × Volume)} {r : ℤ × Volume}
    (h : callOn v ia act = .ok r) : ∃ mi, v.loaded ia = some mi ∧ act mi = .ok r := by
  unfold callOn at h
  cases hl : v.loaded ia with
  | none =>
    rw [hl] at h
    cases h
  | some mi =>
    rw [hl] at h
    exact ⟨mi, rfl, h⟩

theorem create_inv {dir mode : ℤ} {name : Name} {stack : ℕ → UInt8} (h : Inv v)
    (hmode : Int32 mode) (hcall : call v (.create dir name mode stack) = .ok (0, v')) : Inv v' := by
  obtain ⟨parent, hdir, hact⟩ := callOn_ok hcall
  obtain ⟨⟨ret, parent', fs'⟩, hcreate, hv'⟩ := map_ok hact
  obtain ⟨rfl, rfl⟩ := Prod.mk.inj hv'
  obtain ⟨contents, ret, mi, fs₁, hmake, hinsert⟩ :=
    newName_ok (fun _ => makeFile v.fs mode) hcreate
  obtain ⟨hinv, -⟩ := (makeFile_made h hmode hmake).insert hdir hinsert
  have hnew : createdInode v.fs mode = some mi := by
    unfold createdInode
    rw [hmake]
  rw [if_pos rfl, hnew]
  exact hinv

theorem mkdir_inv {dir mode : ℤ} {name : Name} {stack : ℕ → UInt8} (h : Inv v)
    (hmode : Int32 mode) (hcall : call v (.mkdir dir name mode stack) = .ok (0, v')) : Inv v' := by
  obtain ⟨parent, hdir, hact⟩ := callOn_ok hcall
  obtain ⟨⟨ret, parent', fs'⟩, hmkdir, hv'⟩ := map_ok hact
  obtain ⟨rfl, rfl⟩ := Prod.mk.inj hv'
  obtain ⟨contents, ret, mi, fs₁, hmake, hinsert⟩ :=
    newName_ok (fun parent => makeDir v.fs (some parent) mode stack) hmkdir
  have hmade := makeDir_made h hmode hmake
  obtain ⟨hinv, hne⟩ := hmade.insert hdir hinsert
  -- the vnode layer has no vnode for the new directory yet
  have hdrop : (Volume.keep { v with fs := fs' } dir parent').loaded mi.inodeNum = none := by
    unfold Volume.keep
    dsimp only
    rw [Function.update_of_ne hne.symm]
    exact hmade.fresh
  have hback := hinv.drop mi.inodeNum
  generalize Volume.keep { v with fs := fs' } dir parent' = w at hdrop hback
  unfold Volume.drop Volume.keep at hback
  dsimp only at hback
  rw [Function.update_idem, ← hdrop, Function.update_eq_self] at hback
  exact hback

theorem Agrees.saves_numbered {fs : Myfs} (h : Agrees fs ia mi) : Numbered fs mi.inodeNum := by
  rw [h.inodeNum]
  exact h.taken.numbered

theorem write_inv {pos : ℤ} {buf : ℕ → UInt8} {len : ℕ} (h : Inv v)
    (hcall : call v (.write ia pos buf len) = .ok (0, v')) : Inv v' := by
  obtain ⟨mi, hia, hact⟩ := callOn_ok hcall
  obtain ⟨⟨ret, count, mi', fs'⟩, hwrite, hv'⟩ := map_ok hact
  obtain ⟨rfl, rfl⟩ := Prod.mk.inj hv'
  obtain ⟨-, -, hstream⟩ := bind_ok hwrite
  have ha := h.loaded ia mi hia
  exact h.save ha (writeDataStream_saves h.layout ha.saves_numbered ha.good hstream)

/-- The values of a `struct my_stat` are those of its C types. -/
structure CStat (st : MyStat) : Prop where
  mode : Int32 st.mode
  uid : Int32 st.uid
  gid : Int32 st.gid
  crtime : Int64 st.crtime
  mtime : Int64 st.mtime

theorem int32_ifmt : Int32 mySIfmt := ⟨by decide, by decide⟩

theorem int32_iumsk : Int32 mySIumsk := ⟨by decide, by decide⟩

theorem wstatOwner_good {fs : Myfs} {st : MyStat} (hg : Good fs mi) (hst : CStat st)
    (mask : BitVec 64) : Good fs (wstatOwner mi st mask) := by
  have hc := hg.storable.fields
  unfold wstatOwner
  refine Good.owner hg ?_ ?_ ?_
  · split
    · exact hc.uid
    · exact hst.uid
  · split
    · exact hc.gid
    · exact hst.gid
  · split
    · exact hc.mode
    · exact int32_lor (int32_land hc.mode int32_ifmt) (int32_land hst.mode int32_iumsk)

theorem wstatTimes_good {fs : Myfs} {st : MyStat} (hg : Good fs mi) (hst : CStat st)
    (mask : BitVec 64) : Good fs (wstatTimes mi st mask) := by
  have hc := hg.storable.fields
  unfold wstatTimes
  refine Good.times hg ?_ ?_
  · split
    · exact hc.createTime
    · exact hst.crtime
  · split
    · exact hc.lastModifiedTime
    · exact hst.mtime

/-- The size part of `myfs_wstat` leaves a good inode; its record is written by the end. -/
theorem wstatSize_good {fs fs' : Myfs} {mi' : Inode} {st : MyStat} {mask : BitVec 64}
    (hl : Layout fs) (hn : Numbered fs mi.inodeNum) (hg : Good fs mi) (hp : MapsData fs mi)
    (h : wstatSize fs mi st mask = .ok (0, mi', fs')) :
    RecordFrame mi.inodeNum fs fs' ∧ Good fs' mi' ∧ mi'.inodeNum = mi.inodeNum := by
  unfold wstatSize at h
  split at h
  · cases h
    exact ⟨.refl _ _, hg, rfl⟩
  split at h
  · cases h
  obtain ⟨⟨err, mi₁, fs₁⟩, hset, heq⟩ := map_ok h
  dsimp only at heq
  cases heq
  have hs := setFileSize_saves hl hn hg (fun _ => hp) hset
  exact ⟨hs.frame, hs.good.stamp (hs.frame.layout hl).now, hs.inodeNum⟩

theorem wstat_saves {fs fs' : Myfs} {mi' : Inode} {st : MyStat} {mask : BitVec 64} (hst : CStat st)
    (hl : Layout fs) (hn : Numbered fs mi.inodeNum) (hg : Good fs mi) (hp : MapsData fs mi)
    (h : myfsWstat fs mi st mask = .ok (0, mi', fs')) : Saves fs fs' mi mi' := by
  obtain ⟨-, -, h⟩ := bind_ok h
  split at h
  · cases h
    exact saves_etc hg _ _
  obtain ⟨⟨err, mi₁, fs₁⟩, hsize, h⟩ := bind_ok h
  dsimp only at h
  by_cases herr : err = 0
  swap
  · rw [if_pos herr] at h
    cases h
    exact absurd rfl herr
  subst herr
  rw [if_neg (not_not_intro rfl)] at h
  have hn' : Numbered fs (wstatOwner mi st mask).inodeNum := hn
  obtain ⟨hframe, hgood, hnum⟩ := wstatSize_good hl hn' (wstatOwner_good hg hst mask)
    ⟨hp.blocks, hp.indirect⟩ hsize
  obtain ⟨fs₂, hupdate, heq⟩ := map_ok h
  cases heq
  have hnum' : (wstatTimes mi₁ st mask).inodeNum = mi.inodeNum := hnum
  obtain ⟨hframe', hrecorded⟩ := updateInode_recorded (hframe.layout hl)
    (by rw [hnum']; exact hn.of_fixed hframe.fixed) hupdate
  rw [hnum'] at hframe'
  exact ⟨hframe.trans hframe', (wstatTimes_good hgood hst mask).frame hframe'.fixed, hnum',
    fun _ => hrecorded⟩

theorem wstat_inv {st : MyStat} {mask : BitVec 64} (h : Inv v) (hst : CStat st)
    (hp : ∀ mi, v.loaded ia = some mi → MapsData v.fs mi)
    (hcall : call v (.wstat ia st mask) = .ok (0, v')) : Inv v' := by
  obtain ⟨mi, hia, hact⟩ := callOn_ok hcall
  obtain ⟨⟨ret, mi', fs'⟩, hwstat, hv'⟩ := map_ok hact
  obtain ⟨rfl, rfl⟩ := Prod.mk.inj hv'
  have ha := h.loaded ia mi hia
  exact h.save ha (wstat_saves hst h.layout ha.saves_numbered ha.good (hp mi hia) hwstat)

/-- An inode of the map that is got from the vnode layer is the one on disk. -/
theorem getVnode_inv {w : Volume} (h : Inv v) (ht : v.loaded ia = none → Taken v.fs ia)
    (hcall : getVnode v ia = .ok (mi, w)) :
    Inv w ∧ w.fs = v.fs ∧ ∀ ib, v.loaded ib ≠ none → w.loaded ib = v.loaded ib := by
  unfold getVnode at hcall
  cases hl : v.loaded ia with
  | some mi₀ =>
    rw [hl] at hcall
    cases hcall
    exact ⟨h, rfl, fun _ _ => rfl⟩
  | none =>
    rw [hl] at hcall
    obtain ⟨got, hread, heq⟩ := map_ok hcall
    cases heq
    obtain ⟨mi₀, ha⟩ := h.records ia (ht hl)
    obtain ⟨got', hread', hsame, -⟩ := ha.read
    obtain rfl := Except.ok.inj (hread'.symm.trans hread)
    refine ⟨h.keep (ha.same hsame), rfl, fun ib hib => ?_⟩
    unfold Volume.keep
    dsimp only
    refine Function.update_of_ne ?_ _ _
    rintro rfl
    exact hib hl

theorem readVnode_inv (h : Inv v) (ht : v.loaded ia = none → Taken v.fs ia)
    (hcall : call v (.readVnode ia) = .ok (0, v')) : Inv v' := by
  obtain ⟨⟨mi, w⟩, hget, heq⟩ := map_ok hcall
  cases heq
  exact (getVnode_inv h ht hget).1

theorem releaseVnode_inv (h : Inv v) (hcall : call v (.releaseVnode ia) = .ok (0, v')) :
    Inv v' := by
  obtain ⟨mi, -, hact⟩ := callOn_ok hcall
  obtain ⟨-, -, heq⟩ := map_ok hact
  cases heq
  exact h.drop ia

/-- The name is found, and its inode is loaded: no field of the directory has changed. -/
theorem getNamed_inv {dir : Inode} {name : Name}
    {act : Volume → Inode → Inode → Except Halt (ℤ × Volume)} (h : Inv v)
    (hdir : v.loaded ia = some dir)
    (ht : ∀ vnid dir', dirLookup v.fs dir name = .ok (0, vnid, dir') → v.loaded vnid = none →
      Taken v.fs vnid) (hcall : getNamed v ia dir name act = .ok (0, v')) :
    ∃ contents mi w, Inv w ∧ w.fs = v.fs ∧ w.loaded ia = some { dir with contents := contents } ∧
      act w { dir with contents := contents } mi = .ok (0, v') := by
  obtain ⟨-, -, hcall⟩ := bind_ok hcall
  obtain ⟨⟨ret, vnid, dir₁⟩, hlookup, hcall⟩ := bind_ok hcall
  obtain ⟨contents, rfl⟩ := dirLookup_etc hlookup
  dsimp only at hcall
  by_cases hret : ret = 0
  swap
  · rw [if_pos hret] at hcall
    cases hcall
    exact absurd rfl hret
  subst hret
  rw [if_neg (not_not_intro rfl)] at hcall
  obtain ⟨⟨mi, w⟩, hget, hact⟩ := bind_ok hcall
  have ha := h.loaded ia dir hdir
  have hself : (v.keep ia { dir with contents := contents }).loaded ia =
      some { dir with contents := contents } := Function.update_self ..
  have hkeep : Inv (v.keep ia { dir with contents := contents }) := h.save ha
    (saves_etc ha.good contents dir.counter)
  have htaken : (v.keep ia { dir with contents := contents }).loaded vnid = none →
      Taken v.fs vnid := by
    intro hnone
    refine ht vnid _ hlookup ?_
    unfold Volume.keep at hnone
    dsimp only at hnone
    rcases eq_or_ne vnid ia with rfl | hne
    · rw [Function.update_self] at hnone
      cases hnone
    · rw [Function.update_of_ne hne] at hnone
      exact hnone
  obtain ⟨hinv, hfs, hloaded⟩ := getVnode_inv hkeep htaken hget
  refine ⟨contents, mi, w, hinv, hfs, ?_, hact⟩
  rw [hloaded ia (by rw [hself]; exact Option.some_ne_none _), hself]

theorem deleteName_inv {dir : Inode} {name : Name} (h : Inv v) (hdir : v.loaded ia = some dir)
    (hp : MapsData v.fs dir) (hcall : deleteName v ia dir name = .ok (0, v')) : Inv v' := by
  obtain ⟨⟨ret, dir', fs'⟩, hdelete, heq⟩ := map_ok hcall
  cases heq
  have ha := h.loaded ia dir hdir
  exact h.save ha (dirDelete_saves h.layout ha.saves_numbered ha.good hp hdelete)

/-- Where `myfs_unlink` and `myfs_rmdir` are when they look at the inode of the name. -/
theorem named_inv {name : Name} {act : Volume → Inode → Inode → Except Halt (ℤ × Volume)}
    (h : Inv v) (hp : ∀ dir, v.loaded ia = some dir → MapsData v.fs dir)
    (ht : ∀ dir vnid dir', v.loaded ia = some dir → dirLookup v.fs dir name = .ok (0, vnid, dir') →
      v.loaded vnid = none → Taken v.fs vnid)
    (hcall : (callOn v ia fun dir => getNamed v ia dir name act) = .ok (0, v')) :
    ∃ dir mi w, Inv w ∧ w.loaded ia = some dir ∧ MapsData w.fs dir ∧
      act w dir mi = .ok (0, v') := by
  obtain ⟨dir, hdir, hact⟩ := callOn_ok hcall
  obtain ⟨contents, mi, w, hinv, hfs, hloaded, hact⟩ := getNamed_inv h hdir
    (fun vnid dir' => ht dir vnid dir' hdir) hact
  have hmaps := hp dir hdir
  rw [← hfs] at hmaps
  exact ⟨_, mi, w, hinv, hloaded, ⟨hmaps.blocks, hmaps.indirect⟩, hact⟩

theorem unlink_inv {name : Name} (h : Inv v)
    (hp : ∀ dir, v.loaded ia = some dir → MapsData v.fs dir)
    (ht : ∀ dir vnid dir', v.loaded ia = some dir → dirLookup v.fs dir name = .ok (0, vnid, dir') →
      v.loaded vnid = none → Taken v.fs vnid)
    (hcall : call v (.unlink ia name) = .ok (0, v')) : Inv v' := by
  obtain ⟨dir, mi, w, hinv, hdir, hmaps, hact⟩ := named_inv h hp ht hcall
  split at hact
  · cases hact
  · exact deleteName_inv hinv hdir hmaps hact

theorem rmdir_inv {name : Name} (h : Inv v)
    (hp : ∀ dir, v.loaded ia = some dir → MapsData v.fs dir)
    (ht : ∀ dir vnid dir', v.loaded ia = some dir → dirLookup v.fs dir name = .ok (0, vnid, dir') →
      v.loaded vnid = none → Taken v.fs vnid)
    (hcall : call v (.rmdir ia name) = .ok (0, v')) : Inv v' := by
  obtain ⟨dir, mi, w, hinv, hdir, hmaps, hact⟩ := named_inv h hp ht hcall
  split at hact
  · cases hact
  split at hact
  · cases hact
  · exact deleteName_inv hinv hdir hmaps hact

/-- The blocks of a removed inode and its bit in the map are given back. -/
theorem removeVnode_inv (h : Inv v) (hp : ∀ mi, v.loaded ia = some mi → MapsData v.fs mi)
    (hcall : call v (.removeVnode ia) = .ok (0, v')) : Inv v' := by
  obtain ⟨mi, hia, hact⟩ := callOn_ok hcall
  obtain ⟨⟨ret, fs'⟩, hremove, heq⟩ := map_ok hact
  cases heq
  obtain ⟨-, -, heq⟩ := map_ok hremove
  have ha := h.loaded ia mi hia
  have hzero := shrinkDstream_zero ha.good le_rfl ha.good.storable.size
  unfold myfsFreeDataStream at heq
  generalize hshrink : shrinkDstream v.fs mi 0 = r at heq hzero
  obtain ⟨err, mi₁, fs₁⟩ := r
  obtain rfl : err = 0 := hzero
  dsimp only at heq
  obtain ⟨hframe, -, hmi⟩ := shrinkDstream_good ia h.layout ha.good (hp mi hia)
    ha.good.storable.size hshrink
  have hnum : mi₁.inodeNum = ia := by
    rw [hmi]
    exact ha.inodeNum
  rw [hnum] at heq
  have hframe₂ := hframe.trans (.superBlock ia fs₁)
  generalize writeSuperBlock fs₁ = fs₂ at heq hframe₂
  have hl₂ := hframe₂.layout h.layout
  have hn := ha.taken.numbered
  obtain ⟨hsound, hchange, hbits⟩ := freeInode_spec hl₂
    (mapSound_fixed h.mapSound hframe₂.fixed hframe₂.inodeMap)
    ((RecordFrame.taken hframe₂ ia).2 ha.taken)
  obtain rfl := (Prod.mk.inj heq).2
  generalize (myfsFreeInode fs₂ ia).2 = fs₃ at hsound hchange hbits
  have hstays : ∀ {ib mib}, Agrees v.fs ib mib → ib ≠ ia → Agrees fs₃ ib mib := by
    intro ib mib hb hne
    have hb₂ := hb.other h.layout hframe₂ hn hne
    refine hb₂.mapChange hchange ⟨hb₂.taken.1, ?_, ?_⟩
    · rw [numInodes_fixed hchange.fixed]
      exact hb₂.taken.2.1
    · have h₁ := ha.taken.1
      have h₂ := hb₂.taken.1
      rw [hbits, hb₂.taken.2.2, decide_eq_false (by omega)]
      rfl
  refine ⟨hl₂.of_fixed hchange.fixed, hsound,
    hchange.onDisk (hframe₂.mapOnDisk h.layout hn h.mapOnDisk), fun ib hib => ?_,
    fun ib mib hib => ?_⟩
  · obtain ⟨h₁, h₂, h₃⟩ := hib
    dsimp only [Volume.drop] at h₂ h₃
    rw [hbits, Bool.and_eq_true] at h₃
    have hne : ib ≠ ia := by
      rintro rfl
      rw [decide_eq_true rfl] at h₃
      cases h₃.2
    rw [numInodes_fixed hchange.fixed] at h₂
    obtain ⟨mib, hb⟩ := h.records ib ((RecordFrame.taken hframe₂ ib).1 ⟨h₁, h₂, h₃.1⟩)
    exact ⟨mib, hstays hb hne⟩
  · dsimp only [Volume.drop] at hib
    rcases eq_or_ne ib ia with rfl | hne
    · rw [Function.update_self] at hib
      cases hib
    · rw [Function.update_of_ne hne] at hib
      exact hstays (h.loaded ib mib hib) hne

/-- The time of day is not on disk. -/
theorem clock_inv {now : ℤ} (h : Inv v) (hnow : Int64 now)
    (hcall : call v (.clock now) = .ok (0, v')) : Inv v' := by
  cases hcall
  have hagrees : ∀ {ib mib}, Agrees v.fs ib mib → Agrees { v.fs with now := now } ib mib :=
    fun hb => ⟨hb.taken, hb.inodeNum, ⟨hb.good.storable, hb.good.bounded, hb.good.doubleIndirect⟩,
      hb.recorded⟩
  have hm := h.mapSound
  refine ⟨{ h.layout with now := hnow }, ⟨hm.zero, hm.nonempty, hm.int32, hm.inside, hm.hint,
    hm.room⟩, h.mapOnDisk, fun ib hib => ?_, fun ib mib hib => hagrees (h.loaded ib mib hib)⟩
  obtain ⟨mib, hb⟩ := h.records ib hib
  exact ⟨mib, hagrees hb⟩

end Calls

section Runs
variable {v : Volume} {e : Event}

/-- A volume that has just been mounted: the map was read from the disk, the records of the
allocated inodes are whole, and the loaded inodes have been read from them. -/
structure Mounted (v : Volume) : Prop where
  layout : Layout v.fs
  mapSound : MapSound v.fs
  mapOnDisk : MapOnDisk v.fs
  records : ∀ ia, Taken v.fs ia → ∃ mi, Agrees v.fs ia mi
  loaded : ∀ ia mi, v.loaded ia = some mi → Taken v.fs ia ∧ myfsReadVnode v.fs ia = .ok mi

/-- The call returns 0. -/
def ReturnsZero (v : Volume) (e : Event) : Prop := ∃ v', call v e = .ok (0, v')

/-- The arguments are values of their C types. -/
def CArgs : Event → Prop
  | .create _ _ mode _ => Int32 mode
  | .mkdir _ _ mode _ => Int32 mode
  | .wstat _ st _ => CStat st
  | .clock now => Int64 now
  | _ => True

/-- The blocks of the loaded files are no metadata blocks, and their indirect blocks are no data
blocks of theirs. -/
def BlocksApart (v : Volume) : Prop := ∀ ia mi, v.loaded ia = some mi → MapsData v.fs mi

/-- The inode number that the vnode layer is asked for. -/
def asked (v : Volume) : Event → Option ℤ
  | .readVnode ia => some ia
  | .unlink ia name | .rmdir ia name =>
    match v.loaded ia with
    | none => none
    | some dir =>
      match dirLookup v.fs dir name with
      | .ok (ret, vnid, _) => if ret = 0 then some vnid else none
      | .error _ => none
  | _ => none

/-- The vnode layer reads in allocated inodes only. -/
def LoadsTaken (v : Volume) (e : Event) : Prop :=
  ∀ vnid ∈ asked v e, v.loaded vnid = none → Taken v.fs vnid

/-- The calls of the runs that the disk is compared over. -/
structure Completes (v : Volume) (e : Event) : Prop where
  returns : ReturnsZero v e
  args : CArgs e
  apart : BlocksApart v

/-- The disk has the inode map and the fields of every loaded inode, and reading a vnode again
gives the inode that is loaded. -/
structure Current (v : Volume) : Prop where
  map : MapOnDisk v.fs
  records : ∀ ia mi, v.loaded ia = some mi → ∀ k < myfsInode,
    recordByte v.fs ia k = inodeByte mi k
  reread : ∀ ia mi, v.loaded ia = some mi →
    ∃ got, myfsReadVnode v.fs ia = .ok got ∧ SameFields got mi

theorem Mounted.inv (h : Mounted v) : Inv v := by
  refine ⟨h.layout, h.mapSound, h.mapOnDisk, h.records, fun ia mi hia => ?_⟩
  obtain ⟨ht, hread⟩ := h.loaded ia mi hia
  obtain ⟨mi₀, ha⟩ := h.records ia ht
  obtain ⟨got, hread', hsame, -⟩ := ha.read
  obtain rfl := Except.ok.inj (hread'.symm.trans hread)
  exact ha.same hsame

theorem Inv.current (h : Inv v) : Current v := by
  refine ⟨h.mapOnDisk, fun ia mi hia k hk => ?_, fun ia mi hia => ?_⟩
  · have ha := h.loaded ia mi hia
    rw [← ha.recorded k hk, ha.inodeNum]
  · obtain ⟨got, hread, hsame, -⟩ := (h.loaded ia mi hia).read
    exact ⟨got, hread, hsame⟩

theorem asked_named {ia vnid : ℤ} {name : Name} {dir dir' : Inode} (hdir : v.loaded ia = some dir)
    (h : dirLookup v.fs dir name = .ok (0, vnid, dir')) :
    vnid ∈ asked v (.unlink ia name) ∧ vnid ∈ asked v (.rmdir ia name) := by
  unfold asked
  dsimp only
  rw [hdir]
  dsimp only
  rw [h]
  exact ⟨rfl, rfl⟩

/-- One call. -/
theorem step_inv (h : Inv v) (hcall : Completes v e) (ht : LoadsTaken v e) : Inv (next v e) := by
  obtain ⟨⟨v', hv'⟩, hargs, hp⟩ := hcall
  have hnext : next v e = v' := by
    unfold next
    rw [hv']
  rw [hnext]
  cases e with
  | create dir name mode stack => exact create_inv h hargs hv'
  | mkdir dir name mode stack => exact mkdir_inv h hargs hv'
  | write ia pos buf len => exact write_inv h hv'
  | wstat ia st mask => exact wstat_inv h hargs (hp ia) hv'
  | unlink ia name =>
    exact unlink_inv h (hp ia) (fun dir vnid dir' hdir hn => ht vnid (asked_named hdir hn).1) hv'
  | rmdir ia name =>
    exact rmdir_inv h (hp ia) (fun dir vnid dir' hdir hn => ht vnid (asked_named hdir hn).2) hv'
  | readVnode ia => exact readVnode_inv h (ht ia rfl) hv'
  | releaseVnode ia => exact releaseVnode_inv h hv'
  | removeVnode ia => exact removeVnode_inv h (hp ia) hv'
  | clock now => exact clock_inv h hargs hv'

end Runs

section Disk
variable {v : Volume} {e : Event} {fs : Myfs} {mi : Inode}

instance (x : ℤ) : Decidable (Int32 x) := inferInstanceAs (Decidable (_ ∧ _))

instance (x : ℤ) : Decidable (Int64 x) := inferInstanceAs (Decidable (_ ∧ _))

instance (st : MyStat) : Decidable (CStat st) :=
  decidable_of_iff (Int32 st.mode ∧ Int32 st.uid ∧ Int32 st.gid ∧ Int64 st.crtime ∧ Int64 st.mtime)
    ⟨fun ⟨h₁, h₂, h₃, h₄, h₅⟩ => ⟨h₁, h₂, h₃, h₄, h₅⟩, fun h => ⟨h.1, h.2, h.3, h.4, h.5⟩⟩

instance : DecidablePred CArgs
  | .create _ _ mode _ => inferInstanceAs (Decidable (Int32 mode))
  | .mkdir _ _ mode _ => inferInstanceAs (Decidable (Int32 mode))
  | .wstat _ st _ => inferInstanceAs (Decidable (CStat st))
  | .clock now => inferInstanceAs (Decidable (Int64 now))
  | .write .. | .unlink .. | .rmdir .. | .readVnode .. | .releaseVnode .. | .removeVnode .. =>
    .isTrue trivial

instance (fs : Myfs) (ia : ℤ) : Decidable (Taken fs ia) := inferInstanceAs (Decidable (_ ∧ _))

instance (fs : Myfs) (a : ℤ) : Decidable (DataBlock fs a) :=
  decidable_of_iff (0 < a ∧ a < fs.dsb.numBlocks ∧ ¬(1 ≤ a ∧ a ≤ fs.numBitmapBlocks) ∧
    ¬(fs.dsb.inodeMapStart ≤ a ∧ a < fs.dsb.inodeMapStart + fs.dsb.numInodeMapBlocks) ∧
    ¬(fs.dsb.inodesStart ≤ a ∧ a < fs.dsb.inodesStart + fs.dsb.numInodeBlocks)) Iff.rfl

instance (v : Volume) (e : Event) : Decidable (LoadsTaken v e) :=
  inferInstanceAs (Decidable (∀ vnid ∈ asked v e, v.loaded vnid = none → Taken v.fs vnid))

/-- A file that has direct blocks only. -/
def DirectOnly (fs : Myfs) (mi : Inode) : Prop :=
  mi.data.indirect = 0 ∧ ∀ i < numDirectBlocks, mi.data.direct i ≠ 0 →
    DataBlock fs (mi.data.direct i)

instance (fs : Myfs) (mi : Inode) : Decidable (DirectOnly fs mi) :=
  inferInstanceAs (Decidable (_ ∧ _))

theorem DirectOnly.mapsData (h : DirectOnly fs mi) : MapsData fs mi := by
  obtain ⟨hind, hdirect⟩ := h
  refine ⟨fun a ha hne => ?_, fun hne => absurd hind hne⟩
  rcases ha with ⟨i, hi, rfl⟩ | rfl | ⟨hsome, -⟩
  · exact hdirect i hi hne
  · exact absurd hind hne
  · exact absurd hind hsome

/-- What can be computed of a call on a volume with at most 16 inodes. -/
def Checked (v : Volume) (e : Event) : Prop :=
  v.fs.inodeMap.numbits ≤ 16 ∧ (call v e).map Prod.fst = .ok 0 ∧ CArgs e ∧
    ∀ ia : ℕ, ia < 16 → ∀ mi ∈ v.loaded ia, DirectOnly v.fs mi

instance (v : Volume) (e : Event) : Decidable (Checked v e) := inferInstanceAs (Decidable (_ ∧ _))

theorem returns_of_fst (h : (call v e).map Prod.fst = .ok 0) : ReturnsZero v e := by
  obtain ⟨⟨ret, v'⟩, hcall, rfl⟩ := map_ok h
  exact ⟨v', hcall⟩

theorem Checked.completes (h : Inv v) (hc : Checked v e) : Completes v e := by
  obtain ⟨hnum, hret, hargs, hdirect⟩ := hc
  refine ⟨returns_of_fst hret, hargs, fun ia mi hia => ?_⟩
  have ht := (h.loaded ia mi hia).taken
  have h₁ := ht.1
  have h₂ := ht.2.1
  lift ia to ℕ using (by omega)
  exact (hdirect ia (by omega) mi hia).mapsData

/-- The root directory that `mkfs` leaves. -/
def rootInode : Inode :=
  { uid := 0
    gid := 0
    mode := 0o40777
    inodeNum := 1
    flags := 0
    createTime := 0
    lastModifiedTime := 0
    data := ⟨fun i => if i = 0 then 7 else 0, 0, 0, 32⟩
    contents := none
    counter := 0 }

def rootMap : ℕ → BitVec 32 := fun i => if i = 0 then 3 else 0

/-- A new disk of 64 blocks with 16 inodes and an empty root directory. -/
def newDisk : Myfs :=
  { dsb := ⟨512, 64, 8, 16, 2, 1, 3, 4, .clean⟩
    bv := ⟨64, 8, false, fun i => if i = 0 then 0xFF else 0⟩
    numBitmapBlocks := 1
    inodeMap := ⟨16, 2, false, rootMap⟩
    readOnly := false
    metaArea := fun b i =>
      if b = 2 then chunkByte rootMap i
      else if b = 3 ∧ 128 ≤ i ∧ i < 256 then inodeByte rootInode (i - 128)
      else 0
    dataArea := fun b i => if b = 7 ∧ i < 32 then newDirBytes 1 1 (fun _ => 0) i else 0
    cacheFails := fun _ _ => false
    now := 0
    uid := 0
    gid := 0 }

def newVolume : Volume := ⟨newDisk, fun _ => none⟩

theorem newDisk_layout : Layout newDisk where
  blockSize := ⟨9, by decide, by decide, by decide⟩
  blocks := by decide
  int32 := by decide
  inodes := by decide
  bitmapRoom := by decide
  tableRoom := by decide
  mapStart := by decide
  mapEnd := by decide
  tableStart := by decide
  tableSize := by decide
  tableEnd := by decide
  bitmapMap := by
    rintro b ⟨h₁, h₂⟩ ⟨h₃, h₄⟩
    simp only [newDisk] at h₂ h₃
    omega
  bitmapTable := by
    rintro b ⟨h₁, h₂⟩ ⟨h₃, h₄⟩
    simp only [newDisk] at h₂ h₃
    omega
  mapTable := by
    rintro b ⟨h₁, h₂⟩ ⟨h₃, h₄⟩
    simp only [newDisk] at h₂ h₃
    omega
  writable := rfl
  answers := fun _ _ => rfl
  uid := by decide
  gid := by decide
  now := by decide

theorem newDisk_bit {p : ℕ} (h : newDisk.inodeMap.bit p = true) : p < 2 := by
  by_cases hp : p < 32
  · have hall : ∀ p < 32, newDisk.inodeMap.bit p = true → p < 2 := by decide
    exact hall p hp h
  · have hzero : newDisk.inodeMap.bits (p / 32) = 0 := if_neg (by omega)
    unfold BitVector.bit BitVector.test at h
    rw [hzero] at h
    simp at h

theorem newDisk_mapSound : MapSound newDisk where
  zero := by decide
  nonempty := by decide
  int32 := by decide
  inside := fun p hp => Nat.lt_trans (newDisk_bit hp) (by decide)
  hint := by decide
  room := by decide

theorem rootInode_agrees : Agrees newDisk 1 rootInode := by
  refine ⟨by decide, rfl, ⟨⟨⟨by decide, by decide, by decide, by decide, by decide, by decide,
    by decide, by decide, by decide, by decide, by decide⟩, ⟨by decide, by decide⟩, by decide⟩,
    by decide, rfl⟩, ?_⟩
  unfold Recorded
  decide +kernel

theorem newVolume_mounted : Mounted newVolume where
  layout := newDisk_layout
  mapSound := newDisk_mapSound
  mapOnDisk := by
    intro q hq i hi
    obtain rfl : q = 0 := by
      simp only [newVolume, newDisk] at hq
      omega
    simp [newVolume, newDisk]
  records := by
    rintro ia ⟨h₁, -, hbit⟩
    have hlt := newDisk_bit hbit
    obtain rfl : ia = 1 := by omega
    exact ⟨rootInode, rootInode_agrees⟩
  loaded := by
    intro ia mi h
    cases h

end Disk

section Metadata
variable {v : Volume}

/-- A run whose calls return 0 and in which only allocated inodes are read in keeps the inode
metadata on disk current. -/
theorem metadata_always_current {es : List Event} (hv : Mounted v)
    (hes : EveryStep next Completes v es) (ht : EveryStep next LoadsTaken v es) :
    EveryState next Current v es := by
  have hinv := everyState_of_step (fun _ _ h hc => step_inv h hc.1 hc.2) hv.inv (hes.and ht)
  exact hinv.mono fun v => Inv.current


/-- A file is made, written, cut, released, and removed. -/
def fileRun : List Event :=
  [.readVnode 1, .create 1 [97] 0o644 (fun _ => 0), .write 2 0 (fun _ => 65) 600,
    .wstat 2 ⟨0, 0, 0, 3, 0, 0⟩ WSTAT_SIZE, .releaseVnode 2, .unlink 1 [97], .removeVnode 2]

theorem metadata_always_current_fileRun : EveryState next Current newVolume fileRun := by
  have hchecked : EveryStep next (fun v e => Checked v e ∧ LoadsTaken v e) newVolume fileRun := by
    decide +kernel
  have hcompletes := everyStep_of_inv
    (fun _ _ h hc => step_inv h (hc.1.completes h) hc.2)
    (fun _ _ h hc => hc.1.completes h) newVolume_mounted.inv hchecked
  exact metadata_always_current newVolume_mounted hcompletes (hchecked.mono fun _ _ hc => hc.2)

/-- Directory `b` is made in directory `a`, and `a` is removed although `b` is in it. Its inode is
read in again under the name `..` of `b`, which is still loaded, and given to directory `c`. -/
def dotDotRun : List Event :=
  [.readVnode 1, .mkdir 1 [97] 0 (fun _ => 0), .readVnode 2, .mkdir 2 [98] 0 (fun _ => 0),
    .readVnode 3, .rmdir 1 [97], .removeVnode 2]

/-- The volume when the inode of `a` has been freed. -/
def orphaned : Volume := runTrace next newVolume dotDotRun

/-- The volume when the freed inode has been read in again. -/
def reread : Volume := next orphaned (.readVnode 2)

def mkdirC : Event := .mkdir 1 [99] 0 fun _ => 0

/-- What the calls return and leave. In the end the loaded inode 2 has the size of `a`, its record
that of `c`. -/
structure DotDotFacts : Prop where
  checked : EveryStep next (fun v e => Checked v e ∧ LoadsTaken v e) newVolume dotDotRun
  again : Checked orphaned (.readVnode 2)
  removed : orphaned.loaded 2 = none
  direct : ∀ mi ∈ reread.loaded 2, DirectOnly orphaned.fs mi
  returns : (call reread mkdirC).map Prod.fst = .ok 0
  stale : ∃ mi ∈ (next reread mkdirC).loaded 2,
    recordByte (next reread mkdirC).fs 2 120 ≠ inodeByte mi 120

theorem dotDotFacts : DotDotFacts := by
  refine ⟨?_, ?_, ?_, ?_, ?_, ?_⟩
  all_goals decide +kernel

theorem orphaned_inv : Inv orphaned := by
  have hall : EveryState next Inv newVolume dotDotRun :=
    everyState_of_step (fun _ _ h hc => step_inv h (hc.1.completes h) hc.2) newVolume_mounted.inv
      dotDotFacts.checked
  have hlast : Inv (runTrace next newVolume dotDotRun) := hall.last
  exact hlast

theorem dotDotRun_completes : EveryStep next Completes newVolume dotDotRun :=
  everyStep_of_inv (fun _ _ h hc => step_inv h (hc.1.completes h) hc.2)
    (fun _ _ h hc => hc.1.completes h) newVolume_mounted.inv dotDotFacts.checked

theorem next_readVnode {ia : ℤ} {got : Inode} (hnone : v.loaded ia = none)
    (hread : myfsReadVnode v.fs ia = .ok got) :
    next v (.readVnode ia) = v.keep ia got := by
  have hget : getVnode v ia = .ok (got, v.keep ia got) := by
    unfold getVnode
    rw [hnone, hread]
    rfl
  have hcall : call v (.readVnode ia) = (getVnode v ia).map fun r => (0, r.2) := rfl
  unfold next
  rw [hcall, hget]
  rfl

/-- The record of the directory that was removed is still there. -/
theorem reread_removed (h : Inv v) (hc : Checked v (.readVnode 2)) (hnone : v.loaded 2 = none)
    (hdirect : ∀ mi ∈ (next v (.readVnode 2)).loaded 2, DirectOnly v.fs mi) :
    BlocksApart (next v (.readVnode 2)) := by
  have hcompletes := hc.completes h
  obtain ⟨v', hv'⟩ := hcompletes.returns
  obtain ⟨⟨got, w⟩, hget, -⟩ := map_ok hv'
  unfold getVnode at hget
  rw [hnone] at hget
  obtain ⟨got, hread, -⟩ := map_ok hget
  rw [next_readVnode hnone hread] at hdirect ⊢
  intro ia mi hia
  unfold Volume.keep at hdirect hia ⊢
  dsimp only at hdirect hia ⊢
  rcases eq_or_ne ia 2 with rfl | hne
  · exact (hdirect mi hia).mapsData
  · rw [Function.update_of_ne hne] at hia
    exact hcompletes.apart ia mi hia

theorem reread_apart : BlocksApart reread :=
  reread_removed orphaned_inv dotDotFacts.again dotDotFacts.removed dotDotFacts.direct

theorem stale_inode_loaded : ¬∀ v es, Mounted v → EveryStep next Completes v es →
    EveryState next Current v es := by
  intro hall
  have hrun : EveryStep next Completes newVolume
      (dotDotRun ++ [.readVnode 2, mkdirC]) :=
    everyStep_append.2 ⟨dotDotRun_completes, dotDotFacts.again.completes orphaned_inv,
      ⟨returns_of_fst dotDotFacts.returns, by decide, reread_apart⟩, trivial⟩
  have hcurrent := (hall _ _ newVolume_mounted hrun).last
  rw [runTrace_append] at hcurrent
  obtain ⟨mi, hmi, hne⟩ := dotDotFacts.stale
  exact hne (Current.records hcurrent 2 mi hmi 120 (by decide))

end Metadata

end CurrentInodes
