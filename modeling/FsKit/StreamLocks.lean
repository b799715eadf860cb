import Mathlib.Tactic
import FsKit.BlockSupply
import FsKit.LockDiscipline

/-! The locks that the data-stream calls of `dstream.c` take in the block cache. Each function has
its log here: the calls of `get_block`, `get_empty_block`, `mark_blocks_dirty` and `release_block`
that it makes, and the places where it changes a block it holds, in the order of the source. The
logs branch as the functions do, on the results of the functions themselves. -/
namespace StreamLocks

open BlockBitmap InodeTable LittleEndian DataStreamBlocks DataStreamGrowth DataStreamShape
open BlockSupply
open LockDiscipline

abbrev Log := List (Event ℤ)

section Logs

/-- A block is got, changed in place, marked and released. -/
def storeLog (addr : ℤ) : Log := [.get addr, .modify addr, .markDirty addr, .release addr]

def readLog (addr : ℤ) : Log := [.get addr, .release addr]

def filePosToDiskAddrLog (fs : Myfs) (mi : Inode) (pos : ℤ) : Log :=
  let bsize : ℤ := fs.dsb.blockSize
  if pos < directSize bsize then []
  else if pos < maxIndirectRange bsize then readLog mi.data.indirect
  else if pos < maxDoubleIndirectRange bsize then
    let index := ((pos - maxIndirectRange bsize) / indirectSize bsize).toNat
    readLog mi.data.doubleIndirect ++
      readLog (blockEntry (fs.dataArea mi.data.doubleIndirect) index)
  else []

/-- The loop leaves at once when a block is refused. -/
def growIndirectLog (needed : ℤ) : ℕ → Myfs → Inode → ℤ → Log
  | 0, _, _, _ => []
  | left + 1, fs, mi, i =>
    if needed ≤ i then []
    else
      let (err, addr, fs) := growBlock fs
      if err ≠ 0 then []
      else
        let block := putWord64 (fs.dataArea mi.data.indirect)
          (8 * (maxIndex fs - (left + 1))) addr
        .modify mi.data.indirect :: growIndirectLog needed left
          (storeBlock fs mi.data.indirect block) (setSize mi (mi.data.size + fs.dsb.blockSize))
          (i + 1)

/-- What `openIndirect` gets: the new block when there was none. -/
def openIndirectEvent (mi mi' : Inode) : Event ℤ :=
  if mi.data.indirect = 0 then .getEmpty mi'.data.indirect else .get mi'.data.indirect

def growIndirectRangeLog (fs : Myfs) (mi : Inode) (needed i : ℤ) : Log :=
  let bsize : ℤ := fs.dsb.blockSize
  if directSize bsize ≤ mi.data.size ∧ mi.data.size < maxIndirectRange bsize then
    let (err, mi₁, fs) := openIndirect fs mi
    if err ≠ 0 then []
    else
      let index := ((mi₁.data.size - directSize bsize) / bsize).toNat
      let left := maxIndex fs - index
      openIndirectEvent mi mi₁ :: growIndirectLog needed left fs mi₁ i ++
        if (growIndirect needed left fs mi₁ i).1 ≠ 0 then []
        else [.markDirty mi₁.data.indirect, .release mi₁.data.indirect]
  else []

def growDstreamLog (fs : Myfs) (mi : Inode) (newSize : ℤ) : Log :=
  let bsize : ℤ := fs.dsb.blockSize
  if newSize < 0 ∨ maxDoubleIndirectRange bsize < newSize then []
  else
    let curSizeRounded := roundUp mi.data.size bsize
    let newSizeRounded := roundUp newSize bsize
    if curSizeRounded = newSizeRounded then []
    else
      let needed := (newSizeRounded - curSizeRounded) / bsize
      let mi := setSize mi curSizeRounded
      if curSizeRounded < directSize bsize then
        let index := (curSizeRounded / bsize).toNat
        if mi.data.direct index ≠ 0 then []
        else
          let (err, i, mi, fs) := growDirect needed (numDirectBlocks - index) fs mi 0
          if err ≠ 0 then []
          else if newSize ≤ mi.data.size then []
          else growIndirectRangeLog fs mi needed i
      else growIndirectRangeLog fs mi needed 0

/-- The loop over the entries of the double indirect block. -/
def freeDoubleEntriesLog (block : Block) (maxIdx : ℕ) : ℕ → Log
  | 0 => []
  | left + 1 =>
    let addr := blockEntry block (maxIdx - (left + 1))
    if addr = 0 then [] else readLog addr ++ freeDoubleEntriesLog block maxIdx left

def shrinkDoubleIndirectLog (fs : Myfs) (mi : Inode) (newSizeRounded : ℤ) : Log :=
  let bsize : ℤ := fs.dsb.blockSize
  let beyond := newSizeRounded - maxIndirectRange bsize
  let i := if beyond < 0 then 0 else (beyond / indirectSize bsize).toNat
  .get mi.data.doubleIndirect :: freeDoubleEntriesLog (fs.dataArea mi.data.doubleIndirect)
    (maxIndex fs) (maxIndex fs - i) ++ [.release mi.data.doubleIndirect]

def shrinkDstreamLog (fs : Myfs) (mi : Inode) (newSize : ℤ) : Log :=
  let bsize : ℤ := fs.dsb.blockSize
  if newSize < 0 ∨ maxDoubleIndirectRange bsize < newSize then []
  else
    let curSizeRounded := roundUp mi.data.size bsize
    let newSizeRounded := roundUp (newSize - 1) bsize
    if curSizeRounded = newSizeRounded then []
    else
      (if newSizeRounded < maxDoubleIndirectRange bsize ∧ mi.data.doubleIndirect ≠ 0 then
        shrinkDoubleIndirectLog fs mi newSizeRounded else []) ++
      if newSizeRounded < maxIndirectRange bsize ∧ mi.data.indirect ≠ 0 then
        readLog mi.data.indirect else []

def updateInodeLog (fs : Myfs) (mi : Inode) : Log :=
  storeLog (fs.dsb.inodesStart + (mi.inodeNum * myfsInode).tdiv fs.dsb.blockSize)

def writeLoopLog (mi : Inode) (buf : ℕ → UInt8) (len : ℕ) : ℕ → Myfs → ℤ → ℕ → Log
  | 0, _, _, _ => []
  | fuel + 1, fs, pos, done =>
    if len ≤ done then []
    else
      let amt := if len - done < fs.dsb.blockSize then len - done else fs.dsb.blockSize
      filePosToDiskAddrLog fs mi pos ++
        match filePosToDiskAddr fs mi pos with
        | .error _ => []
        | .ok addr =>
          if addr < 0 then []
          else storeLog addr ++ writeLoopLog mi buf len fuel
            (storeBlock fs addr (copyInto (fs.dataArea addr) 0 amt fun k => buf (done + k)))
            (pos + amt) (done + amt)

def writeBytesLog (fs : Myfs) (mi : Inode) (pos : ℤ) (buf : ℕ → UInt8) (len : ℕ) : Log :=
  let bsize : ℤ := fs.dsb.blockSize
  filePosToDiskAddrLog fs mi pos ++
    match filePosToDiskAddr fs mi pos with
    | .error _ => []
    | .ok addr =>
      if addr < 0 then []
      else if pos % bsize ≠ 0 then
        let offset := (pos % bsize).toNat
        let amt := if len < fs.dsb.blockSize - offset then len else fs.dsb.blockSize - offset
        let fs := storeBlock fs addr (copyInto (fs.dataArea addr) offset amt buf)
        storeLog addr ++ writeLoopLog mi buf len len fs (pos + amt) amt
      else writeLoopLog mi buf len len fs pos 0

def growForWriteLog (fs : Myfs) (mi : Inode) (newSize : ℤ) : Log :=
  if mi.data.size < newSize then
    growDstreamLog fs mi newSize ++
      match growDstream fs mi newSize with
      | .error _ => []
      | .ok (err, mi, fs) => if err ≠ 0 then [] else updateInodeLog fs mi
  else []

def myfsWriteDataStreamLog (fs : Myfs) (mi : Inode) (pos : ℤ) (buf : ℕ → UInt8) (len : ℕ) : Log :=
  if len = 0 then []
  else
    let pos := if pos < 0 then 0 else pos
    growForWriteLog fs mi (pos + len) ++
      match growForWrite fs mi (pos + len) with
      | .error _ => []
      | .ok (err, mi, fs) =>
        if err ≠ 0 then []
        else
          writeBytesLog fs mi pos buf len ++
            match writeBytes fs mi pos buf len with
            | .error _ => []
            | .ok (err, _, fs) => if err ≠ 0 then [] else updateInodeLog fs mi

def myfsSetFileSizeLog (fs : Myfs) (mi : Inode) (newSize : ℤ) : Log :=
  if newSize = mi.data.size then []
  else
    (if newSize < mi.data.size then shrinkDstreamLog fs mi newSize
      else growDstreamLog fs mi newSize) ++
    match (if newSize < mi.data.size then .ok (shrinkDstream fs mi newSize)
      else growDstream fs mi newSize) with
    | .error _ => []
    | .ok (err, mi, fs) => if err ≠ 0 then [] else updateInodeLog fs mi

def myfsFreeDataStreamLog (fs : Myfs) (mi : Inode) : Log := shrinkDstreamLog fs mi 0

def readLoopLog (fs : Myfs) (mi : Inode) (len : ℕ) : ℕ → ℤ → ℕ → Log
  | 0, _, _ => []
  | fuel + 1, pos, count =>
    if len ≤ count then []
    else
      filePosToDiskAddrLog fs mi pos ++
        match filePosToDiskAddr fs mi pos with
        | .error _ => []
        | .ok addr =>
          if addr < 0 then []
          else
            let amt := if len - count < fs.dsb.blockSize then len - count else fs.dsb.blockSize
            readLog addr ++ readLoopLog fs mi len fuel (pos + amt) (count + amt)

def myfsReadDataStreamLog (fs : Myfs) (mi : Inode) (pos : ℤ) (len : ℕ) : Log :=
  let bsize : ℤ := fs.dsb.blockSize
  if len = 0 then []
  else
    let pos := if pos < 0 then 0 else pos
    if mi.data.size < pos then []
    else
      let len := if mi.data.size < pos + len then (mi.data.size - pos).toNat else len
      filePosToDiskAddrLog fs mi pos ++
        match filePosToDiskAddr fs mi pos with
        | .error _ => []
        | .ok addr =>
          if addr < 0 then []
          else if pos % bsize ≠ 0 then
            let offset := (pos % bsize).toNat
            let amt := if len < fs.dsb.blockSize - offset then len else fs.dsb.blockSize - offset
            readLog addr ++ readLoopLog fs mi len len (pos + amt) amt
          else readLoopLog fs mi len len pos 0

inductive Call where
  | read (pos : ℤ) (buf : ℕ → UInt8) (len : ℕ)
  | write (pos : ℤ) (buf : ℕ → UInt8) (len : ℕ)
  | setFileSize (newSize : ℤ)
  | free

/-- The call comes back; in the other case `myfs_die` has ended it. -/
def Returns (fs : Myfs) (mi : Inode) : Call → Prop
  | .read pos buf len => ∃ r, myfsReadDataStream fs mi pos buf len = .ok r
  | .write pos buf len => ∃ r, myfsWriteDataStream fs mi pos buf len = .ok r
  | .setFileSize n => ∃ r, myfsSetFileSize fs mi n = .ok r
  | .free => True

def log (fs : Myfs) (mi : Inode) : Call → Log
  | .read pos _ len => myfsReadDataStreamLog fs mi pos len
  | .write pos buf len => myfsWriteDataStreamLog fs mi pos buf len
  | .setFileSize n => myfsSetFileSizeLog fs mi n
  | .free => myfsFreeDataStreamLog fs mi

/-- The size the call makes the stream grow to, if it is over the present one. -/
def grownSize (mi : Inode) : Call → ℤ
  | .read _ _ _ => mi.data.size
  | .write pos _ len => if len = 0 then mi.data.size else startPos pos + len
  | .setFileSize n => n
  | .free => mi.data.size

end Logs

section Discipline
variable {fs : Myfs} {mi : Inode}

theorem readLog_clean (addr : ℤ) : Clean (readLog addr) := Clean.nil.within addr

theorem storeLog_clean (addr : ℤ) : Clean (storeLog addr) := by
  have hmodify : ∀ e ∈ ([.modify addr] : Log), e = .modify addr := fun e he =>
    List.mem_singleton.mp he
  exact Clean.store (.inl rfl) hmodify

theorem filePosToDiskAddrLog_clean (fs : Myfs) (mi : Inode) (pos : ℤ) :
    Clean (filePosToDiskAddrLog fs mi pos) := by
  unfold filePosToDiskAddrLog
  dsimp only
  split
  · exact .nil
  split
  · exact readLog_clean _
  split
  · exact (readLog_clean _).append (readLog_clean _)
  · exact .nil

theorem freeDoubleEntriesLog_clean (block : Block) (maxIdx left : ℕ) :
    Clean (freeDoubleEntriesLog block maxIdx left) := by
  induction left with
  | zero => exact .nil
  | succ left ih =>
    rw [freeDoubleEntriesLog]
    split
    · exact .nil
    · exact (readLog_clean _).append ih

theorem shrinkDstreamLog_clean (fs : Myfs) (mi : Inode) (newSize : ℤ) :
    Clean (shrinkDstreamLog fs mi newSize) := by
  unfold shrinkDstreamLog
  dsimp only
  split
  · exact .nil
  split
  · exact .nil
  refine Clean.append ?_ ?_
  · split
    · exact (freeDoubleEntriesLog_clean _ _ _).within _
    · exact .nil
  · split
    · exact readLog_clean _
    · exact .nil

theorem writeLoopLog_clean (mi : Inode) (buf : ℕ → UInt8) (len fuel : ℕ) (fs : Myfs) (pos : ℤ)
    (done : ℕ) : Clean (writeLoopLog mi buf len fuel fs pos done) := by
  induction fuel generalizing fs pos done with
  | zero => exact .nil
  | succ fuel ih =>
    rw [writeLoopLog]
    split
    · exact .nil
    refine (filePosToDiskAddrLog_clean fs mi pos).append ?_
    split
    · exact .nil
    split
    · exact .nil
    · exact (storeLog_clean _).append (ih _ _ _)

theorem writeBytesLog_clean (fs : Myfs) (mi : Inode) (pos : ℤ) (buf : ℕ → UInt8) (len : ℕ) :
    Clean (writeBytesLog fs mi pos buf len) := by
  unfold writeBytesLog
  refine (filePosToDiskAddrLog_clean fs mi pos).append ?_
  split
  · exact .nil
  split
  · exact .nil
  split
  · exact (storeLog_clean _).append (writeLoopLog_clean _ _ _ _ _ _ _)
  · exact writeLoopLog_clean _ _ _ _ _ _ _

theorem readLoopLog_clean (fs : Myfs) (mi : Inode) (len fuel : ℕ) (pos : ℤ) (count : ℕ) :
    Clean (readLoopLog fs mi len fuel pos count) := by
  induction fuel generalizing pos count with
  | zero => exact .nil
  | succ fuel ih =>
    rw [readLoopLog]
    split
    · exact .nil
    refine (filePosToDiskAddrLog_clean fs mi pos).append ?_
    split
    · exact .nil
    split
    · exact .nil
    · exact (readLog_clean _).append (ih _ _)

theorem readDataStreamLog_clean (fs : Myfs) (mi : Inode) (pos : ℤ) (len : ℕ) :
    Clean (myfsReadDataStreamLog fs mi pos len) := by
  unfold myfsReadDataStreamLog
  dsimp only
  split
  · exact .nil
  generalize (if pos < 0 then 0 else pos) = pos
  split
  · exact .nil
  refine (filePosToDiskAddrLog_clean fs mi pos).append ?_
  split
  · exact .nil
  split
  · exact .nil
  split
  · exact (readLog_clean _).append (readLoopLog_clean _ _ _ _ _ _)
  · exact readLoopLog_clean _ _ _ _ _ _

/-- Inside the loop only the indirect block is changed. -/
theorem growIndirectLog_modify (needed : ℤ) (left : ℕ) (fs : Myfs) (mi : Inode) (i : ℤ) :
    ∀ e ∈ growIndirectLog needed left fs mi i, e = .modify mi.data.indirect := by
  induction left generalizing fs mi i with
  | zero => exact fun e he => absurd he List.not_mem_nil
  | succ left ih =>
    rw [growIndirectLog]
    split
    · exact fun e he => absurd he List.not_mem_nil
    dsimp only
    split
    · exact fun e he => absurd he List.not_mem_nil
    intro e he
    rcases List.mem_cons.mp he with rfl | he
    · rfl
    · exact ih _ (setSize mi (mi.data.size + (growBlock fs).2.2.dsb.blockSize)) _ e he

theorem openIndirectEvent_cases (mi mi' : Inode) :
    openIndirectEvent mi mi' = .get mi'.data.indirect ∨
      openIndirectEvent mi mi' = .getEmpty mi'.data.indirect := by
  unfold openIndirectEvent
  split
  · exact .inr rfl
  · exact .inl rfl

end Discipline

section Starving
variable {fs : Myfs} {mi : Inode}

/-- From `s` blocks on towards `n`, in the range of the indirect block: the lock stays when the
indirect block is there and an entry of it gets no block. -/
theorem growIndirectRangeLog_clean_iff {s n : ℕ} {needed i : ℤ} (hbs : 0 < fs.dsb.blockSize)
    (hsize : mi.data.size = s * fs.dsb.blockSize) (hs : numDirectBlocks ≤ s)
    (hneed : needed - i = n - s) :
    Clean (growIndirectRangeLog fs mi needed i) ↔
      ¬(Supplies (if mi.data.indirect = 0 then 1 else 0) fs ∧
        ¬Supplies ((if mi.data.indirect = 0 then 1 else 0) +
          (min n (numDirectBlocks + maxIndex fs) - s)) fs) := by
  have hbz : (0 : ℤ) < fs.dsb.blockSize := by exact_mod_cast hbs
  unfold growIndirectRangeLog
  dsimp only
  have hbehind : directSize fs.dsb.blockSize ≤ mi.data.size := by
    rw [hsize, directSize]
    gcongr
  have hrange : mi.data.size < maxIndirectRange fs.dsb.blockSize ↔
      s < numDirectBlocks + maxIndex fs := by
    rw [hsize, maxIndirectRange_eq, mul_lt_mul_iff_left₀ hbz]
    exact Nat.cast_lt
  by_cases hleft : s < numDirectBlocks + maxIndex fs
  swap
  · rw [if_neg fun h => hleft (hrange.1 h.2),
      show min n (numDirectBlocks + maxIndex fs) - s = 0 by omega, Nat.add_zero]
    exact iff_of_true .nil fun h => h.2 h.1
  rw [if_pos ⟨hbehind, hrange.2 hleft⟩]
  obtain ⟨hopen, hafter⟩ := openIndirect_supply fs mi
  rw [supplies_add]
  generalize (if mi.data.indirect = 0 then 1 else 0) = o at hopen hafter ⊢
  generalize openIndirect fs mi = r at hopen hafter ⊢
  obtain ⟨err, mi₁, fs₁⟩ := r
  dsimp only at hopen hafter ⊢
  by_cases herr : err = 0
  swap
  · rw [if_pos herr]
    exact iff_of_true .nil fun h => herr (hopen.2 h.1)
  have hsup := hopen.1 herr
  obtain ⟨hsize₁, hbs₁, area, rfl⟩ := hafter herr
  have hindex : ((mi₁.data.size - directSize fs.dsb.blockSize) / fs.dsb.blockSize).toNat =
      s - numDirectBlocks := by
    rw [hsize₁, hsize]
    unfold directSize
    rw [← sub_mul, Int.mul_ediv_cancel _ hbz.ne']
    omega
  have hmax : maxIndex (withData (grants o fs) area) = maxIndex fs := by simp only [maxIndex, hbs₁]
  rw [if_neg (not_not_intro herr), hindex, hmax]
  obtain ⟨hiff, _⟩ := growIndirect_supply needed (maxIndex fs - (s - numDirectBlocks))
    (withData (grants o fs) area) mi₁ i
  rw [supplies_withData, show min (maxIndex fs - (s - numDirectBlocks)) (needed - i).toNat =
    min n (numDirectBlocks + maxIndex fs) - s by omega] at hiff
  have hmodify := growIndirectLog_modify needed (maxIndex fs - (s - numDirectBlocks))
    (withData (grants o fs) area) mi₁ i
  by_cases hloop : (growIndirect needed (maxIndex fs - (s - numDirectBlocks))
    (withData (grants o fs) area) mi₁ i).1 = 0
  · rw [if_neg (not_not_intro hloop)]
    refine iff_of_true (Clean.store (openIndirectEvent_cases mi mi₁) hmodify) fun h => ?_
    exact h.2 ⟨hsup, hiff.1 hloop⟩
  · rw [if_pos hloop, List.append_nil]
    refine iff_of_false (not_clean_of_kept (openIndirectEvent_cases mi mi₁) hmodify) ?_
    rw [not_not]
    exact ⟨hsup, fun h => hloop (hiff.2 h.2)⟩

/-- A growth that comes back with 0, or that `myfs_die` ends, has released what it got. -/
theorem growIndirectRangeLog_clean {needed i newSize : ℤ}
    (h : (growIndirectRange fs mi newSize needed i).1 = 0) :
    Clean (growIndirectRangeLog fs mi needed i) := by
  unfold growIndirectRange at h
  unfold growIndirectRangeLog
  dsimp only at h ⊢
  split
  swap
  · exact .nil
  rename_i hrange
  rw [if_pos hrange] at h
  generalize openIndirect fs mi = r at h ⊢
  obtain ⟨err, mi₁, fs₁⟩ := r
  dsimp only at h ⊢
  split
  · exact .nil
  rename_i herr
  rw [if_neg herr] at h
  split
  · rename_i hloop
    rw [if_pos hloop] at h
    exact absurd h hloop
  · exact Clean.store (openIndirectEvent_cases mi mi₁) (growIndirectLog_modify _ _ _ _ _)

theorem growDstream_fails_of_not_clean {newSize : ℤ}
    (h : ¬Clean (growDstreamLog fs mi newSize)) :
    ∃ r, growDstream fs mi newSize = .ok r ∧ r.1 ≠ 0 := by
  unfold growDstreamLog at h
  unfold growDstream
  dsimp only at h ⊢
  split at h
  · exact absurd .nil h
  rename_i hguard
  rw [if_neg hguard]
  split at h
  · exact absurd .nil h
  rename_i hne
  rw [if_neg hne]
  split at h
  swap
  · rename_i hdir
    rw [if_neg hdir]
    exact ⟨_, rfl, fun h₀ => h (growIndirectRangeLog_clean h₀)⟩
  rename_i hdir
  rw [if_pos hdir]
  split at h
  · exact absurd .nil h
  rename_i hslot
  rw [if_neg hslot]
  generalize growDirect _ _ _ _ _ = r at h ⊢
  obtain ⟨err, i, mi₁, fs₁⟩ := r
  dsimp only at h ⊢
  split at h
  · exact absurd .nil h
  rename_i herr
  rw [if_neg herr]
  split at h
  · exact absurd .nil h
  rename_i hend
  rw [if_neg hend]
  exact ⟨_, rfl, fun h₀ => h (growIndirectRangeLog_clean h₀)⟩

/-- The disk gives every block a growth asks for up to the indirect block itself, and then not
all of those that its entries are for. -/
def Starves (fs : Myfs) (mi : Inode) (newSize : ℤ) : Prop :=
  let m := blockCount fs.dsb.blockSize mi.data.size
  let n := blockCount fs.dsb.blockSize newSize
  let before := (numDirectBlocks - m) + if mi.data.indirect = 0 then 1 else 0
  let entries := min n (numDirectBlocks + maxIndex fs) - max m numDirectBlocks
  newSize ≤ maxDoubleIndirectRange fs.dsb.blockSize ∧
    (m < numDirectBlocks → mi.data.direct m = 0) ∧
    Supplies before fs ∧ ¬Supplies (before + entries) fs

instance (fs : Myfs) (mi : Inode) (newSize : ℤ) : Decidable (Starves fs mi newSize) :=
  inferInstanceAs (Decidable (_ ∧ _))

/-- A growth leaves a block locked exactly if the disk runs out inside the indirect block. -/
theorem growDstreamLog_clean_iff {k : ℕ} {newSize : ℤ} (hb : fs.dsb.blockSize = 2 ^ k)
    (h₀ : 0 ≤ mi.data.size) (hlt : mi.data.size < newSize) :
    Clean (growDstreamLog fs mi newSize) ↔ ¬Starves fs mi newSize := by
  have hbs : 0 < fs.dsb.blockSize := by rw [hb]; positivity
  have hbz : (0 : ℤ) < fs.dsb.blockSize := by exact_mod_cast hbs
  obtain ⟨hm, hm₁, hm₂⟩ := blockCount_spec hb h₀
  obtain ⟨hn, hn₁, hn₂⟩ := blockCount_spec hb (show 0 ≤ newSize by omega)
  unfold Starves growDstreamLog
  dsimp only
  generalize blockCount fs.dsb.blockSize mi.data.size = m at hm hm₁ hm₂ ⊢
  generalize blockCount fs.dsb.blockSize newSize = n at hn hn₁ hn₂ ⊢
  have hle : m ≤ n := by
    have : (m * fs.dsb.blockSize : ℤ) < (n + 1) * fs.dsb.blockSize := by linarith
    have := lt_of_mul_lt_mul_right this hbz.le
    omega
  by_cases hguard : newSize < 0 ∨ maxDoubleIndirectRange fs.dsb.blockSize < newSize
  · rw [if_pos hguard]
    exact iff_of_true .nil fun h => by have := h.1; omega
  have hdiv : ((m * fs.dsb.blockSize : ℤ) / fs.dsb.blockSize).toNat = m := by
    rw [Int.mul_ediv_cancel _ hbz.ne', Int.toNat_natCast]
  have hneed : ((n * fs.dsb.blockSize : ℤ) - m * fs.dsb.blockSize) / fs.dsb.blockSize = n - m := by
    rw [← sub_mul, Int.mul_ediv_cancel _ hbz.ne']
  rw [if_neg hguard, hm, hn]
  rcases Nat.lt_or_ge m n with hmn | hge
  swap
  · obtain rfl : m = n := by omega
    rw [if_pos rfl, show min m (numDirectBlocks + maxIndex fs) - max m numDirectBlocks = 0 by omega,
      Nat.add_zero]
    exact iff_of_true .nil fun h => h.2.2.2 h.2.2.1
  have hne : (m * fs.dsb.blockSize : ℤ) ≠ n * fs.dsb.blockSize := fun h =>
    hmn.ne (by exact_mod_cast mul_right_cancel₀ hbz.ne' h)
  have hmax : newSize ≤ maxDoubleIndirectRange fs.dsb.blockSize := by omega
  rw [if_neg hne, hdiv, hneed]
  by_cases hdir : (m * fs.dsb.blockSize : ℤ) < directSize fs.dsb.blockSize
  swap
  · have hm6 : numDirectBlocks ≤ m := by
      rw [directSize] at hdir
      exact_mod_cast le_of_mul_le_mul_right (not_lt.mp hdir) hbz
    rw [if_neg hdir, growIndirectRangeLog_clean_iff (s := m) (n := n) hbs (setSize_size ..) hm6
      (by omega), setSize_indirect, Nat.sub_eq_zero_of_le hm6, Nat.zero_add, max_eq_left hm6]
    simp only [hmax, true_and, show ¬m < numDirectBlocks by omega, false_implies]
  have hm6 : m < numDirectBlocks := by
    rw [directSize] at hdir
    exact_mod_cast lt_of_mul_lt_mul_right hdir hbz.le
  rw [if_pos hdir, setSize_direct, max_eq_right hm6.le]
  by_cases hslot : mi.data.direct m = 0
  swap
  · rw [if_pos hslot]
    exact iff_of_true .nil fun h => hslot (h.2.1 hm6)
  rw [if_neg (not_not_intro hslot)]
  obtain ⟨hiff, hafter⟩ := growDirect_supply ((n : ℤ) - m) (numDirectBlocks - m) fs
    (setSize mi (m * fs.dsb.blockSize)) 0 (by omega)
  generalize growDirect (n - m : ℤ) (numDirectBlocks - m) fs
    (setSize mi (m * fs.dsb.blockSize)) 0 = r at hiff hafter ⊢
  obtain ⟨err, i, mi₁, fs₁⟩ := r
  dsimp only at hiff hafter ⊢
  by_cases herr : err = 0
  swap
  · rw [if_pos herr]
    refine iff_of_true .nil fun h => herr (hiff.2 ?_)
    obtain ⟨rest, hrest⟩ := Nat.exists_eq_add_of_le
      (show min (numDirectBlocks - m) ((n : ℤ) - m - 0).toNat ≤ numDirectBlocks - m by omega)
    have hbefore := h.2.2.1
    rw [hrest, Nat.add_assoc, supplies_add] at hbefore
    exact hbefore.1
  obtain ⟨hi, hsize, hind, rfl⟩ := hafter herr
  rw [setSize_size, ← add_mul] at hsize
  rw [setSize_indirect] at hind
  rw [iff_true_left herr] at hiff
  rw [if_neg (not_not_intro herr)]
  rcases Nat.lt_or_ge numDirectBlocks n with hlong | hshort
  swap
  · have hdone : newSize ≤ mi₁.data.size := by
      refine hn₁.trans (le_of_eq ?_)
      rw [hsize]
      congr 1
      omega
    rw [if_pos hdone, show min n (numDirectBlocks + maxIndex fs) - numDirectBlocks = 0 by omega,
      Nat.add_zero]
    exact iff_of_true .nil fun h => h.2.2.2 h.2.2.1
  rw [show min (numDirectBlocks - m) ((n : ℤ) - m - 0).toNat = numDirectBlocks - m by omega]
    at hi hsize hiff ⊢
  have hsize₆ : mi₁.data.size = numDirectBlocks * fs.dsb.blockSize := by
    rw [hsize]
    congr 1
    omega
  have hbig : numDirectBlocks * (fs.dsb.blockSize : ℤ) < newSize := by
    have : ((numDirectBlocks : ℤ) + 1) * fs.dsb.blockSize ≤ n * fs.dsb.blockSize := by
      gcongr
      omega
    linarith
  have hbs' := grants_blockSize hiff
  have hmaxIndex : maxIndex (grants (numDirectBlocks - m) fs) = maxIndex fs := by
    simp only [maxIndex, hbs']
  rw [if_neg (by omega), growIndirectRangeLog_clean_iff (s := numDirectBlocks) (n := n) (by omega)
    (by rw [hsize₆, hbs']) le_rfl (by omega), hind, hmaxIndex, Nat.add_assoc,
    supplies_add (numDirectBlocks - m), supplies_add (numDirectBlocks - m)]
  simp only [hmax, hslot, hiff, true_and, implies_true]

end Starving

section Calls
variable {fs : Myfs} {mi : Inode}

theorem updateInodeLog_clean (fs : Myfs) (mi : Inode) : Clean (updateInodeLog fs mi) :=
  storeLog_clean _

/-- Only a growth that fails keeps a lock, and nothing is done after it. -/
theorem grown_log_clean_iff {newSize : ℤ} :
    Clean (growDstreamLog fs mi newSize ++
      match growDstream fs mi newSize with
      | .error _ => []
      | .ok (err, mi, fs) => if err ≠ 0 then [] else updateInodeLog fs mi) ↔
    Clean (growDstreamLog fs mi newSize) := by
  by_cases hclean : Clean (growDstreamLog fs mi newSize)
  · refine iff_of_true (hclean.append ?_) hclean
    split
    · exact .nil
    split
    · exact .nil
    · exact updateInodeLog_clean _ _
  · obtain ⟨⟨err, mi₁, fs₁⟩, hr, herr⟩ := growDstream_fails_of_not_clean hclean
    rw [hr]
    dsimp only
    rw [if_pos herr, List.append_nil]

theorem growForWrite_fails_of_not_clean {newSize : ℤ}
    (h : ¬Clean (growForWriteLog fs mi newSize)) :
    ∃ r, growForWrite fs mi newSize = .ok r ∧ r.1 ≠ 0 := by
  unfold growForWriteLog at h
  unfold growForWrite
  split at h
  swap
  · exact absurd .nil h
  rename_i hlt
  obtain ⟨⟨err, mi₁, fs₁⟩, hr, herr⟩ :=
    growDstream_fails_of_not_clean (mt grown_log_clean_iff.2 h)
  rw [if_pos hlt, hr]
  exact ⟨_, if_pos herr, herr⟩

theorem writeDataStreamLog_clean_iff (pos : ℤ) (buf : ℕ → UInt8) {len : ℕ} (hlen : len ≠ 0) :
    Clean (myfsWriteDataStreamLog fs mi pos buf len) ↔
      Clean (growForWriteLog fs mi (startPos pos + len)) := by
  unfold myfsWriteDataStreamLog startPos
  rw [if_neg hlen]
  dsimp only
  generalize (if pos < 0 then 0 else pos) = pos
  by_cases hclean : Clean (growForWriteLog fs mi (pos + len))
  · refine iff_of_true (hclean.append ?_) hclean
    split
    · exact .nil
    split
    · exact .nil
    refine (writeBytesLog_clean _ _ _ _ _).append ?_
    split
    · exact .nil
    split
    · exact .nil
    · exact updateInodeLog_clean _ _
  · obtain ⟨⟨err, mi₁, fs₁⟩, hr, herr⟩ := growForWrite_fails_of_not_clean hclean
    rw [hr]
    dsimp only
    rw [if_pos herr, List.append_nil]

theorem setFileSizeLog_clean_iff {newSize : ℤ} :
    Clean (myfsSetFileSizeLog fs mi newSize) ↔
      (mi.data.size < newSize → Clean (growDstreamLog fs mi newSize)) := by
  unfold myfsSetFileSizeLog
  split
  · exact iff_of_true .nil fun h => by omega
  rcases lt_or_gt_of_ne ‹_› with hlt | hgt
  · rw [if_pos hlt, if_pos hlt]
    refine iff_of_true ((shrinkDstreamLog_clean fs mi newSize).append ?_) fun h => by omega
    dsimp only
    split
    · exact .nil
    · exact updateInodeLog_clean _ _
  · rw [if_neg hgt.not_gt, if_neg hgt.not_gt, grown_log_clean_iff, imp_iff_right hgt]

/-- A call that keeps a lock has come back, with the error of the growth. -/
theorem returns_of_not_clean {e : Call} (h : ¬Clean (log fs mi e)) : Returns fs mi e := by
  cases e with
  | read pos buf len => exact absurd (readDataStreamLog_clean fs mi pos len) h
  | write pos buf len =>
    by_cases hlen : len = 0
    · exact absurd (by rw [log, myfsWriteDataStreamLog, if_pos hlen]; exact .nil) h
    have hgrow := mt (writeDataStreamLog_clean_iff pos buf hlen).2 h
    obtain ⟨⟨err, mi₁, fs₁⟩, hr, herr⟩ := growForWrite_fails_of_not_clean hgrow
    refine ⟨(err, len, mi₁, fs₁), ?_⟩
    unfold startPos at hr
    unfold myfsWriteDataStream
    dsimp only
    rw [if_neg hlen, hr]
    exact if_pos herr
  | setFileSize newSize =>
    have hgrow := mt setFileSizeLog_clean_iff.2 h
    rw [Classical.not_imp] at hgrow
    obtain ⟨⟨err, mi₁, fs₁⟩, hr, herr⟩ := growDstream_fails_of_not_clean hgrow.2
    refine ⟨(err, mi₁, fs₁), ?_⟩
    unfold myfsSetFileSize
    rw [if_neg hgrow.1.ne', if_neg hgrow.1.not_gt, hr]
    exact if_pos herr
  | free => exact trivial

/-- A call that returns leaves every lock count as it was and every changed block dirty, unless
it makes the stream grow and the disk runs out while the indirect block is held. -/
theorem returned_call_clean_iff {k : ℕ} (hb : fs.dsb.blockSize = 2 ^ k) (h₀ : 0 ≤ mi.data.size)
    (e : Call) :
    (Returns fs mi e → Clean (log fs mi e)) ↔
      ¬(mi.data.size < grownSize mi e ∧ Starves fs mi (grownSize mi e)) := by
  rw [show (Returns fs mi e → Clean (log fs mi e)) ↔ Clean (log fs mi e) from
    ⟨fun h => by_contra fun hn => hn (h (returns_of_not_clean hn)), fun h _ => h⟩]
  cases e with
  | read pos buf len =>
    exact iff_of_true (readDataStreamLog_clean fs mi pos len) fun h => lt_irrefl _ h.1
  | write pos buf len =>
    dsimp only [log, grownSize]
    by_cases hlen : len = 0
    · rw [if_pos hlen, myfsWriteDataStreamLog, if_pos hlen]
      exact iff_of_true .nil fun h => lt_irrefl _ h.1
    rw [if_neg hlen, writeDataStreamLog_clean_iff pos buf hlen]
    unfold growForWriteLog
    split
    · rename_i hlt
      rw [grown_log_clean_iff, growDstreamLog_clean_iff hb h₀ hlt, and_iff_right hlt]
    · rename_i hge
      exact iff_of_true .nil fun h => hge h.1
  | setFileSize newSize =>
    dsimp only [log, grownSize]
    rw [setFileSizeLog_clean_iff, not_and]
    exact forall_congr' fun hlt => growDstreamLog_clean_iff hb h₀ hlt
  | free =>
    exact iff_of_true (shrinkDstreamLog_clean fs mi 0) fun h => lt_irrefl _ h.1

/-- On a small disk an empty file grows to eight blocks. -/
theorem returned_call_clean_madeDisk :
    Clean (log madeDisk (freshInode madeDisk 0 1) (.setFileSize 4096)) := by
  have hreturn : (myfsSetFileSize madeDisk (freshInode madeDisk 0 1) 4096).toOption.map
      Prod.fst = some 0 := by decide +kernel
  refine (returned_call_clean_iff (k := 9) (by decide +kernel) (by decide +kernel)
    (.setFileSize 4096)).2 (by decide +kernel) ?_
  cases hcall : myfsSetFileSize madeDisk (freshInode madeDisk 0 1) 4096 with
  | error _ =>
    rw [hcall] at hreturn
    cases hreturn
  | ok r => exact ⟨r, hcall⟩

/-- Seventy blocks are not there: the call returns `ENOSPC` with the indirect block, number 10,
still locked. -/
theorem indirect_block_stays_locked :
    ¬∀ (fs : Myfs) (mi : Inode) (e : Call), Returns fs mi e → Clean (log fs mi e) := by
  intro h
  have hreturn : (myfsSetFileSize madeDisk (freshInode madeDisk 0 1) 35840).toOption.map
      Prod.fst = some ENOSPC := by decide +kernel
  have hkept : (run (⟨fun _ => 0, fun _ => false⟩ : Locks ℤ)
      (log madeDisk (freshInode madeDisk 0 1) (.setFileSize 35840))).lock 10 = 1 := by
    decide +kernel
  have hclean := h madeDisk (freshInode madeDisk 0 1) (.setFileSize 35840)
  cases hcall : myfsSetFileSize madeDisk (freshInode madeDisk 0 1) 35840 with
  | error _ =>
    rw [hcall] at hreturn
    cases hreturn
  | ok r =>
    rw [(hclean ⟨r, hcall⟩ _).1] at hkept
    cases hkept

end Calls

end StreamLocks
