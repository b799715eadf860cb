import Mathlib.Tactic
import FsKit.MachineIntegers
import FsKit.LinkedList
import FsKit.HashTable
import FsKit.WriteBackStore

/-! The block cache (`cache.c`). Cache entries are numbered in the order of their creation;
their links are kept together, and a block's contents are one value. Calls run one after
another and allocation succeeds, so the locks, the pool of iovecs and the waiting for a busy
block are left out. `io` says of every device transfer whether it succeeds; one that fails
moves nothing. `panic` never returns, and carries the state it was called in. -/
namespace BlockCache

open MachineIntegers LinkedList HashTable WriteBackStore

def ENOENT : ℤ := 2
def EBADF : ℤ := 9
def ENOMEM : ℤ := 12
def EEXIST : ℤ := 17
def EINVAL : ℤ := 22

def numFlushBlocks : ℕ := 64
def readAheadSize : ℕ := 32 * 1024
def HT_DEFAULT_MAX : ℕ := 128

structure Block where
  dev : ℤ
  bnum : ℤ
  deriving DecidableEq, Repr

structure Callback where
  func : ℕ
  bnum : ℤ
  arg : ℕ
  deriving DecidableEq, Repr

structure CacheEnt (β : Type) where
  dev : ℤ
  blockNum : ℤ
  bsize : ℕ
  dirty : Bool
  busy : Bool
  data : β
  clone : Option β
  lock : ℤ
  func : Option ℕ
  loggedBnum : ℤ
  arg : ℕ
  deriving DecidableEq, Repr

inductive ListName where
  | normal
  | locked
  deriving DecidableEq, Repr

structure Cache (β : Type) where
  ents : ℕ → CacheEnt β
  made : ℕ
  links : Links ℕ
  lists : ListName → Ends ℕ
  ht : Table Block ℕ
  curBlocks : ℕ
  maxBlocks : ℕ
  maxDeviceBlocks : ℤ → ℤ
  junk : β
  disk : Block → β
  io : ℕ → Bool
  ios : ℕ
  log : List (Obs Block β Callback)

/-- The calls of `panic`, and the ways to hang or crash without one. -/
inductive Fault where
  | blockSizeZero
  | numBlocksZero
  | numBlocksNotOne
  | getBlockWrites
  | badAccess
  | largeLockedIo
  | wrongBlock
  | wrongBlockSize
  | linkedEnt
  | neededOverMax
  | normalHasLocked
  | waitedTooLong
  | notEnoughEnts
  | hashInsertFailed
  | lockedVictim
  | hashDeleteFailed
  | lockedExtra
  | victimInList
  | dataptrTwice
  | infoNotFound
  | infoNotLocked
  | infoNotDirty
  | infoHasFunc
  | infoHasClone
  | releaseNotFound
  | removeNotFound
  | waitsForever
  | loopsForever
  deriving DecidableEq, Repr

abbrev Run (β : Type) := Except (Fault × Cache β)

def HASH (b : Block) : ℕ := (BitVec.ofInt 64 b.dev <<< 58 ||| BitVec.ofInt 64 b.bnum).toNat

def hashInsert (ht : Table Block ℕ) (b : Block) (ce : ℕ) : ℤ × Table Block ℕ :=
  match insert HASH ht b ce with
  | none => (EEXIST, ht)
  | some ht => (0, ht)

def hashLookup (ht : Table Block ℕ) (b : Block) : Option ℕ := lookup HASH ht b

def hashDelete (ht : Table Block ℕ) (b : Block) : Option ℕ × Table Block ℕ := delete HASH ht b

section Entries
variable {β : Type}

def CacheEnt.block (c : CacheEnt β) : Block := ⟨c.dev, c.blockNum⟩

def setEnt (s : Cache β) (ce : ℕ) (f : CacheEnt β → CacheEnt β) : Cache β :=
  { s with ents := Function.update s.ents ce (f (s.ents ce)) }

def setBusy (busy : Bool) (s : Cache β) (ce : ℕ) : Cache β :=
  setEnt s ce fun c => { c with busy := busy }

def initBlockCache (maxBlocks : ℕ) (junk : β) (disk : Block → β) (io : ℕ → Bool) : Cache β :=
  { ents := fun _ => ⟨0, 0, 0, false, false, junk, none, 0, none, 0, 0⟩
    made := 0
    links := ⟨fun _ => none, fun _ => none⟩
    lists := fun _ => ⟨none, none⟩
    ht := initTable HT_DEFAULT_MAX
    curBlocks := 0
    maxBlocks := maxBlocks
    maxDeviceBlocks := fun _ => 0
    junk := junk
    disk := disk
    io := io
    ios := 0
    log := [] }

def initCacheForDevice (s : Cache β) (fd : ℤ) (maxBlocks : ℤ) : ℤ × Cache β :=
  if 256 ≤ fd then (-1, s)
  else if s.maxDeviceBlocks fd ≠ 0 then (-1, s)
  else (0, { s with maxDeviceBlocks := Function.update s.maxDeviceBlocks fd maxBlocks })

/-- The entries from `ce` towards the mru end. -/
def nodes (links : Links ℕ) : ℕ → Option ℕ → List ℕ
  | 0, _ => []
  | _, none => []
  | n + 1, some ce => ce :: nodes links n (links.next ce)

def listNodes (s : Cache β) (cel : ListName) : List ℕ := nodes s.links s.made (s.lists cel).head

def detach (l : Links ℕ) (e : Ends ℕ) (ce : ℕ) : Links ℕ × Ends ℕ :=
  let l := match l.next ce with
    | some n => l.setPrev n (l.prev ce)
    | none => l
  let l := match l.prev ce with
    | some p => l.setNext p (l.next ce)
    | none => l
  let e := if e.head = some ce then { e with head := l.next ce } else e
  let e := if e.tail = some ce then { e with tail := l.prev ce } else e
  ((l.setNext ce none).setPrev ce none, e)

def deleteFromList (s : Cache β) (cel : ListName) (ce : ℕ) : Cache β :=
  let (l, e) := detach s.links (s.lists cel) ce
  { s with links := l, lists := Function.update s.lists cel e }

def attachHead (l : Links ℕ) (e : Ends ℕ) (ce : ℕ) : Links ℕ × Ends ℕ :=
  let l := (l.setNext ce none).setPrev ce e.tail
  let l := match e.tail with
    | some m => l.setNext m (some ce)
    | none => l
  (l, { head := if e.head = none then some ce else e.head, tail := some ce })

def attachTail (l : Links ℕ) (e : Ends ℕ) (ce : ℕ) : Links ℕ × Ends ℕ :=
  let l := (l.setNext ce e.head).setPrev ce none
  let l := match e.head with
    | some m => l.setPrev m (some ce)
    | none => l
  (l, { head := some ce, tail := if e.tail = none then some ce else e.tail })

/-- The mru end of the list. -/
def addToHead (s : Cache β) (cel : ListName) (ce : ℕ) : Run β (Cache β) :=
  if s.links.next ce ≠ none ∨ s.links.prev ce ≠ none then .error (.linkedEnt, s)
  else
    let (l, e) := attachHead s.links (s.lists cel) ce
    .ok { s with links := l, lists := Function.update s.lists cel e }

/-- The lru end of the list. -/
def addToTail (s : Cache β) (cel : ListName) (ce : ℕ) : Run β (Cache β) :=
  if s.links.next ce ≠ none ∨ s.links.prev ce ≠ none then .error (.linkedEnt, s)
  else
    let (l, e) := attachTail s.links (s.lists cel) ce
    .ok { s with links := l, lists := Function.update s.lists cel e }

def cacheEntCmp (p1 p2 : CacheEnt β) : ℤ :=
  if p1.dev = p2.dev then Int.bmod (p1.blockNum - p2.blockNum) (2 ^ 32) else p1.dev - p2.dev

def qsort (s : Cache β) (ents : List ℕ) : List ℕ :=
  ents.insertionSort fun a b => cacheEntCmp (s.ents a) (s.ents b) ≤ 0

/-- A busy block would never come free: there is nobody else to wait for. -/
def blockLookup (s : Cache β) (b : Block) : Run β (Option ℕ) :=
  match hashLookup s.ht b with
  | none => .ok none
  | some ce => if (s.ents ce).busy then .error (.waitsForever, s) else .ok (some ce)

end Entries

section Flushing
variable {β : Type}

def CacheEnt.image (c : CacheEnt β) : β := c.clone.getD c.data

def transfer (s : Cache β) : Bool × Cache β := (s.io s.ios, { s with ios := s.ios + 1 })

/-- The contents of the entries go to consecutive blocks. A device has one block size, which is
that of all its entries. -/
def writeImages (s : Cache β) (dev : ℤ) : ℤ → List ℕ → Cache β
  | _, [] => s
  | bnum, ce :: ents =>
    let c := s.ents ce
    writeImages
      { s with
        disk := Function.update s.disk ⟨dev, bnum⟩ c.image
        log := s.log ++ [.flushed ⟨dev, bnum⟩ c.image c.clone.isSome c.lock] }
      dev (bnum + 1) ents

def writevPos (s : Cache β) (dev bnum : ℤ) (ents : List ℕ) : Bool × Cache β :=
  let (ok, s) := transfer s
  (ok, if ok then writeImages s dev bnum ents else s)

/-- After a write: the callback is run, and the clone is freed or the block is clean. -/
def settleEnt (s : Cache β) (ce : ℕ) : Cache β :=
  let c := s.ents ce
  let s := match c.func with
    | some f => { s with log := s.log ++ [.called c.block ⟨f, c.loggedBnum, c.arg⟩] }
    | none => s
  setEnt s ce fun c =>
    match c.clone with
    | some _ => { c with func := none, clone := none }
    | none => { c with func := none, dirty := false }

def flushCacheEnt (s : Cache β) (ce : ℕ) : ℤ × Cache β :=
  let c := s.ents ce
  if c.dirty = false ∧ c.clone = none then (0, s)
  else if c.clone = none ∧ c.lock ≠ 0 then (0, s)
  else
    let (ok, s) := writevPos s c.dev c.blockNum [ce]
    let s := settleEnt s ce
    if c.clone.isSome ∧ c.lock = 0 ∧ c.dirty then
      let (ok, s) := writevPos s c.dev c.blockNum [ce]
      (if ok then 0 else EBADF, settleEnt s ce)
    else (if ok then 0 else EBADF, s)

/-- How many of the following entries can be written together with the ones before them. They
are next to each other on the device, as it has one block size. -/
def runLength (s : Cache β) (dev : ℤ) : ℕ → ℤ → List ℕ → ℕ
  | 0, _, _ => 0
  | _, _, [] => 0
  | n + 1, bnum, ce :: ents =>
    let c := s.ents ce
    if c.dev ≠ dev ∨ c.blockNum ≠ bnum then 0
    else if c.clone = none ∧ c.lock ≠ 0 then 0
    else runLength s dev n (bnum + 1) ents + 1

/-- One pass of `flush_ents` over the entries; `skip` of them went out with the last
`writev_pos`. -/
def flushPass (ret : ℤ) (s : Cache β) : ℕ → List ℕ → ℤ × Cache β
  | _, [] => (ret, s)
  | skip + 1, _ :: ents => flushPass ret s skip ents
  | 0, ce :: ents =>
    let c := s.ents ce
    if c.dirty = false ∧ c.clone = none then flushPass ret s 0 ents
    else if c.clone = none ∧ c.lock ≠ 0 then flushPass ret s 0 ents
    else
      let n := runLength s c.dev (numFlushBlocks - 1) (c.blockNum + 1) ents
      if n = 0 then
        let (ret, s) := flushCacheEnt s ce
        if ret ≠ 0 then (ret, s) else flushPass ret s 0 ents
      else
        let run := ce :: ents.take n
        let (ok, s) := writevPos s c.dev c.blockNum run
        if ok then flushPass 0 (run.foldl settleEnt s) n ents else (EINVAL, s)

def flushEnts (s : Cache β) (ents : List ℕ) : ℤ × Cache β :=
  let (ret, s) := flushPass 0 s 0 ents
  if ents.any fun ce => (s.ents ce).dirty ∧ (s.ents ce).lock = 0 then flushPass ret s 0 ents
  else (ret, s)

/-- The end of a flush: the batch is sorted and written, and is no longer busy. -/
def flushBatch (s : Cache β) (ents : List ℕ) : Cache β :=
  let ents := qsort s ents
  let (_, s) := flushEnts s ents
  ents.foldl (setBusy false) s

def doFlush (s : Cache β) (ents : List ℕ) : Cache β :=
  flushBatch (ents.foldl (setBusy true) s) ents

def flushList (cel : ListName) (wanted : CacheEnt β → Bool) : ℕ → Cache β → Run β (Cache β)
  | 0, s => .error (.loopsForever, s)
  | n + 1, s =>
    let batch := ((listNodes s cel).filter fun ce => wanted (s.ents ce)).take numFlushBlocks
    if numFlushBlocks ≤ batch.length then flushList cel wanted n (doFlush s batch)
    else if batch ≠ [] then .ok (doFlush s batch)
    else .ok s

def CacheEnt.unwritten (c : CacheEnt β) : Bool := c.dirty || c.clone.isSome

/-- The entries of a device that `flush_device` looks for on each list. -/
def wantedBy (dev : ℤ) : ListName → CacheEnt β → Bool
  | .normal, c => c.dev = dev ∧ ¬c.busy ∧ c.unwritten
  | .locked, c => c.dev = dev ∧ ¬c.busy ∧ c.clone.isSome

/-- Nothing bounds the number of batches when writes fail, so that it is a parameter: the most
that each list may take. -/
def flushDevice (n : ℕ) (s : Cache β) (dev : ℤ) : Run β (Cache β) := do
  let s ← flushList .normal (wantedBy dev .normal) n s
  flushList .locked (wantedBy dev .locked) n s

def forceCacheFlush (s : Cache β) (dev : ℤ) (preferLogBlocks : Bool) : Cache β :=
  let dirty := ((listNodes s .normal).filter fun ce =>
    let c := s.ents ce
    c.dev = dev ∧ ¬c.busy ∧ c.unwritten ∧ (preferLogBlocks → c.func.isSome)).take numFlushBlocks
  let s := dirty.foldl (setBusy true) s
  let cloned := ((listNodes s .locked).filter fun ce =>
    let c := s.ents ce
    c.dev = dev ∧ ¬c.busy ∧ c.clone.isSome).take (numFlushBlocks - dirty.length)
  let s := cloned.foldl (setBusy true) s
  if dirty ++ cloned ≠ [] then flushBatch s (dirty ++ cloned) else s

def collectBlocks (dev : ℤ) : ℕ → ℤ → List ℕ → Cache β → Run β (List ℕ × Cache β)
  | 0, _, ents, s => .ok (ents, s)
  | n + 1, bnum, ents, s => do
    match ← blockLookup s ⟨dev, bnum⟩ with
    | none => collectBlocks dev n (bnum + 1) ents s
    | some ce =>
      let c := s.ents ce
      if bnum ≠ c.blockNum ∨ dev ≠ c.dev then .error (.wrongBlock, s)
      else if c.dirty = false ∧ c.clone = none then collectBlocks dev n (bnum + 1) ents s
      else
        let s := setBusy true s ce
        let ents := ents ++ [ce]
        if numFlushBlocks ≤ ents.length then
          collectBlocks dev n (bnum + 1) [] (flushBatch s ents)
        else collectBlocks dev n (bnum + 1) ents s

def flushBlocks (s : Cache β) (dev bnum : ℤ) (nblocks : ℕ) : Run β (ℤ × Cache β) :=
  if nblocks = 0 then .ok (0, s)
  else do
    let (ents, s) ← collectBlocks dev nblocks bnum [] s
    if ents = [] then .ok (0, s) else .ok (0, flushBatch s ents)

end Flushing

section Users
variable {β : Type}

def claimBlocks (dev : ℤ) (nblocks : ℕ) : List ℤ → List ℕ → Cache β → Run β (List ℕ × Cache β)
  | [], ents, s => .ok (ents, s)
  | bnum :: blocks, ents, s => do
    match ← blockLookup s ⟨dev, bnum⟩ with
    | none => .error (.infoNotFound, s)
    | some ce =>
      let c := s.ents ce
      if bnum ≠ c.blockNum ∨ dev ≠ c.dev then .error (.wrongBlock, s)
      else if c.lock = 0 then .error (.infoNotLocked, s)
      else if c.dirty = false then .error (.infoNotDirty, s)
      else
        let s := setBusy true s ce
        if c.clone.isSome ∧ c.func.isSome then
          let ents := ents ++ [ce]
          if numFlushBlocks ≤ ents.length then
            claimBlocks dev nblocks blocks [] (flushBatch s ents)
          else claimBlocks dev nblocks blocks ents s
        else claimBlocks dev nblocks blocks ents s

def setInfo (dev : ℤ) (func : Option ℕ) (arg : ℕ) : List ℤ → Cache β → Run β (Cache β)
  | [], s => .ok s
  | bnum :: blocks, s => do
    match hashLookup s.ht ⟨dev, bnum⟩ with
    | none => .error (.infoNotFound, s)
    | some ce =>
      let s := setEnt s ce fun c => { c with dirty := false, busy := false }
      let c := s.ents ce
      if c.func ≠ none then .error (.infoHasFunc, s)
      else if c.clone ≠ none then .error (.infoHasClone, s)
      else
        let s := setEnt s ce fun c =>
          { c with clone := some c.data, func := func, arg := arg, loggedBnum := bnum,
                   lock := toInt32 (c.lock - 1) }
        let s := match func with
          | some f => { s with log := s.log ++ [.registered ⟨dev, bnum⟩ c.data ⟨f, bnum, arg⟩] }
          | none => s
        if (s.ents ce).lock = 0 then
          let s ← addToHead (deleteFromList s .locked ce) .normal ce
          setInfo dev func arg blocks s
        else setInfo dev func arg blocks s

def setBlocksInfo (s : Cache β) (dev : ℤ) (blocks : List ℤ) (func : Option ℕ) (arg : ℕ) :
    Run β (ℤ × Cache β) := do
  let (ents, s) ← claimBlocks dev blocks.length blocks [] s
  let s := if ents = [] then s else flushBatch s ents
  let s ← setInfo dev func arg blocks s
  .ok (0, s)

def markBlocksDirty (dev : ℤ) : ℤ → ℕ → Cache β → Run β (ℤ × Cache β)
  | _, 0, s => .ok (0, s)
  | bnum, nblocks + 1, s => do
    match ← blockLookup s ⟨dev, bnum⟩ with
    | none => .ok (ENOENT, s)
    | some ce =>
      markBlocksDirty dev (bnum + 1) nblocks (setEnt s ce fun c => { c with dirty := true })

def releaseBlock (s : Cache β) (dev bnum : ℤ) : Run β (ℤ × Cache β) := do
  match ← blockLookup s ⟨dev, bnum⟩ with
  | none => .error (.releaseNotFound, s)
  | some ce =>
    if bnum ≠ (s.ents ce).blockNum ∨ dev ≠ (s.ents ce).dev then .error (.wrongBlock, s)
    else
      let s := setEnt s ce fun c => { c with lock := toInt32 (c.lock - 1) }
      if (s.ents ce).lock = 0 then
        let s ← addToHead (deleteFromList s .locked ce) .normal ce
        .ok (0, s)
      else .ok (0, s)

/-- A user of a locked block stores into it. -/
def modifyBlock (s : Cache β) (dev bnum : ℤ) (v : β) : Cache β :=
  match hashLookup s.ht ⟨dev, bnum⟩ with
  | none => s
  | some ce => setEnt s ce fun c => { c with data := v }

/-- An entry that is about to be freed is taken out of its list. -/
def unlinkEnt (s : Cache β) (cel : ListName) (ce : ℕ) : Cache β :=
  let l := s.links
  let e := s.lists cel
  let e := if e.head = some ce then { e with head := l.next ce } else e
  let e := if e.tail = some ce then { e with tail := l.prev ce } else e
  let l := match l.prev ce with
    | some p => l.setNext p (l.next ce)
    | none => l
  let l := match l.next ce with
    | some n => l.setPrev n (l.prev ce)
    | none => l
  { s with links := l, lists := Function.update s.lists cel e }

def realRemoveCachedBlocks (dev : ℤ) (allowWrites : Bool) (cel : ListName) :
    ℕ → Option ℕ → Cache β → Run β (Cache β)
  | 0, _, s => .error (.loopsForever, s)
  | _, none, s => .ok s
  | n + 1, some ce, s =>
    let next := s.links.next ce
    if (s.ents ce).dev ≠ dev then realRemoveCachedBlocks dev allowWrites cel n next s
    else
      let s :=
        if allowWrites ∧ (s.ents ce).unwritten then
          setBusy false (flushCacheEnt (setBusy true s ce) ce).2 ce
        else s
      let s := unlinkEnt s cel ce
      let s := setEnt s ce fun c => { c with clone := none }
      let (junk, ht) := hashDelete s.ht (s.ents ce).block
      let s := { s with ht := ht }
      if junk ≠ some ce then .error (.removeNotFound, s)
      else
        realRemoveCachedBlocks dev allowWrites cel n next { s with curBlocks := s.curBlocks - 1 }

def removeCachedDeviceBlocks (s : Cache β) (dev : ℤ) (allowWrites : Bool) :
    Run β (ℤ × Cache β) := do
  let s ← realRemoveCachedBlocks dev allowWrites .normal (s.made + 1) (s.lists .normal).head s
  let s ← realRemoveCachedBlocks dev allowWrites .locked (s.made + 1) (s.lists .locked).head s
  .ok (0, { s with maxDeviceBlocks := Function.update s.maxDeviceBlocks dev 0 })

end Users

section Transfers
variable {β : Type}

inductive OpKind where
  | read
  | write
  | noop
  deriving DecidableEq, Repr

structure Op where
  kind : OpKind
  locked : Bool
  readAheadOk : Bool
  deriving DecidableEq, Repr

/-- What a transfer hands back: the error, the blocks copied to the caller and the entry
whose data pointer the caller is given. -/
structure Reply (β : Type) where
  err : ℤ
  data : List β
  dataptr : Option ℕ

def newCacheEnt (s : Cache β) : ℕ × Cache β :=
  let ce := s.made
  (ce, { s with
    ents := Function.update s.ents ce ⟨-1, -1, 0, false, false, s.junk, none, 0, none, 0, 0⟩
    links := (s.links.setNext ce none).setPrev ce none
    made := s.made + 1 })

def allocEnts : ℕ → Cache β → List ℕ × Cache β
  | 0, s => ([], s)
  | needed + 1, s =>
    if s.curBlocks < s.maxBlocks then
      let (ce, s) := newCacheEnt s
      let (ents, s) := allocEnts needed { s with curBlocks := s.curBlocks + 1 }
      (ce :: ents, s)
    else ([], s)

def pluckEnts : ℕ → List ℕ → Cache β → Run β (List ℕ × Cache β)
  | 0, _, s => .ok ([], s)
  | _, [], s => .ok ([], s)
  | needed + 1, ce :: list, s =>
    if (s.ents ce).lock ≠ 0 then .error (.normalHasLocked, s)
    else if (s.ents ce).busy then pluckEnts (needed + 1) list s
    else do
      let (ents, s) ← pluckEnts needed list (setBusy true s ce)
      .ok (ce :: ents, s)

/-- The normal list is searched again and again, until there are enough entries. -/
def pluckLoop (needed : ℕ) : ℕ → List ℕ → Cache β → Run β (List ℕ × Cache β)
  | 0, ents, s => .ok (ents, s)
  | retries + 1, ents, s =>
    if needed ≤ ents.length then .ok (ents, s)
    else do
      let (more, s) ← pluckEnts (needed - ents.length) (listNodes s .normal) s
      pluckLoop needed retries (ents ++ more) s

def pluckMore : ℕ → List ℕ → Cache β → Run β (List ℕ × Cache β)
  | 0, _, s => .ok ([], s)
  | _, [], s => .ok ([], s)
  | max + 1, ce :: list, s =>
    if (s.ents ce).busy then pluckMore (max + 1) list s
    else if (s.ents ce).lock ≠ 0 then .error (.normalHasLocked, s)
    else do
      let (ents, s) ← pluckMore max list (setBusy true s ce)
      .ok (ce :: ents, s)

def getEnts (s : Cache β) (needed max : ℕ) : Run β (List ℕ × Cache β) :=
  if max < needed then .error (.neededOverMax, s)
  else do
    let (ents, s) := allocEnts needed s
    let (ents, s) ← pluckLoop needed (needed * 256) ents s
    if ents.length < needed then .error (.waitedTooLong, s)
    else
      match ents.getLast? with
      | none => .ok (ents, s)
      | some last =>
        if ents.length < max ∧ (s.ents last).unwritten then do
          let (more, s) ← pluckMore (max - ents.length) (nodes s.links s.made (s.links.next last)) s
          .ok (ents ++ more, s)
        else .ok (ents, s)

/-- Counts from `n` on, `limit` blocks at most, up to the first that stops it. -/
def countBlocks (stop : ℕ → Bool) : ℕ → ℕ → ℕ
  | n, 0 => n
  | n, limit + 1 => if stop n then n else countBlocks stop (n + 1) limit

/-- Takes the entries out of the normal list, enters the needed ones under their new block
and counts those that have to be written. -/
def claimEnts (dev bnum : ℤ) (needed : ℕ) : ℕ → List ℕ → Cache β → Run β (ℕ × Cache β)
  | _, [], s => .ok (0, s)
  | cur, ce :: ents, s => do
    let s := setBusy true s ce
    let s ←
      if cur < needed then
        let (err, ht) := hashInsert s.ht ⟨dev, bnum + cur⟩ ce
        let s := { s with ht := ht }
        if err ≠ 0 then .error (.hashInsertFailed, s) else .ok s
      else .ok s
    if (s.ents ce).dev = -1 then claimEnts dev bnum needed (cur + 1) ents s
    else if (s.ents ce).lock ≠ 0 then .error (.lockedVictim, s)
    else do
      let unwritten := (s.ents ce).unwritten
      let (numDirty, s) ← claimEnts dev bnum needed (cur + 1) ents (deleteFromList s .normal ce)
      .ok (if unwritten then numDirty + 1 else numDirty, s)

def reallocEnt (bsize : ℕ) (s : Cache β) (ce : ℕ) : Cache β :=
  if (s.ents ce).bsize ≠ bsize then
    setEnt s ce fun c => { c with data := s.junk, clone := none, bsize := bsize }
  else s

def readBlocks (dev : ℤ) : ℤ → List ℕ → Cache β → Cache β
  | _, [], s => s
  | bnum, ce :: ents, s =>
    readBlocks dev (bnum + 1) ents (setEnt s ce fun c => { c with data := s.disk ⟨dev, bnum⟩ })

def readIntoEnts (s : Cache β) (dev bnum : ℤ) (ents : List ℕ) : ℤ × Cache β :=
  let (ok, s) := transfer s
  if ok then (0, readBlocks dev bnum ents s) else (EINVAL, s)

/-- Forgets the old blocks of the needed entries; those read ahead are then ready. -/
def rekeyEnts (err : ℤ) (dev bnum : ℤ) (curNblocks : ℕ) : ℕ → List ℕ → Cache β → Run β (Cache β)
  | _, [], s => .ok s
  | cur, ce :: ents, s => do
    let s ←
      if (s.ents ce).dev ≠ -1 then
        let (tmp, ht) := hashDelete s.ht (s.ents ce).block
        let s := { s with ht := ht }
        if tmp ≠ some ce then .error (.hashDeleteFailed, s) else .ok s
      else .ok s
    if err = 0 ∧ curNblocks ≤ cur then
      let s := setEnt s ce fun c => { c with dev := dev, blockNum := bnum + cur, busy := false }
      let s ← addToHead s .normal ce
      rekeyEnts err dev bnum curNblocks (cur + 1) ents s
    else rekeyEnts err dev bnum curNblocks (cur + 1) ents s

def putBackEnts : List ℕ → Cache β → Run β (Cache β)
  | [], s => .ok s
  | ce :: ents, s => do
    let s := setBusy false s ce
    if (s.ents ce).lock ≠ 0 then .error (.lockedExtra, s)
    else
      let s ← addToTail s .normal ce
      putBackEnts ents s

/-- The needed entries are freed after a failed flush. -/
def abandonEnts (dev bnum : ℤ) : ℕ → List ℕ → Cache β → Run β (Cache β)
  | _, [], s => .ok s
  | cur, ce :: ents, s =>
    let (tmp, ht) := hashDelete s.ht ⟨dev, bnum + cur⟩
    let s := { s with ht := ht }
    if tmp ≠ some ce then .error (.hashDeleteFailed, s)
    else
      let (tmp, ht) := hashDelete s.ht (s.ents ce).block
      let s := { s with ht := ht }
      if tmp ≠ some ce then .error (.hashDeleteFailed, s)
      else abandonEnts dev bnum (cur + 1) ents { s with curBlocks := s.curBlocks - 1 }

def restoreEnts : List ℕ → Cache β → Run β (Cache β)
  | [], s => .ok s
  | ce :: ents, s => do
    let s ← addToTail (setBusy false s ce) .normal ce
    restoreEnts ents s

/-- The needed entries are freed after a failed read. -/
def dropEnts (dev bnum : ℤ) : ℕ → List ℕ → Cache β → Run β (Cache β)
  | _, [], s => .ok s
  | cur, ce :: ents, s =>
    let (tmp, ht) := hashDelete s.ht ⟨dev, bnum + cur⟩
    let s := { s with ht := ht }
    if tmp ≠ some ce then .error (.hashDeleteFailed, s)
    else dropEnts dev bnum (cur + 1) ents { s with curBlocks := s.curBlocks - 1 }

/-- What a hit or a new entry copies into the caller's buffer, if there is one. -/
def copyOut (op : Op) (data : Option (List β)) (block : β) : List β :=
  if data.isSome ∧ op.kind ≠ .write then [block] else []

/-- How many blocks from `bnum` on are missing, and how many entries to get for them. -/
def chooseBlocks (s : Cache β) (dev bnum : ℤ) (numBlocks bsize : ℕ) (op : Op) : ℕ × ℕ :=
  let cached (n : ℕ) := (hashLookup s.ht ⟨dev, bnum + n⟩).isSome
  let curNblocks := countBlocks cached 1 (min numBlocks numFlushBlocks - 1)
  if op.kind = .read ∧ op.readAheadOk ∧ curNblocks * bsize < readAheadSize then
    (curNblocks, countBlocks (fun n => s.maxDeviceBlocks dev ≤ bnum + n ∨ cached n) curNblocks
      (readAheadSize / bsize - curNblocks))
  else (curNblocks, curNblocks)

/-- How many blocks `read_phys_blocks` and `write_phys_blocks` move when nothing fails: they
count the bytes in 32 bits. (Block sizes are powers of two, so these are whole blocks.) -/
def movedBlocks (numBlocks bsize : ℕ) : ℕ := toUint32 (numBlocks * bsize) / bsize

/-- What has been read from the device is replaced by what the cache has. Behind the blocks that
have been moved the caller's buffer is as it was. -/
def overlayBlocks (s : Cache β) (dev : ℤ) : ℤ → ℕ → ℕ → Run β (List β)
  | _, _, 0 => .ok []
  | bnum, moved, numBlocks + 1 => do
    match ← blockLookup s ⟨dev, bnum⟩ with
    | none =>
      let out ← overlayBlocks s dev (bnum + 1) (moved - 1) numBlocks
      .ok ((if moved = 0 then s.junk else s.disk ⟨dev, bnum⟩) :: out)
    | some ce =>
      if bnum ≠ (s.ents ce).blockNum ∨ dev ≠ (s.ents ce).dev then .error (.wrongBlock, s)
      else do
        let out ← overlayBlocks s dev (bnum + 1) (moved - 1) numBlocks
        .ok ((s.ents ce).data :: out)

/-- The cached ones of the blocks that are about to be written are updated. -/
def updateBlocks (dev : ℤ) : ℤ → List β → Cache β → Run β (Cache β)
  | _, [], s => .ok s
  | bnum, v :: vs, s => do
    match ← blockLookup s ⟨dev, bnum⟩ with
    | none => updateBlocks dev (bnum + 1) vs s
    | some ce =>
      if bnum ≠ (s.ents ce).blockNum ∨ dev ≠ (s.ents ce).dev then .error (.wrongBlock, s)
      else
        let s := if (s.ents ce).clone.isSome then (flushCacheEnt s ce).2 else s
        updateBlocks dev (bnum + 1) vs (setEnt s ce fun c => { c with data := v })

def writeBlocks (dev : ℤ) : ℤ → List β → Cache β → Cache β
  | _, [], s => s
  | bnum, v :: vs, s =>
    writeBlocks dev (bnum + 1) vs
      { s with
        disk := Function.update s.disk ⟨dev, bnum⟩ v
        log := s.log ++ [.direct ⟨dev, bnum⟩ v] }

/-- Transfers of 64 KB and more go past the cache. -/
def largeIo (s : Cache β) (dev bnum : ℤ) (data : Option (List β)) (numBlocks bsize : ℕ)
    (op : Op) : Run β (Reply β × Cache β) :=
  let moved := movedBlocks numBlocks bsize
  match data with
  | none => .error (.largeLockedIo, s)
  | some vs =>
    if op.locked then .error (.largeLockedIo, s)
    else
      match op.kind with
      | .read =>
        let (ok, s) := transfer s
        if ok then do
          let out ← overlayBlocks s dev bnum moved numBlocks
          .ok (⟨0, out, none⟩, s)
        else .ok (⟨EINVAL, [], none⟩, s)
      | .write => do
        let s ← updateBlocks dev bnum (vs.take numBlocks) s
        let (ok, s) := transfer s
        if ok then .ok (⟨0, [], none⟩, writeBlocks dev bnum ((vs.take numBlocks).take moved) s)
        else .ok (⟨EINVAL, [], none⟩, s)
      | .noop => .ok (⟨EINVAL, [], none⟩, s)

def lockedName (lock : ℤ) : ListName := if lock = 0 then .normal else .locked

variable [Zero β]

/-- The contents of a block after the operation: a write takes them from `data`. -/
def contents (op : Op) (data : Option (List β)) (block : β) : β :=
  match op.kind with
  | .read => block
  | .write => (data.getD []).headD block
  | .noop => 0

def fillEnts (dev : ℤ) (bsize : ℕ) (op : Op) (curNblocks : ℕ) :
    ℤ → Option (List β) → List ℕ → Cache β → Run β (List β × Option ℕ × Cache β)
  | _, _, [], s => .ok ([], none, s)
  | bnum, data, ce :: ents, s => do
    if (s.ents ce).dev ≠ -1 ∧ (s.links.next ce ≠ none ∨ s.links.prev ce ≠ none) then
      .error (.victimInList, s)
    else
      let s := setEnt s ce fun c =>
        { dev := dev, blockNum := bnum, bsize := bsize
          dirty := op.kind ≠ .read, busy := false
          data := contents op data c.data, clone := none
          lock := if op.locked then 1 else 0
          func := none, loggedBnum := c.loggedBnum, arg := 0 }
      let s := { s with links := (s.links.setNext ce none).setPrev ce none }
      let s ← addToHead s (if op.locked then .locked else .normal) ce
      if data = none ∧ curNblocks ≠ 1 then .error (.dataptrTwice, s)
      else
        let block := (s.ents ce).data
        let (out, dataptr, s) ←
          fillEnts dev bsize op curNblocks (bnum + 1) (data.map List.tail) ents s
        .ok (copyOut op data block ++ out, dataptr.or (some ce), s)

/-- The entries are in hand and on no list: what they held is written, and they get the
blocks from `bnum` on. -/
def loadEnts (s : Cache β) (dev bnum : ℤ) (data : Option (List β)) (bsize : ℕ) (op : Op)
    (curNblocks needed numDirty : ℕ) (ents : List ℕ) : Run β (ℕ × Reply β × Cache β) := do
  let (err, s) := if numDirty ≠ 0 then flushEnts s ents else (0, s)
  if err ≠ 0 then
    let s ← abandonEnts dev bnum 0 (ents.take needed) s
    let s ← restoreEnts (ents.drop needed) s
    .ok (0, ⟨ENOMEM, [], none⟩, s)
  else
    let s := (ents.take needed).foldl (reallocEnt bsize) s
    let (err, s) :=
      if op.kind = .read then readIntoEnts s dev bnum (ents.take needed) else (0, s)
    let s ← rekeyEnts err dev bnum curNblocks 0 (ents.take needed) s
    let s ← putBackEnts (ents.drop needed) s
    if err ≠ 0 then
      let s ← dropEnts dev bnum 0 (ents.take needed) s
      .ok (0, ⟨err, [], none⟩, s)
    else
      let (out, dataptr, s) ←
        fillEnts dev bsize op curNblocks bnum data (ents.take curNblocks) s
      .ok (curNblocks, ⟨0, out, dataptr⟩, s)

def missBlocks (s : Cache β) (dev bnum : ℤ) (data : Option (List β)) (numBlocks bsize : ℕ)
    (op : Op) : Run β (ℕ × Reply β × Cache β) := do
  let (curNblocks, needed) := chooseBlocks s dev bnum numBlocks bsize op
  let (ents, s) ← getEnts s needed numFlushBlocks
  if ents.length < needed then .error (.notEnoughEnts, s)
  else
    let ents := qsort s ents
    let (numDirty, s) ← claimEnts dev bnum needed 0 ents s
    loadEnts s dev bnum data bsize op curNblocks needed numDirty ents

def hitBlock (s : Cache β) (ce : ℕ) (dev bnum : ℤ) (data : Option (List β)) (bsize : ℕ)
    (op : Op) : Run β (List β × Option ℕ × Cache β) := do
  let c := s.ents ce
  if bnum ≠ c.blockNum ∨ dev ≠ c.dev then .error (.wrongBlock, s)
  else if bsize ≠ c.bsize then .error (.wrongBlockSize, s)
  else
    let s := deleteFromList s (lockedName c.lock) ce
    let s := setEnt s ce fun c =>
      { c with
        data := contents op data c.data
        dirty := c.dirty || op.kind ≠ .read
        lock := if op.locked then toInt32 (c.lock + 1) else c.lock }
    let s ← addToHead s (lockedName (s.ents ce).lock) ce
    .ok (copyOut op data (s.ents ce).data, some ce, s)

def blockLoop (dev : ℤ) (bsize : ℕ) (op : Op) :
    ℕ → ℤ → Option (List β) → ℕ → Cache β → Run β (Reply β × Cache β)
  | _, _, _, 0, s => .ok (⟨0, [], none⟩, s)
  | 0, _, _, _, s => .error (.loopsForever, s)
  | fuel + 1, bnum, data, numBlocks + 1, s => do
    match ← blockLookup s ⟨dev, bnum⟩ with
    | some ce =>
      let (out, dataptr, s) ← hitBlock s ce dev bnum data bsize op
      let (r, s) ← blockLoop dev bsize op fuel (bnum + 1) (data.map List.tail) numBlocks s
      .ok (⟨r.err, out ++ r.data, r.dataptr.or dataptr⟩, s)
    | none =>
      let (n, r, s) ← missBlocks s dev bnum data (numBlocks + 1) bsize op
      if r.err ≠ 0 then .ok (r, s)
      else
        let (r', s) ←
          blockLoop dev bsize op fuel (bnum + n) (data.map (List.drop n)) (numBlocks + 1 - n) s
        .ok (⟨r'.err, r.data ++ r'.data, r'.dataptr.or r.dataptr⟩, s)

def cacheBlockIo (s : Cache β) (dev bnum : ℤ) (data : Option (List β)) (numBlocks bsize : ℕ)
    (op : Op) (dataptr : Bool) : Run β (Reply β × Cache β) :=
  if bsize = 0 then .error (.blockSizeZero, s)
  else if numBlocks = 0 then .error (.numBlocksZero, s)
  else if data = none ∧ dataptr = false then .ok (⟨ENOMEM, [], none⟩, s)
  else if data = none ∧ numBlocks ≠ 1 then .error (.numBlocksNotOne, s)
  else if data = none ∧ op.kind = .write then .error (.getBlockWrites, s)
  else if s.maxDeviceBlocks dev < bnum + numBlocks then .error (.badAccess, s)
  else if 64 * 1024 ≤ numBlocks * bsize then largeIo s dev bnum data numBlocks bsize op
  else blockLoop dev bsize op numBlocks bnum data numBlocks s

def getBlock (s : Cache β) (dev bnum : ℤ) (bsize : ℕ) : Run β (Option ℕ × Cache β) := do
  let (r, s) ← cacheBlockIo s dev bnum none 1 bsize ⟨.read, true, true⟩ true
  .ok (if r.err ≠ 0 then none else r.dataptr, s)

def getEmptyBlock (s : Cache β) (dev bnum : ℤ) (bsize : ℕ) : Run β (Option ℕ × Cache β) := do
  let (r, s) ← cacheBlockIo s dev bnum none 1 bsize ⟨.noop, true, false⟩ true
  .ok (if r.err ≠ 0 then none else r.dataptr, s)

def cachedRead (s : Cache β) (dev bnum : ℤ) (numBlocks bsize : ℕ) : Run β (Reply β × Cache β) :=
  cacheBlockIo s dev bnum (some []) numBlocks bsize ⟨.read, false, true⟩ false

def cachedWrite (s : Cache β) (dev bnum : ℤ) (data : List β) (bsize : ℕ) :
    Run β (Reply β × Cache β) :=
  cacheBlockIo s dev bnum (some data) data.length bsize ⟨.write, false, false⟩ false

def cachedWriteLocked (s : Cache β) (dev bnum : ℤ) (data : List β) (bsize : ℕ) :
    Run β (Reply β × Cache β) :=
  cacheBlockIo s dev bnum (some data) data.length bsize ⟨.write, true, false⟩ false

end Transfers

end BlockCache
