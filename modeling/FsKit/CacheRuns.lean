import Mathlib.Tactic
import FsKit.CacheBypass
import FsKit.CacheRemoval
import FsKit.StoreViews

/-! Runs of calls on the block cache (`cache.c`). The plain device of the specification has blocks
and no cache: a read gives what was written last, and a flush does nothing at all. Every call that
its callers may make is answered by the cache as the plain device answers it, and leaves the cache
a cache of that device. -/
namespace CacheRuns

open HashTable BlockCache WriteBackStore TransitionTrace CacheStructure CacheStores CacheTransfers
open CacheRequests CacheBypass CacheFlushes CacheUsers CacheRemoval
open FlushCompleteness (bufOf Works)

variable {β : Type}

section Calls

inductive Call (β : Type) where
  | initDevice (dev maxBlocks : ℤ)
  | removeDevice (dev : ℤ)
  | read (dev bnum : ℤ) (n : ℕ)
  | write (dev bnum : ℤ) (vs : List β)
  | writeLocked (dev bnum : ℤ) (vs : List β)
  | get (dev bnum : ℤ)
  | getEmpty (dev bnum : ℤ)
  | modify (dev bnum : ℤ) (v : β)
  | markDirty (dev bnum : ℤ) (n : ℕ)
  | setInfo (dev : ℤ) (blocks : List ℤ) (func arg : ℕ)
  | release (dev bnum : ℤ)
  | flushBlocks (dev bnum : ℤ) (n : ℕ)
  | flushDevice (dev : ℤ)
  | forceFlush (dev : ℤ) (preferLogBlocks : Bool)
  | flusher (recent : Bool)
  deriving DecidableEq, Repr

structure Answer (β : Type) where
  status : ℤ
  data : List β
  deriving DecidableEq, Repr

/-- A call on the cache, or a turn of the flusher. Of `get_block` the caller sees the contents that
the pointer leads to. -/
def call [Zero β] (size : ℤ → ℕ) (s : Cache β) : Call β → Run β (Answer β × Cache β)
  | .initDevice dev maxBlocks =>
    let (status, s) := initCacheForDevice s dev maxBlocks
    .ok (⟨status, []⟩, s)
  | .removeDevice dev => do
    let (status, s) ← removeCachedDeviceBlocks s dev true
    .ok (⟨status, []⟩, s)
  | .read dev bnum n => do
    let (r, s) ← cachedRead s dev bnum n (size dev)
    .ok (⟨r.err, r.data⟩, s)
  | .write dev bnum vs => do
    let (r, s) ← cachedWrite s dev bnum vs (size dev)
    .ok (⟨r.err, r.data⟩, s)
  | .writeLocked dev bnum vs => do
    let (r, s) ← cachedWriteLocked s dev bnum vs (size dev)
    .ok (⟨r.err, r.data⟩, s)
  | .get dev bnum => do
    let (ce, s) ← getBlock s dev bnum (size dev)
    .ok (⟨0, ce.toList.map fun ce => (s.ents ce).data⟩, s)
  | .getEmpty dev bnum => do
    let (ce, s) ← getEmptyBlock s dev bnum (size dev)
    .ok (⟨0, ce.toList.map fun ce => (s.ents ce).data⟩, s)
  | .modify dev bnum v => .ok (⟨0, []⟩, modifyBlock s dev bnum v)
  | .markDirty dev bnum n => do
    let (status, s) ← markBlocksDirty dev bnum n s
    .ok (⟨status, []⟩, s)
  | .setInfo dev blocks func arg => do
    let (status, s) ← setBlocksInfo s dev blocks (some func) arg
    .ok (⟨status, []⟩, s)
  | .release dev bnum => do
    let (status, s) ← releaseBlock s dev bnum
    .ok (⟨status, []⟩, s)
  | .flushBlocks dev bnum n => do
    let (status, s) ← flushBlocks s dev bnum n
    .ok (⟨status, []⟩, s)
  | .flushDevice dev => do
    let s ← flushDevice (s.made + 1) s dev
    .ok (⟨0, []⟩, s)
  | .forceFlush dev preferLogBlocks => .ok (⟨0, []⟩, forceCacheFlush s dev preferLogBlocks)
  | .flusher recent => .ok (⟨0, []⟩, cacheFlusher s recent)

def runCalls [Zero β] (size : ℤ → ℕ) :
    List (Call β) → Cache β → Run β (List (Answer β) × Cache β)
  | [], s => .ok ([], s)
  | c :: cs, s => do
    let (a, s) ← call size s c
    let (as, s) ← runCalls size cs s
    .ok (a :: as, s)

end Calls

section Plain
variable [Zero β]

/-- The devices without a cache, as those see them who use them through one. -/
structure Plain (β : Type) extends View Block β Callback where
  limit : ℤ → ℤ

def Plain.acts (u : Plain β) (acts : List (Act Block β Callback)) : Plain β :=
  { u with toView := runTrace View.act u.toView acts }

def Plain.answer (u : Plain β) : Call β → Answer β
  | .initDevice dev _ => ⟨if 256 ≤ dev ∨ u.limit dev ≠ 0 then -1 else 0, []⟩
  | .read dev bnum n => ⟨0, (newBlocks dev bnum n).map u.blocks⟩
  | .get dev bnum => ⟨0, [u.blocks ⟨dev, bnum⟩]⟩
  | .getEmpty _ _ => ⟨0, [0]⟩
  | _ => ⟨0, []⟩

def Plain.next (u : Plain β) : Call β → Plain β
  | .initDevice dev maxBlocks =>
    if 256 ≤ dev ∨ u.limit dev ≠ 0 then u
    else { u with limit := Function.update u.limit dev maxBlocks }
  | .removeDevice dev => { u with limit := Function.update u.limit dev 0 }
  | .write dev bnum vs => { u with toView := u.serve (numbered dev bnum vs) [] }
  | .writeLocked dev bnum vs =>
    let ks := newBlocks dev bnum vs.length
    { u with toView := (u.serve (numbered dev bnum vs) ks).mark ks }
  | .get dev bnum => { u with toView := u.serve [] [⟨dev, bnum⟩] }
  | .getEmpty dev bnum =>
    { u with toView := (u.serve [(⟨dev, bnum⟩, 0)] [⟨dev, bnum⟩]).mark [⟨dev, bnum⟩] }
  | .modify dev bnum v => u.acts [.modify ⟨dev, bnum⟩ v]
  | .markDirty dev bnum n => u.acts ((newBlocks dev bnum n).map .mark)
  | .setInfo dev blocks func arg =>
    u.acts (blocks.map fun b => .register ⟨dev, b⟩ ⟨func, b, arg⟩)
  | .release dev bnum => u.acts [.unlock ⟨dev, bnum⟩]
  | _ => u

/-- A request for `n` blocks is for blocks of the device, and the cache has room for the blocks that
will be locked and for a batch of others. What is left of 4 GB and more when the bytes are counted
in 32 bits is whole blocks. -/
def Plain.Inside (size : ℤ → ℕ) (maxBlocks : ℕ) (u : Plain β) (dev bnum : ℤ) (n locks : ℕ) : Prop :=
  0 ≤ dev ∧ dev < 256 ∧ 0 ≤ bnum ∧ 512 ≤ size dev ∧ 0 < n ∧ n * size dev < 2 ^ 63 ∧
    (n * size dev < 2 ^ 32 ∨ size dev ∣ 2 ^ 32) ∧ bnum + n ≤ u.limit dev ∧
    u.held.dedup.length + locks + numFlushBlocks ≤ maxBlocks

/-- What the callers of the cache keep to. -/
def Plain.Permitted (size : ℤ → ℕ) (maxBlocks : ℕ) (u : Plain β) : Call β → Prop
  | .initDevice dev limit => 0 ≤ dev ∧ 0 ≤ limit ∧ limit * size dev < 2 ^ 63
  | .removeDevice dev => 0 ≤ dev ∧ dev < 256 ∧ ∀ k ∈ u.held, k.dev ≠ dev
  | .read dev bnum n => u.Inside size maxBlocks dev bnum n 0
  | .write dev bnum vs => u.Inside size maxBlocks dev bnum vs.length 0
  | .writeLocked dev bnum vs =>
    u.Inside size maxBlocks dev bnum vs.length vs.length ∧ vs.length * size dev < 64 * 1024
  | .get dev bnum | .getEmpty dev bnum =>
    u.Inside size maxBlocks dev bnum 1 1 ∧ size dev < 64 * 1024
  | .modify dev bnum _ => ⟨dev, bnum⟩ ∈ u.held
  | .markDirty dev bnum n => ∀ k ∈ newBlocks dev bnum n, k ∈ u.held
  | .setInfo dev blocks _ _ => blocks.Nodup ∧ ∀ b ∈ blocks, ⟨dev, b⟩ ∈ u.held ∧
    (u.owed ⟨dev, b⟩ = true → 1 < u.held.count ⟨dev, b⟩)
  | .release dev bnum => ⟨dev, bnum⟩ ∈ u.held ∧
    (u.owed ⟨dev, bnum⟩ = true → 1 < u.held.count ⟨dev, bnum⟩)
  | .flushBlocks dev bnum n => 0 ≤ dev ∧ 0 ≤ bnum ∧ n < 2 ^ 31 ∧ bnum + n < 2 ^ 63
  | .flushDevice dev | .forceFlush dev _ => 0 ≤ dev
  | .flusher _ => True

/-- Only blocks that have been marked as dirty are registered. -/
def Plain.Prepared (u : Plain β) : Call β → Prop
  | .setInfo dev blocks _ _ => ∀ b ∈ blocks, u.marked ⟨dev, b⟩ = true
  | _ => True

/-- The locks of a block that the call locks can still be counted in an `int`. -/
def Plain.Counted (u : Plain β) : Call β → Prop
  | .writeLocked dev bnum vs => ∀ k ∈ newBlocks dev bnum vs.length, u.held.count k + 1 < 2 ^ 31
  | .get dev bnum | .getEmpty dev bnum => u.held.count ⟨dev, bnum⟩ + 1 < 2 ^ 31
  | _ => True

omit [Zero β] in
/-- The bytes of a transfer can be counted in 32 bits. -/
def Call.Short (size : ℤ → ℕ) : Call β → Prop
  | .read dev _ n => n * size dev < 2 ^ 32
  | .write dev _ vs => vs.length * size dev < 2 ^ 32
  | _ => True

omit [Zero β] in
/-- What a call sets aside: blocks with the contents that they have, and a callback for each. -/
def Call.registers (t : Store Block β Callback) : Call β → List (Block × β × Callback)
  | .setInfo dev blocks f arg =>
    blocks.map fun b => (⟨dev, b⟩, view t ⟨dev, b⟩, ⟨f, b, arg⟩)
  | _ => []

instance (size : ℤ → ℕ) (maxBlocks : ℕ) (u : Plain β) (dev bnum : ℤ) (n locks : ℕ) :
    Decidable (u.Inside size maxBlocks dev bnum n locks) :=
  inferInstanceAs (Decidable (_ ∧ _))

instance (size : ℤ → ℕ) (maxBlocks : ℕ) (u : Plain β) (c : Call β) :
    Decidable (u.Permitted size maxBlocks c) := by
  cases c <;> unfold Plain.Permitted <;> infer_instance

instance (u : Plain β) (c : Call β) : Decidable (u.Prepared c) := by
  cases c <;> unfold Plain.Prepared <;> infer_instance

instance (u : Plain β) (c : Call β) : Decidable (u.Counted c) := by
  cases c <;> unfold Plain.Counted <;> infer_instance

instance (size : ℤ → ℕ) (c : Call β) : Decidable (c.Short size) := by
  cases c <;> unfold Call.Short <;> infer_instance

end Plain

section Keeping
variable [Zero β] {size : ℤ → ℕ} {maxBlocks : ℕ} {disk : Block → β} {s s' : Cache β} {u : Plain β}
  {c : Call β} {op : Op} {dev bnum : ℤ} {data : Option (List β)} {n locks : ℕ} {r : Reply β}
  {acts : List (Act Block β Callback)} {ls : List Block} {xs : Members} {ents : List ℕ}

/-- The cache is at rest, its locks are those that its users have taken, and the disk is what has
been written to it since it was `disk`, in the order in which it may be written. -/
structure Keeps (size : ℤ → ℕ) (maxBlocks : ℕ) (disk : Block → β) (s : Cache β) (u : Plain β) :
    Prop where
  rests : ∃ xs, Rests size s xs
  locks : Locks (cacheStore s) u.toView
  ordered : Ordered disk (cacheStore s)
  maxBlocks : s.maxBlocks = maxBlocks
  limit : s.maxDeviceBlocks = u.limit

/-- And its users see the plain device. -/
structure Tracks (size : ℤ → ℕ) (maxBlocks : ℕ) (disk : Block → β) (s : Cache β) (u : Plain β) :
    Prop extends Keeps size maxBlocks disk s u where
  follows : Follows (cacheStore s) u.toView

/-- What a call adds to the record of the disk. The contents of blocks that somebody holds are
written by no flush, and what is registered is what the call sets aside. -/
def Recorded (held : List Block) (c : Call β) (s s' : Cache β) : Prop :=
  ∃ l, s'.log = s.log ++ l ∧ (∀ k v lock, .flushed k v false lock ∈ l → k ∉ held) ∧
    l.filterMap Obs.registration = c.registers (cacheStore s)

/-- A call has returned. If its bytes can be counted in 32 bits, and the users of the cache have
seen the plain device so far, it is answered as by the plain device. -/
structure Answered (size : ℤ → ℕ) (maxBlocks : ℕ) (disk : Block → β) (s : Cache β) (u : Plain β)
    (c : Call β) (a : Answer β) (s' : Cache β) : Prop where
  keeps : Keeps size maxBlocks disk s' (u.next c)
  stays : Stays s s'
  recorded : Recorded u.held c s s'
  answers : Follows (cacheStore s) u.toView → c.Short size →
    a = u.answer c ∧ Follows (cacheStore s') (u.next c).toView

def Returns (size : ℤ → ℕ) (maxBlocks : ℕ) (disk : Block → β) (s : Cache β) (u : Plain β)
    (c : Call β) : Prop :=
  ∃ a s', call size s c = .ok (a, s') ∧ Answered size maxBlocks disk s u c a s'

omit [Zero β] in
theorem Keeps.returned (h : Keeps size maxBlocks disk s u) (hr : Returned size ls s r s')
    (ws : List (Block × β)) :
    Keeps size maxBlocks disk s' { u with toView := u.serve ws ls } where
  rests := hr.rests
  locks := h.locks.reaches hr.reaches ws
  ordered := hr.reaches.ordered h.ordered
  maxBlocks := hr.maxBlocks.trans h.maxBlocks
  limit := hr.maxDeviceBlocks.trans h.limit

omit [Zero β] in
theorem Keeps.became (h : Keeps size maxBlocks disk s u) (hb : Became size acts s s')
    (hv : EveryStep View.act View.Careful u.toView acts) :
    Keeps size maxBlocks disk s' (u.acts acts) where
  rests := hb.rests
  locks := hb.store ▸ h.locks.run hb.allowed hv
  ordered := hb.store ▸ h.ordered.run hb.allowed
  maxBlocks := hb.maxBlocks.trans h.maxBlocks
  limit := hb.maxDeviceBlocks.trans h.limit

omit [Zero β] in
theorem Keeps.mark (ks : List Block) (h : Keeps size maxBlocks disk s u)
    (hks : ∀ k ∈ ks, HeldDirty (cacheStore s) k) :
    Keeps size maxBlocks disk s { u with toView := u.mark ks } :=
  ⟨h.rests, h.locks.mark hks, h.ordered, h.maxBlocks, h.limit⟩

omit [Zero β] in
theorem serve_nothing (v : View Block β Callback) : v.serve [] [] = v := by
  simp [View.serve, writeAll]

omit [Zero β] in
/-- A flush is nothing to the users of the cache. -/
theorem Keeps.swept (h : Keeps size maxBlocks disk s u) (hs : Swept size xs ents s s') :
    Keeps size maxBlocks disk s' u where
  rests := ⟨xs, hs.rests⟩
  locks := by
    have hlocks := h.locks.reaches hs.performs.reaches []
    rwa [serve_nothing] at hlocks
  ordered := hs.performs.reaches.ordered h.ordered
  maxBlocks := by rw [hs.same, h.maxBlocks]
  limit := by rw [hs.same, h.limit]

omit [Zero β] in
theorem follows_swept (h : Follows (cacheStore s) u.toView) (hs : Swept size xs ents s s') :
    Follows (cacheStore s') u.toView := by
  have hfollows := h.performs hs.performs
  rwa [serve_nothing] at hfollows

omit [Zero β] in
theorem recorded_reaches (h : Keeps size maxBlocks disk s u)
    (hr : Reaches ls (cacheStore s) (cacheStore s')) (hc : c.registers (cacheStore s) = []) :
    Recorded u.held c s s' := by
  unfold Recorded
  rw [hc]
  exact h.locks.logs hr

omit [Zero β] in
theorem recorded_silent (hlog : s'.log = s.log) (hc : c.registers (cacheStore s) = []) :
    Recorded u.held c s s' := by
  refine ⟨[], ?_, fun _ _ _ ho => (List.not_mem_nil ho).elim, hc.symm⟩
  rw [hlog, List.append_nil]

omit [Zero β] in
theorem Keeps.holds (h : Keeps size maxBlocks disk s u) : Holds s u.held.dedup := by
  intro k hk
  rw [h.locks.locks, Int.natCast_ne_zero, ← Nat.pos_iff_ne_zero, List.count_pos_iff] at hk
  exact List.mem_dedup.mpr hk

/-- A request that the plain device permits returns. -/
theorem Keeps.request (op : Op) (data : Option (List β)) (dataptr : Bool)
    (h : Keeps size maxBlocks disk s u) (hin : u.Inside size maxBlocks dev bnum n locks)
    (hlocks : op.locked = true → n ≤ locks)
    (hcounts : op.locked = true → ∀ k ∈ newBlocks dev bnum n, u.held.count k + 1 < 2 ^ 31)
    (htarget : data = none → n = 1 ∧ dataptr = true) (hbrings : Brings op data n)
    (hempty : op.kind = .noop → data = none)
    (hsmall : op.locked = true ∨ data = none → n * size dev < 64 * 1024) :
    ∃ r s', cacheBlockIo s dev bnum data n (size dev) op dataptr = .ok (r, s') ∧
      Returned size (locksOf op dev bnum n) s r s' ∧
      (n * size dev < 2 ^ 32 → Served size op dev bnum data n s r s') := by
  obtain ⟨hdev, -, -, hbig, hpos, -, -, hinside, hroom⟩ := hin
  obtain ⟨xs, hr⟩ := h.rests
  refine cacheBlockIo_ok ⟨⟨rfl, hdev, hbig, fun hnone => (htarget hnone).1, hbrings, hempty⟩, hpos,
    fun hnone => (htarget hnone).2, ?_, hsmall, ?_, fun hlocked i hi => ?_⟩ hr h.holds
  · rw [h.limit]
    exact hinside
  · rw [h.maxBlocks]
    split
    · have := hlocks ‹_›
      omega
    · omega
  · have hcount := hcounts hlocked _ (mem_newBlocks.mpr ⟨i, hi, rfl⟩)
    unfold Lockable
    rw [h.locks.locks]
    omega

end Keeping

section Answers
variable [Zero β] {size : ℤ → ℕ} {maxBlocks : ℕ} {disk : Block → β} {s s' : Cache β} {u : Plain β}
  {c : Call β} {dev bnum : ℤ} {n : ℕ} {acts : List (Act Block β Callback)} {xs : Members}
  {ents : List ℕ}

theorem initDevice_returns (h : Keeps size maxBlocks disk s u) (limit : ℤ) :
    Returns size maxBlocks disk s u (.initDevice dev limit) := by
  by_cases hrefused : 256 ≤ dev ∨ u.limit dev ≠ 0
  · have hrun : initCacheForDevice s dev limit = (-1, s) := by
      unfold initCacheForDevice
      rw [h.limit]
      rcases hrefused with hdev | hlimit
      · rw [if_pos hdev]
      · rw [if_pos hlimit, ite_self]
    have hnext : u.next (.initDevice dev limit) = u := if_pos hrefused
    refine ⟨⟨-1, []⟩, s, ?_, hnext.symm ▸ h, stays_of_ht rfl, recorded_silent rfl rfl,
      fun hf _ => ?_⟩
    · simp only [call, hrun]
    · rw [hnext, Plain.answer, if_pos hrefused]
      exact ⟨rfl, hf⟩
  · have hrun : initCacheForDevice s dev limit =
        (0, { s with maxDeviceBlocks := Function.update s.maxDeviceBlocks dev limit }) := by
      obtain ⟨hdev, hlimit⟩ := not_or.mp hrefused
      unfold initCacheForDevice
      rw [if_neg hdev, h.limit, if_neg hlimit]
    obtain ⟨xs, hr⟩ := h.rests
    have hnext : u.next (.initDevice dev limit) =
        { u with limit := Function.update u.limit dev limit } := if_neg hrefused
    refine ⟨⟨0, []⟩, { s with maxDeviceBlocks := Function.update s.maxDeviceBlocks dev limit }, ?_,
      ?_, stays_of_ht rfl, recorded_silent rfl rfl, fun hf _ => ?_⟩
    · simp only [call, hrun]
    · rw [hnext]
      refine ⟨⟨xs, ⟨⟨hr.lists.congr rfl rfl rfl rfl fun _ _ => rfl, hr.idle, hr.dev, hr.keys,
        hr.cap⟩, hr.sized, hr.lock, hr.calls, hr.works⟩⟩, h.locks, h.ordered, h.maxBlocks, ?_⟩
      rw [h.limit]
    · rw [hnext, Plain.answer, if_neg hrefused]
      exact ⟨rfl, hf⟩

omit [Zero β] in
theorem removeDevice_ok (h : Keeps size maxBlocks disk s u) (hfree : ∀ k ∈ u.held, k.dev ≠ dev) :
    ∃ s', removeCachedDeviceBlocks s dev true = .ok (0, s') ∧
      Keeps size maxBlocks disk s' { u with limit := Function.update u.limit dev 0 } ∧
      Performs [] [] (cacheStore s) (cacheStore s') ∧ Stays s s' ∧
      ∀ k : Block, k.dev = dev → (cacheStore s').buf k = none := by
  obtain ⟨xs, hr⟩ := h.rests
  have hunlocked : ∀ k : Block, k.dev = dev → lockOf (cacheStore s) k = 0 := by
    intro k hk
    rw [h.locks.locks, List.count_eq_zero_of_not_mem fun hin => hfree k hin hk]
    rfl
  obtain ⟨s', hrun, hrests, hperforms, hmax, hlimit, hstays, hgone⟩ :=
    removeCachedDeviceBlocks_ok hr hunlocked
  have hlocks := h.locks.reaches hperforms.reaches []
  rw [serve_nothing] at hlocks
  refine ⟨s', hrun, ⟨hrests, hlocks, hperforms.reaches.ordered h.ordered, hmax.trans h.maxBlocks,
    ?_⟩, hperforms, hstays, hgone⟩
  rw [hlimit, h.limit]

theorem removeDevice_returns (h : Keeps size maxBlocks disk s u)
    (hfree : ∀ k ∈ u.held, k.dev ≠ dev) :
    Returns size maxBlocks disk s u (.removeDevice dev) := by
  obtain ⟨s', hrun, hkeeps, hperforms, hstays, -⟩ := removeDevice_ok h hfree
  refine ⟨⟨0, []⟩, s', ?_, hkeeps, hstays, recorded_reaches h hperforms.reaches rfl,
    fun hf _ => ⟨rfl, ?_⟩⟩
  · simp only [call, hrun, bind, Except.bind]
  · have hfollows := hf.performs hperforms
    rwa [serve_nothing] at hfollows

theorem read_returns (h : Keeps size maxBlocks disk s u)
    (hc : u.Inside size maxBlocks dev bnum n 0) :
    Returns size maxBlocks disk s u (.read dev bnum n) := by
  obtain ⟨r, s', hrun, hr, hserved⟩ := h.request ⟨.read, false, true⟩ (some []) false hc
    (fun hlocked => by cases hlocked) (fun hlocked => by cases hlocked)
    (fun hnone => by cases hnone)
    (fun hkind => by cases hkind) (fun hkind => by cases hkind)
    (fun hlocked => by rcases hlocked with hlocked | hlocked <;> cases hlocked)
  have hview : u.serve [] (locksOf ⟨.read, false, true⟩ dev bnum n) = u.toView := serve_nothing _
  have hkeeps := h.returned hr []
  rw [hview] at hkeeps
  refine ⟨⟨r.err, r.data⟩, s', ?_, hkeeps, hr.stays, recorded_reaches h hr.reaches rfl,
    fun hf hshort => ?_⟩
  · simp only [call, cachedRead, hrun, bind, Except.bind]
  · have hs := hserved hshort
    have hfollows := hf.performs hs.performs
    rw [show writesOf ⟨.read, false, true⟩ dev bnum (some []) n = [] from rfl, hview] at hfollows
    refine ⟨?_, hfollows⟩
    rw [hs.err, hs.answer _ hf.coherent]
    simp [copied, Plain.answer, newBlocks, View.mirror]

theorem write_returns (h : Keeps size maxBlocks disk s u) {vs : List β}
    (hc : u.Inside size maxBlocks dev bnum vs.length 0) :
    Returns size maxBlocks disk s u (.write dev bnum vs) := by
  obtain ⟨r, s', hrun, hr, hserved⟩ := h.request ⟨.write, false, false⟩ (some vs) false hc
    (fun hlocked => by cases hlocked) (fun hlocked => by cases hlocked)
    (fun hnone => by cases hnone)
    (fun _ => ⟨vs, rfl, le_rfl⟩) (fun hkind => by cases hkind)
    (fun hlocked => by rcases hlocked with hlocked | hlocked <;> cases hlocked)
  refine ⟨⟨r.err, r.data⟩, s', ?_, h.returned hr (numbered dev bnum vs), hr.stays,
    recorded_reaches h hr.reaches rfl, fun hf hshort => ?_⟩
  · simp only [call, cachedWrite, hrun, bind, Except.bind]
  · have hs := hserved hshort
    have hfollows := hf.performs hs.performs
    rw [writesOf_numbered rfl _ _ _ le_rfl, List.take_length] at hfollows
    refine ⟨?_, hfollows⟩
    rw [hs.err, hs.answer _ hf.coherent]
    rfl

theorem short_of_small (h : n < 64 * 1024) : n < 2 ^ 32 := h.trans (by norm_num)

theorem writeLocked_returns (h : Keeps size maxBlocks disk s u) {vs : List β}
    (hc : u.Inside size maxBlocks dev bnum vs.length vs.length)
    (hsmall : vs.length * size dev < 64 * 1024)
    (hcounts : ∀ k ∈ newBlocks dev bnum vs.length, u.held.count k + 1 < 2 ^ 31) :
    Returns size maxBlocks disk s u (.writeLocked dev bnum vs) := by
  obtain ⟨r, s', hrun, hr, hserved⟩ := h.request ⟨.write, true, false⟩ (some vs) false hc
    (fun _ => le_rfl) (fun _ => hcounts) (fun hnone => by cases hnone)
    (fun _ => ⟨vs, rfl, le_rfl⟩) (fun hkind => by cases hkind) (fun _ => hsmall)
  have hs := hserved (short_of_small hsmall)
  have hheld : ∀ k ∈ newBlocks dev bnum vs.length, HeldDirty (cacheStore s') k := by
    intro k hk
    obtain ⟨i, hi, rfl⟩ := mem_newBlocks.mp hk
    exact hs.held (by decide) rfl i hi
  refine ⟨⟨r.err, r.data⟩, s', ?_,
    (h.returned hr (numbered dev bnum vs)).mark (newBlocks dev bnum vs.length) hheld, hr.stays,
    recorded_reaches h hr.reaches rfl, fun hf _ => ?_⟩
  · simp only [call, cachedWriteLocked, hrun, bind, Except.bind]
  · have hfollows := hf.performs hs.performs
    rw [writesOf_numbered rfl _ _ _ le_rfl, List.take_length] at hfollows
    refine ⟨?_, hfollows.mark hheld⟩
    rw [hs.err, hs.answer _ hf.coherent]
    rfl

omit [Zero β] in
/-- The entry that a request returns has the contents of its block. -/
theorem pointed {v : View Block β Callback} (h : Follows (cacheStore s) v) {ce : ℕ}
    (hce : hashLookup s.ht ⟨dev, bnum⟩ = some ce) : (s.ents ce).data = v.blocks ⟨dev, bnum⟩ := by
  have hat := h.coherent ⟨dev, bnum⟩
  rw [show (cacheStore s).buf ⟨dev, bnum⟩ = _ from storeOn_buf hce] at hat
  exact hat.1

/-- `get_block` returns the entry of the block. -/
theorem get_points (h : Keeps size maxBlocks disk s u) (hc : u.Inside size maxBlocks dev bnum 1 1)
    (hsmall : size dev < 64 * 1024) (hcount : u.held.count ⟨dev, bnum⟩ + 1 < 2 ^ 31) :
    ∃ ce s', getBlock s dev bnum (size dev) = .ok (some ce, s') ∧
      hashLookup s'.ht ⟨dev, bnum⟩ = some ce ∧ Answered size maxBlocks disk s u (.get dev bnum)
        ⟨0, [(s'.ents ce).data]⟩ s' := by
  obtain ⟨r, s', hrun, hr, hserved⟩ := h.request ⟨.read, true, true⟩ none true hc (fun _ => le_rfl)
    (fun _ k hk => by
      obtain ⟨i, hi, rfl⟩ := mem_newBlocks.mp hk
      rwa [Nat.lt_one_iff.mp hi, Nat.cast_zero, add_zero])
    (fun _ => ⟨rfl, rfl⟩) (fun hkind => by cases hkind) (fun hkind => by cases hkind)
    (fun _ => by rwa [one_mul])
  have hs := hserved (short_of_small (by rwa [one_mul]))
  have hlocks : locksOf ⟨.read, true, true⟩ dev bnum 1 = [⟨dev, bnum⟩] := by simp [locksOf]
  have hkeeps := h.returned hr []
  rw [hlocks] at hkeeps
  obtain ⟨ce, hptr, hce⟩ := hs.dataptr rfl
  refine ⟨ce, s', ?_, hce, hkeeps, hr.stays, recorded_reaches h hr.reaches rfl, fun hf _ => ?_⟩
  · simp only [getBlock, hrun, bind, Except.bind, hs.err, hptr, ne_eq, not_true_eq_false, if_false]
  · have hfollows := hf.performs hs.performs
    rw [show writesOf ⟨.read, true, true⟩ dev bnum none 1 = [] from rfl, hlocks] at hfollows
    refine ⟨?_, hfollows⟩
    rw [pointed hfollows hce]
    rfl

theorem get_returns (h : Keeps size maxBlocks disk s u) (hc : u.Inside size maxBlocks dev bnum 1 1)
    (hsmall : size dev < 64 * 1024) (hcount : u.held.count ⟨dev, bnum⟩ + 1 < 2 ^ 31) :
    Returns size maxBlocks disk s u (.get dev bnum) := by
  obtain ⟨ce, s', hrun, -, hanswered⟩ := get_points h hc hsmall hcount
  refine ⟨_, s', ?_, hanswered⟩
  simp only [call, hrun, bind, Except.bind, Option.toList_some, List.map_cons, List.map_nil]

theorem getEmpty_returns (h : Keeps size maxBlocks disk s u)
    (hc : u.Inside size maxBlocks dev bnum 1 1) (hsmall : size dev < 64 * 1024)
    (hcount : u.held.count ⟨dev, bnum⟩ + 1 < 2 ^ 31) :
    Returns size maxBlocks disk s u (.getEmpty dev bnum) := by
  obtain ⟨r, s', hrun, hr, hserved⟩ := h.request ⟨.noop, true, false⟩ none true hc
    (fun _ => le_rfl)
    (fun _ k hk => by
      obtain ⟨i, hi, rfl⟩ := mem_newBlocks.mp hk
      rwa [Nat.lt_one_iff.mp hi, Nat.cast_zero, add_zero])
    (fun _ => ⟨rfl, rfl⟩) (fun hkind => by cases hkind) (fun _ => rfl) (fun _ => by rwa [one_mul])
  have hs := hserved (short_of_small (by rwa [one_mul]))
  have hlocks : locksOf ⟨.noop, true, false⟩ dev bnum 1 = [⟨dev, bnum⟩] := by simp [locksOf]
  have hwrites : writesOf ⟨.noop, true, false⟩ dev bnum (none : Option (List β)) 1 =
      [(⟨dev, bnum⟩, 0)] := by simp [writesOf, contents]
  have hheld : ∀ k ∈ [(⟨dev, bnum⟩ : Block)], HeldDirty (cacheStore s') k := by
    intro k hk
    rw [List.mem_singleton.mp hk]
    have hfirst := hs.held (by decide) rfl 0 zero_lt_one
    rwa [Nat.cast_zero, add_zero] at hfirst
  have hkeeps := h.returned hr [(⟨dev, bnum⟩, 0)]
  rw [hlocks] at hkeeps
  obtain ⟨ce, hptr, hce⟩ := hs.dataptr rfl
  refine ⟨⟨0, [(s'.ents ce).data]⟩, s', ?_, hkeeps.mark [⟨dev, bnum⟩] hheld, hr.stays,
    recorded_reaches h hr.reaches rfl, fun hf _ => ?_⟩
  · simp only [call, getEmptyBlock, hrun, bind, Except.bind, hs.err, hptr, ne_eq,
      not_true_eq_false, if_false, Option.toList_some, List.map_cons, List.map_nil]
  · have hfollows := hf.performs hs.performs
    rw [hwrites, hlocks] at hfollows
    refine ⟨?_, hfollows.mark hheld⟩
    rw [pointed hfollows hce]
    simp [View.serve, writeAll, Plain.answer]

/-- What a user does to blocks that he holds adds nothing to the record. -/
theorem became_answered (h : Keeps size maxBlocks disk s u) (hb : Became size acts s s')
    (hv : EveryStep View.act View.Careful u.toView acts) (hnext : u.next c = u.acts acts)
    (hanswer : u.answer c = ⟨0, []⟩) (hregisters : c.registers (cacheStore s) = [])
    (hsilent : ∀ a ∈ acts, ∀ t : Store Block β Callback, added t a = []) :
    Answered size maxBlocks disk s u c ⟨0, []⟩ s' where
  keeps := hnext ▸ h.became hb hv
  stays := stays_of_ht hb.ht
  recorded := by
    refine recorded_silent ?_ hregisters
    have hlog := runTrace_silent hsilent (cacheStore s)
    rw [hb.store] at hlog
    exact hlog
  answers hf _ := by
    rw [hanswer, hnext]
    exact ⟨rfl, hb.store ▸ hf.run hb.allowed hv⟩

theorem modify_returns (h : Keeps size maxBlocks disk s u) (x : β)
    (hc : (⟨dev, bnum⟩ : Block) ∈ u.held) :
    Returns size maxBlocks disk s u (.modify dev bnum x) := by
  obtain ⟨xs, hr⟩ := h.rests
  have hb := modifyBlock_ok hr x (h.locks.lock_pos.mpr hc)
  exact ⟨⟨0, []⟩, _, rfl, became_answered h hb ⟨trivial, trivial⟩ rfl rfl rfl
    (List.forall_mem_singleton.mpr fun _ => rfl)⟩

theorem release_returns (h : Keeps size maxBlocks disk s u)
    (hc : (⟨dev, bnum⟩ : Block) ∈ u.held)
    (howed : u.owed ⟨dev, bnum⟩ = true → 1 < u.held.count ⟨dev, bnum⟩) :
    Returns size maxBlocks disk s u (.release dev bnum) := by
  obtain ⟨xs, hr⟩ := h.rests
  obtain ⟨s', hrun, hb⟩ := releaseBlock_ok hr (h.locks.lock_pos.mpr hc)
  refine ⟨⟨0, []⟩, s', ?_, became_answered h hb ⟨howed, trivial⟩ rfl rfl rfl
    (List.forall_mem_singleton.mpr fun _ => rfl)⟩
  simp only [call, hrun, bind, Except.bind]

omit [Zero β] in
theorem marks_careful {ks : List Block} : ∀ v : View Block β Callback, (∀ k ∈ ks, k ∈ v.held) →
    EveryStep View.act View.Careful v (ks.map .mark) := by
  induction ks with
  | nil => exact fun _ _ => trivial
  | cons k ks ih =>
    exact fun v hks => ⟨hks k List.mem_cons_self,
      ih (v.act (.mark k)) fun k' hk' => hks k' (List.mem_cons_of_mem _ hk')⟩

theorem markDirty_returns (h : Keeps size maxBlocks disk s u)
    (hc : ∀ k ∈ newBlocks dev bnum n, k ∈ u.held) :
    Returns size maxBlocks disk s u (.markDirty dev bnum n) := by
  obtain ⟨xs, hr⟩ := h.rests
  obtain ⟨s', hrun, hb⟩ := markBlocksDirty_ok n hr fun i hi =>
    h.locks.lock_pos.mpr (hc _ (mem_newBlocks.mpr ⟨i, hi, rfl⟩))
  refine ⟨⟨0, []⟩, s', ?_, became_answered h hb (marks_careful _ hc) rfl rfl rfl fun a ha t => ?_⟩
  · simp only [call, hrun, bind, Except.bind]
  · obtain ⟨k, -, rfl⟩ := List.mem_map.mp ha
    rfl

omit [Zero β] in
theorem registers_careful {dev : ℤ} {f arg : ℕ} {blocks : List ℤ} (hnodup : blocks.Nodup) :
    ∀ v : View Block β Callback,
      (∀ b ∈ blocks, v.owed ⟨dev, b⟩ = true → 1 < v.held.count ⟨dev, b⟩) →
      EveryStep View.act View.Careful v
        (blocks.map fun b => .register ⟨dev, b⟩ ⟨f, b, arg⟩) := by
  induction blocks with
  | nil => exact fun _ _ => trivial
  | cons b blocks ih =>
    obtain ⟨hnot, hrest⟩ := List.nodup_cons.mp hnodup
    refine fun v hv => ⟨hv b List.mem_cons_self, ih hrest _ fun b' hb' howed => ?_⟩
    have hne : (⟨dev, b'⟩ : Block) ≠ ⟨dev, b⟩ := by
      intro heq
      obtain rfl := (Block.mk.inj heq).2
      exact hnot hb'
    have hmore := hv b' (List.mem_cons_of_mem _ hb') howed
    rw [← List.count_erase_of_ne hne] at hmore
    exact hmore

omit [Zero β] in
/-- A flush leaves the contents of the blocks that are cached. -/
theorem swept_view (hs : Swept size xs ents s s') {k : Block} {ce : ℕ}
    (hlook : hashLookup s.ht k = some ce) : view (cacheStore s') k = view (cacheStore s) k := by
  have hbuf : (cacheStore s).buf k = some (bufOf (s.ents ce)) := storeOn_buf hlook
  have hbuf' : (cacheStore s').buf k = some (bufOf (s'.ents ce)) :=
    storeOn_buf (hs.ht ▸ hlook)
  have hdata : (s'.ents ce).data = (s.ents ce).data := by rw [hs.kept ce]
  unfold view
  rw [hbuf, hbuf']
  exact hdata

/-- `set_blocks_info` panics over a block that is not dirty, and sets all the others aside. -/
theorem setInfo_returns (h : Keeps size maxBlocks disk s u) {blocks : List ℤ} (f arg : ℕ)
    (hnodup : blocks.Nodup) (hc : ∀ b ∈ blocks, ⟨dev, b⟩ ∈ u.held ∧
      (u.owed ⟨dev, b⟩ = true → 1 < u.held.count ⟨dev, b⟩)) :
    (∃ s', call size s (.setInfo dev blocks f arg) = .error (.infoNotDirty, s') ∧
        ¬u.Prepared (.setInfo dev blocks f arg)) ∨
      Returns size maxBlocks disk s u (.setInfo dev blocks f arg) := by
  obtain ⟨xs, hr⟩ := h.rests
  have hlocked : ∀ b ∈ blocks, 0 < lockOf (cacheStore s) ⟨dev, b⟩ := fun b hb =>
    h.locks.lock_pos.mpr (hc b hb).1
  by_cases hdirty : ∀ b ∈ blocks, HeldDirty (cacheStore s) ⟨dev, b⟩
  · refine .inr ?_
    obtain ⟨ents, s₁, s', hrun, hs, hb⟩ := setBlocksInfo_ok hr hnodup hdirty f arg
    have hcareful : EveryStep View.act View.Careful u.toView
        (blocks.map fun b => .register ⟨dev, b⟩ ⟨f, b, arg⟩) :=
      registers_careful hnodup _ fun b hb => (hc b hb).2
    refine ⟨⟨0, []⟩, s', ?_, (h.swept hs).became hb hcareful, stays_of_ht (hb.ht.trans hs.ht), ?_,
      fun hf _ => ⟨rfl, hb.store ▸ (follows_swept hf hs).run hb.allowed hcareful⟩⟩
    · simp only [call, hrun, bind, Except.bind]
    · obtain ⟨l, hl, hflushed, hnone⟩ := h.locks.logs hs.performs.reaches
      have hacts : (blocks.map fun b => (.register ⟨dev, b⟩ ⟨f, b, arg⟩ : Act Block β Callback)) =
          (blocks.map fun b => (⟨dev, b⟩ : Block)).map fun k => .register k ⟨f, k.bnum, arg⟩ := by
        rw [List.map_map]
        rfl
      have hallowed := hb.allowed
      rw [hacts] at hallowed
      have hregistered := registers_log (fun k : Block => (⟨f, k.bnum, arg⟩ : Callback)) _ hallowed
      rw [← hacts, hb.store, List.map_map] at hregistered
      have hlog : s'.log = s₁.log ++ blocks.map fun b =>
          .registered ⟨dev, b⟩ (view (cacheStore s) ⟨dev, b⟩) ⟨f, b, arg⟩ := by
        refine hregistered.trans (congrArg _ (List.map_congr_left fun b hb' => ?_))
        obtain ⟨ce, hlook, -⟩ := locked_entry hr (hlocked b hb')
        rw [Function.comp_apply, swept_view hs hlook]
      have hl₁ : s₁.log = s.log ++ l := hl
      rw [hl₁, List.append_assoc] at hlog
      refine ⟨_, hlog, fun k v lock ho => ?_, ?_⟩
      · rcases List.mem_append.mp ho with ho | ho
        · exact hflushed k v lock ho
        · obtain ⟨b, -, heq⟩ := List.mem_map.mp ho
          cases heq
      · rw [List.filterMap_append, hnone, List.nil_append, List.filterMap_map, Call.registers,
          ← List.filterMap_eq_map]
        rfl
  · simp only [not_forall] at hdirty
    obtain ⟨b, hb, hclean⟩ := hdirty
    obtain ⟨s', hrun⟩ := setBlocksInfo_stops hr hnodup hlocked ⟨b, hb, hclean⟩ f arg
    refine .inl ⟨s', ?_, fun hprepared => hclean (h.locks.marked _ (hprepared b hb))⟩
    simp only [call, hrun, bind, Except.bind]

/-- What a flush does is nothing to the users, but goes to the record. -/
theorem swept_answered (h : Keeps size maxBlocks disk s u) (hs : Swept size xs ents s s')
    (hnext : u.next c = u) (hanswer : u.answer c = ⟨0, []⟩)
    (hregisters : c.registers (cacheStore s) = []) :
    Answered size maxBlocks disk s u c ⟨0, []⟩ s' where
  keeps := hnext.symm ▸ h.swept hs
  stays := stays_of_ht hs.ht
  recorded := recorded_reaches h hs.performs.reaches hregisters
  answers hf _ := by
    rw [hanswer, hnext]
    exact ⟨rfl, follows_swept hf hs⟩

theorem flushBlocks_returns (h : Keeps size maxBlocks disk s u) (dev bnum : ℤ) (n : ℕ) :
    Returns size maxBlocks disk s u (.flushBlocks dev bnum n) := by
  obtain ⟨xs, hr⟩ := h.rests
  obtain ⟨s', ents, hrun, hs, -⟩ := flushBlocks_swept hr dev bnum n
  refine ⟨⟨0, []⟩, s', ?_, swept_answered h hs rfl rfl rfl⟩
  simp only [call, hrun, bind, Except.bind]

theorem flushDevice_returns (h : Keeps size maxBlocks disk s u) (dev : ℤ) :
    Returns size maxBlocks disk s u (.flushDevice dev) := by
  obtain ⟨xs, hr⟩ := h.rests
  obtain ⟨s', ents, hrun, hs, -⟩ := flushDevice_swept dev hr (Nat.lt_succ_self _)
  refine ⟨⟨0, []⟩, s', ?_, swept_answered h hs rfl rfl rfl⟩
  simp only [call, hrun, bind, Except.bind]

theorem forceFlush_returns (h : Keeps size maxBlocks disk s u) (dev : ℤ) (prefer : Bool) :
    Returns size maxBlocks disk s u (.forceFlush dev prefer) := by
  obtain ⟨xs, hr⟩ := h.rests
  obtain ⟨ents, hs⟩ := forceCacheFlush_swept hr dev prefer
  exact ⟨⟨0, []⟩, _, rfl, swept_answered h hs rfl rfl rfl⟩

theorem flusher_returns (h : Keeps size maxBlocks disk s u) (recent : Bool) :
    Returns size maxBlocks disk s u (.flusher recent) := by
  obtain ⟨xs, hr⟩ := h.rests
  obtain ⟨ents, hs⟩ := cacheFlusher_swept hr recent
  exact ⟨⟨0, []⟩, _, rfl, swept_answered h hs rfl rfl rfl⟩

/-- Every call that the plain device permits returns, but for a registration of what is not
dirty. -/
theorem call_returns (h : Keeps size maxBlocks disk s u) (hc : u.Permitted size maxBlocks c)
    (hcount : u.Counted c) :
    (∃ s', call size s c = .error (.infoNotDirty, s') ∧ ¬u.Prepared c) ∨
      Returns size maxBlocks disk s u c := by
  cases c with
  | initDevice dev limit => exact .inr (initDevice_returns h limit)
  | removeDevice dev => exact .inr (removeDevice_returns h hc.2.2)
  | read dev bnum n => exact .inr (read_returns h hc)
  | write dev bnum vs => exact .inr (write_returns h hc)
  | writeLocked dev bnum vs => exact .inr (writeLocked_returns h hc.1 hc.2 hcount)
  | get dev bnum => exact .inr (get_returns h hc.1 hc.2 hcount)
  | getEmpty dev bnum => exact .inr (getEmpty_returns h hc.1 hc.2 hcount)
  | modify dev bnum x => exact .inr (modify_returns h x hc)
  | markDirty dev bnum n => exact .inr (markDirty_returns h hc)
  | setInfo dev blocks f arg => exact setInfo_returns h f arg hc.1 hc.2
  | release dev bnum => exact .inr (release_returns h hc.1 hc.2)
  | flushBlocks dev bnum n => exact .inr (flushBlocks_returns h dev bnum n)
  | flushDevice dev => exact .inr (flushDevice_returns h dev)
  | forceFlush dev prefer => exact .inr (forceFlush_returns h dev prefer)
  | flusher recent => exact .inr (flusher_returns h recent)

end Answers

section Runs
variable [Zero β] {size : ℤ → ℕ} {maxBlocks : ℕ} {disk : Block → β} {s s' : Cache β} {u : Plain β}
  {c : Call β} {cs cs' : List (Call β)} {as : List (Answer β)}

def Plain.answers (u : Plain β) : List (Call β) → List (Answer β)
  | [] => []
  | c :: cs => u.answer c :: (u.next c).answers cs

/-- Every call of the run is one that the plain device permits. -/
def Permits (size : ℤ → ℕ) (maxBlocks : ℕ) (u : Plain β) (cs : List (Call β)) : Prop :=
  EveryStep Plain.next (Plain.Permitted size maxBlocks) u cs

/-- Only blocks that have been marked as dirty are registered. -/
def Prepares (u : Plain β) (cs : List (Call β)) : Prop := EveryStep Plain.next Plain.Prepared u cs

/-- No block is ever locked 2^31 times. -/
def Counts (u : Plain β) (cs : List (Call β)) : Prop := EveryStep Plain.next Plain.Counted u cs

omit [Zero β] in
/-- No request is for 4 GB or more. -/
def Shorts (size : ℤ → ℕ) (cs : List (Call β)) : Prop := ∀ c ∈ cs, c.Short size

instance : Decidable (Permits size maxBlocks u cs) := EveryStep.decidable u cs

instance : Decidable (Prepares u cs) := EveryStep.decidable u cs

instance : Decidable (Counts u cs) := EveryStep.decidable u cs

instance : Decidable (Shorts size cs) := inferInstanceAs (Decidable (∀ c ∈ cs, c.Short size))

theorem runCalls_append (cs cs' : List (Call β)) (s : Cache β) :
    runCalls size (cs ++ cs') s = (runCalls size cs s).bind fun p =>
      (runCalls size cs' p.2).bind fun q => .ok (p.1 ++ q.1, q.2) := by
  induction cs generalizing s with
  | nil =>
    rw [List.nil_append, runCalls]
    simp only [Except.bind, List.nil_append]
    cases runCalls size cs' s <;> rfl
  | cons c cs ih =>
    rw [List.cons_append, runCalls, runCalls]
    cases call size s c with
    | error e => rfl
    | ok p =>
      simp only [bind, Except.bind, ih]
      cases runCalls size cs p.2 with
      | error e => rfl
      | ok q =>
        simp only
        cases runCalls size cs' q.2 <;> rfl

/-- A run that the plain device permits goes to its end, or to a registration of what is not
dirty. -/
theorem run_keeps (h : Keeps size maxBlocks disk s u) (hcs : Permits size maxBlocks u cs)
    (hcounts : Counts u cs) :
    (∃ s', runCalls size cs s = .error (.infoNotDirty, s') ∧ ¬Prepares u cs) ∨
      ∃ as s', runCalls size cs s = .ok (as, s') ∧
        Keeps size maxBlocks disk s' (runTrace Plain.next u cs) := by
  induction cs generalizing s u with
  | nil => exact .inr ⟨[], s, rfl, h⟩
  | cons c cs ih =>
    rcases call_returns h hcs.1 hcounts.1 with ⟨s₁, hcall, hnot⟩ | ⟨a, s₁, hcall, hanswered⟩
    · refine .inl ⟨s₁, ?_, fun hprepares => hnot hprepares.1⟩
      simp only [runCalls, hcall, bind, Except.bind]
    · rcases ih hanswered.keeps hcs.2 hcounts.2 with ⟨s', hrun, hnot⟩ | ⟨as, s', hrun, hkeeps⟩
      · refine .inl ⟨s', ?_, fun hprepares => hnot hprepares.2⟩
        simp only [runCalls, hcall, bind, Except.bind, hrun]
      · refine .inr ⟨a :: as, s', ?_, hkeeps⟩
        simp only [runCalls, hcall, bind, Except.bind, hrun]

theorem run_prepared (h : Keeps size maxBlocks disk s u) (hcs : Permits size maxBlocks u cs)
    (hprepares : Prepares u cs) (hcounts : Counts u cs) :
    ∃ as s', runCalls size cs s = .ok (as, s') ∧
      Keeps size maxBlocks disk s' (runTrace Plain.next u cs) :=
  (run_keeps h hcs hcounts).resolve_left fun ⟨_, _, hnot⟩ => hnot hprepares

theorem call_answers (h : Tracks size maxBlocks disk s u) (hc : u.Permitted size maxBlocks c)
    (hprepared : u.Prepared c) (hcounted : u.Counted c) (hshort : c.Short size) :
    ∃ s', call size s c = .ok (u.answer c, s') ∧ Tracks size maxBlocks disk s' (u.next c) ∧
      Stays s s' := by
  obtain ⟨a, s', hcall, hanswered⟩ :=
    (call_returns h.toKeeps hc hcounted).resolve_left fun ⟨_, _, hnot⟩ => hnot hprepared
  obtain ⟨rfl, hfollows⟩ := hanswered.answers h.follows hshort
  exact ⟨s', hcall, ⟨hanswered.keeps, hfollows⟩, hanswered.stays⟩

/-- Where no request is for 4 GB or more, the run is answered as the plain device answers it. -/
theorem run_answers (h : Tracks size maxBlocks disk s u) (hcs : Permits size maxBlocks u cs)
    (hprepares : Prepares u cs) (hcounts : Counts u cs) (hshorts : Shorts size cs) :
    ∃ s', runCalls size cs s = .ok (u.answers cs, s') ∧
      Tracks size maxBlocks disk s' (runTrace Plain.next u cs) := by
  induction cs generalizing s u with
  | nil => exact ⟨s, rfl, h⟩
  | cons c cs ih =>
    obtain ⟨hshort, hrest⟩ := List.forall_mem_cons.mp hshorts
    obtain ⟨s₁, hcall, htracks, -⟩ := call_answers h hcs.1 hprepares.1 hcounts.1 hshort
    obtain ⟨s', hrun, htracks'⟩ := ih htracks hcs.2 hprepares.2 hcounts.2 hrest
    refine ⟨s', ?_, htracks'⟩
    simp only [runCalls, hcall, bind, Except.bind, hrun, Plain.answers]

/-- A block that is locked all the time keeps its entry. -/
theorem run_stays (h : Tracks size maxBlocks disk s u) (hcs : Permits size maxBlocks u cs)
    (hprepares : Prepares u cs) (hcounts : Counts u cs) (hshorts : Shorts size cs) {k : Block}
    {ce : ℕ} (hheld : EveryState Plain.next (fun u => k ∈ u.held) u cs)
    (hlook : hashLookup s.ht k = some ce) (hrun : runCalls size cs s = .ok (as, s')) :
    hashLookup s'.ht k = some ce := by
  induction cs generalizing s u as with
  | nil =>
    cases hrun
    exact hlook
  | cons c cs ih =>
    obtain ⟨hshort, hrest⟩ := List.forall_mem_cons.mp hshorts
    obtain ⟨s₁, hcall, htracks, hstays⟩ := call_answers h hcs.1 hprepares.1 hcounts.1 hshort
    simp only [runCalls, hcall, bind, Except.bind] at hrun
    obtain ⟨⟨as₁, s₂⟩, hafter, hend⟩ := FallibleRuns.bind_ok hrun
    cases hend
    exact ih htracks hcs.2 hprepares.2 hcounts.2 hrest hheld.2
      (hstays k ce (h.locks.lock_pos.mpr hheld.1) hlook) hafter

/-- Devices that nobody has used yet. -/
def Plain.initial (disk : Block → β) : Plain β :=
  ⟨⟨disk, fun _ => false, fun _ => false, []⟩, fun _ => 0⟩

/-- The cache as `init_block_cache` leaves it, over devices that take and give everything. -/
def newCache (maxBlocks : ℕ) (junk : β) (disk : Block → β) : Cache β :=
  initBlockCache maxBlocks junk disk fun _ => true

variable {junk : β}

omit [Zero β] in
theorem newCache_rests : Rests size (newCache maxBlocks junk disk) fun _ => [] := by
  have hnone : ∀ ce, ¬Listed (fun _ => []) ce := fun _ hce => hce.elim fun _ => List.not_mem_nil
  refine ⟨⟨⟨⟨fun _ => .nil, fun hi _ => (List.not_mem_nil hi).elim⟩, fun ce hce => ?_,
    fun _ _ hce => (List.not_mem_nil hce).elim, List.nodup_nil,
    fun _ hce => (List.not_mem_nil hce).elim, rfl⟩, fun ce hce => (hnone ce hce).elim,
    fun ce hce => (hnone ce hce).elim, ⟨initTable_wf 7, fun b ce => ?_⟩, Nat.zero_le _⟩,
    fun ce hce => (hnone ce hce).elim, fun ce hce => (hnone ce hce).elim,
    fun ce hce => (hnone ce hce).elim, fun _ _ => rfl⟩
  · exact (hce.elim (hnone ce) List.not_mem_nil).elim
  · constructor
    · intro hlook
      simp [newCache, initBlockCache, hashLookup] at hlook
    · exact fun hce => (hnone ce hce.1).elim

omit [Zero β] in
theorem newCache_tracks (maxBlocks : ℕ) (junk : β) (disk : Block → β) :
    Tracks size maxBlocks disk (newCache maxBlocks junk disk) (Plain.initial disk) := by
  have hbuf : ∀ k, (cacheStore (newCache maxBlocks junk disk)).buf k = none := fun k =>
    storeOn_none (by simp [newCache, initBlockCache, hashLookup])
  have hlocks : Locks (cacheStore (newCache maxBlocks junk disk)) (Plain.initial disk).toView := by
    refine ⟨fun k => ?_, fun k hk => by cases hk⟩
    rw [lockOf, hbuf]
    rfl
  refine ⟨⟨⟨_, newCache_rests⟩, hlocks, ⟨fun k => ?_, fun _ _ _ ho => (List.not_mem_nil ho).elim,
    rfl⟩, rfl, rfl⟩, hlocks, fun k => ?_⟩
  · rw [hbuf]
    exact .nil
  · rw [hbuf]
    exact ⟨rfl, rfl⟩

end Runs

end CacheRuns
