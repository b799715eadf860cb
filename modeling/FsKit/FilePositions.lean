import Mathlib.Tactic
import FsKit.DescriptorTable

/-! Reading, writing and seeking on a descriptor (`kernel.c`). Counts, positions and errors
share the return value. The table is the one that the flag `kernel` selects, and the hooks
`read` and `write` are there; what the hooks answer comes with the call. -/
namespace FilePositions

open DescriptorTable TransitionTrace

def EINVAL : ℤ := 22

/-- From the system's headers. -/
def O_RDONLY : BitVec 32 := 0
def O_WRONLY : BitVec 32 := 1
def O_RDWR : BitVec 32 := 2
def O_APPEND : BitVec 32 := 0x400
def OMODE_MASK : BitVec 32 := O_RDONLY ||| O_WRONLY ||| O_RDWR

def SEEK_SET : ℤ := 0
def SEEK_CUR : ℤ := 1
def SEEK_END : ℤ := 2

inductive Direction where
  | read
  | write
  deriving DecidableEq, Repr

/-- A `read` or `write` hook that succeeded: where it was sent, with how much room, and the
amount it reported. -/
structure Transfer where
  direction : Direction
  file : ℕ
  pos : BitVec 64
  len : BitVec 64
  amount : BitVec 64
  deriving DecidableEq, Repr

structure Sys where
  files : Files
  pos : ℕ → BitVec 64
  omode : ℕ → BitVec 32
  transfers : List Transfer

/-- The error of a `read` or `write` hook, and the amount that it leaves in `sz`. -/
structure Answer where
  err : ℤ
  sz : BitVec 64
  deriving DecidableEq, Repr

/-- The error of an `rstat` hook, and the size that it reports. -/
structure Stat where
  err : ℤ
  size : BitVec 64
  deriving DecidableEq, Repr

def setPos (s : Sys) (f : ℕ) (pos : BitVec 64) : Sys :=
  { s with pos := Function.update s.pos f pos }

def release (s : Sys) (f : ℕ) : Sys := { s with files := putFd s.files f }

/-- `sys_read` and `sys_write` differ in the hook and in the mode that shuts it. -/
def sysTransfer (direction : Direction) (shut : BitVec 32) (s : Sys) (fd : ℤ) (len : BitVec 64)
    (a : Answer) : ℤ × Sys :=
  match getFd s.files fd FD_FILE with
  | (none, files) => (EBADF, { s with files := files })
  | (some f, files) =>
    let s := { s with files := files }
    if s.omode f &&& OMODE_MASK = shut then (EBADF, release s f)
    else if a.err ≠ 0 then (a.err, release s f)
    else
      let s := { s with transfers := s.transfers ++ [⟨direction, f, s.pos f, len, a.sz⟩] }
      (a.sz.toInt, release (setPos s f (s.pos f + a.sz)) f)

def sysRead : Sys → ℤ → BitVec 64 → Answer → ℤ × Sys := sysTransfer .read O_WRONLY

def sysWrite : Sys → ℤ → BitVec 64 → Answer → ℤ × Sys := sysTransfer .write O_RDONLY

/-- The position that is `pos` behind the end of the file. -/
def pastEnd (pos : BitVec 64) : Option Stat → Except ℤ (BitVec 64)
  | none => .error EINVAL
  | some st => if st.err ≠ 0 then .error st.err else .ok (pos + st.size)

/-- Where a seek wants to go; `old` is the position before. -/
def seekTarget (old : BitVec 64) (omode : BitVec 32) (pos : BitVec 64) (whence : ℤ)
    (rstat : Option Stat) : Except ℤ (BitVec 64) :=
  if whence = SEEK_SET then .ok pos
  else if whence = SEEK_CUR then
    if omode &&& O_APPEND = 0 then .ok (old + pos) else pastEnd pos rstat
  else if whence = SEEK_END then pastEnd pos rstat
  else .error EINVAL

/-- A file system without an `rstat` hook answers `none`. -/
def sysLseek (s : Sys) (fd : ℤ) (pos : BitVec 64) (whence : ℤ) (rstat : Option Stat) : ℤ × Sys :=
  match getFd s.files fd FD_FILE with
  | (none, files) => (EBADF, { s with files := files })
  | (some f, files) =>
    let s := { s with files := files }
    match seekTarget (s.pos f) (s.omode f) pos whence rstat with
    | .error err => (err, release s f)
    | .ok target =>
      if target.toInt < 0 then (EINVAL, release (setPos s f 0) f)
      else (target.toInt, release (setPos s f target) f)

inductive FileCall where
  | read (len : BitVec 64) (a : Answer)
  | write (len : BitVec 64) (a : Answer)
  | lseek (pos : BitVec 64) (whence : ℤ) (rstat : Option Stat)
  deriving DecidableEq, Repr

def exec (fd : ℤ) (s : Sys) : FileCall → ℤ × Sys
  | .read len a => sysRead s fd len a
  | .write len a => sysWrite s fd len a
  | .lseek pos whence rstat => sysLseek s fd pos whence rstat

def next (fd : ℤ) (s : Sys) (c : FileCall) : Sys := (exec fd s c).2

/-- The open file behind a descriptor. -/
def fileOf (s : Sys) (fd : ℤ) : Option ℕ := (getFd s.files fd FD_FILE).1

section Outcomes
variable {s : Sys} {fd : ℤ} {f : ℕ} {direction : Direction} {shut : BitVec 32} {len : BitVec 64}
  {a : Answer}

/-- Nothing but the counts of open files is different. -/
structure SameFiles (s s' : Sys) : Prop where
  table : s'.files.table = s.files.table
  type : ∀ f, (s'.files.ofile f).type = (s.files.ofile f).type
  omode : s'.omode = s.omode

theorem SameFiles.fileOf {s s' : Sys} (h : SameFiles s s') (fd : ℤ) :
    fileOf s' fd = FilePositions.fileOf s fd := by
  unfold FilePositions.fileOf getFd
  rw [h.table]
  split
  · split
    · rfl
    · rw [h.type]
      split <;> rfl
  · rfl

theorem addRcnt_type (files : Files) (g : ℕ) (val : ℤ) (f : ℕ) :
    ((addRcnt files g val).2.ofile f).type = (files.ofile f).type := by
  unfold addRcnt
  by_cases hf : f = g
  · subst hf
    simp
  · simp [hf]

theorem getFd_same (s : Sys) (fd : ℤ) :
    SameFiles s { s with files := (getFd s.files fd FD_FILE).2 } := by
  unfold getFd
  split
  · split
    · exact ⟨rfl, fun _ => rfl, rfl⟩
    · split
      · exact ⟨rfl, fun f => addRcnt_type s.files _ 1 f, rfl⟩
      · exact ⟨rfl, fun _ => rfl, rfl⟩
  · exact ⟨rfl, fun _ => rfl, rfl⟩

theorem release_same (s : Sys) (f : ℕ) : SameFiles s (release s f) := by
  unfold release putFd
  dsimp only
  split
  · exact ⟨rfl, fun g => addRcnt_type s.files f (-1) g, rfl⟩
  · exact ⟨rfl, fun g => addRcnt_type s.files f (-1) g, rfl⟩

/-- What a call leaves besides the counts of the open file. -/
structure Leaves (s s' : Sys) (pos : ℕ → BitVec 64) (transfers : List Transfer) : Prop where
  same : SameFiles s s'
  pos : s'.pos = pos
  transfers : s'.transfers = transfers

theorem SameFiles.trans {s s' s'' : Sys} (h : SameFiles s s') (h' : SameFiles s' s'') :
    SameFiles s s'' where
  table := h'.table.trans h.table
  type f := (h'.type f).trans (h.type f)
  omode := h'.omode.trans h.omode

theorem sysTransfer_closed (direction : Direction) (shut : BitVec 32) (len : BitVec 64)
    (a : Answer) (h : fileOf s fd = none) :
    (sysTransfer direction shut s fd len a).1 = EBADF ∧
      Leaves s (sysTransfer direction shut s fd len a).2 s.pos s.transfers := by
  have hsame := getFd_same s fd
  unfold fileOf at h
  unfold sysTransfer
  rcases hget : getFd s.files fd FD_FILE with ⟨g, files⟩
  rw [hget] at h hsame
  cases h
  exact ⟨rfl, hsame, rfl, rfl⟩

theorem sysTransfer_open (direction : Direction) (shut : BitVec 32) (len : BitVec 64) (a : Answer)
    (h : fileOf s fd = some f) :
    ∃ files, SameFiles s { s with files := files } ∧ sysTransfer direction shut s fd len a =
      if s.omode f &&& OMODE_MASK = shut then (EBADF, release { s with files := files } f)
      else if a.err ≠ 0 then (a.err, release { s with files := files } f)
      else (a.sz.toInt, release (setPos { s with
        files := files
        transfers := s.transfers ++ [⟨direction, f, s.pos f, len, a.sz⟩] } f
          (s.pos f + a.sz)) f) := by
  have hsame := getFd_same s fd
  unfold fileOf at h
  unfold sysTransfer
  rcases hget : getFd s.files fd FD_FILE with ⟨g, files⟩
  rw [hget] at h hsame
  cases h
  exact ⟨files, hsame, rfl⟩

/-- The open file is written only or read only, or the hook reports an error. -/
theorem sysTransfer_refused (direction : Direction) (len : BitVec 64) (h : fileOf s fd = some f)
    (href : s.omode f &&& OMODE_MASK = shut ∨ a.err ≠ 0) :
    (sysTransfer direction shut s fd len a).1 =
        (if s.omode f &&& OMODE_MASK = shut then EBADF else a.err) ∧
      Leaves s (sysTransfer direction shut s fd len a).2 s.pos s.transfers := by
  obtain ⟨files, hsame, heq⟩ := sysTransfer_open direction shut len a h
  rw [heq]
  have hrel := hsame.trans (release_same _ f)
  split
  · exact ⟨rfl, hrel, rfl, rfl⟩
  · rename_i hmode
    rw [if_pos (href.resolve_left hmode)]
    exact ⟨rfl, hrel, rfl, rfl⟩

theorem sysTransfer_done (direction : Direction) (len : BitVec 64) (h : fileOf s fd = some f)
    (hmode : s.omode f &&& OMODE_MASK ≠ shut) (herr : a.err = 0) :
    (sysTransfer direction shut s fd len a).1 = a.sz.toInt ∧
      Leaves s (sysTransfer direction shut s fd len a).2
        (Function.update s.pos f (s.pos f + a.sz))
        (s.transfers ++ [⟨direction, f, s.pos f, len, a.sz⟩]) := by
  obtain ⟨files, hsame, heq⟩ := sysTransfer_open direction shut len a h
  rw [heq, if_neg hmode, if_neg (not_not.mpr herr)]
  have hset : SameFiles s (setPos { s with
      files := files
      transfers := s.transfers ++ [⟨direction, f, s.pos f, len, a.sz⟩] } f (s.pos f + a.sz)) :=
    ⟨hsame.table, hsame.type, hsame.omode⟩
  exact ⟨rfl, hset.trans (release_same _ f), rfl, rfl⟩

section Seeks
variable {pos target : BitVec 64} {whence err : ℤ} {rstat : Option Stat}

theorem sysLseek_closed (pos : BitVec 64) (whence : ℤ) (rstat : Option Stat)
    (h : fileOf s fd = none) :
    (sysLseek s fd pos whence rstat).1 = EBADF ∧
      Leaves s (sysLseek s fd pos whence rstat).2 s.pos s.transfers := by
  have hsame := getFd_same s fd
  unfold fileOf at h
  unfold sysLseek
  rcases hget : getFd s.files fd FD_FILE with ⟨g, files⟩
  rw [hget] at h hsame
  cases h
  exact ⟨rfl, hsame, rfl, rfl⟩

theorem sysLseek_open (pos : BitVec 64) (whence : ℤ) (rstat : Option Stat)
    (h : fileOf s fd = some f) :
    ∃ files, SameFiles s { s with files := files } ∧ sysLseek s fd pos whence rstat =
      match seekTarget (s.pos f) (s.omode f) pos whence rstat with
      | .error err => (err, release { s with files := files } f)
      | .ok target =>
        if target.toInt < 0 then (EINVAL, release (setPos { s with files := files } f 0) f)
        else (target.toInt, release (setPos { s with files := files } f target) f) := by
  have hsame := getFd_same s fd
  unfold fileOf at h
  unfold sysLseek
  rcases hget : getFd s.files fd FD_FILE with ⟨g, files⟩
  rw [hget] at h hsame
  cases h
  exact ⟨files, hsame, rfl⟩

theorem sysLseek_refused (h : fileOf s fd = some f)
    (ht : seekTarget (s.pos f) (s.omode f) pos whence rstat = .error err) :
    (sysLseek s fd pos whence rstat).1 = err ∧
      Leaves s (sysLseek s fd pos whence rstat).2 s.pos s.transfers := by
  obtain ⟨files, hsame, heq⟩ := sysLseek_open pos whence rstat h
  rw [heq, ht]
  exact ⟨rfl, hsame.trans (release_same _ f), rfl, rfl⟩

theorem sysLseek_negative (h : fileOf s fd = some f)
    (ht : seekTarget (s.pos f) (s.omode f) pos whence rstat = .ok target)
    (hneg : target.toInt < 0) :
    (sysLseek s fd pos whence rstat).1 = EINVAL ∧
      Leaves s (sysLseek s fd pos whence rstat).2 (Function.update s.pos f 0) s.transfers := by
  obtain ⟨files, hsame, heq⟩ := sysLseek_open pos whence rstat h
  rw [heq, ht]
  dsimp only
  rw [if_pos hneg]
  have hset : SameFiles s (setPos { s with files := files } f 0) :=
    ⟨hsame.table, hsame.type, hsame.omode⟩
  exact ⟨rfl, hset.trans (release_same _ f), rfl, rfl⟩

theorem sysLseek_done (h : fileOf s fd = some f)
    (ht : seekTarget (s.pos f) (s.omode f) pos whence rstat = .ok target)
    (hpos : 0 ≤ target.toInt) :
    (sysLseek s fd pos whence rstat).1 = target.toInt ∧
      Leaves s (sysLseek s fd pos whence rstat).2 (Function.update s.pos f target)
        s.transfers := by
  obtain ⟨files, hsame, heq⟩ := sysLseek_open pos whence rstat h
  rw [heq, ht]
  dsimp only
  rw [if_neg (by omega)]
  have hset : SameFiles s (setPos { s with files := files } f target) :=
    ⟨hsame.table, hsame.type, hsame.omode⟩
  exact ⟨rfl, hset.trans (release_same _ f), rfl, rfl⟩

end Seeks

end Outcomes

section Trust

/-- The hook took or gave exactly `n` bytes at the old position, which has moved on by `n`. -/
def Moved (direction : Direction) (len : BitVec 64) (s s' : Sys) (f : ℕ) (n : ℤ) : Prop :=
  (s'.pos f).toInt = (s.pos f).toInt + n ∧ ∃ amount : BitVec 64, (amount.toNat : ℤ) = n ∧
    s'.transfers = s.transfers ++ [⟨direction, f, s.pos f, len, amount⟩]

/-- The descriptor is bad, the open mode is wrong, or the file system reports an error. -/
def TransferFails (shut : BitVec 32) (s : Sys) (fd : ℤ) (a : Answer) : Prop :=
  ∀ f, fileOf s fd = some f → s.omode f &&& OMODE_MASK = shut ∨ a.err ≠ 0

structure TransferTrusted (direction : Direction) (shut : BitVec 32) (s : Sys) (fd : ℤ)
    (len : BitVec 64) (a : Answer) : Prop where
  counted : 0 ≤ (sysTransfer direction shut s fd len a).1 → ∃ f, fileOf s fd = some f ∧
    Moved direction len s (sysTransfer direction shut s fd len a).2 f
      (sysTransfer direction shut s fd len a).1
  negative : (sysTransfer direction shut s fd len a).1 < 0 →
    (sysTransfer direction shut s fd len a).2.pos = s.pos
  failed : TransferFails shut s fd a → (sysTransfer direction shut s fd len a).1 < 0 ∧
    (sysTransfer direction shut s fd len a).2.pos = s.pos

def SeekFails (s : Sys) (fd : ℤ) (pos : BitVec 64) (whence : ℤ) (rstat : Option Stat) : Prop :=
  ∀ f target, fileOf s fd = some f →
    seekTarget (s.pos f) (s.omode f) pos whence rstat = .ok target → target.toInt < 0

structure SeekTrusted (s : Sys) (fd : ℤ) (pos : BitVec 64) (whence : ℤ)
    (rstat : Option Stat) : Prop where
  counted : 0 ≤ (sysLseek s fd pos whence rstat).1 → ∃ f, fileOf s fd = some f ∧
    ((sysLseek s fd pos whence rstat).2.pos f).toInt = (sysLseek s fd pos whence rstat).1
  negative : (sysLseek s fd pos whence rstat).1 < 0 →
    (sysLseek s fd pos whence rstat).2.pos = s.pos
  failed : SeekFails s fd pos whence rstat → (sysLseek s fd pos whence rstat).2.pos = s.pos

/-- The result of a call can be taken for what it says. -/
def Trusted (fd : ℤ) (s : Sys) : FileCall → Prop
  | .read len a => TransferTrusted .read O_WRONLY s fd len a
  | .write len a => TransferTrusted .write O_RDONLY s fd len a
  | .lseek pos whence rstat => SeekTrusted s fd pos whence rstat

/-- The descriptor and the mode are right, and the error of the hook is negative, or the hook
succeeds with an amount that fits. -/
def TransferClear (shut : BitVec 32) (s : Sys) (fd : ℤ) (a : Answer) : Prop :=
  ∃ f, fileOf s fd = some f ∧ s.omode f &&& OMODE_MASK ≠ shut ∧
    (a.err < 0 ∨ a.err = 0 ∧ a.sz.toNat < 2 ^ 63 ∧ (s.pos f).toInt + a.sz.toNat < 2 ^ 63)

/-- The descriptor is right, and the seek goes to a position that is not negative, or fails with
an error that is negative or happens to be the position. -/
def SeekClear (s : Sys) (fd : ℤ) (pos : BitVec 64) (whence : ℤ) (rstat : Option Stat) : Prop :=
  ∃ f, fileOf s fd = some f ∧
    match seekTarget (s.pos f) (s.omode f) pos whence rstat with
    | .error err => err < 0 ∨ err = (s.pos f).toInt
    | .ok target => 0 ≤ target.toInt

def Clear (fd : ℤ) (s : Sys) : FileCall → Prop
  | .read _ a => TransferClear O_WRONLY s fd a
  | .write _ a => TransferClear O_RDONLY s fd a
  | .lseek pos whence rstat => SeekClear s fd pos whence rstat

variable {s : Sys} {fd : ℤ} {f : ℕ} {direction : Direction} {shut : BitVec 32} {len : BitVec 64}
  {a : Answer}

/-- The position moves on by the amount that is returned exactly if both fit. -/
theorem moves_iff (p sz : BitVec 64) :
    0 ≤ sz.toInt ∧ (p + sz).toInt = p.toInt + sz.toInt ↔
      sz.toNat < 2 ^ 63 ∧ p.toInt + sz.toNat < 2 ^ 63 := by
  have hp := p.isLt
  have hsz := sz.isLt
  rw [BitVec.toInt_eq_toNat_cond (p + sz), BitVec.toNat_add, BitVec.toInt_eq_toNat_cond sz,
    BitVec.toInt_eq_toNat_cond p]
  split <;> split <;> split <;> omega

theorem moved_ne {p sz : BitVec 64} (h : sz.toInt < 0) : p + sz ≠ p := by
  intro heq
  have hzero : sz = 0 := by simpa using heq
  rw [hzero] at h
  exact absurd h (by decide)

theorem toInt_eq_toNat {sz : BitVec 64} (h : 0 ≤ sz.toInt) : (sz.toNat : ℤ) = sz.toInt := by
  have hsz := sz.isLt
  rw [BitVec.toInt_eq_toNat_cond] at h ⊢
  split at h
  · rename_i hlt
    rw [if_pos hlt]
  · omega

theorem transfer_trusted_iff :
    TransferTrusted direction shut s fd len a ↔ TransferClear shut s fd a := by
  rcases hfile : fileOf s fd with _ | f
  · obtain ⟨hres, -⟩ :=
      sysTransfer_closed direction shut len a hfile
    constructor
    · intro h
      have hneg := (h.failed fun f hf => by rw [hfile] at hf; cases hf).1
      rw [hres] at hneg
      exact absurd hneg (by decide)
    · rintro ⟨f, hf, -⟩
      rw [hfile] at hf
      cases hf
  by_cases href : s.omode f &&& OMODE_MASK = shut ∨ a.err ≠ 0
  · obtain ⟨hres, hleaves⟩ := sysTransfer_refused direction len hfile href
    have hfails : TransferFails shut s fd a := by
      intro g hg
      rw [hfile] at hg
      cases hg
      exact href
    constructor
    · intro h
      have hneg := (h.failed hfails).1
      rw [hres] at hneg
      split at hneg
      · exact absurd hneg (by decide)
      · rename_i hmode
        exact ⟨f, hfile, hmode, .inl hneg⟩
    · rintro ⟨g, hg, hmode, hans⟩
      rw [hfile] at hg
      cases hg
      have herr : a.err < 0 := hans.resolve_right fun h => href.resolve_left hmode h.1
      rw [if_neg hmode] at hres
      refine ⟨fun h => ?_, fun _ => hleaves.pos, fun _ => ⟨by omega, hleaves.pos⟩⟩
      omega
  · obtain ⟨hmode, herr⟩ := not_or.mp href
    have hzero := not_not.mp herr
    obtain ⟨hres, hleaves⟩ := sysTransfer_done direction len hfile hmode hzero
    have hat : (sysTransfer direction shut s fd len a).2.pos f = s.pos f + a.sz := by
      rw [hleaves.pos, Function.update_self]
    have hworks : ¬TransferFails shut s fd a := fun h => href (h f hfile)
    constructor
    · intro h
      have hnonneg : 0 ≤ a.sz.toInt := by
        by_contra hlt
        have hsame := congrFun (h.negative (by omega)) f
        rw [hat] at hsame
        exact moved_ne (by omega) hsame
      obtain ⟨g, hg, hmoved, -⟩ := h.counted (by omega)
      rw [hfile] at hg
      cases hg
      rw [hat, hres] at hmoved
      exact ⟨f, hfile, hmode, .inr ⟨hzero, (moves_iff _ _).mp ⟨hnonneg, hmoved⟩⟩⟩
    · rintro ⟨g, hg, -, hans⟩
      rw [hfile] at hg
      cases hg
      obtain ⟨-, hfits⟩ := hans.resolve_left (by omega)
      obtain ⟨hnonneg, hmoves⟩ := (moves_iff _ _).mpr hfits
      refine ⟨fun _ => ⟨f, hfile, ?_, a.sz, ?_, hleaves.transfers⟩, fun h => ?_,
        fun h => absurd h hworks⟩
      · rw [hat, hres]
        exact hmoves
      · rw [hres]
        exact toInt_eq_toNat hnonneg
      · omega

theorem seek_trusted_iff {pos : BitVec 64} {whence : ℤ} {rstat : Option Stat} :
    SeekTrusted s fd pos whence rstat ↔ SeekClear s fd pos whence rstat := by
  rcases hfile : fileOf s fd with _ | f
  · obtain ⟨hres, -⟩ := sysLseek_closed pos whence rstat hfile
    constructor
    · intro h
      obtain ⟨f, hf, -⟩ := h.counted (by rw [hres]; decide)
      rw [hfile] at hf
      cases hf
    · rintro ⟨f, hf, -⟩
      rw [hfile] at hf
      cases hf
  have hclear : SeekClear s fd pos whence rstat ↔
      match seekTarget (s.pos f) (s.omode f) pos whence rstat with
      | .error err => err < 0 ∨ err = (s.pos f).toInt
      | .ok target => 0 ≤ target.toInt := by
    constructor
    · rintro ⟨g, hg, h⟩
      rw [hfile] at hg
      cases hg
      exact h
    · exact fun h => ⟨f, hfile, h⟩
  rw [hclear]
  rcases ht : seekTarget (s.pos f) (s.omode f) pos whence rstat with err | target
  · obtain ⟨hres, hleaves⟩ := sysLseek_refused hfile ht
    dsimp only
    constructor
    · intro h
      by_contra hor
      obtain ⟨hneg, hne⟩ := not_or.mp hor
      obtain ⟨g, hg, hpos⟩ := h.counted (by omega)
      rw [hfile] at hg
      cases hg
      rw [hleaves.pos, hres] at hpos
      exact hne hpos.symm
    · intro h
      refine ⟨fun hnonneg => ⟨f, hfile, ?_⟩, fun _ => hleaves.pos, fun _ => hleaves.pos⟩
      rw [hleaves.pos, hres]
      exact (h.resolve_left (by omega)).symm
  · dsimp only
    by_cases hneg : target.toInt < 0
    · -- the position has been overwritten with 0 by then
      obtain ⟨hres, hleaves⟩ := sysLseek_negative hfile ht hneg
      constructor
      · intro h
        obtain ⟨g, hg, hpos⟩ := h.counted (by rw [hres]; decide)
        rw [hfile] at hg
        cases hg
        rw [hleaves.pos, Function.update_self, hres] at hpos
        exact absurd hpos (by decide)
      · intro h
        omega
    · obtain ⟨hres, hleaves⟩ := sysLseek_done hfile ht (by omega)
      refine ⟨fun _ => by omega, fun h => ⟨fun _ => ⟨f, hfile, ?_⟩, fun hlt => by omega,
        fun hfails => absurd (hfails f target hfile ht) hneg⟩⟩
      rw [hleaves.pos, Function.update_self, hres]

theorem trusted_iff (fd : ℤ) (s : Sys) (c : FileCall) : Trusted fd s c ↔ Clear fd s c := by
  cases c with
  | read len a => exact transfer_trusted_iff
  | write len a => exact transfer_trusted_iff
  | lseek pos whence rstat => exact seek_trusted_iff

end Trust

section Runs
variable {s : Sys} {fd : ℤ} {f : ℕ}

/-- The position as it follows from what a call has reported. -/
def reported (pos : ℤ) : FileCall → ℤ → ℤ
  | .lseek .., n => if 0 ≤ n then n else pos
  | _, n => if 0 ≤ n then pos + n else pos

/-- The position as it follows from everything that a run of calls has reported. -/
def tally (fd : ℤ) : Sys → ℤ → List FileCall → ℤ
  | _, pos, [] => pos
  | s, pos, c :: cs => tally fd (next fd s c) (reported pos c (exec fd s c).1) cs

theorem next_same (fd : ℤ) (s : Sys) (c : FileCall) : SameFiles s (next fd s c) := by
  have htransfer : ∀ direction shut len a,
      SameFiles s (sysTransfer direction shut s fd len a).2 := by
    intro direction shut len a
    rcases hfile : fileOf s fd with _ | f
    · exact (sysTransfer_closed _ _ _ _ hfile).2.same
    · by_cases href : s.omode f &&& OMODE_MASK = shut ∨ a.err ≠ 0
      · exact (sysTransfer_refused _ _ hfile href).2.same
      · obtain ⟨hmode, herr⟩ := not_or.mp href
        exact (sysTransfer_done _ _ hfile hmode (not_not.mp herr)).2.same
  cases c with
  | read len a => exact htransfer _ _ len a
  | write len a => exact htransfer _ _ len a
  | lseek pos whence rstat =>
    rcases hfile : fileOf s fd with _ | f
    · exact (sysLseek_closed _ _ _ hfile).2.same
    · rcases ht : seekTarget (s.pos f) (s.omode f) pos whence rstat with err | target
      · exact (sysLseek_refused hfile ht).2.same
      · by_cases hneg : target.toInt < 0
        · exact (sysLseek_negative hfile ht hneg).2.same
        · exact (sysLseek_done hfile ht (by omega)).2.same

theorem TransferTrusted.reported {direction : Direction} {shut : BitVec 32} {len : BitVec 64}
    {a : Answer} (h : TransferTrusted direction shut s fd len a) (hf : fileOf s fd = some f) :
    ((sysTransfer direction shut s fd len a).2.pos f).toInt =
      if 0 ≤ (sysTransfer direction shut s fd len a).1
      then (s.pos f).toInt + (sysTransfer direction shut s fd len a).1 else (s.pos f).toInt := by
  split
  · rename_i hn
    obtain ⟨g, hg, hmoved, -⟩ := h.counted hn
    rw [hf] at hg
    cases hg
    exact hmoved
  · rename_i hn
    rw [h.negative (by omega)]

/-- A call that can be trusted moves the position as its result says. -/
theorem Trusted.reported {c : FileCall} (h : Trusted fd s c) (hf : fileOf s fd = some f) :
    ((next fd s c).pos f).toInt =
      FilePositions.reported (s.pos f).toInt c (exec fd s c).1 := by
  cases c with
  | read len a => exact TransferTrusted.reported h hf
  | write len a => exact TransferTrusted.reported h hf
  | lseek pos whence rstat =>
    have hseek : SeekTrusted s fd pos whence rstat := h
    unfold FilePositions.reported
    dsimp only
    split
    · rename_i hn
      obtain ⟨g, hg, hpos⟩ := hseek.counted hn
      rw [hf] at hg
      cases hg
      exact hpos
    · rename_i hn
      have hlt : (sysLseek s fd pos whence rstat).1 < 0 := not_le.mp hn
      exact congrArg BitVec.toInt (congrFun (hseek.negative hlt) f)

theorem position_eq_tally (hf : fileOf s fd = some f) (calls : List FileCall)
    (h : EveryStep (next fd) (Trusted fd) s calls) :
    ((runTrace (next fd) s calls).pos f).toInt = tally fd s (s.pos f).toInt calls := by
  induction calls generalizing s with
  | nil => rfl
  | cons c cs ih =>
    have hsame := (next_same fd s c).fileOf fd
    rw [runTrace_cons, ih (hsame.trans hf) h.2, h.1.reported hf]
    rfl

/-- The calls of a run on a descriptor can be trusted, step by step, exactly if each of them is
clear, and then the position is at the end what the results of all of them add up to. -/
theorem positions_trusted_iff (fd : ℤ) (s : Sys) (calls : List FileCall) :
    (EveryStep (next fd) (Trusted fd) s calls ↔ EveryStep (next fd) (Clear fd) s calls) ∧
    (EveryStep (next fd) (Clear fd) s calls → ∀ f, fileOf s fd = some f →
      ((runTrace (next fd) s calls).pos f).toInt = tally fd s (s.pos f).toInt calls) := by
  have hiff : EveryStep (next fd) (Trusted fd) s calls ↔
      EveryStep (next fd) (Clear fd) s calls :=
    ⟨fun h => h.mono fun s c => (trusted_iff fd s c).mp,
      fun h => h.mono fun s c => (trusted_iff fd s c).mpr⟩
  exact ⟨hiff, fun h f hf => position_eq_tally hf calls (hiff.mpr h)⟩

/-- One file, open for reading and writing at descriptor 0, with position 100. -/
def oneFile : Sys :=
  { files := ⟨fillSlot (newFds 32) 0 0 0, fun _ => ⟨FD_FILE, 0, 1, 1⟩, []⟩
    pos := fun _ => 100
    omode := fun _ => O_RDWR
    transfers := [] }

/-- A bad descriptor reads 9 bytes, a seek to a negative position has set the position to 0 when
it fails, and a write to a full disk adds the number of its error. -/
theorem errors_count_as_bytes :
    ((exec 7 oneFile (.read 10 ⟨0, 10⟩)).1 = 9 ∧ ¬Trusted 7 oneFile (.read 10 ⟨0, 10⟩)) ∧
    (SeekFails oneFile 0 (-200) SEEK_CUR none ∧
      ((next 0 oneFile (.lseek (-200) SEEK_CUR none)).pos 0) = 0 ∧
      ¬Trusted 0 oneFile (.lseek (-200) SEEK_CUR none)) ∧
    tally 0 oneFile 100 [.write 512 ⟨28, 0⟩] = 128 ∧
      (next 0 oneFile (.write 512 ⟨28, 0⟩)).pos 0 = 100 := by
  have hseek : SeekFails oneFile 0 (-200) SEEK_CUR none := by
    intro f target hf ht
    have hf' : f = 0 := by simpa using hf.symm.trans (show fileOf oneFile 0 = some 0 from rfl)
    subst hf'
    cases ht
    decide
  have hpos : (next 0 oneFile (.lseek (-200) SEEK_CUR none)).pos 0 = 0 := rfl
  refine ⟨⟨rfl, fun h => ?_⟩, ⟨hseek, hpos, fun h => ?_⟩, rfl, rfl⟩
  · obtain ⟨f, hf, -⟩ := h.counted (by decide)
    cases hf
  · have hkept := congrFun (h.failed hseek) 0
    exact absurd (hpos.symm.trans hkept) (by decide)

end Runs

end FilePositions
