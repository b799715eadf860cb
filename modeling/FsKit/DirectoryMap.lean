import Mathlib.Tactic
import FsKit.DirectoryEntries
import FsKit.TransitionTrace

/-! A directory as a finite map from names to inode numbers. The directory code is written
here over what it uses of a data stream; at the streams of the file system it is the code of
`DirectoryOps`. Over any stream that behaves as an array of bytes, every directory that
`make_dir` produces is, through any insertions and deletions, a list of entries with distinct
names, and the calls are the operations of that list. -/
namespace DirectoryMap

open BlockBitmap InodeTable DataStreamBlocks DirectoryOps DirectoryEntries TransitionTrace

abbrev Buffer := ℕ → UInt8

/-- The inode of a directory as the directory code sees it: `cache` sets the contents, and
`change` sets them and counts the change. -/
structure DirStream (σ : Type) where
  size : σ → ℤ
  contents : σ → Option Buffer
  cache : σ → Buffer → σ
  change : σ → Buffer → σ
  read : σ → ℕ → Except Halt (ℤ × ℕ × Buffer)
  write : σ → Buffer → ℕ → Except Halt (ℤ × ℕ × σ)
  setFileSize : σ → ℤ → Except Halt (ℤ × σ)
  updateInode : σ → Except Halt σ

namespace DirStream
variable {σ : Type} (S : DirStream σ)

def loadContents (s : σ) : Except Halt (ℤ × Buffer × σ) :=
  match S.contents s with
  | some c => .ok (0, c, s)
  | none =>
    (S.read s (S.size s).toNat).bind fun (ret, sz, buf) =>
      if (sz : ℤ) ≠ S.size s then
        if ret ≠ 0 then .ok (ret, (fun _ => 0), s) else .error .wildPointer
      else .ok (0, buf, S.cache s buf)

def dirLookup (s : σ) (name : Name) : Except Halt (ℤ × ℤ × σ) :=
  (S.loadContents s).map fun (ret, c, s) =>
    if ret ≠ 0 then (ret, 0, s)
    else
      match scanEntries c (S.size s).toNat name (S.size s).toNat 0 with
      | some inum => (0, inum, s)
      | none => (ENOENT, 0, s)

def dirInsert (s : σ) (name : Name) (inum : ℤ) (stack : Buffer) : Except Halt (ℤ × σ) :=
  (S.loadContents s).bind fun (ret, c, s) =>
    if ret ≠ 0 then .ok (ret, s)
    else
      let sz := nextMde 0 name.length
      let ptr := copyInto c (S.size s).toNat sz (entryByte inum name stack)
      (S.write (S.change s ptr) ptr ((S.size s).toNat + sz)).map fun (ret, _, s) => (ret, s)

def dirDelete (s : σ) (name : Name) : Except Halt (ℤ × σ) :=
  if name = [46] ∨ name = [46, 46] then .ok (EINVAL, s)
  else
    (S.loadContents s).bind fun (ret, c, s) =>
      if ret ≠ 0 then .ok (ret, s)
      else
        let size := (S.size s).toNat
        match findEntry c size name size 0 with
        | none => .ok (ENOENT, s)
        | some p =>
          let sz := nextMde p (c (p + 8)).toNat - p
          let ptr := closeGap c size p
          (S.write (S.change s ptr) ptr (size - sz)).bind fun (ret, nsize, s) =>
            if ret ≠ 0 ∨ (nsize : ℤ) ≠ S.size s - sz then .ok (ret, s)
            else (S.setFileSize s nsize).map fun (_, s) => (0, s)

/-- `make_dir` from the new inode on, when its write goes through. -/
def makeDir (s : σ) (inum parentInum : ℤ) (stack : Buffer) : Except Halt (ℤ × σ) :=
  (S.write s (newDirBytes inum parentInum stack) 32).bind fun (ret, len, s) =>
    if ret ≠ 0 ∨ len ≠ 32 then .ok (if ret = 0 then ENOSPC else ret, s)
    else (S.updateInode s).map fun s => (0, s)

end DirStream

/-- The streams of the file system. -/
def myfsStream : DirStream (Myfs × Inode) where
  size s := s.2.data.size
  contents s := s.2.contents
  cache s c := (s.1, { s.2 with contents := some c })
  change s c := (s.1, { s.2 with contents := some c, counter := s.2.counter + 1 })
  read s len := myfsReadDataStream s.1 s.2 0 (fun _ => 0) len
  write s buf len := (myfsWriteDataStream s.1 s.2 0 buf len).map
    fun (ret, len, mi, fs) => (ret, len, fs, mi)
  setFileSize s n := (myfsSetFileSize s.1 s.2 n).map fun (ret, mi, fs) => (ret, fs, mi)
  updateInode s := (InodeTable.updateInode s.1 s.2).map fun fs => (fs, s.2)

section Faithful
variable (fs : Myfs) (dir : Inode) (name : Name)

theorem loadContents_myfs : myfsStream.loadContents (fs, dir) =
    (DirectoryOps.loadContents fs dir).map fun (ret, c, dir) => (ret, c, fs, dir) := by
  unfold DirStream.loadContents DirectoryOps.loadContents getDirContents myfsStream
  dsimp only
  cases hc : dir.contents with
  | some c => rfl
  | none =>
    dsimp only
    obtain e | ⟨ret, sz, buf⟩ := myfsReadDataStream fs dir 0 (fun _ => 0) dir.data.size.toNat
    · rfl
    · dsimp only [Except.bind, Except.map]
      by_cases hsz : (sz : ℤ) ≠ dir.data.size
      · simp only [if_pos hsz]
        by_cases hret : ret ≠ 0
        · simp only [if_pos hret]
        · simp only [if_neg hret, hc]
      · simp only [if_neg hsz]
        rfl

theorem dirLookup_myfs : myfsStream.dirLookup (fs, dir) name =
    (DirectoryOps.dirLookup fs dir name).map fun (ret, inum, dir) => (ret, inum, fs, dir) := by
  unfold DirStream.dirLookup DirectoryOps.dirLookup
  rw [loadContents_myfs]
  obtain e | ⟨ret, c, dir'⟩ := DirectoryOps.loadContents fs dir
  · rfl
  · dsimp only [Except.map, myfsStream]
    split_ifs
    · rfl
    · cases scanEntries c dir'.data.size.toNat name dir'.data.size.toNat 0 <;> rfl

theorem dirInsert_myfs (inum : ℤ) (stack : Buffer) :
    myfsStream.dirInsert (fs, dir) name inum stack =
    (DirectoryOps.dirInsert fs dir name inum stack).map fun (ret, dir, fs) => (ret, fs, dir) := by
  unfold DirStream.dirInsert DirectoryOps.dirInsert
  rw [loadContents_myfs]
  obtain e | ⟨ret, c, dir'⟩ := DirectoryOps.loadContents fs dir
  · rfl
  · dsimp only [Except.map, Except.bind, myfsStream, appendEntry]
    split_ifs
    · rfl
    · obtain e | ⟨_, _, _, _⟩ := myfsWriteDataStream fs _ 0 _ _ <;> rfl

theorem dirDelete_myfs : myfsStream.dirDelete (fs, dir) name =
    (DirectoryOps.dirDelete fs dir name).map fun (ret, dir, fs) => (ret, fs, dir) := by
  unfold DirStream.dirDelete DirectoryOps.dirDelete
  split_ifs
  · rfl
  rw [loadContents_myfs]
  obtain e | ⟨ret, c, dir'⟩ := DirectoryOps.loadContents fs dir
  · rfl
  · dsimp only [Except.map, Except.bind, myfsStream]
    split_ifs
    · rfl
    · cases findEntry c dir'.data.size.toNat name dir'.data.size.toNat 0 with
      | none => rfl
      | some p =>
        dsimp only
        obtain e | ⟨ret', nsize, dir'', fs'⟩ := myfsWriteDataStream fs _ 0 _ _
        · rfl
        · dsimp only
          by_cases hbad : ret' ≠ 0 ∨
            (nsize : ℤ) ≠ dir''.data.size - (nextMde p (c (p + 8)).toNat - p : ℕ)
          · rw [if_pos hbad]
            exact if_pos hbad
          · rw [if_neg hbad]
            refine (if_neg hbad).trans ?_
            obtain e | ⟨_, _, _⟩ := myfsSetFileSize fs' dir'' nsize <;> rfl

/-- A directory made on the disk is made on the stream of its new inode. -/
theorem makeDir_myfs {parent : Option Inode} {mode : ℤ} {stack : Buffer} {mi : Inode} {fs' : Myfs}
    (h : DirectoryOps.makeDir fs parent mode stack = .ok (0, some mi, fs')) :
    ∃ mi₀ fs₀, myfsAllocateInode fs mode = .ok (some mi₀, fs₀) ∧
      myfsStream.makeDir (fs₀, { mi₀ with mode := Int.lor mi₀.mode mySIfdir }) mi₀.inodeNum
        ((parent.map (·.inodeNum)).getD mi₀.inodeNum) stack = .ok (0, fs', mi) := by
  unfold DirectoryOps.makeDir at h
  rcases hal : myfsAllocateInode fs mode with e | ⟨_ | mi₀, fs₀⟩
  · rw [hal] at h
    cases h
  · rw [hal] at h
    cases h
  rw [hal] at h
  refine ⟨mi₀, fs₀, rfl, ?_⟩
  unfold DirStream.makeDir
  dsimp only [Except.bind, Except.map, myfsStream] at h ⊢
  generalize myfsWriteDataStream fs₀ { mi₀ with mode := Int.lor mi₀.mode mySIfdir } 0
    (newDirBytes mi₀.inodeNum ((parent.map (·.inodeNum)).getD mi₀.inodeNum) stack) 32 = r at h ⊢
  obtain e | ⟨ret, len, mi₁, fs₁⟩ := r
  · cases h
  dsimp only at h ⊢
  by_cases hbad : ret ≠ 0 ∨ len ≠ 32
  · rw [if_pos hbad] at h
    simp at h
  · rw [if_neg hbad] at h
    refine (if_neg hbad).trans ?_
    generalize InodeTable.updateInode fs₁ mi₁ = u at h ⊢
    obtain e | fs₂ := u
    · cases h
    · cases h
      rfl

end Faithful

section Map
variable {σ : Type} (S : DirStream σ) (Holds : σ → ℕ → Buffer → Prop)

/-- The stream is an array of bytes: `Holds s n c` says that it has the `n` bytes of `c`, reads
return them, writes and truncations succeed, and nothing else changes them or the cache. -/
structure ActsAsBytes : Prop where
  size : ∀ {s n c}, Holds s n c → S.size s = n
  read : ∀ {s n c}, Holds s n c → 0 < n →
    ∃ buf, S.read s n = .ok (0, n, buf) ∧ ∀ i < n, buf i = c i
  write : ∀ {s n c}, Holds s n c → ∀ (buf : Buffer) (len : ℕ), 0 < len →
    ∃ s' c', S.write s buf len = .ok (0, len, s') ∧ Holds s' (max n len) c' ∧
      (∀ i < max n len, c' i = if i < len then buf i else c i) ∧ S.contents s' = S.contents s
  truncate : ∀ {s n c}, Holds s n c → ∀ m ≤ n, ∃ s', S.setFileSize s m = .ok (0, s') ∧
    Holds s' m c ∧ S.contents s' = S.contents s
  update : ∀ {s n c}, Holds s n c → ∃ s', S.updateInode s = .ok s' ∧ Holds s' n c ∧
    S.contents s' = S.contents s
  cache : ∀ {s n c}, Holds s n c → ∀ buf, Holds (S.cache s buf) n c ∧
    S.contents (S.cache s buf) = some buf
  change : ∀ {s n c}, Holds s n c → ∀ buf, Holds (S.change s buf) n c ∧
    S.contents (S.change s buf) = some buf

/-- The directory is the list `es`: its stream is the packed encoding of `es`, the cached
contents are the bytes of the stream, names are distinct, and "." and ".." come first. -/
structure Lists (s : σ) (es : List Entry) : Prop where
  stream : ∃ n c, Holds s n c ∧ Packed c 0 es n ∧
    ∀ buf, S.contents s = some buf → ∀ i < n, buf i = c i
  storable : ∀ e ∈ es, Storable e
  distinct : (es.map Entry.name).Nodup
  dots : ∃ self up rest, es = ⟨self, [46]⟩ :: ⟨up, [46, 46]⟩ :: rest

inductive Event where
  | lookup (name : Name)
  | insert (name : Name) (inum : ℤ) (stack : Buffer)
  | delete (name : Name)

def next (s : σ) : Event → σ
  | .lookup name =>
    match S.dirLookup s name with
    | .ok (_, _, s') => s'
    | .error _ => s
  | .insert name inum stack =>
    match S.dirInsert s name inum stack with
    | .ok (_, s') => s'
    | .error _ => s
  | .delete name =>
    match S.dirDelete s name with
    | .ok (_, s') => s'
    | .error _ => s

/-- Names are C strings, and what is inserted fits an entry and is not found. -/
def Enabled (s : σ) : Event → Prop
  | .lookup name => CString name
  | .insert name inum _ => Storable ⟨inum, name⟩ ∧
    ∃ inum' s', S.dirLookup s name = .ok (ENOENT, inum', s')
  | .delete name => CString name

/-- Nothing changed, except that the contents may have been read in. -/
def Unchanged (s s' : σ) : Prop := s' = s ∨ S.contents s = none ∧ ∃ buf, s' = S.cache s buf

/-- What a call on a directory with the list `es` returns and leaves. -/
def Meets (s : σ) : Event → Prop
  | .lookup name => ∀ es, Lists S Holds s es →
      (∀ e ∈ es, e.name = name → ∃ s', S.dirLookup s name = .ok (0, e.inum, s') ∧
        Unchanged S s s' ∧ Lists S Holds s' es) ∧
      ((∀ e ∈ es, e.name ≠ name) → ∃ inum s', S.dirLookup s name = .ok (ENOENT, inum, s') ∧
        Unchanged S s s' ∧ Lists S Holds s' es)
  | .insert name inum stack => ∀ es, Lists S Holds s es →
      ∃ s', S.dirInsert s name inum stack = .ok (0, s') ∧ Lists S Holds s' (es ++ [⟨inum, name⟩])
  | .delete name => ∀ es, Lists S Holds s es →
      (name = [46] ∨ name = [46, 46] → S.dirDelete s name = .ok (EINVAL, s)) ∧
      ((∀ e ∈ es, e.name ≠ name) → ∃ s', S.dirDelete s name = .ok (ENOENT, s') ∧
        Unchanged S s s' ∧ Lists S Holds s' es) ∧
      (∀ e ∈ es, e.name = name → name ≠ [46] → name ≠ [46, 46] →
        ∃ s', S.dirDelete s name = .ok (0, s') ∧ Lists S Holds s' (es.erase e))

end Map

section Calls
variable {σ : Type} {S : DirStream σ} {Holds : σ → ℕ → Buffer → Prop} (hS : ActsAsBytes S Holds)
include hS

/-- The contents are there or are read in; either way they are the bytes of the stream. -/
theorem Lists.load {s : σ} {es : List Entry} (h : Lists S Holds s es) :
    ∃ n c buf s', S.loadContents s = .ok (0, buf, s') ∧ Unchanged S s s' ∧ Lists S Holds s' es ∧
      Holds s' n c ∧ (∀ i < n, buf i = c i) ∧ Packed buf 0 es n := by
  obtain ⟨n, c, hh, hp, hc⟩ := h.stream
  have hn : 0 < n := by
    obtain ⟨_, _, _, rfl⟩ := h.dots
    have := hp.length_le
    simp at this
    omega
  unfold DirStream.loadContents
  cases hcont : S.contents s with
  | some buf =>
    have hb := hc buf hcont
    exact ⟨n, c, buf, s, rfl, .inl rfl, h, hh, hb, hp.congr fun i _ hi => hb i hi⟩
  | none =>
    obtain ⟨buf, hr, hb⟩ := hS.read hh hn
    obtain ⟨hh', hcont'⟩ := hS.cache hh buf
    dsimp only
    rw [hS.size hh, Int.toNat_natCast, hr]
    dsimp only [Except.bind]
    rw [if_neg (not_not.mpr rfl)]
    refine ⟨n, c, buf, S.cache s buf, rfl, .inr ⟨hcont, buf, rfl⟩,
      ⟨⟨n, c, hh', hp, fun buf' hbuf => ?_⟩, h.storable, h.distinct, h.dots⟩, hh', hb,
      hp.congr fun i _ hi => hb i hi⟩
    rw [hcont', Option.some.injEq] at hbuf
    rw [← hbuf]
    exact hb

omit hS in
theorem Lists.string {s : σ} {es : List Entry} (h : Lists S Holds s es) :
    ∀ e ∈ es, CString e.name := fun e he => (h.storable e he).string

omit hS in
/-- An entry of the list, with those before it under other names. -/
theorem Lists.split {s : σ} {es : List Entry} (h : Lists S Holds s es) {e : Entry} (he : e ∈ es) :
    ∃ pre post, es = pre ++ e :: post ∧ (∀ x ∈ pre, x.name ≠ e.name) ∧
      es.erase e = pre ++ post := by
  obtain ⟨pre, post, rfl⟩ := List.append_of_mem he
  have hne : ∀ x ∈ pre, x.name ≠ e.name := by
    have hd := h.distinct
    rw [List.map_append, List.nodup_append] at hd
    exact fun x hx => hd.2.2 _ (List.mem_map_of_mem hx) _ (by simp)
  refine ⟨pre, post, rfl, hne, ?_⟩
  rw [List.erase_append_right _ fun hx => hne e hx rfl, List.erase_cons_head]

omit hS in
theorem Lists.find {s : σ} {es : List Entry} (h : Lists S Holds s es) {name : Name}
    (hn : CString name) {buf : Buffer} {n : ℕ} (hp : Packed buf 0 es n) :
    ((∀ e ∈ es, e.name ≠ name) → findEntry buf n name n 0 = none) ∧
    ∀ pre e post, es = pre ++ e :: post → (∀ x ∈ pre, x.name ≠ e.name) → e.name = name →
      ∃ m, findEntry buf n name n 0 = some m ∧ Packed buf 0 pre m ∧ Packed buf m (e :: post) n := by
  refine ⟨fun habs => findEntry_absent n hp (Nat.dvd_zero 8) h.string hn habs, ?_⟩
  rintro pre e post rfl hpre rfl
  have hlen := hp.length_le
  obtain ⟨m, h₁, h₂⟩ := (packed_append pre (e :: post)).mp hp
  refine ⟨m, findEntry_present n h₁ h₂ (Nat.dvd_zero 8) (fun x hx => h.string x (by simp [hx]))
    hn hn hpre rfl ?_, h₁, h₂⟩
  simp at hlen
  omega

theorem lookup_meets {s : σ} {name : Name} (hn : CString name) :
    Meets S Holds s (.lookup name) := by
  intro es h
  obtain ⟨n, c, buf, s', hload, hsame, hl, hh, hb, hp⟩ := h.load hS
  have hsize : (S.size s').toNat = n := by rw [hS.size hh, Int.toNat_natCast]
  obtain ⟨hnone, hsome⟩ := h.find hn hp
  constructor
  · intro e he hname
    obtain ⟨pre, post, hes, hpre, _⟩ := h.split he
    obtain ⟨m, hm, _, ⟨hat, _⟩⟩ := hsome pre e post hes hpre hname
    refine ⟨s', ?_, hsame, hl⟩
    unfold DirStream.dirLookup
    rw [hload]
    dsimp only [Except.map]
    rw [if_neg (by decide), hsize, scanEntries_eq, hm, Option.map_some, hat.inum]
  · intro habs
    refine ⟨0, s', ?_, hsame, hl⟩
    unfold DirStream.dirLookup
    rw [hload]
    dsimp only [Except.map]
    rw [if_neg (by decide), hsize, scanEntries_eq, hnone habs, Option.map_none]

theorem insert_meets {s : σ} {name : Name} {inum : ℤ} {stack : Buffer}
    (he : Enabled S s (.insert name inum stack)) :
    Meets S Holds s (.insert name inum stack) := by
  intro es h
  obtain ⟨hst, inum', s'', hnot⟩ := he
  have habs : ∀ e ∈ es, e.name ≠ name := by
    intro e he hname
    obtain ⟨s₁, hfound, _⟩ := (lookup_meets hS hst.string es h).1 e he hname
    rw [hfound] at hnot
    cases hnot
  obtain ⟨n, c, buf, s₁, hload, hsame, hl, hh, hb, hp⟩ := h.load hS
  have hsize : (S.size s₁).toNat = n := by rw [hS.size hh, Int.toNat_natCast]
  have hp' := hp.append hst stack
  have hpos := (Entry.mk inum name).size_spec
  have hsz : (Entry.mk inum name).size = nextMde 0 name.length := rfl
  rw [hsz] at hp' hpos
  obtain ⟨hh₁, hcont₁⟩ := hS.change hh (copyInto buf n (nextMde 0 name.length)
    (entryByte inum name stack))
  obtain ⟨s', c', hwr, hh', hc', hcont'⟩ := hS.write hh₁ (copyInto buf n (nextMde 0 name.length)
    (entryByte inum name stack)) (n + nextMde 0 name.length) (by omega)
  have hmax : max n (n + nextMde 0 name.length) = n + nextMde 0 name.length := by omega
  rw [hmax] at hh' hc'
  refine ⟨s', ?_, ⟨⟨_, c', hh', hp'.congr fun i _ hi => ?_, fun b hbuf i hi => ?_⟩, ?_, ?_, ?_⟩⟩
  · unfold DirStream.dirInsert
    rw [hload]
    dsimp only [Except.bind, Except.map]
    rw [if_neg (by decide), hsize, hwr]
  · rw [hc' i hi, if_pos hi]
  · rw [hcont', hcont₁, Option.some.injEq] at hbuf
    rw [hc' i hi, if_pos hi, ← hbuf]
  · intro e he
    rcases List.mem_append.mp he with he | he
    · exact h.storable e he
    · rw [List.mem_singleton] at he
      rw [he]
      exact hst
  · rw [List.map_append, List.nodup_append]
    refine ⟨h.distinct, by simp, fun a ha b hb' => ?_⟩
    obtain ⟨e, he, rfl⟩ := List.mem_map.mp ha
    simp only [List.map_cons, List.map_nil, List.mem_singleton] at hb'
    rw [hb']
    exact habs e he
  · obtain ⟨self, up, rest, rfl⟩ := h.dots
    exact ⟨self, up, rest ++ [⟨inum, name⟩], rfl⟩

/-- Taking an entry out keeps the first two, which cannot be named. -/
theorem delete_present {s : σ} {es : List Entry} {e : Entry} (h : Lists S Holds s es) (he : e ∈ es)
    (hd₁ : e.name ≠ [46]) (hd₂ : e.name ≠ [46, 46]) :
    ∃ s', S.dirDelete s e.name = .ok (0, s') ∧ Lists S Holds s' (es.erase e) := by
  obtain ⟨n, c, buf, s₁, hload, hsame, hl, hh, hb, hp⟩ := h.load hS
  have hsize : (S.size s₁).toNat = n := by rw [hS.size hh, Int.toNat_natCast]
  obtain ⟨pre, post, hes, hpre, herase⟩ := h.split he
  obtain ⟨m, hm, h₁, h₂⟩ := (h.find (h.string e he) hp).2 pre e post hes hpre rfl
  have hgap := h₁.closeGap h₂
  rw [← herase] at hgap
  have hnext : nextMde m (buf (m + 8)).toNat - m = e.size := by
    rw [h₂.1.next (h₁.aligned (Nat.dvd_zero 8)), Nat.add_sub_cancel_left]
  have hle : m + e.size ≤ n := h₂.2.le
  have hdots : ∃ self up rest, es.erase e = ⟨self, [46]⟩ :: ⟨up, [46, 46]⟩ :: rest := by
    obtain ⟨self, up, rest, rfl⟩ := h.dots
    refine ⟨self, up, rest.erase e, ?_⟩
    rw [List.erase_cons_tail, List.erase_cons_tail]
    · rw [beq_iff_eq]
      rintro rfl
      exact hd₂ rfl
    · rw [beq_iff_eq]
      rintro rfl
      exact hd₁ rfl
  have hpos : 0 < n - e.size := by
    obtain ⟨_, _, _, hd⟩ := hdots
    have := hgap.length_le
    rw [hd] at this
    simp at this
    omega
  obtain ⟨hh₁, hcont₁⟩ := hS.change hh (closeGap buf n m)
  obtain ⟨s₂, c₂, hwr, hh₂, hc₂, hcont₂⟩ := hS.write hh₁ (closeGap buf n m) (n - e.size) hpos
  rw [Nat.max_eq_left (Nat.sub_le n e.size)] at hh₂ hc₂
  obtain ⟨s', htr, hh', hcont'⟩ := hS.truncate hh₂ (n - e.size) (Nat.sub_le n e.size)
  refine ⟨s', ?_, ⟨⟨_, c₂, hh', hgap.congr fun i _ hi => ?_, fun b hbuf i hi => ?_⟩,
    fun x hx => h.storable x (List.mem_of_mem_erase hx), ?_, hdots⟩⟩
  · unfold DirStream.dirDelete
    rw [if_neg (not_or.mpr ⟨hd₁, hd₂⟩), hload]
    dsimp only [Except.bind, Except.map]
    rw [if_neg (by decide), hsize, hm]
    dsimp only
    rw [hnext, hwr]
    dsimp only
    rw [hS.size hh₂, if_neg (by omega), htr]
  · rw [hc₂ i (by omega), if_pos hi]
  · rw [hcont', hcont₂, hcont₁, Option.some.injEq] at hbuf
    rw [hc₂ i (by omega), if_pos hi, ← hbuf]
  · exact (h.distinct).sublist (List.erase_sublist.map _)

theorem delete_meets {s : σ} {name : Name} (hn : CString name) :
    Meets S Holds s (.delete name) := by
  intro es h
  refine ⟨fun hdot => ?_, fun habs => ?_, fun e he hname hd₁ hd₂ => ?_⟩
  · unfold DirStream.dirDelete
    rw [if_pos hdot]
  · obtain ⟨n, c, buf, s₁, hload, hsame, hl, hh, hb, hp⟩ := h.load hS
    have hsize : (S.size s₁).toNat = n := by rw [hS.size hh, Int.toNat_natCast]
    have hdots : ¬ (name = [46] ∨ name = [46, 46]) := by
      obtain ⟨self, up, rest, rfl⟩ := h.dots
      rintro (rfl | rfl)
      · exact habs ⟨self, [46]⟩ (by simp) rfl
      · exact habs ⟨up, [46, 46]⟩ (by simp) rfl
    refine ⟨s₁, ?_, hsame, hl⟩
    unfold DirStream.dirDelete
    rw [if_neg hdots, hload]
    dsimp only [Except.bind]
    rw [if_neg (by decide), hsize, (h.find hn hp).1 habs]
  · subst hname
    exact delete_present hS h he hd₁ hd₂

theorem call_meets {s : σ} {e : Event} (he : Enabled S s e) : Meets S Holds s e := by
  cases e with
  | lookup name => exact lookup_meets hS he
  | insert name inum stack => exact insert_meets hS he
  | delete name => exact delete_meets hS he

theorem next_lists {s : σ} {e : Event} (he : Enabled S s e) (h : ∃ es, Lists S Holds s es) :
    ∃ es, Lists S Holds (next S s e) es := by
  obtain ⟨es, h⟩ := h
  have hm := call_meets hS he
  cases e with
  | lookup name =>
    by_cases hex : ∃ e ∈ es, e.name = name
    · obtain ⟨x, hx, hname⟩ := hex
      obtain ⟨s', hr, _, hl⟩ := (hm es h).1 x hx hname
      exact ⟨es, by rw [next, hr]; exact hl⟩
    · push Not at hex
      obtain ⟨_, s', hr, _, hl⟩ := (hm es h).2 hex
      exact ⟨es, by rw [next, hr]; exact hl⟩
  | insert name inum stack =>
    obtain ⟨s', hr, hl⟩ := hm es h
    exact ⟨_, by rw [next, hr]; exact hl⟩
  | delete name =>
    obtain ⟨hdot, habs, hpres⟩ := hm es h
    by_cases hd : name = [46] ∨ name = [46, 46]
    · exact ⟨es, by rw [next, hdot hd]; exact h⟩
    by_cases hex : ∃ e ∈ es, e.name = name
    · obtain ⟨x, hx, hname⟩ := hex
      obtain ⟨s', hr, hl⟩ := hpres x hx hname (fun h => hd (.inl h)) (fun h => hd (.inr h))
      exact ⟨_, by rw [next, hr]; exact hl⟩
    · push Not at hex
      obtain ⟨s', hr, _, hl⟩ := habs hex
      exact ⟨es, by rw [next, hr]; exact hl⟩

theorem makeDir_lists {s₀ s : σ} {c : Buffer} {inum parentInum : ℤ} {stack : Buffer}
    (hnew : Holds s₀ 0 c) (hcont : S.contents s₀ = none) (h₁ : -2 ^ 63 ≤ inum ∧ inum < 2 ^ 63)
    (h₂ : -2 ^ 63 ≤ parentInum ∧ parentInum < 2 ^ 63)
    (h : S.makeDir s₀ inum parentInum stack = .ok (0, s)) :
    Lists S Holds s [⟨inum, [46]⟩, ⟨parentInum, [46, 46]⟩] := by
  have hdot : Storable ⟨inum, [46]⟩ := ⟨h₁.1, h₁.2, by simp, by simp, by simp [CString]⟩
  have hdots : Storable ⟨parentInum, [46, 46]⟩ :=
    ⟨h₂.1, h₂.2, by simp, by simp, by simp [CString]⟩
  have hsz : (Entry.mk inum [46]).size = 16 := by simp [Entry.size, nextMde]
  have hsz₂ : (Entry.mk parentInum [46, 46]).size = 16 := by simp [Entry.size, nextMde]
  have hp : Packed (newDirBytes inum parentInum stack) 0
      [⟨inum, [46]⟩, ⟨parentInum, [46, 46]⟩] 32 := by
    refine ⟨(entryAt_entryByte hdot stack).shift fun i hi => ?_,
      (entryAt_entryByte hdots fun j => stack (16 + j)).shift fun i hi => ?_, ?_⟩
    · unfold newDirBytes
      rw [if_pos (by omega), Nat.zero_add]
    · unfold newDirBytes
      rw [hsz, if_neg (by omega)]
      congr 1
      omega
    · rw [hsz, hsz₂]
      rfl
  obtain ⟨s₁, c₁, hwr, hh₁, hc₁, hcont₁⟩ := hS.write hnew (newDirBytes inum parentInum stack) 32
    (by decide)
  obtain ⟨s₂, hup, hh₂, hcont₂⟩ := hS.update hh₁
  unfold DirStream.makeDir at h
  rw [hwr] at h
  dsimp only [Except.bind] at h
  rw [if_neg (by simp), hup] at h
  simp only [Except.map, Except.ok.injEq, Prod.mk.injEq, true_and] at h
  subst h
  refine ⟨⟨32, c₁, hh₂, hp.congr fun i _ hi => ?_, fun buf hbuf => ?_⟩, ?_, by simp, inum,
    parentInum, [], rfl⟩
  · rw [hc₁ i (by omega), if_pos hi]
  · rw [hcont₂, hcont₁, hcont] at hbuf
    cases hbuf
  · intro e he
    rcases List.mem_cons.mp he with rfl | he
    · exact hdot
    · rw [List.mem_singleton] at he
      rw [he]
      exact hdots

end Calls

/-- A directory is a finite map: whatever is looked up, inserted and deleted after `make_dir`,
the directory stays the packed list of its entries, and every call does to that list what it
should. -/
theorem directory_is_finite_map {σ : Type} (S : DirStream σ) (Holds : σ → ℕ → Buffer → Prop)
    (hS : ActsAsBytes S Holds) {s₀ s : σ} {c : Buffer} {inum parentInum : ℤ} {stack : Buffer}
    (hnew : Holds s₀ 0 c) (hcont : S.contents s₀ = none) (h₁ : -2 ^ 63 ≤ inum ∧ inum < 2 ^ 63)
    (h₂ : -2 ^ 63 ≤ parentInum ∧ parentInum < 2 ^ 63)
    (hmake : S.makeDir s₀ inum parentInum stack = .ok (0, s)) (es : List Event)
    (h : EveryStep (next S) (Enabled S) s es) :
    Lists S Holds s [⟨inum, [46]⟩, ⟨parentInum, [46, 46]⟩] ∧
    EveryState (next S) (fun s => ∃ entries, Lists S Holds s entries) s es ∧
    EveryStep (next S) (Meets S Holds) s es := by
  have hl := makeDir_lists hS hnew hcont h₁ h₂ hmake
  refine ⟨hl, everyState_of_step ?_ ⟨_, hl⟩ h, h.mono fun _ _ he => call_meets hS he⟩
  intro s e hs he
  exact next_lists hS he hs

/-- A directory over a plain array of bytes. -/
structure ByteDir where
  size : ℕ
  bytes : Buffer
  contents : Option Buffer
  counter : ℤ

def byteStream : DirStream ByteDir where
  size s := s.size
  contents s := s.contents
  cache s c := { s with contents := some c }
  change s c := { s with contents := some c, counter := s.counter + 1 }
  read s len := .ok (0, min len s.size, s.bytes)
  write s buf len := .ok (0, len, { s with
    size := max s.size len
    bytes := fun i => if i < len then buf i else s.bytes i })
  setFileSize s n := .ok (0, { s with size := n.toNat })
  updateInode s := .ok s

theorem byteStream_acts : ActsAsBytes byteStream fun s n c => s.size = n ∧ s.bytes = c where
  size := by
    rintro s n c ⟨rfl, rfl⟩
    rfl
  read := by
    rintro s n c ⟨rfl, rfl⟩ _
    exact ⟨s.bytes, by simp [byteStream], fun _ _ => rfl⟩
  write := by
    rintro s n c ⟨rfl, rfl⟩ buf len _
    exact ⟨_, _, rfl, ⟨rfl, rfl⟩, fun _ _ => rfl, rfl⟩
  truncate := by
    rintro s n c ⟨rfl, rfl⟩ m _
    exact ⟨_, rfl, ⟨Int.toNat_natCast m, rfl⟩, rfl⟩
  update := by
    rintro s n c ⟨rfl, rfl⟩
    exact ⟨s, rfl, ⟨rfl, rfl⟩, rfl⟩
  cache := by
    rintro s n c ⟨rfl, rfl⟩ buf
    exact ⟨⟨rfl, rfl⟩, rfl⟩
  change := by
    rintro s n c ⟨rfl, rfl⟩ buf
    exact ⟨⟨rfl, rfl⟩, rfl⟩

/-- The file `a` is entered under number 5 in the directory with number 3, and deleted. -/
def someEvents : List Event := [.insert [97] 5 (fun _ => 9), .lookup [97], .delete [97]]

def emptyDir : ByteDir := ⟨0, fun _ => 0, none, 0⟩

def madeDir : ByteDir :=
  ⟨32, fun i => if i < 32 then newDirBytes 3 2 (fun _ => 7) i else 0, none, 0⟩

theorem directory_is_finite_map_bytes :
    EveryStep (next byteStream) (Meets byteStream fun s n c => s.size = n ∧ s.bytes = c) madeDir
      someEvents := by
  have hnew : emptyDir.size = 0 ∧ emptyDir.bytes = fun _ => 0 := ⟨rfl, rfl⟩
  have hmake : byteStream.makeDir emptyDir 3 2 (fun _ => 7) = .ok (0, madeDir) := rfl
  refine (directory_is_finite_map byteStream _ byteStream_acts hnew rfl (by decide) (by decide)
    hmake someEvents ?_).2.2
  refine ⟨⟨by decide +kernel, 0, _, rfl⟩, by simp [Enabled, CString], by simp [Enabled, CString],
    trivial⟩

end DirectoryMap
