import Mathlib.Tactic
import FsKit.DirectoryMap
import FsKit.StreamResults

/-! Reading a directory while it changes (`dir.c`). The cookie of an open directory holds a
pointer into the contents, the number of entries read and the change counter it has seen; when
the counter has moved, `myfs_readdir` walks the entries anew, one less than it has read. The
directory is a stream as in `DirectoryMap`, with the counter of its `etc` part beside it; the
streams of the file system are one. -/
namespace DirectoryCursor

open MachineIntegers (toInt32)
open BlockBitmap (ENOENT)
open BlockBitmap (Myfs)
open InodeTable (Halt Inode freshInode)
open FailedCreate (fullDisk)
open LittleEndian DataStreamBlocks DirectoryOps DirectoryEntries TransitionTrace
open DirectoryMap (Buffer DirStream myfsStream)

/-- `curptr` is an offset into the contents, which move only when the counter does. -/
structure DirCookie where
  curptr : ℕ
  index : ℤ
  counter : ℤ

/-- The loop of the re-sync, `k` entries from `p` on. -/
def walkEntries (c : Buffer) (size : ℕ) : ℕ → ℕ → ℕ
  | 0, p => p
  | k + 1, p => if p < size then walkEntries c size k (nextMde p (c (p + 8)).toNat) else p

/-- What is copied to the caller's `my_dirent`. -/
def entryAt (c : Buffer) (p : ℕ) : Entry :=
  ⟨word64 c p, (List.range (c (p + 8)).toNat).map fun i => c (p + 9 + i)⟩

section Calls
variable {σ : Type} (S : DirStream σ) (counter : σ → ℤ)

def myfsOpendir (s : σ) : Except Halt (ℤ × Option DirCookie × σ) :=
  if S.size s < 0 then .error .myfsDie
  else (S.loadContents s).map fun (ret, _, s) =>
    if ret ≠ 0 then (ret, none, s) else (0, some ⟨0, 0, counter s⟩, s)

/-- The counters are compared as C ints. Returns the entry, or none for `*num = 0`. -/
def myfsReaddir (s : σ) (dc : DirCookie) : Except Halt (Option Entry × DirCookie) :=
  if S.size s < 0 then .error .myfsDie
  else
    match S.contents s with
    | none => .ok (none, dc)
    | some c =>
      let size := (S.size s).toNat
      let dc :=
        if toInt32 dc.counter ≠ toInt32 (counter s) then
          ⟨walkEntries c size (dc.index - 1).toNat 0, dc.index - 1, counter s⟩
        else dc
      if size ≤ dc.curptr then .ok (none, dc)
      else .ok (some (entryAt c dc.curptr), { dc with
        curptr := nextMde dc.curptr (c (dc.curptr + 8)).toNat
        index := dc.index + 1 })

/-- What the directory code needs of its stream: a call leaves alone what it is not asked to
change, and a write that returns 0 has written everything. -/
structure Books (Ok : σ → Prop) : Prop where
  change : ∀ {s}, Ok s → ∀ c, Ok (S.change s c) ∧ counter (S.change s c) = counter s + 1 ∧
    S.contents (S.change s c) = some c ∧ S.size (S.change s c) = S.size s
  write : ∀ {s buf len n s'}, Ok s → S.write s buf len = .ok (0, n, s') →
    Ok s' ∧ counter s' = counter s ∧ S.contents s' = S.contents s ∧ n = len ∧
      S.size s' = max (S.size s) len
  truncate : ∀ {s n ret s'}, Ok s → 0 ≤ n → n ≤ S.size s → S.setFileSize s n = .ok (ret, s') →
    Ok s' ∧ counter s' = counter s ∧ S.contents s' = S.contents s ∧ S.size s' = n

end Calls

section Walking
variable {c : Buffer} {p q : ℕ} {e : Entry} {es fs : List Entry}

/-- The bytes that a list of entries takes. -/
def bytes (es : List Entry) : ℕ := (es.map Entry.size).sum

@[simp] theorem bytes_append (es fs : List Entry) : bytes (es ++ fs) = bytes es + bytes fs := by
  simp [bytes]

@[simp] theorem bytes_singleton (e : Entry) : bytes [e] = e.size := by
  simp [bytes]

theorem entryAt_eq (h : EntryAt c p e) : entryAt c p = e := by
  obtain ⟨inum, name⟩ := e
  have hname : (List.range (c (p + 8)).toNat).map (fun i => c (p + 9 + i)) = name := by
    rw [h.length]
    refine List.ext_getElem (by simp) fun i hi hi' => ?_
    have hb := h.bytes i hi'
    rw [List.getElem_map, List.getElem_range, hb]
    exact List.getD_eq_getElem _ _ hi'
  rw [entryAt, h.inum, hname]

/-- The walk over the entries in front. -/
theorem walkEntries_front (h : Packed c p (es ++ fs) q) (hp : 8 ∣ p) :
    walkEntries c q es.length p = p + bytes es := by
  induction es generalizing p with
  | nil => rfl
  | cons e es ih =>
    obtain ⟨hat, hrest⟩ := h
    have hle := hrest.le
    have hpos := e.size_spec
    rw [List.length_cons, walkEntries, if_pos (by omega), hat.next hp,
      ih hrest (Nat.dvd_add hp hpos.1), bytes, bytes, List.map_cons, List.sum_cons]
    omega

theorem packed_unique (h : Packed c p es q) (k : Packed c p fs q) : es = fs := by
  induction es generalizing p fs with
  | nil =>
    cases fs with
    | nil => rfl
    | cons f fs =>
      have hpos := f.size_spec
      have hle := k.2.le
      have heq : p = q := h
      omega
  | cons e es ih =>
    cases fs with
    | nil =>
      have hpos := e.size_spec
      have hle := h.2.le
      have heq : p = q := k
      omega
    | cons f fs =>
      have heq : e = f := by rw [← entryAt_eq h.1, ← entryAt_eq k.1]
      subst heq
      rw [ih h.2 k.2]

end Walking

section Changes
variable {σ : Type} {S : DirStream σ} {counter : σ → ℤ} {Ok : σ → Prop} {s s' : σ} {es : List Entry}

/-- An open directory with the entries `es`: they are the cached contents, up to the size. -/
structure Listed (S : DirStream σ) (Ok : σ → Prop) (s : σ) (es : List Entry) : Prop where
  sound : Ok s
  contents : ∃ c, S.contents s = some c ∧ Packed c 0 es (bytes es)
  size : S.size s = bytes es
  storable : ∀ e ∈ es, Storable e
  distinct : (es.map Entry.name).Nodup

theorem listed_unique {es' : List Entry} (h : Listed S Ok s es) (k : Listed S Ok s es') :
    es = es' := by
  obtain ⟨c, hc, hpacked⟩ := h.contents
  obtain ⟨c', hc', hpacked'⟩ := k.contents
  have hbytes : bytes es = bytes es' := by
    have h₁ := h.size
    have h₂ := k.size
    omega
  rw [hc] at hc'
  cases hc'
  rw [← hbytes] at hpacked'
  exact packed_unique hpacked hpacked'

theorem loadContents_listed {c : Buffer} (hc : S.contents s = some c) :
    S.loadContents s = .ok (0, c, s) := by
  rw [DirStream.loadContents, hc]

theorem dirLookup_absent {name : Name} (h : Listed S Ok s es) (hn : CString name)
    {inum : ℤ} {s' : σ}
    (hnot : S.dirLookup s name = .ok (ENOENT, inum, s')) : ∀ e ∈ es, e.name ≠ name := by
  rintro e he rfl
  obtain ⟨c, hc, hpacked⟩ := h.contents
  obtain ⟨pre, post, rfl⟩ := List.append_of_mem he
  have hdistinct := h.distinct
  rw [List.map_append, List.nodup_append] at hdistinct
  have hpre : ∀ x ∈ pre, x.name ≠ e.name := fun x hx =>
    hdistinct.2.2 _ (List.mem_map_of_mem hx) _ (by simp)
  obtain ⟨m, h₁, h₂⟩ := (packed_append pre (e :: post)).1 hpacked
  have hfound := findEntry_present (S.size s).toNat h₁ h₂ (Nat.dvd_zero 8)
    (fun x hx => (h.storable x (List.mem_append_left _ hx)).string) hn hn hpre rfl (by
      have hlen := hpacked.length_le
      rw [h.size, Int.toNat_natCast]
      simp only [List.length_append, List.length_cons] at hlen
      omega)
  rw [DirStream.dirLookup, loadContents_listed hc] at hnot
  dsimp only [Except.map] at hnot
  rw [if_neg (by simp), scanEntries_eq, h.size, Int.toNat_natCast] at hnot
  rw [h.size, Int.toNat_natCast] at hfound
  rw [hfound] at hnot
  cases hnot

/-- What an insertion that returns 0 does to an open directory. -/
theorem dirInsert_listed (hB : Books S counter Ok) (h : Listed S Ok s es) {name : Name} {inum : ℤ}
    {stack : Buffer} (hst : Storable ⟨inum, name⟩) (habs : ∀ e ∈ es, e.name ≠ name)
    (hins : S.dirInsert s name inum stack = .ok (0, s')) :
    Listed S Ok s' (es ++ [⟨inum, name⟩]) ∧ counter s' = counter s + 1 := by
  obtain ⟨c, hc, hpacked⟩ := h.contents
  rw [DirStream.dirInsert, loadContents_listed hc] at hins
  dsimp only [Except.bind] at hins
  rw [if_neg (by simp), h.size, Int.toNat_natCast] at hins
  have hsz : (Entry.mk inum name).size = nextMde 0 name.length := rfl
  have happended := hpacked.append hst stack
  rw [hsz] at happended
  generalize copyInto c (bytes es) (nextMde 0 name.length) (entryByte inum name stack) = ptr
    at hins happended
  obtain ⟨hok, hcount, hcont, hsize⟩ := hB.change h.sound ptr
  generalize hw : S.write (S.change s ptr) ptr _ = r at hins
  cases r with
  | error e => cases hins
  | ok r =>
    obtain ⟨ret, n, s₁⟩ := r
    cases hins
    obtain ⟨hok', hcount', hcont', -, hsize'⟩ := hB.write hok hw
    have hbytes : bytes (es ++ [⟨inum, name⟩]) = bytes es + nextMde 0 name.length := by
      rw [bytes_append, bytes_singleton, hsz]
    refine ⟨⟨hok', ⟨ptr, hcont'.trans hcont, ?_⟩, ?_, ?_, ?_⟩, hcount'.trans hcount⟩
    · rw [hbytes]
      exact happended
    · rw [hsize', hsize, h.size, hbytes]
      push_cast
      omega
    · intro e he
      rcases List.mem_append.1 he with he | he
      · exact h.storable e he
      · rw [List.mem_singleton.1 he]
        exact hst
    · rw [List.map_append, List.nodup_append]
      refine ⟨h.distinct, by simp, fun a ha b hb => ?_⟩
      obtain ⟨e, he, rfl⟩ := List.mem_map.1 ha
      rw [List.map_singleton, List.mem_singleton] at hb
      rw [hb]
      exact habs e he

/-- What a deletion that returns 0 does to an open directory. -/
theorem dirDelete_listed (hB : Books S counter Ok) (h : Listed S Ok s es) {name : Name}
    (hn : CString name) (hdel : S.dirDelete s name = .ok (0, s')) :
    ∃ e ∈ es, e.name = name ∧ Listed S Ok s' (es.erase e) ∧ counter s' = counter s + 1 := by
  obtain ⟨c, hc, hpacked⟩ := h.contents
  rw [DirStream.dirDelete] at hdel
  split at hdel
  · cases hdel
  rw [loadContents_listed hc] at hdel
  dsimp only [Except.bind] at hdel
  rw [if_neg (by simp), h.size, Int.toNat_natCast] at hdel
  by_cases habs : ∀ e ∈ es, e.name ≠ name
  · rw [findEntry_absent _ hpacked (Nat.dvd_zero 8) (fun e he => (h.storable e he).string) hn habs]
      at hdel
    cases hdel
  push Not at habs
  obtain ⟨e, he, rfl⟩ := habs
  refine ⟨e, he, rfl, ?_⟩
  obtain ⟨pre, post, rfl⟩ := List.append_of_mem he
  have hdistinct := h.distinct
  rw [List.map_append, List.nodup_append] at hdistinct
  have hpre : ∀ x ∈ pre, x.name ≠ e.name := fun x hx =>
    hdistinct.2.2 _ (List.mem_map_of_mem hx) _ (by simp)
  have herase : (pre ++ e :: post).erase e = pre ++ post := by
    rw [List.erase_append_right _ fun hx => hpre e hx rfl, List.erase_cons_head]
  obtain ⟨m, h₁, h₂⟩ := (packed_append pre (e :: post)).1 hpacked
  have hlen := hpacked.length_le
  simp only [List.length_append, List.length_cons] at hlen
  rw [findEntry_present _ h₁ h₂ (Nat.dvd_zero 8)
    (fun x hx => (h.storable x (List.mem_append_left _ hx)).string) hn hn hpre rfl
    (by omega)] at hdel
  have hgap := h₁.closeGap h₂
  have hnext : nextMde m (c (m + 8)).toNat - m = e.size := by
    rw [h₂.1.next (h₁.aligned (Nat.dvd_zero 8)), Nat.add_sub_cancel_left]
  have hle : m + e.size ≤ bytes (pre ++ e :: post) := h₂.2.le
  have hbytes : bytes (pre ++ post) = bytes (pre ++ e :: post) - e.size := by
    simp only [bytes, List.map_append, List.map_cons, List.sum_append, List.sum_cons]
    omega
  dsimp only at hdel
  rw [hnext] at hdel
  generalize closeGap c (bytes (pre ++ e :: post)) m = ptr at hdel hgap
  obtain ⟨hok, hcount, hcont, hsize⟩ := hB.change h.sound ptr
  generalize hw : S.write (S.change s ptr) ptr _ = r at hdel
  cases r with
  | error e => cases hdel
  | ok r =>
    obtain ⟨ret, n, s₁⟩ := r
    dsimp only at hdel
    split at hdel
    · -- a write that returned 0 was not short
      rename_i hshort
      cases hdel
      obtain ⟨-, -, -, rfl, hsize'⟩ := hB.write hok hw
      have hs := h.size
      omega
    rename_i hwhole
    push Not at hwhole
    obtain ⟨rfl, hnsize⟩ := hwhole
    obtain ⟨hok', hcount', hcont', rfl, hsize'⟩ := hB.write hok hw
    generalize ht : S.setFileSize s₁ _ = r at hdel
    cases r with
    | error e => cases hdel
    | ok r =>
      obtain ⟨ret, s₂⟩ := r
      cases hdel
      have hs := h.size
      obtain ⟨hok₂, hcount₂, hcont₂, hsize₂⟩ := hB.truncate hok' (by omega) (by omega) ht
      rw [herase]
      refine ⟨⟨hok₂, ⟨ptr, hcont₂.trans (hcont'.trans hcont), ?_⟩, ?_, ?_, ?_⟩,
        hcount₂.trans (hcount'.trans hcount)⟩
      · rw [hbytes]
        exact hgap
      · rw [hsize₂, hbytes]
      · intro x hx
        refine h.storable x ?_
        rcases List.mem_append.1 hx with hx | hx
        · exact List.mem_append_left _ hx
        · exact List.mem_append_right _ (List.mem_cons_of_mem _ hx)
      · rw [← herase]
        exact h.distinct.sublist (List.erase_sublist.map _)

end Changes

section Runs
variable {σ : Type} (S : DirStream σ)

inductive Change where
  | insert (name : Name) (inum : ℤ) (stack : Buffer)
  | delete (name : Name)

def Change.run (s : σ) : Change → Except Halt (ℤ × σ)
  | .insert name inum stack => S.dirInsert s name inum stack
  | .delete name => S.dirDelete s name

def next (s : σ) (ch : Change) : σ :=
  match ch.run S s with
  | .ok (_, s') => s'
  | .error _ => s

/-- Names are C strings, and what is inserted fits an entry and is not found. -/
def Change.Valid (s : σ) : Change → Prop
  | .insert name inum _ => Storable ⟨inum, name⟩ ∧
      ∃ inum' s', S.dirLookup s name = .ok (ENOENT, inum', s')
  | .delete name => CString name

/-- The call comes back, and one that fails has changed nothing. -/
def Settled (s : σ) (ch : Change) : Prop :=
  ch.Valid S s ∧ ∃ ret s', ch.run S s = .ok (ret, s') ∧ (ret = 0 ∨ s' = s)

/-- A directory that is being read: what has been returned, and whether the last call said
`*num = 0`. -/
structure Session (σ : Type) where
  dir : σ
  cookie : DirCookie
  returned : List Entry
  ended : Bool

variable (counter : σ → ℤ)

/-- Calls on the directory, and then one `myfs_readdir`. -/
def step (x : Session σ) (gap : List Change) : Session σ :=
  let s := runTrace (next S) x.dir gap
  match myfsReaddir S counter s x.cookie with
  | .ok (some e, dc) => ⟨s, dc, x.returned ++ [e], false⟩
  | .ok (none, dc) => ⟨s, dc, x.returned, true⟩
  | .error _ => { x with dir := s }

/-- The cursor of an open directory is behind `front` and in front of `rest`. -/
structure Between (Ok : σ → Prop) (s : σ) (dc : DirCookie) (front rest : List Entry) : Prop where
  listed : Listed S Ok s (front ++ rest)
  curptr : dc.curptr = bytes front
  counter : dc.counter = counter s

end Runs

section Reading
variable {σ : Type} {S : DirStream σ} {counter : σ → ℤ} {Ok : σ → Prop}
  {s : σ} {dc : DirCookie} {front rest es : List Entry}

/-- A call on a directory that has not changed returns the next entry. -/
theorem readdir_synced (h : Between S counter Ok s dc front rest) :
    (rest = [] → myfsReaddir S counter s dc = .ok (none, dc)) ∧
    ∀ e tail, rest = e :: tail → ∃ dc', myfsReaddir S counter s dc = .ok (some e, dc') ∧
      Between S counter Ok s dc' (front ++ [e]) tail ∧ dc'.index = dc.index + 1 := by
  obtain ⟨c, hc, hpacked⟩ := h.listed.contents
  have hsize := h.listed.size
  have hptr := h.curptr
  have hsame : ¬toInt32 dc.counter ≠ toInt32 (counter s) := by rw [h.counter]; simp
  rw [myfsReaddir, if_neg (by omega), hc]
  dsimp only
  rw [if_neg hsame, hsize, Int.toNat_natCast, bytes_append]
  constructor
  · rintro rfl
    rw [if_pos (by rw [hptr]; simp [bytes])]
  · rintro e tail rfl
    obtain ⟨m, hfront, hat, htail⟩ := (packed_append front (e :: tail)).1 hpacked
    have hm : m = bytes front := by
      have := hfront.sum_sizes
      rw [bytes]
      omega
    have hpos := e.size_spec
    have hdvd := hfront.aligned (Nat.dvd_zero 8)
    subst hm
    have hcons : bytes (e :: tail) = e.size + bytes tail := by simp [bytes]
    rw [if_neg (by omega), hptr, entryAt_eq hat, hat.next hdvd]
    refine ⟨_, rfl, ⟨?_, ?_, h.counter⟩, rfl⟩
    · rw [List.append_assoc]
      exact h.listed
    · simp

/-- A call that sees another counter first moves the cursor, behind one entry less. -/
theorem readdir_resync (h : Listed S Ok s es) (hmoved : toInt32 dc.counter ≠ toInt32 (counter s))
    {k : ℕ} (hk : (dc.index - 1).toNat = k) (hindex : k ≤ es.length) :
    ∃ dc', myfsReaddir S counter s dc = myfsReaddir S counter s dc' ∧ dc'.index = dc.index - 1 ∧
      Between S counter Ok s dc' (es.take k) (es.drop k) := by
  obtain ⟨c, hc, hpacked⟩ := h.contents
  have hsize := h.size
  have hes : es.take k ++ es.drop k = es := List.take_append_drop _ _
  have hwalk : walkEntries c (S.size s).toNat (dc.index - 1).toNat 0 = bytes (es.take k) := by
    have hpacked' : Packed c 0 (es.take k ++ es.drop k) (bytes es) := by rwa [hes]
    have := walkEntries_front hpacked' (Nat.dvd_zero 8)
    rw [List.length_take, Nat.min_eq_left hindex, Nat.zero_add] at this
    rwa [hsize, Int.toNat_natCast, hk]
  refine ⟨⟨bytes (es.take k), dc.index - 1, counter s⟩, ?_, rfl, ?_, rfl, rfl⟩
  · rw [myfsReaddir, myfsReaddir, hc]
    dsimp only
    rw [if_pos hmoved, hwalk]
    simp
  · rwa [hes]

theorem toInt32_moved {a b : ℤ} (h : a < b) (hb : b < a + 2 ^ 32) : toInt32 a ≠ toInt32 b := by
  intro heq
  rw [toInt32, toInt32, Int.bmod_eq_bmod_iff_bmod_sub_eq_zero, ← Int.dvd_iff_bmod_eq_zero] at heq
  obtain ⟨k, hk⟩ := heq
  omega

/-- The session after a call that finds the cursor in this place. -/
theorem step_of_read {x : Session σ} {gap : List Change}
    (h : Between S counter Ok (runTrace (next S) x.dir gap) dc front rest)
    (hread : myfsReaddir S counter (runTrace (next S) x.dir gap) x.cookie =
      myfsReaddir S counter (runTrace (next S) x.dir gap) dc) :
    (rest = [] ∧ step S counter x gap = ⟨runTrace (next S) x.dir gap, dc, x.returned, true⟩) ∨
    ∃ e tail dc', rest = e :: tail ∧ dc'.index = dc.index + 1 ∧
      Between S counter Ok (runTrace (next S) x.dir gap) dc' (front ++ [e]) tail ∧
      step S counter x gap = ⟨runTrace (next S) x.dir gap, dc', x.returned ++ [e], false⟩ := by
  obtain ⟨hnone, hsome⟩ := readdir_synced h
  cases rest with
  | nil =>
    refine .inl ⟨rfl, ?_⟩
    rw [step, hread, hnone rfl]
  | cons e tail =>
    obtain ⟨dc', hcall, hbetween, hindex⟩ := hsome e tail rfl
    refine .inr ⟨e, tail, dc', rfl, hindex, hbetween, ?_⟩
    rw [step, hread, hcall]

theorem step_dir (x : Session σ) (gap : List Change) :
    (step S counter x gap).dir = runTrace (next S) x.dir gap := by
  rw [step]
  split <;> rfl

/-- The session that `myfs_opendir` starts. -/
theorem opendir_starts {s₀ : σ} (hopen : myfsOpendir S counter s₀ = .ok (0, some dc, s))
    (h : Listed S Ok s es) : Between S counter Ok s dc [] es ∧ dc.index = 0 := by
  rw [myfsOpendir] at hopen
  split at hopen
  · cases hopen
  generalize S.loadContents s₀ = r at hopen
  cases r with
  | error e => cases hopen
  | ok r =>
    obtain ⟨ret, c, s₁⟩ := r
    dsimp only [Except.map] at hopen
    split at hopen
    · cases hopen
    · cases hopen
      exact ⟨⟨h, rfl, rfl⟩, rfl⟩

end Reading

section Gaps
variable {σ : Type} {S : DirStream σ} {counter : σ → ℤ} {Ok : σ → Prop} {s : σ}
  {front rest : List Entry}

theorem next_of_run {ch : Change} {ret : ℤ} {s' : σ} (h : ch.run S s = .ok (ret, s')) :
    next S s ch = s' := by
  rw [next, h]

/-- What one call does to an open directory whose entries are in two parts: nothing, or it
counts the change and appends an entry, or takes one out of a part. -/
theorem change_split (hB : Books S counter Ok) {ch : Change} (hch : Settled S s ch)
    (h : Listed S Ok s (front ++ rest)) :
    next S s ch = s ∨ counter (next S s ch) = counter s + 1 ∧
      ((∃ e, Listed S Ok (next S s ch) (front ++ (rest ++ [e]))) ∨
        (∃ e ∈ front, ch = .delete e.name ∧ Listed S Ok (next S s ch) (front.erase e ++ rest)) ∨
        ∃ e ∈ rest, ch = .delete e.name ∧ e ∉ front ∧
          Listed S Ok (next S s ch) (front ++ rest.erase e)) := by
  obtain ⟨hvalid, ret, s', hrun, rfl | rfl⟩ := hch
  swap
  · exact .inl (next_of_run hrun)
  right
  rw [next_of_run hrun]
  cases ch with
  | insert name inum stack =>
    obtain ⟨hst, inum', s'', hnot⟩ := hvalid
    obtain ⟨hlisted, hcount⟩ := dirInsert_listed hB h hst (dirLookup_absent h hst.string hnot) hrun
    rw [List.append_assoc] at hlisted
    exact ⟨hcount, .inl ⟨_, hlisted⟩⟩
  | delete name =>
    obtain ⟨e, he, rfl, hlisted, hcount⟩ := dirDelete_listed hB h hvalid hrun
    by_cases hfront : e ∈ front
    · rw [List.erase_append_left _ hfront] at hlisted
      exact ⟨hcount, .inr (.inl ⟨e, hfront, rfl, hlisted⟩)⟩
    · rw [List.erase_append_right _ hfront] at hlisted
      exact ⟨hcount,
        .inr (.inr ⟨e, (List.mem_append.1 he).resolve_left hfront, rfl, hfront, hlisted⟩)⟩

def deletes (name : Name) : Change → Bool
  | .delete n => n == name
  | _ => false

/-- A deletion that goes through, by its number alone. -/
theorem delete_goes (hB : Books S counter Ok) {es : List Entry} (h : Listed S Ok s es) {e : Entry}
    (he : e ∈ es) (hdel : (S.dirDelete s e.name).map Prod.fst = .ok 0) :
    S.dirDelete s e.name = .ok (0, next S s (.delete e.name)) ∧
      Settled S s (.delete e.name) ∧ Listed S Ok (next S s (.delete e.name)) (es.erase e) := by
  cases hrun : S.dirDelete s e.name with
  | error err =>
    rw [hrun] at hdel
    cases hdel
  | ok r =>
    obtain ⟨ret, s'⟩ := r
    rw [hrun] at hdel
    obtain rfl : ret = 0 := Except.ok.inj hdel
    have hstring := (h.storable e he).string
    obtain ⟨e', he', hname, hlisted, -⟩ := dirDelete_listed hB h hstring hrun
    obtain rfl : e' = e := List.inj_on_of_nodup_map h.distinct he' he hname
    have hnext : next S s (.delete e'.name) = s' := next_of_run hrun
    rw [hnext]
    exact ⟨rfl, ⟨hstring, 0, s', hrun, .inl rfl⟩, hlisted⟩

/-- How many of the entries a gap deletes. -/
def deletedIn (gap : List Change) (es : List Entry) : ℕ :=
  es.countP fun e => gap.any (deletes e.name)

theorem deletedIn_cons (ch : Change) (gap : List Change) (es : List Entry) :
    deletedIn gap es ≤ deletedIn (ch :: gap) es := by
  refine List.countP_mono_left fun e _ h => ?_
  rw [List.any_cons, h, Bool.or_true]

theorem deletedIn_erase {e : Entry} {es : List Entry} (gap : List Change) (he : e ∈ es) :
    deletedIn gap (es.erase e) + 1 ≤ deletedIn (.delete e.name :: gap) es := by
  have hself : (Change.delete e.name :: gap).any (deletes e.name) = true := by
    simp [deletes]
  have hmono := deletedIn_cons (.delete e.name) gap (es.erase e)
  calc deletedIn gap (es.erase e) + 1
      ≤ deletedIn (.delete e.name :: gap) (es.erase e) + 1 := by omega
    _ = deletedIn (.delete e.name :: gap) (e :: es.erase e) := by
      rw [deletedIn, deletedIn, List.countP_cons, if_pos hself]
    _ = deletedIn (.delete e.name :: gap) es := ((List.perm_cons_erase he).countP_eq _).symm

/-- The entry is in the listing. -/
def Present (S : DirStream σ) (Ok : σ → Prop) (e : Entry) (s : σ) : Prop :=
  ∃ es, Listed S Ok s es ∧ e ∈ es

/-- What a gap does to the two parts of an open directory. -/
structure GapEffect (S : DirStream σ) (counter : σ → ℤ) (Ok : σ → Prop) (s : σ)
    (gap : List Change) (front rest front' rest' : List Entry) : Prop where
  listed : Listed S Ok (runTrace (next S) s gap) (front' ++ rest')
  counted : counter s ≤ counter (runTrace (next S) s gap)
  bounded : counter (runTrace (next S) s gap) ≤ counter s + gap.length
  still : counter (runTrace (next S) s gap) = counter s → front' = front ∧ rest' = rest
  front : front.length ≤ front'.length + deletedIn gap front
  kept : ∀ e ∈ rest, EveryState (next S) (Present S Ok e) s gap → e ∈ rest'

theorem gap_effect (hB : Books S counter Ok) (gap : List Change)
    (hrun : EveryStep (next S) (Settled S) s gap) (h : Listed S Ok s (front ++ rest)) :
    ∃ front' rest', GapEffect S counter Ok s gap front rest front' rest' := by
  induction gap generalizing s front rest with
  | nil =>
    exact ⟨front, rest, h, le_rfl, by simp, fun _ => ⟨rfl, rfl⟩, by omega, fun e he _ => he⟩
  | cons ch gap ih =>
    obtain ⟨hch, hgap⟩ := hrun
    rcases change_split hB hch h with hsame | ⟨hcount, hparts⟩
    · rw [hsame] at hgap
      obtain ⟨front', rest', g⟩ := ih hgap h
      refine ⟨front', rest', ?_, ?_, ?_, ?_, ?_, fun e he hstay => ?_⟩
      · rw [runTrace_cons, hsame]
        exact g.listed
      · rw [runTrace_cons, hsame]
        exact g.counted
      · have := g.bounded
        rw [runTrace_cons, hsame, List.length_cons]
        omega
      · rw [runTrace_cons, hsame]
        exact g.still
      · have := g.front
        have := deletedIn_cons ch gap front
        omega
      · have hstay := hstay.2
        rw [hsame] at hstay
        exact g.kept e he hstay
    · -- the parts behind the first call, and what that call took from them
      have hrest : ∀ front₁ rest₁, Listed S Ok (next S s ch) (front₁ ++ rest₁) →
          front.length + deletedIn gap front₁ ≤ front₁.length + deletedIn (ch :: gap) front →
          (∀ e ∈ rest, Present S Ok e (next S s ch) → e ∈ rest₁) →
          ∃ front' rest', GapEffect S counter Ok s (ch :: gap) front rest front' rest' := by
        intro front₁ rest₁ hlisted hfront hkept
        obtain ⟨front', rest', g⟩ := ih hgap hlisted
        have hcounted := g.counted
        have hbounded := g.bounded
        have hlen := g.front
        refine ⟨front', rest', g.listed, ?_, ?_, fun heq => ?_, by omega, fun e he hstay => ?_⟩
        · rw [runTrace_cons]
          omega
        · rw [runTrace_cons, List.length_cons]
          push_cast
          omega
        · rw [runTrace_cons] at heq
          omega
        · exact g.kept e (hkept e he hstay.2.head) hstay.2
      rcases hparts with ⟨new, hlisted⟩ | ⟨e, hmem, rfl, hlisted⟩ | ⟨e, hmem, rfl, hnot, hlisted⟩
      · have := deletedIn_cons ch gap front
        exact hrest front (rest ++ [new]) hlisted (by omega) fun e he _ => List.mem_append_left _ he
      · have hlen := List.length_erase_of_mem hmem
        have hpos := List.length_pos_of_mem hmem
        have := deletedIn_erase gap hmem
        exact hrest (front.erase e) rest hlisted (by omega) fun e he _ => he
      · have := deletedIn_cons (.delete e.name) gap front
        refine hrest front (rest.erase e) hlisted (by omega) fun x hx hpresent => ?_
        obtain ⟨es, hes, hxes⟩ := hpresent
        rw [listed_unique hes hlisted, List.mem_append] at hxes
        refine hxes.resolve_left fun hxfront => ?_
        have hdistinct := h.distinct
        rw [List.map_append, List.nodup_append] at hdistinct
        exact hdistinct.2.2 _ (List.mem_map_of_mem hxfront) _ (List.mem_map_of_mem hx) rfl

end Gaps

section Listing
variable {σ : Type} {S : DirStream σ} {counter : σ → ℤ} {Ok : σ → Prop}
  {x : Session σ} {gap : List Change} {front rest : List Entry}

/-- Of the entries in front of the cursor, the gap deletes at most one. -/
def FewPassedDeleted (S : DirStream σ) (Ok : σ → Prop) (x : Session σ) (gap : List Change) : Prop :=
  ∀ front rest, Listed S Ok x.dir (front ++ rest) → x.cookie.curptr = bytes front →
    deletedIn gap front ≤ 1

/-- The entry has been returned or is still to come. -/
def Tracks (S : DirStream σ) (counter : σ → ℤ) (Ok : σ → Prop) (e : Entry) (x : Session σ) : Prop :=
  ∃ front rest, Between S counter Ok x.dir x.cookie front rest ∧
    x.cookie.index ≤ front.length ∧ (e ∈ x.returned ∨ e ∈ rest) ∧
    (x.ended = true → e ∈ x.returned)

theorem tracks_read {dc : DirCookie} {e : Entry}
    (h : Between S counter Ok (runTrace (next S) x.dir gap) dc front rest)
    (hread : myfsReaddir S counter (runTrace (next S) x.dir gap) x.cookie =
      myfsReaddir S counter (runTrace (next S) x.dir gap) dc)
    (hindex : dc.index ≤ front.length) (he : e ∈ x.returned ∨ e ∈ rest) :
    Tracks S counter Ok e (step S counter x gap) := by
  rcases step_of_read h hread with ⟨rfl, hstep⟩ | ⟨a, tail, dc', rfl, hindex', hbetween, hstep⟩
  · have he : e ∈ x.returned := he.resolve_right (List.not_mem_nil)
    rw [hstep]
    exact ⟨front, [], h, hindex, .inl he, fun _ => he⟩
  · rw [hstep]
    refine ⟨front ++ [a], tail, hbetween, ?_, ?_, fun h => by cases h⟩
    · dsimp only
      rw [List.length_append, List.length_singleton]
      push_cast
      omega
    · rcases he with he | he
      · exact .inl (List.mem_append_left _ he)
      · rcases List.mem_cons.1 he with rfl | he
        · exact .inl (List.mem_append_right _ (List.mem_singleton.2 rfl))
        · exact .inr he

/-- One gap and the call behind it. -/
theorem tracks_step (hB : Books S counter Ok) {e : Entry} (h : Tracks S counter Ok e x)
    (hrun : EveryStep (next S) (Settled S) x.dir gap) (hlen : gap.length < 2 ^ 32)
    (hfew : FewPassedDeleted S Ok x gap)
    (hstay : EveryState (next S) (Present S Ok e) x.dir gap) :
    Tracks S counter Ok e (step S counter x gap) := by
  obtain ⟨front, rest, hb, hindex, he, _⟩ := h
  obtain ⟨front', rest', g⟩ := gap_effect hB gap hrun hb.listed
  have he' : e ∈ x.returned ∨ e ∈ rest' := he.imp_right fun h => g.kept e h hstay
  by_cases hstill : counter (runTrace (next S) x.dir gap) = counter x.dir
  · obtain ⟨rfl, rfl⟩ := g.still hstill
    exact tracks_read ⟨g.listed, hb.curptr, hb.counter.trans hstill.symm⟩ rfl hindex he'
  · have hmoved : toInt32 x.cookie.counter ≠ toInt32 (counter (runTrace (next S) x.dir gap)) := by
      have hlow := g.counted
      have hhigh := g.bounded
      rw [hb.counter]
      exact toInt32_moved (by omega) (by omega)
    have hdeleted := hfew front rest hb.listed hb.curptr
    have hfront := g.front
    have hback : (x.cookie.index - 1).toNat ≤ front'.length := by omega
    obtain ⟨dc, hread, hdc, hbetween⟩ := readdir_resync g.listed hmoved rfl (by
      rw [List.length_append]
      omega)
    refine tracks_read hbetween hread ?_ (he'.imp_right fun h => ?_)
    · rw [hdc, List.length_take, List.length_append]
      omega
    · rw [List.drop_append_of_le_length hback]
      exact List.mem_append_right _ h

/-- Over a whole session. -/
theorem tracks_run (hB : Books S counter Ok) {e : Entry} (h : Tracks S counter Ok e x)
    (gaps : List (List Change))
    (hrun : EveryStep (step S counter) (fun x gap => EveryStep (next S) (Settled S) x.dir gap ∧
      gap.length < 2 ^ 32 ∧ FewPassedDeleted S Ok x gap) x gaps)
    (hstays : EveryStep (step S counter) (fun x gap =>
      EveryState (next S) (Present S Ok e) x.dir gap) x gaps) :
    Tracks S counter Ok e (runTrace (step S counter) x gaps) := by
  refine (everyState_of_step ?_ h (hrun.and hstays)).last
  rintro x gap hx ⟨⟨hset, hlen, hfew⟩, hstay⟩
  exact tracks_step hB hx hset hlen hfew hstay

end Listing

section DeleteWhileListing
variable {σ : Type} {S : DirStream σ} {counter : σ → ℤ} {Ok : σ → Prop}
  {x : Session σ} {gap : List Change} {es : List Entry} {n : ℕ}

/-- Between two calls nothing happens, or the entry just returned is removed. -/
def RemovesReturned (S : DirStream σ) (x : Session σ) (gap : List Change) : Prop :=
  gap = [] ∨ ∃ e s', x.ended = false ∧ x.returned.getLast? = some e ∧
    e.name ≠ [46] ∧ e.name ≠ [46, 46] ∧ gap = [.delete e.name] ∧
    S.dirDelete x.dir e.name = .ok (0, s')

/-- The state behind `n` calls: they have returned `n` entries of the listing `es` in order,
and what is behind the cursor is the rest of it. -/
def Visits (S : DirStream σ) (counter : σ → ℤ) (Ok : σ → Prop) (es : List Entry) (n : ℕ)
    (x : Session σ) : Prop :=
  ∃ front, Between S counter Ok x.dir x.cookie front (es.drop n) ∧
    x.cookie.index = front.length ∧ x.returned = es.take n ∧ (x.ended = true ↔ es.length < n) ∧
    (x.ended = false → x.returned.getLast? = front.getLast?)

theorem visits_read {dc : DirCookie} {front : List Entry}
    (h : Between S counter Ok (runTrace (next S) x.dir gap) dc front (es.drop n))
    (hread : myfsReaddir S counter (runTrace (next S) x.dir gap) x.cookie =
      myfsReaddir S counter (runTrace (next S) x.dir gap) dc)
    (hindex : dc.index = front.length) (hreturned : x.returned = es.take n) :
    Visits S counter Ok es (n + 1) (step S counter x gap) := by
  rcases step_of_read h hread with ⟨hrest, hstep⟩ | ⟨e, tail, dc', hrest, hindex', hbetween, hstep⟩
  · have hlen : es.length ≤ n := List.drop_eq_nil_iff.1 hrest
    rw [hstep]
    refine ⟨front, ?_, hindex, ?_, by simp; omega, fun h => by cases h⟩
    · rw [List.drop_of_length_le (by omega)]
      rwa [hrest] at h
    · rw [hreturned, List.take_of_length_le hlen, List.take_of_length_le (by omega)]
  · have hlt : n < es.length := by
      by_contra hge
      rw [List.drop_of_length_le (by omega)] at hrest
      cases hrest
    have htail : es.drop (n + 1) = tail := by
      rw [← List.tail_drop, hrest, List.tail_cons]
    have htake : es.take (n + 1) = es.take n ++ [e] := by
      have hget : es[n]? = some e := by
        rw [← List.head?_drop, hrest, List.head?_cons]
      rw [List.take_add_one, hget, Option.toList_some]
    rw [hstep]
    refine ⟨front ++ [e], ?_, ?_, ?_, by simp; omega, fun _ => ?_⟩
    · rw [htail]
      exact hbetween
    · rw [hindex', hindex, List.length_append, List.length_singleton]
      push_cast
      rfl
    · rw [hreturned, htake]
    · rw [List.getLast?_concat, List.getLast?_concat]

theorem visits_step (hB : Books S counter Ok) (h : Visits S counter Ok es n x)
    (hgap : RemovesReturned S x gap) : Visits S counter Ok es (n + 1) (step S counter x gap) := by
  obtain ⟨front, hb, hindex, hreturned, -, hlast⟩ := h
  rcases hgap with rfl | ⟨e, s', hended, he, -, -, rfl, hdel⟩
  · exact visits_read hb rfl hindex hreturned
  · rw [hlast hended] at he
    obtain ⟨front₀, rfl⟩ := List.getLast?_eq_some_iff.1 he
    have hdistinct := hb.listed.distinct
    have hstring := (hb.listed.storable e (by simp)).string
    obtain ⟨e', he', hname, hlisted, hcount⟩ := dirDelete_listed hB hb.listed hstring hdel
    obtain rfl : e' = e := List.inj_on_of_nodup_map hdistinct he' (by simp) hname
    have hnext : next S x.dir (.delete e'.name) = s' := next_of_run hdel
    have hnot : e' ∉ front₀ := by
      intro hmem
      rw [List.append_assoc, List.map_append, List.nodup_append] at hdistinct
      exact hdistinct.2.2 _ (List.mem_map_of_mem hmem) _ (by simp) rfl
    rw [List.append_assoc, List.erase_append_right _ hnot, List.singleton_append,
      List.erase_cons_head] at hlisted
    have hmoved : toInt32 x.cookie.counter ≠ toInt32 (counter s') := by
      rw [hb.counter]
      exact toInt32_moved (by omega) (by omega)
    rw [List.length_append, List.length_singleton] at hindex
    obtain ⟨dc, hread, hdc, hbetween⟩ := readdir_resync hlisted hmoved
      (show (x.cookie.index - 1).toNat = front₀.length by omega) (by simp)
    rw [List.take_left, List.drop_left] at hbetween
    rw [← hnext] at hbetween hread
    exact visits_read hbetween hread (by rw [hdc, hindex]; push_cast; omega) hreturned

theorem visits_run (hB : Books S counter Ok) (gaps : List (List Change))
    (h : Visits S counter Ok es n x)
    (hrun : EveryStep (step S counter) (RemovesReturned S) x gaps) :
    Visits S counter Ok es (n + gaps.length) (runTrace (step S counter) x gaps) := by
  induction gaps generalizing x n with
  | nil => exact h
  | cons gap gaps ih =>
    rw [List.length_cons, Nat.add_comm gaps.length, ← Nat.add_assoc]
    exact ih (visits_step hB h hrun.1) hrun.2

end DeleteWhileListing

section Myfs
variable {s₀ s : Myfs × Inode} {dc : DirCookie} {es : List Entry}

/-- The counter in the `etc` part of the inode. -/
def changes (s : Myfs × Inode) : ℤ := s.2.counter

/-- The size of a stream on a disk with blocks. -/
structure InRange (s : Myfs × Inode) : Prop where
  blockSize : 0 < s.1.dsb.blockSize
  nonneg : 0 ≤ s.2.data.size
  bounded : s.2.data.size ≤ maxDoubleIndirectRange s.1.dsb.blockSize

theorem myfsStream_books : Books myfsStream changes InRange where
  change := fun h c => ⟨⟨h.blockSize, h.nonneg, h.bounded⟩, rfl, rfl, rfl⟩
  write := by
    rintro ⟨fs, mi⟩ buf len n ⟨fs', mi'⟩ ⟨hblock, hnonneg, hbounded⟩ hcall
    change (myfsWriteDataStream fs mi 0 buf len).map _ = _ at hcall
    generalize hw : myfsWriteDataStream fs mi 0 buf len = r at hcall
    cases r with
    | error e => cases hcall
    | ok r =>
      obtain ⟨ret, count, mi₁, fs₁⟩ := r
      cases hcall
      dsimp only at hblock hnonneg hbounded
      obtain ⟨hetc, hbs, hlen, hsize, hbound⟩ := StreamResults.write_results hblock hnonneg hw
      have hrange : InRange (fs', mi') := by
        refine ⟨?_, ?_, ?_⟩
        · dsimp only
          omega
        · dsimp only
          omega
        · dsimp only
          rw [hbs]
          exact hbound hbounded
      exact ⟨hrange, congrArg Prod.snd hetc, congrArg Prod.fst hetc, hlen, hsize⟩
  truncate := by
    rintro ⟨fs, mi⟩ n ret ⟨fs', mi'⟩ ⟨hblock, hnonneg, hbounded⟩ h₀ hn hcall
    change (myfsSetFileSize fs mi n).map _ = _ at hcall
    change n ≤ mi.data.size at hn
    generalize hw : myfsSetFileSize fs mi n = r at hcall
    cases r with
    | error e => cases hcall
    | ok r =>
      obtain ⟨ret₁, mi₁, fs₁⟩ := r
      cases hcall
      dsimp only at hblock hbounded
      obtain ⟨hetc, hbs, hsize⟩ := StreamResults.truncate_results h₀ hn hbounded hw
      have hrange : InRange (fs', mi') := by
        refine ⟨?_, ?_, ?_⟩
        · dsimp only
          omega
        · dsimp only
          omega
        · dsimp only
          rw [hbs]
          omega
      exact ⟨hrange, congrArg Prod.snd hetc, congrArg Prod.fst hetc, hsize⟩

/-- Reading a directory and removing what was just read returns its listing, and ends with it. -/
theorem delete_while_listing (hopen : myfsOpendir myfsStream changes s₀ = .ok (0, some dc, s))
    (hdir : Listed myfsStream InRange s es) (gaps : List (List Change))
    (hrun : EveryStep (step myfsStream changes) (RemovesReturned myfsStream)
      ⟨s, dc, [], false⟩ gaps) :
    (runTrace (step myfsStream changes) ⟨s, dc, [], false⟩ gaps).returned = es.take gaps.length ∧
    ((runTrace (step myfsStream changes) ⟨s, dc, [], false⟩ gaps).ended = true ↔
      es.length < gaps.length) := by
  obtain ⟨hbetween, hindex⟩ := opendir_starts hopen hdir
  have hstart : Visits myfsStream changes InRange es 0 ⟨s, dc, [], false⟩ :=
    ⟨[], hbetween, hindex, rfl, by simp, fun _ => rfl⟩
  obtain ⟨_, _, _, hreturned, hended, _⟩ := visits_run myfsStream_books gaps hstart hrun
  rw [Nat.zero_add] at hreturned hended
  exact ⟨hreturned, hended⟩

/-- A directory with the files `a`, `b` and `c`. -/
def threeFiles : List Entry := [⟨1, [46]⟩, ⟨1, [46, 46]⟩, ⟨2, [97]⟩, ⟨3, [98]⟩, ⟨4, [99]⟩]

def threeBytes (i : ℕ) : UInt8 :=
  match threeFiles[i / 16]? with
  | some e => entryByte e.inum e.name (fun _ => 0) (i % 16)
  | none => 0

/-- It is in block 4 of a full disk, its contents in memory. -/
def threeDir : Myfs × Inode :=
  ({ fullDisk with dataArea := Function.update fullDisk.dataArea 4 threeBytes },
    { setSize (setDirect (freshInode fullDisk mySIfdir 1) 0 4) 80 with
      contents := some threeBytes })

def openThree : Session (Myfs × Inode) := ⟨threeDir, ⟨0, 0, 0⟩, [], false⟩

theorem threeDir_opens :
    myfsOpendir myfsStream changes threeDir = .ok (0, some ⟨0, 0, 0⟩, threeDir) := by
  have hsize : ¬myfsStream.size threeDir < 0 := by decide +kernel
  have hload : myfsStream.loadContents threeDir = .ok (0, threeBytes, threeDir) := rfl
  rw [myfsOpendir, if_neg hsize, hload]
  rfl

theorem threeDir_listed : Listed myfsStream InRange threeDir threeFiles := by
  exact ⟨⟨by decide +kernel, by decide +kernel, by decide +kernel⟩,
    ⟨threeBytes, rfl, by decide +kernel⟩, by decide +kernel, by decide +kernel, by decide⟩

/-- Once `a` has been returned it is removed; then `b` and `c` follow. -/
def removeA : List (List Change) := [[], [], [], [.delete [97]], [], []]

theorem threeDir_delete : (myfsStream.dirDelete threeDir [97]).map Prod.fst = .ok 0 := by
  decide +kernel

theorem delete_while_listing_three :
    (runTrace (step myfsStream changes) openThree removeA).returned = threeFiles ∧
    (runTrace (step myfsStream changes) openThree removeA).ended = true := by
  have hdel := delete_goes myfsStream_books threeDir_listed (show ⟨2, [97]⟩ ∈ threeFiles by decide)
    threeDir_delete
  have hrun : EveryStep (step myfsStream changes) (RemovesReturned myfsStream)
      openThree removeA := by
    refine ⟨.inl rfl, .inl rfl, .inl rfl, .inr ⟨⟨2, [97]⟩, next myfsStream threeDir (.delete [97]),
      by decide +kernel, by decide +kernel, by decide, by decide, rfl, ?_⟩, .inl rfl, .inl rfl,
      trivial⟩
    rw [step_dir, step_dir, step_dir]
    exact hdel.1
  obtain ⟨hreturned, hended⟩ := delete_while_listing threeDir_opens threeDir_listed removeA hrun
  exact ⟨hreturned, hended.2 (by decide)⟩

/-- A listing misses nothing that stays, as long as no gap deletes more than one of the entries
that the cursor has passed. -/
theorem listing_misses_nothing (hopen : myfsOpendir myfsStream changes s₀ = .ok (0, some dc, s))
    (hdir : Listed myfsStream InRange s es) (gaps : List (List Change))
    (hrun : EveryStep (step myfsStream changes) (fun x gap =>
      EveryStep (next myfsStream) (Settled myfsStream) x.dir gap ∧ gap.length < 2 ^ 32 ∧
        FewPassedDeleted myfsStream InRange x gap) ⟨s, dc, [], false⟩ gaps)
    (hended : (runTrace (step myfsStream changes) ⟨s, dc, [], false⟩ gaps).ended = true)
    (e : Entry) (he : e ∈ es)
    (hstays : EveryStep (step myfsStream changes) (fun x gap =>
      EveryState (next myfsStream) (Present myfsStream InRange e) x.dir gap)
        ⟨s, dc, [], false⟩ gaps) :
    e ∈ (runTrace (step myfsStream changes) ⟨s, dc, [], false⟩ gaps).returned := by
  obtain ⟨hbetween, hindex⟩ := opendir_starts hopen hdir
  have hstart : Tracks myfsStream changes InRange e ⟨s, dc, [], false⟩ :=
    ⟨[], es, hbetween, by rw [hindex]; rfl, .inr he, fun h => by cases h⟩
  obtain ⟨_, _, _, _, _, hlast⟩ := tracks_run myfsStream_books hstart gaps hrun hstays
  exact hlast hended

theorem threeDir_kept {e : Entry} (he : e ∈ threeFiles.erase ⟨2, [97]⟩) :
    Present myfsStream InRange e threeDir ∧
      Present myfsStream InRange e (next myfsStream threeDir (.delete [97])) := by
  obtain ⟨-, -, hlisted⟩ := delete_goes myfsStream_books threeDir_listed
    (show ⟨2, [97]⟩ ∈ threeFiles by decide) threeDir_delete
  exact ⟨⟨_, threeDir_listed, List.mem_of_mem_erase he⟩, ⟨_, hlisted, he⟩⟩

theorem listing_misses_nothing_three :
    ⟨4, [99]⟩ ∈ (runTrace (step myfsStream changes) openThree removeA).returned := by
  obtain ⟨-, hsettled, hlisted⟩ := delete_goes myfsStream_books threeDir_listed
    (show ⟨2, [97]⟩ ∈ threeFiles by decide) threeDir_delete
  obtain ⟨hfirst, hthen⟩ := threeDir_kept (show ⟨4, [99]⟩ ∈ threeFiles.erase ⟨2, [97]⟩ by decide)
  have hquiet : ∀ x, FewPassedDeleted myfsStream InRange x [] := by
    intro x front rest _ _
    simp [deletedIn]
  have hfew : ∀ x, x.dir = threeDir → FewPassedDeleted myfsStream InRange x [.delete [97]] := by
    rintro x hdir front rest hlisted' -
    rw [hdir] at hlisted'
    have hcount : deletedIn [.delete [97]] (front ++ rest) = 1 := by
      rw [listed_unique hlisted' threeDir_listed]
      decide
    rw [deletedIn, List.countP_append] at hcount
    rw [deletedIn]
    omega
  have hstart : ∀ {x : Session (Myfs × Inode)}, x.dir = threeDir →
      EveryState (next myfsStream) (Present myfsStream InRange ⟨4, [99]⟩) x.dir [] := by
    rintro x hdir
    rw [hdir]
    exact hfirst
  have hlater : ∀ {x : Session (Myfs × Inode)}, x.dir = next myfsStream threeDir (.delete [97]) →
      EveryState (next myfsStream) (Present myfsStream InRange ⟨4, [99]⟩) x.dir [] := by
    rintro x hdir
    rw [hdir]
    exact hthen
  refine listing_misses_nothing threeDir_opens threeDir_listed removeA ?_ (by decide +kernel) _
    (by decide) ?_
  · refine ⟨⟨trivial, by decide, hquiet _⟩, ⟨trivial, by decide, hquiet _⟩,
      ⟨trivial, by decide, hquiet _⟩, ⟨?_, by decide, hfew _ ?_⟩, ⟨trivial, by decide, hquiet _⟩,
      ⟨trivial, by decide, hquiet _⟩, trivial⟩
    · rw [step_dir, step_dir, step_dir]
      exact ⟨hsettled, trivial⟩
    · rw [step_dir, step_dir, step_dir]
      rfl
  · refine ⟨hstart rfl, hstart ?_, hstart ?_, ?_, hlater ?_, hlater ?_, trivial⟩
    · rw [step_dir]
      rfl
    · rw [step_dir, step_dir]
      rfl
    · dsimp only
      rw [step_dir, step_dir, step_dir]
      exact ⟨hfirst, hthen⟩
    · simp only [step_dir, runTrace_nil, runTrace_cons]
    · simp only [step_dir, runTrace_nil, runTrace_cons]

/-- Once `b` has been returned, `a` and `b` are removed. -/
def removeBoth : List (List Change) := [[], [], [], [], [.delete [97], .delete [98]]]

/-- The cursor goes back by one entry and is then behind `c`. -/
theorem listing_misses_c :
    EveryStep (step myfsStream changes) (fun x gap =>
      EveryStep (next myfsStream) (Settled myfsStream) x.dir gap ∧
        EveryState (next myfsStream) (Present myfsStream InRange ⟨4, [99]⟩) x.dir gap)
          openThree removeBoth ∧
    (runTrace (step myfsStream changes) openThree removeBoth).ended = true ∧
    ⟨4, [99]⟩ ∉ (runTrace (step myfsStream changes) openThree removeBoth).returned := by
  obtain ⟨-, hsettled, hlisted⟩ := delete_goes myfsStream_books threeDir_listed
    (show ⟨2, [97]⟩ ∈ threeFiles by decide) threeDir_delete
  obtain ⟨hfirst, hthen⟩ := threeDir_kept (show ⟨4, [99]⟩ ∈ threeFiles.erase ⟨2, [97]⟩ by decide)
  have hdel : (myfsStream.dirDelete (next myfsStream threeDir (.delete [97])) [98]).map Prod.fst =
      .ok 0 := by decide +kernel
  obtain ⟨-, hsettled', hlisted'⟩ := delete_goes myfsStream_books hlisted
    (show ⟨3, [98]⟩ ∈ threeFiles.erase ⟨2, [97]⟩ by decide) hdel
  refine ⟨⟨⟨trivial, hfirst⟩, ⟨trivial, ?_⟩, ⟨trivial, ?_⟩, ⟨trivial, ?_⟩, ?_, trivial⟩,
    by decide +kernel, by decide +kernel⟩
  · rw [step_dir]
    exact hfirst
  · rw [step_dir, step_dir]
    exact hfirst
  · rw [step_dir, step_dir, step_dir]
    exact hfirst
  · dsimp only
    rw [step_dir, step_dir, step_dir, step_dir]
    exact ⟨⟨hsettled, hsettled', trivial⟩, hfirst, hthen, _, hlisted', by decide⟩

end Myfs

end DirectoryCursor
