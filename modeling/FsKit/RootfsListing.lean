import Mathlib.Tactic
import FsKit.HeldDirectories
import FsKit.SortedCursor

/-! Reading a directory of the memory based file system while it changes (`rootfs.c`). The
cookie of an open directory holds a position, an `int`, and the name that was returned last. -/
namespace RootfsListing

open MachineIntegers
open BlockBitmap FallibleRuns LinkedList RootfsTree RootfsRenames HeldDirectories SortedCursor
open TransitionTrace
open MountCalls (ENOTDIR)
open PathWalk (FILE_NAME_LENGTH)

section Calls

/-- `pos` is kept exactly. It is an `int` in the source, and the code sees it as one. -/
structure DirPos where
  pos : ℕ
  name : Name

/-- The fields of `my_dirent` that are written. -/
structure Dirent where
  ino : ℤ
  reclen : ℕ
  name : Name
  deriving DecidableEq, Repr

/-- `sizeof (struct my_dirent)`. -/
def direntSize : ℕ := 24

/-- `(rl + 7) & ~7`, in an `unsigned short`. -/
def recLen (name : Name) : ℕ := (direntSize + name.length + 7) / 8 * 8 % 2 ^ 16

variable (ns : Nspace) (dir : ℕ)

def rootfsOpendir : ℤ × Option DirPos :=
  if ¬sIsdir (ns.node dir).mode then (ENOTDIR, none) else (0, some ⟨0, []⟩)

/-- The loop over the names up to the one that was returned last. -/
def skipTo (name : Name) : ℕ → Option ℕ → Except Stop (Option ℕ)
  | _, none => .ok none
  | 0, some _ => .error .endless
  | fuel + 1, some vn =>
    match (ns.node vn).name with
    | none => .error .badPointer
    | some s => if s ≤ name then skipTo name fuel (ns.links.next vn) else .ok (some vn)

/-- The name and the id of the next entry, and where the walk over the children is then; none
at the end. -/
def nextEntry (pos : ℤ) (vn : Option ℕ) : Except Stop (Option (Name × ℤ × Option ℕ)) :=
  if ¬(pos < 2 ∨ vn ≠ none) then .ok none
  else if pos = 0 then .ok (some (dot, (ns.node dir).vnid, vn))
  else if pos = 1 then .ok (some (dotdot, (ns.node (ns.node dir).parent).vnid, vn))
  else
    match vn with
    | none => .error .badPointer
    | some vn =>
      match (ns.node vn).name with
      | none => .error .badPointer
      | some s => .ok (some (s, (ns.node vn).vnid, ns.links.next vn))

/-- The loop that fills the buffer from `off` on, with at most `num` more entries. -/
def fillBuffer (bufsize : ℕ) : ℕ → ℕ → Option ℕ → ℕ → Except Stop (List Dirent × ℕ)
  | 0, pos, _, _ => .ok ([], pos)
  | num + 1, pos, vn, off =>
    (nextEntry ns dir (toInt32 pos) vn).bind fun
      | none => .ok ([], pos)
      | some (name, vnid, vn) =>
        if bufsize < off + (direntSize + name.length) then .ok ([], pos)
        else (fillBuffer bufsize num (pos + 1) vn (off + recLen name)).map fun (es, pos) =>
          (⟨vnid, recLen name, name⟩ :: es, pos)

/-- The name in the cookie has room for `FILE_NAME_LENGTH` bytes. -/
def saveName (cookie : DirPos) (es : List Dirent) (pos : ℕ) : Except Stop DirPos :=
  match es.getLast? with
  | none => .ok ⟨pos, cookie.name⟩
  | some e =>
    if ¬2 < toInt32 pos then .ok ⟨pos, cookie.name⟩
    else if e.name.length < FILE_NAME_LENGTH then .ok ⟨pos, e.name⟩
    else .error .badPointer

/-- Returns the entries in the buffer, `*num` of them, and the cookie. -/
def rootfsReaddir (cookie : DirPos) (num bufsize : ℕ) : Except Stop (List Dirent × DirPos) :=
  (if 2 < toInt32 cookie.pos then skipTo ns cookie.name ns.live.card (ns.head dir)
    else .ok (ns.head dir)).bind fun vn =>
  (fillBuffer ns dir bufsize num cookie.pos vn 0).bind fun (es, pos) =>
    (saveName cookie es pos).map fun cookie => (es, cookie)

end Calls

section Children
variable {ns : Nspace} {dir : ℕ} {kids : List ℕ}

/-- The names that `do_create` makes, of a length that the kernel lets through. -/
def Legal (name : Option Name) : Prop :=
  name ≠ some dot ∧ name ≠ some dotdot ∧ ∀ s ∈ name, s.length < FILE_NAME_LENGTH

theorem dot_short : dot.length < FILE_NAME_LENGTH := by decide

theorem dotdot_short : dotdot.length < FILE_NAME_LENGTH := by decide

theorem legal_none : Legal none := ⟨nofun, nofun, nofun⟩

theorem legal_some {name : Name} (h : name ≠ dot ∧ name ≠ dotdot)
    (hshort : name.length < FILE_NAME_LENGTH) : Legal (some name) := by
  refine ⟨fun he => h.1 (Option.some.inj he), fun he => h.2 (Option.some.inj he), ?_⟩
  rintro s hs
  rwa [← Option.some.inj hs]

/-- The child list of one directory, which may have left the tree. -/
structure Shelf (ns : Nspace) (dir : ℕ) (kids : List ℕ) : Prop where
  list : IsList ns.links ⟨ns.head dir, kids.getLast?⟩ kids
  live : ∀ c ∈ kids, c ∈ ns.live
  parent : ∀ c ∈ kids, parentOf ns c = dir
  named : ∀ c ∈ kids, (ns.node c).name ≠ none
  sorted : kids.Pairwise (Before ns)
  legal : ∀ c ∈ kids, Legal (ns.node c).name

theorem shelf_empty (h : ns.head dir = none) : Shelf ns dir [] := by
  refine ⟨⟨List.nodup_nil, h, rfl, trivial⟩, ?_, ?_, ?_, List.Pairwise.nil, ?_⟩
  all_goals
    intro c hc
    exact absurd hc List.not_mem_nil

def nameOf (ns : Nspace) (c : ℕ) : Name := (ns.node c).name.getD []

def names (ns : Nspace) (kids : List ℕ) : List Name := kids.map (nameOf ns)

theorem nameOf_eq {c : ℕ} (h : (ns.node c).name ≠ none) :
    (ns.node c).name = some (nameOf ns c) := by
  obtain ⟨s, hs⟩ := Option.ne_none_iff_exists'.mp h
  rw [nameOf, hs]
  rfl

theorem Shelf.length_le (h : Shelf ns dir kids) : kids.length ≤ ns.live.card := by
  rw [← List.toFinset_card_of_nodup h.list.nodup]
  exact Finset.card_le_card fun c hc => h.live c (List.mem_toFinset.mp hc)

theorem Shelf.names_sorted (h : Shelf ns dir kids) : (names ns kids).Pairwise (· < ·) := by
  refine List.pairwise_map.mpr (h.sorted.imp ?_)
  rintro a b ⟨s, t, hs, ht, hlt⟩
  rw [nameOf, nameOf, hs, ht]
  exact hlt

def HasChild (ns : Nspace) (dir : ℕ) (name : Name) : Prop :=
  ∃ c, Listed ns dir c ∧ (ns.node c).name = some name

theorem Shelf.hasChild_iff (h : Shelf ns dir kids) {name : Name} :
    HasChild ns dir name ↔ name ∈ names ns kids := by
  constructor
  · rintro ⟨c, hc, hname⟩
    refine List.mem_map.mpr ⟨c, mem_of_listed h.list hc, ?_⟩
    rw [nameOf, hname]
    rfl
  · intro hname
    obtain ⟨c, hc, rfl⟩ := List.mem_map.mp hname
    exact ⟨c, listed_of_mem h.list hc, nameOf_eq (h.named c hc)⟩

end Children

section Reading
variable {ns : Nspace} {dir : ℕ} {kids : List ℕ} {p : Option ℕ}

/-- The walk stops behind the given name. -/
theorem skipTo_linked {name : Name} (h : Linked ns.links p kids none)
    (hnamed : ∀ c ∈ kids, (ns.node c).name ≠ none) {fuel : ℕ} (hfuel : kids.length ≤ fuel) :
    skipTo ns name fuel kids.head? =
      .ok (kids.dropWhile fun c => decide (nameOf ns c ≤ name)).head? := by
  induction kids generalizing p fuel with
  | nil => simp only [List.head?_nil, skipTo, List.dropWhile_nil]
  | cons c kids ih =>
    obtain ⟨fuel, rfl⟩ := Nat.exists_eq_add_one.mpr (Nat.lt_of_lt_of_le (Nat.succ_pos _) hfuel)
    obtain ⟨_, hnext, hrest⟩ := h
    rw [Option.or_none] at hnext
    rw [List.head?_cons, skipTo, nameOf_eq (hnamed c List.mem_cons_self), List.dropWhile_cons]
    dsimp only
    by_cases hle : nameOf ns c ≤ name
    · rw [if_pos hle, if_pos (decide_eq_true hle), hnext]
      exact ih hrest (fun x hx => hnamed x (List.mem_cons_of_mem c hx))
        (Nat.le_of_succ_le_succ hfuel)
    · rw [if_neg hle, if_neg (by simpa using hle)]
      rfl

/-- In a sorted list this leaves the larger names. -/
theorem names_dropWhile (hs : (names ns kids).Pairwise (· < ·)) (name : Name) :
    names ns (kids.dropWhile fun c => decide (nameOf ns c ≤ name)) =
      after (some name) (names ns kids) := by
  rw [← dropWhile_eq_after hs, names, names, List.dropWhile_map]
  rfl

/-- What there is to return from a position on, with the children `kids` still ahead. -/
def entries (ns : Nspace) (dir pos : ℕ) (kids : List ℕ) : List (Name × ℤ) :=
  ([(dot, (ns.node dir).vnid), (dotdot, (ns.node (ns.node dir).parent).vnid)].drop pos) ++
    kids.map fun c => (nameOf ns c, (ns.node c).vnid)

theorem entries_late {pos : ℕ} (h : 2 ≤ pos) :
    entries ns dir pos kids = kids.map fun c => (nameOf ns c, (ns.node c).vnid) := by
  rw [entries, List.drop_of_length_le h, List.nil_append]

def dirent (e : Name × ℤ) : Dirent := ⟨e.2, recLen e.1, e.1⟩

theorem recLen_ge {name : Name} (h : name.length < FILE_NAME_LENGTH) :
    direntSize + name.length ≤ recLen name := by
  unfold FILE_NAME_LENGTH at h
  unfold recLen direntSize
  omega

theorem nextEntry_child {pos : ℤ} {c : ℕ} {name : Name} (h₀ : pos ≠ 0) (h₁ : pos ≠ 1)
    (hname : (ns.node c).name = some name) : nextEntry ns dir pos (some c) =
      .ok (some (name, (ns.node c).vnid, ns.links.next c)) := by
  rw [nextEntry, if_neg (by simp), if_neg h₀, if_neg h₁, hname]

theorem nextEntry_end {pos : ℤ} (h : 2 ≤ pos) : nextEntry ns dir pos none = .ok none := by
  apply if_pos
  rintro (hlt | hne)
  · exact absurd hlt h.not_gt
  · exact hne rfl

theorem fillBuffer_step {num pos pos' off bufsize : ℕ} {vn vn' : Option ℕ} {e : Name × ℤ}
    {es : List Dirent} (hnext : nextEntry ns dir (toInt32 pos) vn = .ok (some (e.1, e.2, vn')))
    (hshort : e.1.length < FILE_NAME_LENGTH) (hroom : off + recLen e.1 ≤ bufsize)
    (hrest : fillBuffer ns dir bufsize num (pos + 1) vn' (off + recLen e.1) = .ok (es, pos')) :
    fillBuffer ns dir bufsize (num + 1) pos vn off = .ok (dirent e :: es, pos') := by
  have hfits : ¬bufsize < off + (direntSize + e.1.length) := by
    have := recLen_ge hshort
    omega
  rw [fillBuffer, hnext]
  dsimp only [Except.bind]
  rw [if_neg hfits, hrest]
  rfl

/-- With room for them the loop returns the entries that are wanted, as long as the position is
one that an `int` can hold. -/
theorem fillBuffer_eq (h : Linked ns.links p kids none)
    (hlegal : ∀ c ∈ kids, (ns.node c).name ≠ none ∧ Legal (ns.node c).name)
    {num pos off bufsize : ℕ}
    (hfit : pos + ((entries ns dir pos kids).take num).length < 2 ^ 31)
    (hroom : off + (((entries ns dir pos kids).take num).map fun e => recLen e.1).sum ≤ bufsize) :
    fillBuffer ns dir bufsize num pos kids.head? off =
      .ok (((entries ns dir pos kids).take num).map dirent,
        pos + ((entries ns dir pos kids).take num).length) := by
  induction num generalizing p kids pos off with
  | zero => simp [fillBuffer]
  | succ num ih =>
    have hpos : toInt32 pos = pos := toInt32_of_lt (by omega) (by omega)
    have hcons : ∀ e kids', entries ns dir pos kids = e :: entries ns dir (pos + 1) kids' →
        nextEntry ns dir (toInt32 pos) kids.head? = .ok (some (e.1, e.2, kids'.head?)) →
        e.1.length < FILE_NAME_LENGTH → (∃ q, Linked ns.links q kids' none) →
        (∀ c ∈ kids', (ns.node c).name ≠ none ∧ Legal (ns.node c).name) →
        fillBuffer ns dir bufsize (num + 1) pos kids.head? off =
          .ok (((entries ns dir pos kids).take (num + 1)).map dirent,
            pos + ((entries ns dir pos kids).take (num + 1)).length) := by
      rintro e kids' he hnext hshort ⟨q, hq⟩ hlegal'
      rw [he, List.take_succ_cons, List.length_cons] at hfit
      rw [he, List.take_succ_cons, List.map_cons, List.sum_cons] at hroom
      rw [he, List.take_succ_cons]
      have hfit' : pos + 1 + ((entries ns dir (pos + 1) kids').take num).length < 2 ^ 31 := by omega
      refine (fillBuffer_step hnext hshort (by omega) (ih hq hlegal' hfit' (by omega))).trans ?_
      rw [List.map_cons, List.length_cons, Nat.add_right_comm, Nat.add_assoc]
    rw [hpos] at hcons
    obtain rfl | rfl | hge : pos = 0 ∨ pos = 1 ∨ 2 ≤ pos := by omega
    · exact hcons (dot, _) _ rfl rfl dot_short ⟨p, h⟩ hlegal
    · exact hcons (dotdot, _) _ rfl rfl dotdot_short ⟨p, h⟩ hlegal
    · cases kids with
      | nil =>
        have hend : nextEntry ns dir (toInt32 pos) none = .ok none := by
          rw [hpos]
          apply nextEntry_end
          omega
        rw [entries_late hge, fillBuffer, List.head?_nil, hend]
        rfl
      | cons c kids =>
        obtain ⟨_, hnext, hrest⟩ := h
        rw [Option.or_none] at hnext
        obtain ⟨hnamed, hlegal₀⟩ := hlegal c List.mem_cons_self
        apply hcons (nameOf ns c, (ns.node c).vnid) kids
        · rw [entries_late hge, entries_late (Nat.le_succ_of_le hge), List.map_cons]
        · rw [List.head?_cons, nextEntry_child (by omega) (by omega) (nameOf_eq hnamed), hnext]
        · exact hlegal₀.2.2 _ (nameOf_eq hnamed)
        · exact ⟨_, hrest⟩
        · exact fun x hx => hlegal x (List.mem_cons_of_mem c hx)

/-- The names that are still to come. -/
def pending (cookie : DirPos) (xs : List Name) : List Name :=
  [dot, dotdot].drop cookie.pos ++ after (if 2 < cookie.pos then some cookie.name else none) xs

/-- Any `num` entries of the directory fit into the buffer. -/
def Room (ns : Nspace) (dir num bufsize : ℕ) : Prop :=
  ∀ xs : List Name, xs.Nodup → xs.length ≤ num →
    (∀ name ∈ xs, name = dot ∨ name = dotdot ∨ HasChild ns dir name) →
    (xs.map recLen).sum ≤ bufsize

theorem linked_dropWhile {xs : List ℕ} (f : ℕ → Bool) (h : Linked ns.links p xs none) :
    ∃ q, Linked ns.links q (xs.dropWhile f) none := by
  rw [← List.takeWhile_append_dropWhile (p := f) (l := xs), linked_append] at h
  exact ⟨_, h.2⟩

theorem Shelf.names_legal (h : Shelf ns dir kids) {name : Name} (hmem : name ∈ names ns kids) :
    name ≠ dot ∧ name ≠ dotdot ∧ name.length < FILE_NAME_LENGTH := by
  obtain ⟨c, hc, rfl⟩ := List.mem_map.mp hmem
  obtain ⟨hdot, hdotdot, hshort⟩ := h.legal c hc
  have hname := nameOf_eq (h.named c hc)
  rw [hname] at hdot hdotdot
  exact ⟨fun he => hdot (congrArg some he), fun he => hdotdot (congrArg some he), hshort _ hname⟩

theorem Shelf.pending_nodup (h : Shelf ns dir kids) (cookie : DirPos) :
    (pending cookie (names ns kids)).Nodup := by
  have hfirst : [dot, dotdot].Nodup := by decide
  refine List.nodup_append.mpr ⟨hfirst.sublist (List.drop_sublist _ _), ?_, ?_⟩
  · exact (after_sorted _ h.names_sorted).imp ne_of_lt
  · rintro a ha b hb rfl
    have hlegal := h.names_legal (mem_after.mp hb).1
    rcases List.mem_cons.mp (List.mem_of_mem_drop ha) with rfl | ha
    · exact hlegal.1 rfl
    · exact hlegal.2.1 (List.mem_singleton.mp ha)

theorem Shelf.mem_pending (h : Shelf ns dir kids) {cookie : DirPos} {name : Name}
    (hmem : name ∈ pending cookie (names ns kids)) :
    name = dot ∨ name = dotdot ∨ HasChild ns dir name := by
  rcases List.mem_append.mp hmem with hmem | hmem
  · rcases List.mem_cons.mp (List.mem_of_mem_drop hmem) with he | hmem
    · exact Or.inl he
    · exact Or.inr (Or.inl (List.mem_singleton.mp hmem))
  · exact Or.inr (Or.inr (h.hasChild_iff.mpr (mem_after.mp hmem).1))

theorem Shelf.pending_short (h : Shelf ns dir kids) {cookie : DirPos} {name : Name}
    (hmem : name ∈ pending cookie (names ns kids)) : name.length < FILE_NAME_LENGTH := by
  rcases List.mem_append.mp hmem with hmem | hmem
  · rcases List.mem_cons.mp (List.mem_of_mem_drop hmem) with rfl | hmem
    · exact dot_short
    · rw [List.mem_singleton.mp hmem]
      exact dotdot_short
  · exact (h.names_legal (mem_after.mp hmem).1).2.2

/-- The children that the walk has still ahead when the loop starts. -/
theorem readdir_start (h : Shelf ns dir kids) {cookie : DirPos} (hfit : cookie.pos < 2 ^ 31) :
    ∃ ahead, (if 2 < toInt32 cookie.pos then skipTo ns cookie.name ns.live.card (ns.head dir)
      else .ok (ns.head dir)) = .ok ahead.head? ∧
    (∃ q, Linked ns.links q ahead none) ∧
    (∀ c ∈ ahead, (ns.node c).name ≠ none ∧ Legal (ns.node c).name) ∧
    names ns ahead = after (if 2 < cookie.pos then some cookie.name else none) (names ns kids) := by
  have hhead : ns.head dir = kids.head? := h.list.head
  rw [hhead, toInt32_of_lt (Int.natCast_nonneg _) (by omega)]
  by_cases hpos : 2 < cookie.pos
  · rw [if_pos (by omega), if_pos hpos, skipTo_linked h.list.linked h.named h.length_le]
    refine ⟨_, rfl, linked_dropWhile _ h.list.linked, fun c hc => ?_,
      names_dropWhile h.names_sorted cookie.name⟩
    have hmem := (List.dropWhile_sublist _).subset hc
    exact ⟨h.named c hmem, h.legal c hmem⟩
  · rw [if_neg (by omega), if_neg hpos]
    exact ⟨kids, rfl, ⟨none, h.list.linked⟩, fun c hc => ⟨h.named c hc, h.legal c hc⟩, rfl⟩

theorem saveName_eq (cookie : DirPos) {es : List Dirent} {pos : ℕ} (hfit : pos < 2 ^ 31)
    (hshort : ∀ e ∈ es, e.name.length < FILE_NAME_LENGTH) : saveName cookie es pos =
      .ok ⟨pos, if 2 < pos then (es.map Dirent.name).getLast?.getD cookie.name
        else cookie.name⟩ := by
  unfold saveName
  rw [List.getLast?_map, toInt32_of_lt (Int.natCast_nonneg _) (by omega)]
  cases hlast : es.getLast? with
  | none => simp
  | some e =>
    dsimp only
    by_cases hpos : 2 < pos
    · rw [if_neg (by omega), if_pos (hshort e (List.mem_of_getLast? hlast)), if_pos hpos]
      rfl
    · rw [if_pos (by omega), if_neg hpos]

theorem rootfsReaddir_ok {cookie cookie' : DirPos} {num bufsize pos : ℕ} {vn : Option ℕ}
    {es : List Dirent} (hstart : (if 2 < toInt32 cookie.pos then
      skipTo ns cookie.name ns.live.card (ns.head dir) else .ok (ns.head dir)) = .ok vn)
    (hfill : fillBuffer ns dir bufsize num cookie.pos vn 0 = .ok (es, pos))
    (hsave : saveName cookie es pos = .ok cookie') :
    rootfsReaddir ns dir cookie num bufsize = .ok (es, cookie') := by
  unfold rootfsReaddir
  rw [hstart]
  dsimp only [Except.bind]
  rw [hfill]
  dsimp only
  rw [hsave]
  rfl

/-- A call with room for its entries returns the next ones that are to come. -/
theorem rootfsReaddir_eq (h : Shelf ns dir kids) (cookie : DirPos) {num bufsize : ℕ}
    (hroom : Room ns dir num bufsize)
    (hfit : cookie.pos + ((pending cookie (names ns kids)).take num).length < 2 ^ 31) :
    ∃ es cookie', rootfsReaddir ns dir cookie num bufsize = .ok (es, cookie') ∧
      es.map Dirent.name = (pending cookie (names ns kids)).take num ∧
      cookie'.pos = cookie.pos + es.length ∧
      cookie'.name = if 2 < cookie'.pos then (es.map Dirent.name).getLast?.getD cookie.name
        else cookie.name := by
  obtain ⟨ahead, hstart, ⟨q, hlinked⟩, hlegal, hahead⟩ :=
    readdir_start h (Nat.lt_of_le_of_lt (Nat.le_add_right _ _) hfit)
  have hfst : (entries ns dir cookie.pos ahead).map Prod.fst = pending cookie (names ns kids) := by
    rw [entries, pending, List.map_append, List.map_drop, ← hahead, names, List.map_map]
    rfl
  have htake : ((entries ns dir cookie.pos ahead).take num).map Prod.fst =
      (pending cookie (names ns kids)).take num := by
    rw [List.map_take, hfst]
  have hfits : 0 + (((entries ns dir cookie.pos ahead).take num).map fun e => recLen e.1).sum ≤
      bufsize := by
    have hsum := hroom _ ((h.pending_nodup cookie).sublist (List.take_sublist num _))
      (List.length_take_le num _) fun name hname => h.mem_pending (List.mem_of_mem_take hname)
    rw [← htake, List.map_map] at hsum
    rw [Nat.zero_add]
    exact hsum
  rw [← htake, List.length_map] at hfit
  have hfill := fillBuffer_eq hlinked hlegal hfit hfits
  have hnames : (((entries ns dir cookie.pos ahead).take num).map dirent).map Dirent.name =
      (pending cookie (names ns kids)).take num := by
    rw [List.map_map, ← htake]
    rfl
  have hshort : ∀ e ∈ ((entries ns dir cookie.pos ahead).take num).map dirent,
      e.name.length < FILE_NAME_LENGTH := by
    intro e he
    have hmem : e.name ∈ (pending cookie (names ns kids)).take num := by
      rw [← hnames]
      exact List.mem_map_of_mem he
    exact h.pending_short (List.mem_of_mem_take hmem)
  have hcall := rootfsReaddir_ok hstart hfill (saveName_eq cookie hfit hshort)
  refine ⟨_, _, hcall, hnames, ?_, rfl⟩
  rw [List.length_map]

end Reading

section Changes
variable {ns : Nspace} {dir vn : ℕ} {kids : List ℕ} {name : Name}

/-- The node of a child is all that a listing sees of it. -/
theorem Shelf.congr {ns' : Nspace} {kids' : List ℕ} (h : Shelf ns dir kids)
    (hsub : ∀ c ∈ kids', c ∈ kids) (hsorted : kids'.Sublist kids)
    (hlist : IsList ns'.links ⟨ns'.head dir, kids'.getLast?⟩ kids')
    (hlive : ∀ c ∈ kids', c ∈ ns'.live) (hnode : ∀ c ∈ kids', ns'.node c = ns.node c) :
    Shelf ns' dir kids' := by
  refine ⟨hlist, hlive, fun c hc => ?_, fun c hc => ?_, ?_, fun c hc => ?_⟩
  · unfold parentOf
    rw [hnode c hc]
    exact h.parent c (hsub c hc)
  · rw [hnode c hc]
    exact h.named c (hsub c hc)
  · exact before_congr (h.sorted.sublist hsorted) fun c hc => by rw [hnode c hc]
  · rw [hnode c hc]
    exact h.legal c (hsub c hc)

theorem Shelf.findName_eq (h : Shelf ns dir kids) (name : Name) :
    findName ns name ns.live.card (ns.head dir) =
      .ok (kids.find? fun c => decide ((ns.node c).name = some name)) := by
  have hhead : ns.head dir = kids.head? := h.list.head
  rw [hhead]
  exact findName_linked h.list.linked h.named h.length_le

/-- The list as the only one of a family. -/
theorem Shelf.family (h : Shelf ns dir kids) :
    HeadFamily ns.links (fun _ : Unit => ns.head dir) fun _ => kids :=
  ⟨fun _ => h.list, fun _ _ => rfl⟩

/-- A child leaves the list, whatever becomes of its node. -/
theorem Shelf.dropVnode (h : Shelf ns dir kids) (hmem : vn ∈ kids) (v : Vnode) :
    Shelf (setNode (dropVnode ns vn) vn v) dir (kids.erase vn) := by
  have hne : ∀ c ∈ kids.erase vn, c ≠ vn ∧ c ∈ kids := fun c hc =>
    h.list.nodup.mem_erase_iff.mp hc
  have hpar : (ns.node vn).parent = dir := h.parent vn hmem
  have htaken := (h.family.takeOut (i := ()) hmem).isList ()
  rw [Function.update_self, Function.update_self] at htaken
  refine h.congr (fun c hc => (hne c hc).2) List.erase_sublist ?_ (fun c hc => ?_) fun c hc => ?_
  · have hlinks : (setNode (RootfsTree.dropVnode ns vn) vn v).links =
        ((takeOut ns.links (ns.head dir) vn).1.setNext vn none).setPrev vn none := by
      rw [← hpar]
      rfl
    have hhead : (setNode (RootfsTree.dropVnode ns vn) vn v).head dir =
        (takeOut ns.links (ns.head dir) vn).2 := by
      rw [← hpar]
      exact Function.update_self ..
    rw [hlinks, hhead]
    refine htaken.congr fun c hc => ?_
    rw [Links.setPrev_next, Links.setNext_next, Links.setPrev_prev, if_neg (hne c hc).1,
      if_neg (hne c hc).1]
    exact ⟨rfl, rfl⟩
  · exact Finset.mem_erase.mpr ⟨(hne c hc).1, h.live c (hne c hc).2⟩
  · exact Function.update_of_ne (hne c hc).1 _ _

theorem Shelf.doUnlink (h : Shelf ns dir kids) (name : Name) (isdir : Bool) :
    ∃ r, doUnlink ns dir name isdir = .ok r ∧ ∃ kids', Shelf r.2 dir kids' := by
  unfold RootfsTree.doUnlink
  split
  · exact ⟨_, rfl, kids, h⟩
  split
  · exact ⟨_, rfl, kids, h⟩
  rw [h.findName_eq name]
  cases hfind : kids.find? fun c => decide ((ns.node c).name = some name) with
  | none => exact ⟨_, rfl, kids, h⟩
  | some vn =>
    refine ⟨_, rfl, ?_⟩
    dsimp only
    split
    · exact ⟨kids, h⟩
    split
    · exact ⟨kids, h⟩
    split
    · exact ⟨kids, h⟩
    split
    · exact ⟨kids, h⟩
    exact ⟨_, h.dropVnode (List.mem_of_find?_eq_some hfind) _⟩

theorem Shelf.createCheck_eq (h : Shelf ns dir kids) (name : Name) :
    ∃ err, createCheck ns dir name = .ok err ∧
      (err = 0 → (name ≠ dot ∧ name ≠ dotdot) ∧ ∀ c ∈ kids, (ns.node c).name ≠ some name) := by
  have hhead : ns.head dir = kids.head? := h.list.head
  unfold createCheck
  split
  · exact ⟨ENOTDIR, rfl, fun h0 => absurd h0 (by decide)⟩
  split
  · exact ⟨ENOENT, rfl, fun h0 => absurd h0 (by decide)⟩
  split
  · exact ⟨EEXIST, rfl, fun h0 => absurd h0 (by decide)⟩
  rename_i hlegal
  rw [hhead, findSorted_linked h.list.linked h.named h.sorted h.length_le]
  cases hfind : kids.find? fun c => decide ((ns.node c).name = some name) with
  | some c => exact ⟨EEXIST, rfl, fun h0 => absurd h0 (by decide)⟩
  | none =>
    refine ⟨0, rfl, fun _ => ⟨not_or.mp hlegal, fun c hc => ?_⟩⟩
    simpa using List.find?_eq_none.mp hfind c hc

/-- A new child gets its place in the list. -/
theorem Shelf.linkIn_eq (h : Shelf ns dir kids) (hvn : vn ∉ kids)
    (hname : (ns.node vn).name = some name)
    (hfresh : ∀ c ∈ kids, (ns.node c).name ≠ some name) :
    ∃ as bs links v, kids = as ++ bs ∧
      linkIn ns dir name vn =
        .ok { ns with links := links, head := Function.update ns.head dir v } ∧
      IsList links ⟨v, (as ++ vn :: bs).getLast?⟩ (as ++ vn :: bs) ∧
      (as ++ vn :: bs).Pairwise (Before ns) := by
  have hhead : ns.head dir = kids.head? := h.list.head
  obtain ⟨as, bs, hsplit, hpoint, has, hbs⟩ :=
    insertPoint_linked h.list.linked h.named none h.length_le
  rw [Option.or_none] at hpoint
  have hlist := h.list
  have hsorted := h.sorted
  rw [hsplit] at hlist hsorted hvn hfresh
  refine ⟨as, bs, _, _, hsplit, ?_, putBetween_isList hlist hvn, ?_⟩
  · unfold linkIn
    rw [hhead, hpoint]
    rfl
  · exact pairwise_insert hsorted hname has hbs fun b hb => hfresh b (List.mem_append_right as hb)

theorem Shelf.doCreate (h : Shelf ns dir kids) (name : Name) (mode : Mode)
    (hfresh : vn ∉ ns.live ∧ vn ≠ dir) (hshort : name.length < FILE_NAME_LENGTH) :
    ∃ r, doCreate ns dir name mode vn = .ok r ∧ ∃ kids', Shelf r.2 dir kids' := by
  obtain ⟨err, hcheck, hok⟩ := h.createCheck_eq name
  unfold RootfsTree.doCreate
  rw [hcheck]
  dsimp only [Except.bind]
  by_cases herr : err = 0
  swap
  · rw [if_pos herr]
    exact ⟨_, rfl, kids, h⟩
  obtain ⟨hlegal, hnew⟩ := hok herr
  rw [if_neg (not_not.mpr herr)]
  have hne : ∀ c ∈ kids, c ≠ vn := by
    rintro c hc rfl
    exact hfresh.1 (h.live c hc)
  generalize MachineIntegers.toInt64 (ns.nxvnid + 1) = vnid
  generalize hns₁ :
    setNode { ns with nxvnid := vnid } vn ⟨some name, false, vnid, dir, mode, none⟩ = ns₁
  have hnode : ∀ c, c ≠ vn → ns₁.node c = ns.node c := fun c hc => by
    rw [← hns₁]
    exact Function.update_of_ne hc _ _
  have hself : ns₁.node vn = ⟨some name, false, vnid, dir, mode, none⟩ := by
    rw [← hns₁]
    exact Function.update_self ..
  have hlive : ns₁.live = ns.live := by
    rw [← hns₁]
    rfl
  have h₁ : Shelf ns₁ dir kids := by
    refine h.congr (fun c hc => hc) (List.Sublist.refl kids) ?_ (fun c hc => ?_) fun c hc => ?_
    · rw [← hns₁]
      exact h.list
    · rw [hlive]
      exact h.live c hc
    · exact hnode c (hne c hc)
  obtain ⟨as, bs, links, v, hsplit, hlink, hlist, hsorted⟩ := h₁.linkIn_eq
    (fun hm => hne vn hm rfl) (by rw [hself]) fun c hc => by
      rw [hnode c (hne c hc)]
      exact hnew c hc
  rw [hlink]
  have hmem : ∀ c ∈ as ++ vn :: bs, c = vn ∨ c ∈ kids := by
    intro c hc
    rw [hsplit]
    simpa [or_left_comm] using hc
  refine ⟨_, rfl, as ++ vn :: bs, ?_, fun c hc => ?_, fun c hc => ?_, fun c hc => ?_, hsorted,
    fun c hc => ?_⟩
  · have hhead : Function.update (Function.update ns₁.head dir v) vn none dir = v := by
      rw [Function.update_of_ne hfresh.2.symm, Function.update_self]
    dsimp only
    rw [hhead]
    exact hlist
  · rcases hmem c hc with rfl | hc
    · exact Finset.mem_insert_self ..
    · exact Finset.mem_insert_of_mem (h₁.live c hc)
  · rcases hmem c hc with rfl | hc
    · exact congrArg Vnode.parent hself
    · exact h₁.parent c hc
  · rcases hmem c hc with rfl | hc
    · dsimp only
      rw [hself]
      simp
    · exact h₁.named c hc
  · rcases hmem c hc with rfl | hc
    · dsimp only
      rw [hself]
      exact legal_some hlegal hshort
    · exact h₁.legal c hc

end Changes

section Reached
variable {ns : Nspace} {kids : ℕ → List ℕ} {d : ℕ}

def LegalNames (ns : Nspace) : Prop := ∀ n ∈ ns.live, Legal (ns.node n).name

/-- The kernel passes no longer names on. -/
def Short : Call → Prop
  | .mkdir _ name _ _ => name.length < FILE_NAME_LENGTH
  | .symlink _ name _ _ => name.length < FILE_NAME_LENGTH
  | .rename _ _ _ newname _ => newname.length < FILE_NAME_LENGTH
  | .unlink _ _ | .rmdir _ _ => True

theorem shelf_of_sound (h : Sound ns kids) (hlegal : LegalNames ns) (hd : d ∈ ns.live) :
    Shelf ns d (kids d) :=
  ⟨h.isList hd, fun _ hc => h.live hc, h.tree.parent d, h.tree.named d, h.tree.sorted d,
    fun c hc => hlegal c (h.live hc)⟩

/-- A call that gives a legal name to one node at most. -/
theorem LegalNames.edit {ns' : Nspace} (vn : ℕ) (h : LegalNames ns)
    (hlive : ∀ n ∈ ns'.live, n ∈ ns.live ∨ n = vn) (hnode : ∀ n, n ≠ vn → ns'.node n = ns.node n)
    (hvn : vn ∈ ns'.live → Legal (ns'.node vn).name) : LegalNames ns' := by
  intro n hn
  by_cases hne : n = vn
  · subst hne
    exact hvn hn
  · rw [hnode n hne]
    exact h n ((hlive n hn).resolve_right hne)

theorem createCheck_legal {name : Name} (h : createCheck ns d name = .ok 0) :
    name ≠ dot ∧ name ≠ dotdot := by
  unfold createCheck at h
  split at h
  · exact absurd (Except.ok.inj h) (by decide)
  split at h
  · exact absurd (Except.ok.inj h) (by decide)
  split at h
  · exact absurd (Except.ok.inj h) (by decide)
  · rename_i hlegal
    exact not_or.mp hlegal


theorem doCreate_legal {name : Name} {mode : Mode} {vn : ℕ} {r : ℤ × Nspace} (h : LegalNames ns)
    (hshort : name.length < FILE_NAME_LENGTH) (hcall : doCreate ns d name mode vn = .ok r) :
    LegalNames r.2 := by
  obtain ⟨err, hcheck, hcall⟩ := bind_ok hcall
  split at hcall
  · cases hcall
    exact h
  rename_i herr
  rw [not_not] at herr
  subst herr
  obtain ⟨ns', hlink, rfl⟩ := map_ok hcall
  obtain ⟨hnode, hlive, _⟩ := linkIn_frame hlink
  refine h.edit vn (fun n hn => ?_) (fun n hn => ?_) fun _ => ?_
  · rcases Finset.mem_insert.mp hn with he | hn
    · exact Or.inr he
    · exact Or.inl (hlive ▸ hn)
  · exact (congrFun hnode n).trans (Function.update_of_ne hn _ _)
  · have hself : ns'.node vn = ⟨some name, false, _, d, mode, none⟩ :=
      (congrFun hnode vn).trans (Function.update_self ..)
    dsimp only
    rw [hself]
    exact legal_some (createCheck_legal hcheck) hshort

theorem doUnlink_legal {name : Name} {isdir : Bool} {r : ℤ × Nspace} (h : LegalNames ns)
    (hcall : doUnlink ns d name isdir = .ok r) : LegalNames r.2 := by
  unfold doUnlink at hcall
  split at hcall
  · cases hcall
    exact h
  split at hcall
  · cases hcall
    exact h
  obtain ⟨_ | vn, hfind, rfl⟩ := map_ok hcall
  · exact h
  dsimp only
  split
  · exact h
  split
  · exact h
  split
  · exact h
  split
  · exact h
  refine h.edit vn (fun n hn => Or.inl (Finset.mem_of_mem_erase hn))
    (fun n hn => Function.update_of_ne hn _ _) fun hvn => ?_
  exact absurd hvn (Finset.notMem_erase vn ns.live)

theorem LegalNames.realloc (h : LegalNames ns) (vn : ℕ) (newname : Name) (moved : Bool) :
    LegalNames (reallocName ns vn newname moved) := by
  unfold reallocName
  split
  · refine h.edit vn (fun n hn => Or.inl hn) (fun n hn => Function.update_of_ne hn _ _) fun _ => ?_
    have hself : (setNode ns vn { ns.node vn with name := none }).node vn =
        { ns.node vn with name := none } := Function.update_self ..
    rw [hself]
    exact legal_none
  · exact h

theorem LegalNames.move {vn newdir : ℕ} {newname : Name} {r : ℤ × Nspace} (h : LegalNames ns)
    (hlegal : Legal (some newname)) (hcall : moveNode ns vn newdir newname = .ok r) :
    LegalNames r.2 := by
  obtain ⟨_, _, hlive, v, _, hname, hnode⟩ := moveNode_node hcall
  refine h.edit vn (fun n hn => Or.inl (hlive ▸ hn)) (fun n hn => ?_) fun _ => ?_
  · rw [hnode]
    exact Function.update_of_ne hn _ _
  · rw [hnode, Function.update_self, hname]
    exact hlegal

theorem rename_legal {olddir newdir : ℕ} {oldname newname : Name} {moved : Bool} {r : ℤ × Nspace}
    (h : LegalNames ns) (hshort : newname.length < FILE_NAME_LENGTH)
    (hcall : rootfsRename ns olddir oldname newdir newname moved = .ok r) :
    LegalNames r.2 := by
  obtain ⟨plan, hcheck, hcall⟩ := bind_ok hcall
  cases plan with
  | fail err =>
    cases hcall
    exact h
  | same =>
    cases hcall
    exact h
  | move vn nvn =>
    obtain ⟨_, hdot, hdotdot, _⟩ := check_replaces hcheck
    have hname := legal_some ⟨hdot, hdotdot⟩ hshort
    have hrealloc := h.realloc vn newname moved
    dsimp only at hcall
    generalize reallocName ns vn newname moved = ns₁ at hcall hrealloc
    cases nvn with
    | none => exact hrealloc.move hname hcall
    | some w =>
      dsimp only at hcall
      split at hcall
      · cases hcall
        exact hrealloc
      split at hcall
      · cases hcall
        exact hrealloc
      have hdrop : LegalNames (dropVnode ns₁ w) := fun n hn =>
        hrealloc n (Finset.mem_of_mem_erase hn)
      exact hdrop.move hname hcall

theorem call_legal {e : Call} {r : ℤ × Nspace} (h : LegalNames ns) (hshort : Short e)
    (hcall : call ns e = .ok r) : LegalNames r.2 := by
  cases e with
  | mkdir dir name perms vn => exact doCreate_legal h hshort hcall
  | symlink dir name path vn =>
    obtain ⟨⟨err, ns'⟩, hcreate, rfl⟩ := map_ok hcall
    have hlegal := doCreate_legal h hshort hcreate
    dsimp only at hlegal ⊢
    split
    · exact hlegal
    · refine hlegal.edit vn (fun n hn => Or.inl hn)
        (fun n hn => Function.update_of_ne hn _ _) fun hvn => ?_
      have hself : (setNode ns' vn { ns'.node vn with symlink := some path }).node vn =
          { ns'.node vn with symlink := some path } := Function.update_self ..
      rw [hself]
      exact hlegal vn hvn
  | unlink dir name => exact doUnlink_legal h hcall
  | rmdir dir name => exact doUnlink_legal h hcall
  | rename olddir oldname newdir newname moved => exact rename_legal h hshort hcall

/-- The invariant of the calls under which a directory can be listed. -/
def Listable (ns : Nspace) : Prop := Kept ns ∧ LegalNames ns

/-- Every directory of the tree that a run of calls has reached can be listed. -/
theorem reached_shelves (mem : Nspace) (root : ℕ) (calls : List Call)
    (hallowed : EveryStep RootfsTree.next RootfsTree.Allowed (mounted mem root) calls)
    (hintact : EveryStep RootfsTree.next Intact (mounted mem root) calls)
    (hshort : EveryStep RootfsTree.next (fun _ => Short) (mounted mem root) calls) :
    EveryState RootfsTree.next (fun ns => ∀ d ∈ ns.live, ∃ kids, Shelf ns d kids)
      (mounted mem root) calls := by
  have hstart : Listable (mounted mem root) := by
    refine ⟨⟨_, mounted_sound mem root⟩, fun n hn => ?_⟩
    obtain rfl : n = root := Finset.mem_singleton.mp hn
    have hself : (mounted mem n).node n = ⟨none, false, 1, n, sIfdir ||| 0o777, none⟩ :=
      Function.update_self ..
    rw [hself]
    exact legal_none
  refine (everyState_of_step ?_ hstart ((hallowed.and hintact).and hshort)).mono ?_
  · rintro ns e ⟨hkept, hlegal⟩ ⟨hok, hname⟩
    refine ⟨next_kept ns e hkept hok, ?_⟩
    unfold RootfsTree.next
    cases hcall : call ns e with
    | error _ => exact hlegal
    | ok r => exact call_legal hlegal hname hcall
  · rintro ns ⟨⟨kids, hsound⟩, hlegal⟩ d hd
    exact ⟨kids d, shelf_of_sound hsound hlegal hd⟩

end Reached

section Sessions

/-- An open directory and what the calls on its cookie have returned. -/
structure Session where
  ns : Nspace
  cookie : DirPos
  batches : List (List Dirent)

inductive Event where
  | create (name : Name) (mode : Mode) (vn : ℕ)
  | unlink (name : Name) (isdir : Bool)
  | readdir (num bufsize : ℕ)

variable (dir : ℕ)

def Session.changed (s : Session) : Except Stop (ℤ × Nspace) → Session
  | .ok r => { s with ns := r.2 }
  | .error _ => s

def Session.listed (s : Session) : Except Stop (List Dirent × DirPos) → Session
  | .ok r => { s with cookie := r.2, batches := s.batches ++ [r.1] }
  | .error _ => s

def next (s : Session) : Event → Session
  | .create name mode vn => s.changed (doCreate s.ns dir name mode vn)
  | .unlink name isdir => s.changed (doUnlink s.ns dir name isdir)
  | .readdir num bufsize => s.listed (rootfsReaddir s.ns dir s.cookie num bufsize)

/-- `malloc` gives out no storage that is in use, `parse_path` lets no longer names through, and
the buffer of a `readdir` has room. -/
def Allowed (s : Session) : Event → Prop
  | .create name _ vn => (vn ∉ s.ns.live ∧ vn ≠ dir) ∧ name.length < FILE_NAME_LENGTH
  | .unlink _ _ => True
  | .readdir num bufsize => 1 ≤ num ∧ Room s.ns dir num bufsize

/-- What the calls on a cookie have still to return: what is left of the special entries, and the
children behind the last one that was returned. -/
def ToCome (ns : Nspace) (dir : ℕ) (cookie : DirPos) (name : Name) : Prop :=
  name ∈ [dot, dotdot].drop cookie.pos ∨
    HasChild ns dir name ∧ (2 < cookie.pos → cookie.name < name)

/-- The position is one that an `int` can hold, also behind the entries of this call. -/
def Fits (s : Session) : Event → Prop
  | .readdir num _ => ∀ xs : List Name, xs.Nodup → xs.length ≤ num →
      (∀ name ∈ xs, ToCome s.ns dir s.cookie name) → s.cookie.pos + xs.length < 2 ^ 31
  | _ => True

/-- The call returns, and a name that it lists is the name of a child. -/
def Answered (s : Session) : Event → Prop
  | .create name mode vn => ∃ r, doCreate s.ns dir name mode vn = .ok r
  | .unlink name isdir => ∃ r, doUnlink s.ns dir name isdir = .ok r
  | .readdir num bufsize => ∃ es cookie,
      rootfsReaddir s.ns dir s.cookie num bufsize = .ok (es, cookie) ∧
      ∀ e ∈ es, e.name = dot ∨ e.name = dotdot ∨ HasChild s.ns dir e.name

/-- The names in the order in which they were returned. -/
def returnedNames (s : Session) : List Name := s.batches.flatten.map Dirent.name

/-- The last child that was returned. -/
def cursor (cookie : DirPos) : Option Name := if 2 < cookie.pos then some cookie.name else none

/-- The invariant of a listing: behind the two special entries come the children that were
returned, exactly as far as the cursor has got. -/
structure Tracked (Stays : Name → Prop) (s : Session) (rest : List Name) : Prop where
  shelf : ∃ kids, Shelf s.ns dir kids
  seen : returnedNames s = [dot, dotdot].take s.cookie.pos ++ rest
  exact : Exact Stays rest
  cursor : rest.getLast? = cursor s.cookie
  legal : ∀ name ∈ rest, name ≠ dot ∧ name ≠ dotdot

end Sessions

section Steps
variable {dir num : ℕ} {s : Session} {Stays : Name → Prop} {rest : List Name}

/-- Where the cursor is after a batch, of which `num - (2 - pos)` names may be children. -/
theorem cursor_after {cookie cookie' : DirPos} {xs : List Name} {names : List Name}
    (hnames : names = (pending cookie xs).take num) (hlast : rest.getLast? = cursor cookie)
    (hpos : cookie'.pos = cookie.pos + names.length)
    (hname : cookie'.name = if 2 < cookie'.pos then names.getLast?.getD cookie.name
      else cookie.name) :
    [dot, dotdot].take cookie.pos ++ rest ++ names =
      [dot, dotdot].take cookie'.pos ++
        (rest ++ batch (cursor cookie) xs (num - (2 - cookie.pos))) ∧
    (rest ++ batch (cursor cookie) xs (num - (2 - cookie.pos))).getLast? = cursor cookie' := by
  have hsplit : names = ([dot, dotdot].drop cookie.pos).take num ++
      batch (cursor cookie) xs (num - (2 - cookie.pos)) := by
    rw [hnames, pending, List.take_append, List.length_drop]
    rfl
  have hfew : num ≤ 2 - cookie.pos → batch (cursor cookie) xs (num - (2 - cookie.pos)) = [] := by
    intro hle
    rw [Nat.sub_eq_zero_of_le hle]
    exact List.take_zero ..
  have hearly : cookie.pos < 2 → rest = [] := by
    intro hlt
    rw [cursor, if_neg (by omega)] at hlast
    exact List.getLast?_eq_none_iff.mp hlast
  generalize batch (cursor cookie) xs (num - (2 - cookie.pos)) = new at hsplit hfew ⊢
  have hlen : names.length = min num (2 - cookie.pos) + new.length := by
    rw [hsplit, List.length_append, List.length_take, List.length_drop]
    rfl
  constructor
  · by_cases hle : num ≤ 2 - cookie.pos ∧ cookie.pos < 2
    · have hnil := hfew hle.1
      rw [hnil, List.length_nil] at hlen
      rw [hsplit, hnil, hearly hle.2, show cookie'.pos = cookie.pos + num by omega, List.take_add]
      simp
    · have hall : ([dot, dotdot].drop cookie.pos).take num = [dot, dotdot].drop cookie.pos := by
        apply List.take_of_length_le
        rw [List.length_drop]
        change 2 - cookie.pos ≤ num
        omega
      have hpos' : [dot, dotdot].take cookie'.pos = [dot, dotdot] := by
        apply List.take_of_length_le
        change 2 ≤ cookie'.pos
        omega
      rw [hsplit, hall, hpos']
      by_cases hlt : cookie.pos < 2
      · rw [hearly hlt, List.append_nil, ← List.append_assoc, List.take_append_drop]
        rfl
      · have hge : 2 ≤ cookie.pos := by omega
        rw [List.drop_of_length_le hge, List.take_of_length_le hge]
        simp
  · by_cases hnil : new = []
    · rw [hnil, List.length_nil] at hlen
      rw [hnil, List.append_nil, hlast]
      unfold cursor
      by_cases hlate : 2 < cookie.pos
      · have hsame : names = [] := List.length_eq_zero_iff.mp (by omega)
        rw [hsame, List.length_nil] at hpos
        rw [if_pos hlate, if_pos (by omega), hname, hsame]
        simp
      · rw [if_neg hlate, if_neg (by omega)]
    · have hmany : ¬num ≤ 2 - cookie.pos := fun hle => hnil (hfew hle)
      have hnew := List.length_pos_iff.mpr hnil
      have hlate : 2 < cookie'.pos := by omega
      obtain ⟨a, ha⟩ := Option.ne_none_iff_exists'.mp (mt List.getLast?_eq_none_iff.mp hnil)
      rw [List.getLast?_append_of_ne_nil _ hnil, cursor, if_pos hlate, hname, if_pos hlate, hsplit,
        List.getLast?_append_of_ne_nil _ hnil, ha]
      rfl

theorem Tracked.mono {Stays' : Name → Prop} (h : Tracked dir Stays s rest)
    (hsub : ∀ name, Stays' name → Stays name) : Tracked dir Stays' s rest :=
  ⟨h.shelf, h.seen, ⟨h.exact.sorted, fun x hx => h.exact.complete x (hsub x hx)⟩, h.cursor, h.legal⟩

/-- A change of the directory does not touch what was returned. -/
theorem Tracked.changed {ns' : Nspace} (h : Tracked dir Stays s rest)
    (hshelf : ∃ kids, Shelf ns' dir kids) : Tracked dir Stays { s with ns := ns' } rest :=
  ⟨hshelf, h.seen, h.exact, h.cursor, h.legal⟩

theorem fits_take {kids : List ℕ} (h : Shelf s.ns dir kids) {bufsize : ℕ}
    (hfit : Fits dir s (.readdir num bufsize)) :
    s.cookie.pos + ((pending s.cookie (names s.ns kids)).take num).length < 2 ^ 31 := by
  apply hfit _ ((h.pending_nodup s.cookie).sublist (List.take_sublist num _))
    (List.length_take_le num _)
  intro name hname
  rcases List.mem_append.mp (List.mem_of_mem_take hname) with hmem | hmem
  · exact Or.inl hmem
  · obtain ⟨hchild, hbehind⟩ := mem_after.mp hmem
    refine Or.inr ⟨h.hasChild_iff.mpr hchild, fun hpos => ?_⟩
    rw [if_pos hpos] at hbehind
    exact hbehind _ rfl

/-- The call of `readdir`, with the children that are new. -/
theorem Tracked.readdir (h : Tracked dir Stays s rest) {bufsize : ℕ}
    (hroom : Room s.ns dir num bufsize) (hfit : Fits dir s (.readdir num bufsize)) :
    ∃ es cookie kids, Shelf s.ns dir kids ∧
      rootfsReaddir s.ns dir s.cookie num bufsize = .ok (es, cookie) ∧
      es.map Dirent.name = (pending s.cookie (names s.ns kids)).take num ∧
      Tracked dir (fun name => Stays name ∧ HasChild s.ns dir name)
        { s with cookie := cookie, batches := s.batches ++ [es] }
        (rest ++ batch rest.getLast? (names s.ns kids) (num - (2 - s.cookie.pos))) := by
  obtain ⟨kids, hshelf⟩ := h.shelf
  obtain ⟨es, cookie, hcall, hes, hpos, hname⟩ :=
    rootfsReaddir_eq hshelf s.cookie hroom (fits_take hshelf hfit)
  rw [← es.length_map (f := Dirent.name)] at hpos
  obtain ⟨hseen, hcursor⟩ := cursor_after hes h.cursor hpos hname
  refine ⟨es, cookie, kids, hshelf, hcall, hes, ⟨kids, hshelf⟩, ?_, ?_, ?_, fun name hmem => ?_⟩
  · rw [h.cursor, ← hseen, ← h.seen]
    simp [returnedNames]
  · have happend := h.exact.append hshelf.names_sorted (num - (2 - s.cookie.pos))
    refine ⟨happend.sorted, fun x hx => happend.complete x ?_⟩
    exact ⟨hx.1, hshelf.hasChild_iff.mp hx.2⟩
  · rw [h.cursor]
    exact hcursor
  · rcases List.mem_append.mp hmem with hmem | hmem
    · exact h.legal name hmem
    · have hlegal := hshelf.names_legal (mem_of_mem_batch hmem)
      exact ⟨hlegal.1, hlegal.2.1⟩

/-- One event: the call returns what it should, and the invariant holds on. -/
theorem Tracked.next (h : Tracked dir Stays s rest) {ev : Event}
    (ha : Allowed dir s ev ∧ Fits dir s ev) :
    Answered dir s ev ∧ ∃ rest', Tracked dir (fun name => Stays name ∧ HasChild s.ns dir name)
      (next dir s ev) rest' := by
  have hkept : Tracked dir (fun name => Stays name ∧ HasChild s.ns dir name) s rest :=
    h.mono fun _ hx => hx.1
  obtain ⟨kids, hshelf⟩ := h.shelf
  cases ev with
  | create name mode vn =>
    obtain ⟨r, hcall, hafter⟩ := hshelf.doCreate name mode ha.1.1 ha.1.2
    refine ⟨⟨r, hcall⟩, rest, ?_⟩
    rw [RootfsListing.next, hcall]
    exact hkept.changed hafter
  | unlink name isdir =>
    obtain ⟨r, hcall, hafter⟩ := hshelf.doUnlink name isdir
    refine ⟨⟨r, hcall⟩, rest, ?_⟩
    rw [RootfsListing.next, hcall]
    exact hkept.changed hafter
  | readdir num bufsize =>
    obtain ⟨es, cookie, kids, hshelf, hcall, hes, hafter⟩ := h.readdir ha.1.2 ha.2
    refine ⟨⟨es, cookie, hcall, fun e he => ?_⟩,
      rest ++ batch rest.getLast? (names s.ns kids) (num - (2 - s.cookie.pos)), ?_⟩
    · have hmem : e.name ∈ es.map Dirent.name := List.mem_map_of_mem he
      rw [hes] at hmem
      exact hshelf.mem_pending (List.mem_of_mem_take hmem)
    · rw [RootfsListing.next, hcall]
      exact hafter

theorem Tracked.run (h : Tracked dir Stays s rest) {events : List Event}
    (ha : EveryStep (RootfsListing.next dir) (fun s ev => Allowed dir s ev ∧ Fits dir s ev) s
      events) :
    EveryStep (RootfsListing.next dir) (Answered dir) s events ∧ ∃ rest', Tracked dir
      (fun name => Stays name ∧
        EveryState (RootfsListing.next dir) (fun s => HasChild s.ns dir name) s events)
      (runTrace (RootfsListing.next dir) s events) rest' := by
  induction events generalizing s Stays rest with
  | nil => exact ⟨trivial, rest, h.mono fun _ hx => hx.1⟩
  | cons ev events ih =>
    obtain ⟨hanswer, rest₁, h₁⟩ := h.next ha.1
    obtain ⟨hanswers, rest₂, h₂⟩ := ih h₁ ha.2
    refine ⟨⟨hanswer, hanswers⟩, rest₂, h₂.mono fun name hx => ?_⟩
    exact ⟨⟨hx.1, hx.2.1⟩, hx.2.2⟩

end Steps

section Runs
variable {ns : Nspace} {dir num bufsize : ℕ} {kids : List ℕ} {cookie : DirPos} {s : Session}

/-- A listing is over when a call on it returns no entries. -/
def Ends (dir : ℕ) (s : Session) (num bufsize : ℕ) : Prop :=
  ∃ cookie, rootfsReaddir s.ns dir s.cookie num bufsize = .ok ([], cookie)

/-- Both special entries come first, then children in order, as far as the listing has got. -/
def InOrder (xs : List Name) : Prop :=
  ∃ rest, rest.Pairwise (· < ·) ∧ (∀ name ∈ rest, name ≠ dot ∧ name ≠ dotdot) ∧
    xs <+: dot :: dotdot :: rest

/-- Both special entries come first, the children that were returned are in order, and all of
the names that were there throughout are among them; nothing is returned twice. -/
structure ListsExactly (dir : ℕ) (s : Session) (events : List Event) (xs : List Name) : Prop where
  ordered : ∃ rest, xs = dot :: dotdot :: rest ∧ rest.Pairwise (· < ·)
  nodup : xs.Nodup
  complete : ∀ name, EveryState (next dir) (fun s => HasChild s.ns dir name) s events →
    xs.count name = 1

/-- Every call answers, what was returned is in order at every time, and once a call returns no
entries nothing is missing. -/
structure ExactUnderChange (dir : ℕ) (s : Session) (events : List Event) : Prop where
  answered : EveryStep (next dir) (Answered dir) s events
  inOrder : EveryState (next dir) (fun s => InOrder (returnedNames s)) s events
  finished : ∀ es num bufsize, events = es ++ [.readdir num bufsize] →
    Ends dir (runTrace (next dir) s es) num bufsize →
    ListsExactly dir s es (returnedNames (runTrace (next dir) s es))

theorem InOrder.nodup {xs : List Name} (h : InOrder xs) : xs.Nodup := by
  obtain ⟨rest, hsorted, hlegal, hprefix⟩ := h
  refine List.Nodup.sublist hprefix.sublist ?_
  have hdots : dot ≠ dotdot := by decide
  refine List.nodup_cons.mpr ⟨fun hm => ?_, List.nodup_cons.mpr ⟨fun hm => ?_, ?_⟩⟩
  · rcases List.mem_cons.mp hm with he | hm
    · exact hdots he
    · exact (hlegal dot hm).1 rfl
  · exact (hlegal dotdot hm).2 rfl
  · exact hsorted.imp ne_of_lt

theorem start_tracked (h : Shelf ns dir kids) :
    Tracked dir (fun _ => True) ⟨ns, ⟨0, []⟩, []⟩ [] :=
  ⟨⟨kids, h⟩, rfl, Exact.nil, rfl, fun _ hn => absurd hn List.not_mem_nil⟩

theorem Tracked.inOrder {Stays : Name → Prop} {rest : List Name} (h : Tracked dir Stays s rest) :
    InOrder (returnedNames s) := by
  refine ⟨rest, h.exact.sorted, h.legal, ?_⟩
  rw [h.seen]
  by_cases hpos : 2 ≤ s.cookie.pos
  · rw [List.take_of_length_le hpos]
    exact List.prefix_rfl
  · have hlast := h.cursor
    rw [RootfsListing.cursor, if_neg (by omega)] at hlast
    rw [List.getLast?_eq_none_iff.mp hlast, List.append_nil]
    exact List.take_prefix _ _

/-- The last call of a listing has nothing left to return. -/
theorem Tracked.finished {Stays : Name → Prop} {rest : List Name}
    (h : Tracked dir Stays s rest)
    (hlast : Allowed dir s (.readdir num bufsize) ∧ Fits dir s (.readdir num bufsize))
    (hend : Ends dir s num bufsize) : returnedNames s = dot :: dotdot :: rest ∧
      ∀ name, Stays name → HasChild s.ns dir name → name ∈ rest := by
  obtain ⟨⟨hnum, hroom⟩, hfit⟩ := hlast
  obtain ⟨es, cookie', kids, hshelf, hcall, hes, _⟩ := h.readdir hroom hfit
  obtain ⟨cookie, hempty⟩ := hend
  rw [hcall] at hempty
  cases hempty
  have hpending : pending s.cookie (names s.ns kids) = [] := by
    rcases List.take_eq_nil_iff.mp hes.symm with h₀ | h₀
    · omega
    · exact h₀
  obtain ⟨hspecial, hafter⟩ := List.append_eq_nil_iff.mp hpending
  have hpos : 2 ≤ s.cookie.pos := List.drop_eq_nil_iff.mp hspecial
  constructor
  · rw [h.seen, List.take_of_length_le hpos]
    rfl
  · intro name hstays hchild
    refine h.exact.finish le_rfl ?_ hstays (hshelf.hasChild_iff.mp hchild)
    rw [h.cursor]
    unfold batch RootfsListing.cursor
    rw [hafter]
    rfl

/-- Every listing is exact, whatever is made and removed in the directory between the calls, as
long as the position of its cookie is one that an `int` can hold. -/
theorem listing_exact (h : Shelf ns dir kids) (hopen : rootfsOpendir ns dir = (0, some cookie))
    (events : List Event) (hallowed : EveryStep (next dir) (Allowed dir) ⟨ns, cookie, []⟩ events)
    (hfit : EveryStep (next dir) (Fits dir) ⟨ns, cookie, []⟩ events) :
    ExactUnderChange dir ⟨ns, cookie, []⟩ events := by
  obtain rfl : ⟨0, []⟩ = cookie := by
    unfold rootfsOpendir at hopen
    split at hopen
    · cases hopen
    · cases hopen
      rfl
  have hboth := hallowed.and hfit
  have hstart := start_tracked h
  refine ⟨(hstart.run hboth).1, ?_, ?_⟩
  · have hevery : EveryState (next dir) (fun s => ∃ rest, Tracked dir (fun _ => False) s rest)
        ⟨ns, ⟨0, []⟩, []⟩ events := by
      refine everyState_of_step ?_ ⟨[], hstart.mono fun _ hf => hf.elim⟩ hboth
      rintro s ev ⟨rest, ht⟩ hstep
      obtain ⟨rest', ht'⟩ := (ht.next hstep).2
      exact ⟨rest', ht'.mono fun _ hf => hf.elim⟩
    exact hevery.mono fun _ ⟨_, ht⟩ => ht.inOrder
  · rintro es num bufsize rfl hend
    obtain ⟨hes, hlast, _⟩ := everyStep_append.mp hboth
    obtain ⟨_, rest, ht⟩ := hstart.run hes
    have hnodup := ht.inOrder.nodup
    obtain ⟨hseen, hcomplete⟩ := ht.finished hlast hend
    refine ⟨⟨rest, hseen, ht.exact.sorted⟩, hnodup, fun name hstays => ?_⟩
    apply List.count_eq_one_of_mem hnodup
    rw [hseen]
    have hmem := hcomplete name ⟨trivial, hstays⟩ hstays.last
    exact List.mem_cons_of_mem _ (List.mem_cons_of_mem _ hmem)

/-- The room for names of up to `w` bytes. -/
theorem room_of_short {w : ℕ} (hw : dotdot.length ≤ w) (hfew : w < FILE_NAME_LENGTH)
    (hchild : ∀ name, HasChild ns dir name → name.length ≤ w) :
    Room ns dir num (num * (direntSize + w + 7)) := by
  unfold FILE_NAME_LENGTH at hfew
  intro xs _ hxs hmem
  refine le_trans (List.sum_le_card_nsmul _ (direntSize + w + 7) fun k hk => ?_) ?_
  · obtain ⟨name, hname, rfl⟩ := List.mem_map.mp hk
    have hshort : name.length ≤ w := by
      rcases hmem name hname with rfl | rfl | hname
      · exact le_trans (by decide) hw
      · exact hw
      · exact hchild name hname
    unfold recLen direntSize
    omega
  · rw [List.length_map, smul_eq_mul]
    exact Nat.mul_le_mul_right _ hxs

theorem Room.mono {b : ℕ} (h : Room ns dir num b) (hle : b ≤ bufsize) : Room ns dir num bufsize :=
  fun xs hnodup hlen hmem => (h xs hnodup hlen hmem).trans hle

theorem fits_of_few {num bufsize : ℕ} (h : s.cookie.pos + num < 2 ^ 31) :
    Fits dir s (.readdir num bufsize) := fun _ _ hxs _ => by omega

/-- The root directory was opened after the mount. -/
def rootOpened : Session := ⟨mounted noNodes 0, ⟨0, []⟩, []⟩

end Runs

section Overflow
variable {ns : Nspace} {dir vn num bufsize : ℕ} {name : Name}

/-- An empty directory, and memory for a child. -/
structure Bare (ns : Nspace) (dir vn : ℕ) : Prop where
  isdir : sIsdir (ns.node dir).mode
  kept : (ns.node dir).removed = false
  empty : ns.head dir = none
  fresh : vn ∉ ns.live ∧ vn ≠ dir
  root : ns.root = dir

/-- The same directory with one child. -/
structure Single (ns : Nspace) (dir vn : ℕ) (name : Name) : Prop where
  isdir : sIsdir (ns.node dir).mode
  kept : (ns.node dir).removed = false
  child : ns.head dir = some vn ∧ ns.links.next vn = none ∧ ns.links.prev vn = none
  node : (ns.node vn).name = some name ∧ (ns.node vn).parent = dir ∧ (ns.node vn).mode = sIfdir
  leaf : ns.head vn = none
  live : vn ∈ ns.live ∧ vn ≠ dir
  root : ns.root = dir

theorem Single.list (h : Single ns dir vn name) :
    IsList ns.links ⟨ns.head dir, [vn].getLast?⟩ [vn] :=
  ⟨List.nodup_singleton vn, h.child.1, rfl, h.child.2.2, h.child.2.1, trivial⟩

theorem Single.hasChild (h : Single ns dir vn name) {name' : Name}
    (hc : HasChild ns dir name') : name' = name := by
  obtain ⟨c, hlisted, hname⟩ := hc
  obtain rfl := List.mem_singleton.mp (mem_of_listed h.list hlisted)
  rw [h.node.1] at hname
  exact (Option.some.inj hname).symm

theorem Bare.create (h : Bare ns dir vn) (hname : name ≠ dot ∧ name ≠ dotdot) :
    ∃ r, doCreate ns dir name sIfdir vn = .ok r ∧ Single r.2 dir vn name := by
  have hcheck : createCheck ns dir name = .ok 0 := by
    have hfind : findSorted ns name ns.live.card none = .ok none := by simp [findSorted]
    unfold createCheck
    rw [if_neg (not_not.mpr h.isdir), if_neg (by simp [h.kept]), if_neg (not_or.mpr hname),
      h.empty, hfind]
    rfl
  have hpoint : ∀ ns' : Nspace, insertPoint ns' name ns'.live.card none none =
      .ok (none, none) := fun ns' => by simp [insertPoint]
  unfold doCreate
  rw [hcheck]
  dsimp only [Except.bind, linkIn, setNode]
  rw [if_neg (not_not.mpr rfl), h.empty, hpoint]
  refine ⟨_, rfl, ?_⟩
  have hne := h.fresh.2
  constructor <;> simp [putBetween, Links.setNext, Links.setPrev, Function.update_of_ne hne.symm,
    h.isdir, h.kept, h.root, hne]

theorem Single.unlink (h : Single ns dir vn name) (hname : name ≠ dot ∧ name ≠ dotdot) :
    ∃ r, doUnlink ns dir name true = .ok r ∧ Bare r.2 dir vn := by
  obtain ⟨hhead, hnext, hprev⟩ := h.child
  obtain ⟨hnode, hparent, hmode⟩ := h.node
  have hne := h.live.2
  have hfind : findName ns name ns.live.card (some vn) = .ok (some vn) := by
    obtain ⟨n, hn⟩ := Nat.exists_eq_add_one.mpr (Finset.card_pos.mpr ⟨vn, h.live.1⟩)
    rw [hn, findName, hnode]
    exact if_pos rfl
  unfold doUnlink
  rw [if_neg (not_not.mpr h.isdir), if_neg (not_or.mpr hname.symm), hhead, hfind]
  dsimp only [Except.map]
  rw [hmode, if_neg (by decide), if_neg (by decide), if_neg (by rw [h.root]; exact hne),
    if_neg (by simp [h.leaf])]
  refine ⟨_, rfl, ?_⟩
  constructor <;> simp [setNode, RootfsTree.dropVnode, linkOut, takeOut, Links.setNext,
    Links.setPrev, hparent, hprev, hnext, Function.update_of_ne hne.symm, h.isdir, h.kept,
    h.root, hne]

theorem rootOpened_bare : Bare rootOpened.ns 0 1 := ⟨by decide, rfl, rfl, by decide, rfl⟩

theorem next_readdir_ns (dir : ℕ) (s : Session) (num bufsize : ℕ) :
    (next dir s (.readdir num bufsize)).ns = s.ns := by
  rw [next]
  cases rootfsReaddir s.ns dir s.cookie num bufsize <;> rfl

/-- The root directory was opened, and then `a` was made in it. -/
def oneChild : Session := next 0 rootOpened (.create (letter 0) sIfdir 1)

theorem oneChild_room (num : ℕ) : Room oneChild.ns 0 num (num * 33) := by
  obtain ⟨r, hcreate, hone⟩ : ∃ r, doCreate rootOpened.ns 0 (letter 0) sIfdir 1 = .ok r ∧
      Single r.2 0 1 (letter 0) := rootOpened_bare.create (by decide)
  have hns : oneChild.ns = r.2 := by
    rw [oneChild, next, hcreate]
    rfl
  rw [hns]
  apply room_of_short le_rfl (by decide)
  intro name hc
  rw [hone.hasChild hc]
  decide

theorem listing_exact_one_child :
    ExactUnderChange 0 rootOpened
      [.create [97] sIfdir 1, .readdir 2 66, .readdir 4 132, .readdir 1 33] := by
  have hallowed : EveryStep (next 0) (Allowed 0) rootOpened
      [.create [97] sIfdir 1, .readdir 2 66, .readdir 4 132, .readdir 1 33] := by
    refine ⟨⟨by decide +kernel, by decide⟩, ⟨by decide, oneChild_room 2⟩, ⟨by decide, ?_⟩,
      ⟨by decide, ?_⟩, trivial⟩
    · rw [next_readdir_ns]
      exact oneChild_room 4
    · rw [next_readdir_ns, next_readdir_ns]
      exact oneChild_room 1
  have hfit : EveryStep (next 0) (Fits 0) rootOpened
      [.create [97] sIfdir 1, .readdir 2 66, .readdir 4 132, .readdir 1 33] := by
    refine ⟨trivial, fits_of_few ?_, fits_of_few ?_, fits_of_few ?_, trivial⟩
    · decide +kernel
    · decide +kernel
    · decide +kernel
  exact listing_exact (shelf_empty rfl) rfl _ hallowed hfit

/-- A call that returns the one child, whatever the position is read as. -/
theorem Single.readdir (h : Single ns dir vn name) (cookie : DirPos)
    (hshort : name.length < FILE_NAME_LENGTH) (hroom : recLen name ≤ bufsize)
    (hpos : toInt32 cookie.pos ≠ 0 ∧ toInt32 cookie.pos ≠ 1)
    (hbehind : 2 < toInt32 cookie.pos → cookie.name < name) :
    ∃ es, rootfsReaddir ns dir cookie 1 bufsize = .ok (es, ⟨cookie.pos + 1,
      if 2 < toInt32 ↑(cookie.pos + 1) then name else cookie.name⟩) ∧
      es.map Dirent.name = [name] := by
  obtain ⟨hhead, hnext, _⟩ := h.child
  have hskip : (if 2 < toInt32 cookie.pos then skipTo ns cookie.name ns.live.card (ns.head dir)
      else .ok (ns.head dir)) = .ok (some vn) := by
    rw [hhead]
    split
    · rename_i hlate
      obtain ⟨n, hn⟩ := Nat.exists_eq_add_one.mpr (Finset.card_pos.mpr ⟨vn, h.live.1⟩)
      rw [hn, skipTo, h.node.1]
      exact if_neg (not_le.mpr (hbehind hlate))
    · rfl
  have hfill : fillBuffer ns dir bufsize 1 cookie.pos (some vn) 0 =
      .ok ([dirent (name, (ns.node vn).vnid)], cookie.pos + 1) :=
    fillBuffer_step (nextEntry_child hpos.1 hpos.2 h.node.1) hshort
      (by rw [Nat.zero_add]; exact hroom) rfl
  have hsave : saveName cookie [dirent (name, (ns.node vn).vnid)] (cookie.pos + 1) =
      .ok ⟨cookie.pos + 1, if 2 < toInt32 ↑(cookie.pos + 1) then name else cookie.name⟩ := by
    unfold saveName
    rw [List.getLast?_singleton]
    dsimp only [dirent]
    by_cases hlate : 2 < toInt32 ↑(cookie.pos + 1)
    · rw [if_neg (not_not.mpr hlate), if_pos hshort, if_pos hlate]
    · rw [if_pos hlate, if_neg hlate]
  exact ⟨_, rootfsReaddir_ok hskip hfill hsave, rfl⟩

/-- The number `k` in `w` letters, so that larger numbers have larger names. -/
def label : ℕ → ℕ → Name
  | 0, _ => []
  | w + 1, k => letter (if k < 2 ^ w then 0 else 1) ++ label w (k % 2 ^ w)

theorem label_length (w k : ℕ) : (label w k).length = w := by
  induction w generalizing k with
  | zero => rfl
  | succ w ih =>
    rw [label, List.length_append, ih, Nat.add_comm]
    rfl

theorem label_lt {w j k : ℕ} (hjk : j < k) (hk : k < 2 ^ w) : label w j < label w k := by
  induction w generalizing j k with
  | zero => omega
  | succ w ih =>
    rw [Nat.pow_succ] at hk
    rw [label, label]
    unfold letter
    rw [List.singleton_append, List.singleton_append, List.cons_lt_cons_iff]
    have hpow : 0 < 2 ^ w := Nat.two_pow_pos w
    by_cases hj' : j < 2 ^ w
    · by_cases hk' : k < 2 ^ w
      · rw [if_pos hj', if_pos hk', Nat.mod_eq_of_lt hj', Nat.mod_eq_of_lt hk']
        exact Or.inr ⟨rfl, ih hjk hk'⟩
      · rw [if_pos hj', if_neg hk']
        exact Or.inl (by decide)
    · have hk' : ¬k < 2 ^ w := by omega
      rw [if_neg hj', if_neg hk']
      refine Or.inr ⟨rfl, ih ?_ (Nat.mod_lt _ hpow)⟩
      rw [Nat.mod_eq_sub_mod (by omega), Nat.mod_eq_of_lt (by omega),
        Nat.mod_eq_sub_mod (a := k) (by omega), Nat.mod_eq_of_lt (by omega)]
      omega

/-- A child is made and listed. -/
def listOne (k : ℕ) : List Event := [.create (label 31 k) sIfdir 1, .readdir 1 64]

/-- The special entries are listed, and then `n` children, each of which is removed before the next
one is made. -/
def listMany : ℕ → List Event
  | 0 => [.readdir 2 66]
  | n + 1 => listMany n ++ (listOne n ++ [.unlink (label 31 n) true])

/-- After `k` children that have come and gone. -/
structure Passed (k : ℕ) (s : Session) : Prop where
  bare : Bare s.ns 0 1
  pos : s.cookie.pos = k + 2
  name : ∀ j, k = j + 1 → s.cookie.name = label 31 j

theorem label_ne (k : ℕ) : label 31 k ≠ dot ∧ label 31 k ≠ dotdot := by
  have hlen := label_length 31 k
  constructor
  · intro he
    rw [he] at hlen
    exact absurd hlen (by decide)
  · intro he
    rw [he] at hlen
    exact absurd hlen (by decide)

theorem label_short (k : ℕ) : (label 31 k).length < FILE_NAME_LENGTH := by
  rw [label_length]
  decide

theorem label_recLen (k : ℕ) : recLen (label 31 k) ≤ 64 := by
  rw [recLen, label_length]
  decide

theorem Single.room {k : ℕ} (h : Single ns 0 1 (label 31 k)) : Room ns 0 1 64 := by
  have hroom : Room ns 0 1 (1 * (direntSize + 31 + 7)) := by
    apply room_of_short (by decide) (by decide)
    intro name hc
    rw [h.hasChild hc, label_length]
  exact hroom.mono (by decide)

/-- What is left of the name in the cookie is before the names to come. -/
theorem Passed.behind {k : ℕ} {s : Session} (h : Passed k s) (hk : k < 2 ^ 31)
    (hpos : 2 < toInt32 s.cookie.pos) : s.cookie.name < label 31 k := by
  cases k with
  | zero =>
    rw [h.pos] at hpos
    exact absurd hpos (by decide)
  | succ j =>
    rw [h.name j rfl]
    exact label_lt (Nat.lt_succ_self j) hk

theorem Passed.listOne {k : ℕ} {s : Session} (h : Passed k s) (hk : k + 2 < 2 ^ 31) :
    ∃ ns es, EveryStep (next 0) (Allowed 0) s (listOne k) ∧ Single ns 0 1 (label 31 k) ∧
      runTrace (next 0) s (listOne k) = ⟨ns, ⟨k + 3, if 2 < toInt32 ↑(k + 3) then label 31 k
        else s.cookie.name⟩, s.batches ++ [es]⟩ ∧ es.map Dirent.name = [label 31 k] := by
  obtain ⟨r, hcreate, hone⟩ := h.bare.create (label_ne k)
  have hpos : toInt32 s.cookie.pos = k + 2 := by
    rw [h.pos, toInt32_of_lt (Int.natCast_nonneg _) (by omega)]
    push_cast
    rfl
  obtain ⟨es, hread, hes⟩ := hone.readdir s.cookie (label_short k) (label_recLen k)
    ⟨by omega, by omega⟩ (h.behind (by omega))
  rw [h.pos] at hread
  have h₁ : next 0 s (.create (label 31 k) sIfdir 1) = { s with ns := r.2 } := by
    rw [next, hcreate]
    rfl
  have h₂ : next 0 { s with ns := r.2 } (.readdir 1 64) = ⟨r.2, ⟨k + 3,
      if 2 < toInt32 ↑(k + 3) then label 31 k else s.cookie.name⟩, s.batches ++ [es]⟩ := by
    rw [next, hread]
    rfl
  refine ⟨r.2, es, ⟨⟨h.bare.fresh, label_short k⟩, ?_, trivial⟩, hone, ?_, hes⟩
  · rw [h₁]
    exact ⟨le_rfl, hone.room⟩
  · rw [RootfsListing.listOne, runTrace_cons, runTrace_cons, h₁, h₂]
    rfl

theorem Passed.step {k : ℕ} {s : Session} (h : Passed k s) (hk : k + 3 < 2 ^ 31) :
    EveryStep (next 0) (Allowed 0) s (RootfsListing.listOne k ++ [.unlink (label 31 k) true]) ∧
    Passed (k + 1)
      (runTrace (next 0) s (RootfsListing.listOne k ++ [.unlink (label 31 k) true])) := by
  obtain ⟨ns, es, hallowed, hone, hrun, _⟩ := h.listOne (by omega)
  obtain ⟨r, hunlink, hbare⟩ := hone.unlink (label_ne k)
  have hlate : 2 < toInt32 ↑(k + 3) := by
    rw [toInt32_of_lt (Int.natCast_nonneg _) (by omega)]
    omega
  rw [if_pos hlate] at hrun
  rw [everyStep_append, runTrace_append, hrun, runTrace_cons, runTrace_nil, next, hunlink]
  exact ⟨⟨hallowed, trivial, trivial⟩, hbare, rfl, fun j hj => by rw [Nat.succ.inj hj]; rfl⟩

theorem rootOpened_room : Room rootOpened.ns 0 2 66 := by
  apply room_of_short le_rfl (by decide)
  intro name hc
  exact absurd ((shelf_empty rfl).hasChild_iff.mp hc) List.not_mem_nil

theorem listMany_zero : Passed 0 (next 0 rootOpened (.readdir 2 66)) := by
  obtain ⟨es, cookie, hcall, hes, hpos, _⟩ := rootfsReaddir_eq (shelf_empty rfl)
    rootOpened.cookie rootOpened_room (by decide)
  have hlen := congrArg List.length hes
  rw [List.length_map] at hlen
  rw [hlen] at hpos
  rw [next, hcall]
  exact ⟨rootOpened_bare, hpos, fun j hj => absurd hj j.succ_ne_zero.symm⟩

theorem listMany_passed {n : ℕ} (hn : n + 2 < 2 ^ 31) :
    EveryStep (next 0) (Allowed 0) rootOpened (listMany n) ∧
    Passed n (runTrace (next 0) rootOpened (listMany n)) := by
  induction n with
  | zero =>
    rw [listMany, runTrace_cons, runTrace_nil]
    exact ⟨⟨⟨by decide, rootOpened_room⟩, trivial⟩, listMany_zero⟩
  | succ n ih =>
    obtain ⟨hallowed, hpassed⟩ := ih (by omega)
    obtain ⟨hstep, hnext⟩ := hpassed.step (by omega)
    rw [listMany, everyStep_append, runTrace_append]
    exact ⟨⟨hallowed, hstep⟩, hnext⟩

/-- The child that comes last is not removed, and the listing goes on. -/
def listOn (n : ℕ) : List Event := listMany n ++ (listOne n ++ [.readdir 1 64])

/-- With `2 ^ 31` entries returned the position is below zero: the name is not saved, and the walk
starts at the first child again. -/
theorem listOn_repeats {n : ℕ} (hn : n + 3 = 2 ^ 31) :
    EveryStep (next 0) (Allowed 0) rootOpened (listOn n) ∧
    ¬InOrder (returnedNames (runTrace (next 0) rootOpened (listOn n))) := by
  obtain ⟨hmany, hpassed⟩ := listMany_passed (n := n) (by omega)
  unfold listOn
  rw [everyStep_append, runTrace_append]
  generalize runTrace (next 0) rootOpened (listMany n) = s at hpassed
  obtain ⟨ns, es, hallowed, hone, hrun, hes⟩ := hpassed.listOne (by omega)
  have hneg : toInt32 ↑(n + 3) = -2 ^ 31 := by
    rw [hn, toInt32_eq_iff] <;> norm_num
  rw [hneg, if_neg (by norm_num)] at hrun
  obtain ⟨es', hread, hes'⟩ := hone.readdir ⟨n + 3, s.cookie.name⟩ (label_short n) (label_recLen n)
    (by rw [hneg]; norm_num) fun hlate => by
      rw [hneg] at hlate
      norm_num at hlate
  rw [everyStep_append, runTrace_append, hrun, runTrace_cons, runTrace_nil, next, hread]
  refine ⟨⟨hmany, hallowed, ⟨le_rfl, hone.room⟩, trivial⟩, fun h => ?_⟩
  have hnodup := h.nodup
  have hnames : returnedNames (Session.listed ⟨ns, ⟨n + 3, s.cookie.name⟩, s.batches ++ [es]⟩
      (.ok (es', ⟨n + 3 + 1, if 2 < toInt32 ↑(n + 3 + 1) then label 31 n else s.cookie.name⟩))) =
      returnedNames s ++ [label 31 n, label 31 n] := by
    simp [returnedNames, Session.listed, hes, hes']
  rw [hnames] at hnodup
  have htwice := (List.nodup_append.mp hnodup).2.1
  exact (List.nodup_cons.mp htwice).1 List.mem_cons_self

/-- The root directory after the mount: one child at a time is made, listed and removed, until the
last one is listed twice. -/
theorem listing_repeats_name :
    Shelf (mounted noNodes 0) 0 [] ∧ rootfsOpendir (mounted noNodes 0) 0 = (0, some ⟨0, []⟩) ∧
    EveryStep (next 0) (Allowed 0) rootOpened (listOn (2 ^ 31 - 3)) ∧
    ¬ExactUnderChange 0 rootOpened (listOn (2 ^ 31 - 3)) := by
  generalize hn : 2 ^ 31 - 3 = n
  obtain ⟨hallowed, hnot⟩ := listOn_repeats (n := n) (by omega)
  exact ⟨shelf_empty rfl, rfl, hallowed, fun h => hnot h.inOrder.last⟩

end Overflow

end RootfsListing
