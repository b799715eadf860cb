import Mathlib.Tactic
import FsKit.FailedMount
import FsKit.PathRounds
import FsKit.SeparatedLists

/-! `get_dir_fd` and `get_file_fd` (`kernel.c`) side by side. Where nothing is mounted and the
`walk` hook is a function of the vnode and the component, both follow the names of the path. -/
namespace PathSplitting

open FallibleRuns SeparatedLists VnodeRegistry VnodeTable VnodeCounts PathRounds
open VnodeLayer hiding incVnode decVnode
open PathWalk hiding parsePath
open DescriptorTable (FD_ALL EBADF)

section Model
variable (walk : Walker) (realloc : ℕ → Bool)

/-- Where a path starts, and what is left of it there. -/
def basePath (k : Kernel) (kernel : Bool) (fd : ℤ) (path : Option Path) :
    Except Stop (Except ℤ (ℕ × Option Path) × Kernel) :=
  if path.bind List.head? = some slash then
    (incVnode k k.rootvn).map fun k =>
      (.ok (k.rootvn, path.map (·.dropWhile (· = slash))), k)
  else if 0 ≤ fd then
    match DescriptorTable.getFd (k.files kernel) fd FD_ALL with
    | (none, _) => .ok (.error EBADF, k)
    | (some f, files) =>
      let bvn := (files.ofile f).vn
      let k := { k with files := Function.update k.files kernel files }
      (incVnode k bvn).bind fun k => (putFd k kernel f).map fun k => (.ok (bvn, path), k)
  else (incVnode k k.cwd).map fun k => (.ok (k.cwd, path), k)

def parsePathFd (n : ℕ) (k : Kernel) (kernel : Bool) (fd : ℤ) (path : Option Path)
    (eatsymlink : Bool) : Except Stop (Option (Except ℤ ℕ × Kernel × ℕ)) :=
  (basePath k kernel fd path).bind fun (r, k) =>
    match r with
    | .error err => .ok (some (.error err, k, 0))
    | .ok (bvn, path) => parsePath walk realloc eatsymlink n k bvn path

def getFileFd (n : ℕ) (k : Kernel) (kernel : Bool) (fd : ℤ) (path : Option Path)
    (eatsymlink : Bool) : Except Stop (Option (Except ℤ ℕ × Kernel)) :=
  match newPath path with
  | .error err => .ok (some (.error err, k))
  | .ok p => (parsePathFd walk realloc n k kernel fd p eatsymlink).map fun r =>
      r.map fun (r, k, _) => (r, k)

/-- The file name of a path, and what is left of the path for its directory. -/
def splitName (p : Path) : Path × Path :=
  if slash ∈ p then (p.rtakeWhile (· ≠ slash), p.rdropWhile (· ≠ slash) ++ [dot])
  else (p, [dot])

def getDirFd (n : ℕ) (k : Kernel) (kernel : Bool) (fd : ℤ) (path : Option Path) :
    Except Stop (Option (Except ℤ (ℕ × Path) × Kernel)) :=
  match newPath path with
  | .error err => .ok (some (.error err, k))
  | .ok none => .error .nullPointer
  | .ok (some p) =>
    let (filename, dir) := splitName p
    (parsePathFd walk realloc n k kernel fd (some dir) true).map fun r =>
      r.map fun (r, k, _) => (r.map fun dvn => (dvn, filename), k)

end Model

/-- What a `walk` hook says of the ids of a vnode and a component. -/
abbrev Tree := ℕ × ℤ → Path → Except ℤ ℤ

def answer : Except ℤ ℤ → Walked
  | .ok vnid => .found vnid
  | .error err => .fails err

/-- Wherever a call that began in `k₀` may come, the hook answers what `tree` says, and takes
what it reports. There are no links. -/
def WalksBy (walk : Walker) (tree : Tree) (k₀ : Kernel) : Prop :=
  ∀ k bvn component follow, Holding k₀ k [bvn] →
    ∃ k', walk k bvn component follow = .ok (answer (tree (idOf k.layer bvn) component), k') ∧
      Reports k bvn follow (answer (tree (idOf k.layer bvn) component), k')

/-- A dot leads from a directory to itself; what is not a directory has the same error for every
component. -/
def Directories (tree : Tree) (err : ℤ) : Prop :=
  ∀ id, tree id [dot] = .ok id.2 ∨ ∀ component, tree id component = .error err

/-- There is one name space, and nothing is mounted in it. -/
structure Unmounted (k : Kernel) : Prop where
  mounted : ∀ v < k.layer.vnnum, (k.layer.vns v).mounted = none
  mount : ∀ ns, (k.space ns).mount = none

/-- The names of a path are followed one by one. -/
def resolve (tree : Tree) (id : ℕ × ℤ) (names : List Path) : Except ℤ (ℕ × ℤ) :=
  names.foldlM (fun id name => (tree id name).map fun vnid => (id.1, vnid)) id

@[simp] theorem resolve_nil (tree : Tree) (id : ℕ × ℤ) : resolve tree id [] = .ok id := rfl

theorem resolve_cons (tree : Tree) (id : ℕ × ℤ) (name : Path) (names : List Path) :
    resolve tree id (name :: names) =
      ((tree id name).map fun vnid => (id.1, vnid)).bind fun id => resolve tree id names := rfl

theorem resolve_append (tree : Tree) (id : ℕ × ℤ) (names names' : List Path) :
    resolve tree id (names ++ names') =
      (resolve tree id names).bind fun id => resolve tree id names' := by
  unfold resolve
  rw [List.foldlM_append]
  rfl

section Rounds
variable {walk : Walker} {tree : Tree} {k₀ k : Kernel}
  {held : List ℕ} {bvn vn : ℕ} {c : Config}

/-- Two dots do not lead out of the name space. -/
theorem leaveRoot_unmounted (h : Holding k₀ k (bvn :: held)) (hu : Unmounted k₀)
    (component : Path) : leaveRoot k bvn component = .ok (bvn, k) := by
  have hlive : Live k.layer bvn := h.refs.live_held List.mem_cons_self
  obtain ⟨ns, hns, -⟩ := h.registered hlive
  have hmount : (k.space ns).mount = none := by
    rw [h.same]
    exact hu.mount ns
  unfold leaveRoot isRoot
  rw [hns]
  dsimp only
  rw [hmount]
  split
  · split
    · rfl
    · rfl
  · rfl

theorem enter_unmounted (h : Holding k₀ k (vn :: bvn :: held)) (h₀ : Ready k₀)
    (hfew : Few k₀ held) (hu : Unmounted k₀) {vnid : ℤ}
    (hlookup : lookupVnode k.layer (nsidOf k.layer bvn) vnid = some vn) :
    ∃ k', enter k bvn vnid = .ok (vn, k') ∧ Holding k₀ k' (vn :: held) ∧
      idOf k'.layer vn = (nsidOf k.layer bvn, vnid) := by
  have hlive : Live k.layer vn := h.refs.live_held List.mem_cons_self
  have hbvn : Live k.layer bvn := h.refs.live_held (List.mem_cons_of_mem _ List.mem_cons_self)
  have hid : idOf k.layer vn = (nsidOf k.layer bvn, vnid) :=
    (h.refs.sound.registry.lookup_some hlookup).2
  obtain ⟨s, hdec, hc⟩ := decVnode_eq (h.usable h₀).unlocked h.refs.sound hbvn
    ((h.refs.perm (List.Perm.swap bvn vn held)).lastSeen hfew.cons) false
  have h₁ : Holding k₀ { k with layer := s } (vn :: held) :=
    h.change hc ((h.refs.perm (List.Perm.swap bvn vn held)).drop hc) k.walks
  have hnone : (s.vns vn).mounted = none := by
    rcases hm : (s.vns vn).mounted with _ | ns
    · rfl
    · have hin : vn < k₀.layer.vnnum := h.refs.inside vn List.mem_cons_self
      have hm₀ := h₁.refs.mounted vn ns hm
      rw [hu.mounted vn hin] at hm₀
      cases hm₀
  refine ⟨{ k with layer := s }, ?_, h₁, ?_⟩
  · unfold enter
    rw [hlookup]
    dsimp only
    rw [hdec]
    dsimp only [Except.bind]
    unfold isMountVnode
    rw [lock_eq (h₁.usable h₀).unlocked]
    dsimp only [Except.bind]
    rw [hnone]
    dsimp only
    rw [unlock_eq (h.usable h₀).unlocked]
  · rw [← hid]
    exact idOf_kept hc hlive (h₁.refs.live_held List.mem_cons_self)

/-- A round follows one name. -/
theorem round_resolve (realloc : ℕ → Bool) (eatsymlink : Bool) (h₀ : Ready k₀)
    (hu : Unmounted k₀) (hw : WalksBy walk tree k₀)
    (h : Holding k₀ c.kernel [c.bvn]) {ch : UInt8} {cs : Path} (hp : c.p = ch :: cs) :
    match tree (idOf c.kernel.layer c.bvn) (ch :: cs.takeWhile (· ≠ slash)) with
    | .error err => ∃ k, PathRounds.round walk realloc eatsymlink c =
      .ok (.done (.error err) k c.iter)
    | .ok vnid => ∃ k vn, Holding k₀ k [vn] ∧
        idOf k.layer vn = ((idOf c.kernel.layer c.bvn).1, vnid) ∧
        PathRounds.round walk realloc eatsymlink c =
          .ok (.again ⟨k, vn, (cs.dropWhile (· ≠ slash)).dropWhile (· = slash), c.iter⟩) := by
  obtain ⟨k, bvn, p, iter⟩ := c
  dsimp only at hp h ⊢
  subst hp
  obtain ⟨k₁, hwalk, hr⟩ := hw k bvn (ch :: cs.takeWhile (· ≠ slash))
    (eatsymlink || (cs.dropWhile (· ≠ slash)).dropWhile (· = slash) ≠ []) h
  have hround : PathRounds.round walk realloc eatsymlink ⟨k, bvn, ch :: cs, iter⟩ =
      afterWalk realloc k₁ bvn (answer (tree (idOf k.layer bvn) (ch :: cs.takeWhile (· ≠ slash))))
        ((cs.dropWhile (· ≠ slash)).dropWhile (· = slash)) iter := by
    unfold PathRounds.round
    dsimp only
    rw [leaveRoot_unmounted h hu]
    dsimp only [Except.bind]
    rw [hwalk]
  rw [hround]
  have hout := hr.outcome h
  clear hround hwalk
  generalize tree (idOf k.layer bvn) (ch :: cs.takeWhile (· ≠ slash)) = result at hr hout ⊢
  cases result with
  | error err =>
    obtain ⟨k₂, hdec, -⟩ := Holding.decVnode hout.2 h₀ h₀.few_nil.lt false
    refine ⟨k₂, ?_⟩
    rw [answer, afterWalk, hdec]
    rfl
  | ok vnid =>
    obtain ⟨vn, hlookup, hheld⟩ := hout
    obtain ⟨k₂, henter, h₂, hid⟩ := enter_unmounted hheld h₀ h₀.few_nil hu hlookup
    have hsame : nsidOf k₁.layer bvn = nsidOf k.layer bvn := by
      obtain ⟨_, _, _, hc⟩ := hr.2
      exact congrArg Prod.fst (idOf_kept hc (h.refs.live_held List.mem_cons_self)
        (hheld.refs.live_held (List.mem_cons_of_mem _ List.mem_cons_self)))
    refine ⟨k₂, vn, h₂, ?_, ?_⟩
    · rw [hid, hsame]
      rfl
    · rw [answer, afterWalk, henter]
      rfl

/-- The resolution came to this end, with one reference to the vnode that it returns. -/
def Resolves (k₀ : Kernel) (end_ : Except ℤ (ℕ × ℤ)) (r : Except ℤ ℕ) (k : Kernel) : Prop :=
  match end_ with
  | .error err => r = .error err
  | .ok id => ∃ vn, r = .ok vn ∧ Holding k₀ k [vn] ∧ idOf k.layer vn = id

/-- The rounds follow the names of the path. -/
theorem rounds_resolve (realloc : ℕ → Bool) (eatsymlink : Bool) (h₀ : Ready k₀)
    (hu : Unmounted k₀) (hw : WalksBy walk tree k₀) (len : ℕ) :
    ∀ c : Config, c.p.length = len → c.p.head? ≠ some slash →
      Holding k₀ c.kernel [c.bvn] → ∃ n r k, rounds walk realloc eatsymlink n c =
        .ok (some (r, k, c.iter)) ∧
          Resolves k₀ (resolve tree (idOf c.kernel.layer c.bvn) (pieces slash c.p)) r k := by
  induction len using Nat.strong_induction_on with
  | _ len ih =>
    intro c hlen hhead h
    rcases hp : c.p with _ | ⟨ch, cs⟩
    · refine ⟨1, .ok c.bvn, c.kernel, ?_, ?_⟩
      · rw [rounds, PathRounds.round, hp]
        rfl
      · rw [pieces_nil, resolve_nil]
        exact ⟨c.bvn, rfl, h, rfl⟩
    have hch : ch ≠ slash := by
      intro heq
      rw [hp, heq] at hhead
      exact hhead rfl
    have hround := round_resolve realloc eatsymlink h₀ hu hw h hp
    rw [pieces_cons cs hch, resolve_cons]
    cases htree : tree (idOf c.kernel.layer c.bvn) (ch :: cs.takeWhile (· ≠ slash)) with
    | error err =>
      rw [htree] at hround
      obtain ⟨k, hround⟩ := hround
      refine ⟨1, .error err, k, ?_, rfl⟩
      rw [rounds, hround]
      rfl
    | ok vnid =>
      rw [htree] at hround
      obtain ⟨k, vn, hk, hid, hround⟩ := hround
      have hless : ((cs.dropWhile (· ≠ slash)).dropWhile (· = slash)).length < len := by
        have h₁ := (cs.dropWhile_suffix (· ≠ slash)).length_le
        have h₂ := ((cs.dropWhile (· ≠ slash)).dropWhile_suffix (· = slash)).length_le
        rw [hp, List.length_cons] at hlen
        omega
      have hnext : ((cs.dropWhile (· ≠ slash)).dropWhile (· = slash)).head? ≠ some slash :=
        head_dropWhile_ne _
      obtain ⟨n, r, k', hrest, hr⟩ := ih _ hless ⟨k, vn, _, c.iter⟩ rfl hnext hk
      refine ⟨n + 1, r, k', ?_, ?_⟩
      · rw [rounds, hround]
        exact hrest
      · rw [hid] at hr
        exact hr

end Rounds

section Names
variable {path p : Path}

/-- A copied path: it ends with a name, and its names are not too long. -/
structure Copied (p : Path) : Prop where
  ne : p ≠ []
  last : p.getLast? ≠ some slash
  names : ∀ name ∈ p.splitOn slash, name.length < FILE_NAME_LENGTH

theorem newPath_copied {r : Option Path} (h : newPath (some path) = .ok r) :
    ∃ p, r = some p ∧ Copied p := by
  unfold newPath at h
  dsimp only at h
  split at h
  · cases h
  rename_i hne
  split at h
  · cases h
  split at h
  · cases h
  rename_i hlong
  have hnames : ∀ name ∈ path.splitOn slash, name.length < FILE_NAME_LENGTH := by
    intro name hname
    by_contra hge
    exact hlong (List.any_eq_true.mpr ⟨name, hname, decide_eq_true (not_lt.mp hge)⟩)
  split at h
  · rename_i hlast
    cases h
    refine ⟨_, rfl, by simp, by rw [List.getLast?_concat]; decide, ?_⟩
    obtain ⟨q, rfl⟩ := List.getLast?_eq_some_iff.mp hlast
    intro name hname
    rw [List.splitOn_append_cons_self, List.forall_mem_append] at hnames
    rw [List.append_assoc, List.singleton_append, List.splitOn_append_cons_self,
      List.mem_append] at hname
    rcases hname with hname | hname
    · exact hnames.1 name hname
    · rw [show [dot].splitOn slash = [[dot]] from by decide, List.mem_singleton] at hname
      rw [hname]
      decide
  · rename_i hlast
    cases h
    exact ⟨path, rfl, hne, hlast, hnames⟩

/-- Without a slash there is nothing before the name. -/
theorem splitName_eq (p : Path) :
    splitName p = (p.rtakeWhile (· ≠ slash), p.rdropWhile (· ≠ slash) ++ [dot]) := by
  unfold splitName
  split
  · rfl
  · rename_i hnone
    have hall : ∀ x ∈ p, decide (x ≠ slash) = true := by
      rintro x hx
      exact decide_eq_true fun heq => hnone (heq ▸ hx)
    rw [List.rtakeWhile_eq_self_iff.mpr hall, List.rdropWhile_eq_nil_iff.mpr hall,
      List.nil_append]

/-- The file name is one name of at most 255 bytes. -/
theorem Copied.filename (h : Copied p) : 1 ≤ (splitName p).1.length ∧
    (splitName p).1.length ≤ 255 ∧ slash ∉ (splitName p).1 := by
  rw [splitName_eq]
  dsimp only
  refine ⟨?_, ?_, notMem_rtakeWhile slash p⟩
  · rw [Nat.one_le_iff_ne_zero, Ne, List.length_eq_zero_iff, List.rtakeWhile_eq_nil_iff]
    intro hlast
    have hslash := hlast h.ne
    rw [decide_eq_true_eq, not_not] at hslash
    apply h.last
    rw [List.getLast?_eq_some_getLast h.ne, hslash]
  · have hlt := h.names _ (rtakeWhile_mem_splitOn p)
    exact Nat.le_of_lt_succ hlt

/-- The names of a path are those before its file name, and that. -/
theorem Copied.pieces (h : Copied p) :
    pieces slash p = pieces slash (p.rdropWhile (· ≠ slash)) ++ [(splitName p).1] := by
  have hname := h.filename
  rw [splitName_eq] at hname ⊢
  have hlast : SeparatedLists.pieces slash
      (p.rdropWhile (· ≠ slash) ++ p.rtakeWhile (· ≠ slash)) = _ :=
    pieces_rdropWhile_append p (p.rtakeWhile (· ≠ slash))
  rw [List.rdropWhile_append_rtakeWhile, pieces_of_notMem _ hname.2.2] at hlast
  · exact hlast
  · exact List.ne_nil_of_length_pos hname.1

theorem pieces_dirname (p : Path) :
    pieces slash (splitName p).2 = pieces slash (p.rdropWhile (· ≠ slash)) ++ [[dot]] := by
  rw [splitName_eq, pieces_rdropWhile_append]
  rfl

/-- The path and what is left of it for the directory start at the same vnode. -/
theorem Copied.head_dirname (h : Copied p) :
    (splitName p).2.head? = some slash ↔ p.head? = some slash := by
  have hname := h.filename
  rw [splitName_eq] at hname ⊢
  have hparts : p.rdropWhile (· ≠ slash) ++ p.rtakeWhile (· ≠ slash) = p :=
    List.rdropWhile_append_rtakeWhile
  generalize p.rtakeWhile (· ≠ slash) = name at hname hparts
  generalize p.rdropWhile (· ≠ slash) = dir at hparts ⊢
  subst hparts
  cases dir with
  | nil =>
    have hdot : [dot].head? ≠ some slash := by decide
    refine iff_of_false hdot fun hhead => ?_
    exact hname.2.2 (List.mem_of_mem_head? hhead)
  | cons x xs => rfl

end Names

section Agreement
variable {walk : Walker} {tree : Tree} {k k₀ : Kernel} {path : Path} {err : ℤ}

/-- All paths that start alike start at one vnode, or have a descriptor that is not open. -/
theorem basePath_ends (h : Ready k) (kernel : Bool) (fd : ℤ) (absolute : Prop) :
    (∀ p : Path, (p.head? = some slash ↔ absolute) →
      basePath k kernel fd (some p) = .ok (.error EBADF, k)) ∨
    ∃ bvn k₁, Holding k k₁ [bvn] ∧ ∀ p : Path, (p.head? = some slash ↔ absolute) →
      ∃ p₁, basePath k kernel fd (some p) = .ok (.ok (bvn, some p₁), k₁) ∧
        p₁ = p.dropWhile (· = slash) := by
  have hrelative : ∀ p : Path, p.head? ≠ some slash → p = p.dropWhile (· = slash) := by
    intro p hp
    cases p with
    | nil => rfl
    | cons x xs =>
      have hx : x ≠ slash := fun heq => hp (congrArg some heq)
      rw [List.dropWhile_cons_of_neg (by simpa using hx)]
  by_cases habs : absolute
  · obtain ⟨k₁, hinc, h₁⟩ := h.holding.incVnode h h.rootvn
    refine .inr ⟨k.rootvn, k₁, h₁, fun p hp => ⟨_, ?_, rfl⟩⟩
    have hroot₁ : k₁.rootvn = k.rootvn := by rw [h₁.same]
    unfold basePath
    rw [Option.bind_some, if_pos (hp.mpr habs), hinc]
    dsimp only [Except.map]
    rw [hroot₁]
    rfl
  have hnot : ∀ p : Path, (p.head? = some slash ↔ absolute) → p.head? ≠ some slash :=
    fun p hp hhead => habs (hp.mp hhead)
  by_cases hfd : 0 ≤ fd
  · rcases hget : DescriptorTable.getFd (k.files kernel) fd FD_ALL with ⟨_ | f, files⟩
    · left
      intro p hp
      unfold basePath
      rw [Option.bind_some, if_neg (hnot p hp), if_pos hfd, hget]
    · have hopen := h.files kernel
      obtain ⟨⟨i, hi, hslot⟩, hvn, hkeep, hput⟩ := putFd_getFd hget
        fun i hi hslot => (hopen i f hi hslot).2
      have hlive : Live k.layer (files.ofile f).vn := by
        rw [hvn]
        exact (hopen i f hi hslot).1
      refine .inr ⟨_, _, h.holding.inc hlive, fun p hp => ⟨p, ?_, hrelative p (hnot p hp)⟩⟩
      unfold basePath
      rw [Option.bind_some, if_neg (hnot p hp), if_pos hfd, hget]
      dsimp only
      rw [incVnode_files h.unlocked]
      dsimp only [Except.bind]
      unfold putFd
      simp only [Function.update_self, hkeep, if_false, hput, Function.update_idem,
        Function.update_eq_self]
      rfl
  · obtain ⟨k₁, hinc, h₁⟩ := h.holding.incVnode h h.cwd
    refine .inr ⟨k.cwd, k₁, h₁, fun p hp => ⟨p, ?_, hrelative p (hnot p hp)⟩⟩
    have hcwd₁ : k₁.cwd = k.cwd := by rw [h₁.same]
    unfold basePath
    rw [Option.bind_some, if_neg (hnot p hp), if_neg hfd, hinc]
    dsimp only [Except.map]
    rw [hcwd₁]

/-- To walk the name from the vnode comes to what the resolution has come to in `kf`. -/
def SameEnd (walk : Walker) (k : Kernel) (dvn : ℕ) (filename : Path) (r : Except ℤ ℕ)
    (kf : Kernel) : Prop :=
  ∀ follow, ∃ walked k', walk k dvn filename follow = .ok (walked, k') ∧
    match walked with
    | .fails err => r = .error err
    | .link _ => False
    | .found vnid => ∃ vn, r = .ok vn ∧ idOf kf.layer vn = (nsidOf k.layer dvn, vnid)

/-- A last name after the same directory. -/
theorem sameEnd_of_resolves (hw : WalksBy walk tree k₀) {kd kf : Kernel} {dvn : ℕ}
    {filename : Path} {r : Except ℤ ℕ} (hd : Holding k₀ kd [dvn])
    (hr : Resolves k₀ (resolve tree (idOf kd.layer dvn) [filename]) r kf) :
    SameEnd walk kd dvn filename r kf := by
  intro follow
  obtain ⟨k', hwalk, -⟩ := hw kd dvn filename follow hd
  refine ⟨_, k', hwalk, ?_⟩
  rw [resolve_cons] at hr
  revert hr
  cases tree (idOf kd.layer dvn) filename with
  | error err => exact id
  | ok vnid =>
    rintro ⟨vn, hvn, -, hid⟩
    exact ⟨vn, hvn, hid⟩

/-- What `get_dir_fd` and `get_file_fd` come to with the same path. -/
def Agree (walk : Walker) (rd : Except ℤ (ℕ × Path) × Kernel) (rf : Except ℤ ℕ × Kernel) : Prop :=
  match rd.1 with
  | .error err => rf.1 = .error err
  | .ok (dvn, filename) => (1 ≤ filename.length ∧ filename.length ≤ 255 ∧ slash ∉ filename) ∧
      SameEnd walk rd.2 dvn filename rf.1 rf.2

/-- Splitting a path agrees with resolving it: the file name is one name, and walking it from the
directory comes to the vnode or the error of the whole path; where the directory has an error the
whole path has the same. -/
theorem getDirFd_agrees (h : Ready k) (hu : Unmounted k) (hw : WalksBy walk tree k)
    (hdot : Directories tree err) (realloc : ℕ → Bool) (kernel : Bool) (fd : ℤ)
    (eatsymlink : Bool) {copy : Option Path} (hcopy : newPath (some path) = .ok copy) :
    ∃ n rd rf, getDirFd walk realloc n k kernel fd (some path) = .ok (some rd) ∧
      getFileFd walk realloc n k kernel fd (some path) eatsymlink = .ok (some rf) ∧
      Agree walk rd rf := by
  obtain ⟨p, rfl, hp⟩ := newPath_copied hcopy
  have hdir : ∀ n, getDirFd walk realloc n k kernel fd (some path) =
      (parsePathFd walk realloc n k kernel fd (some (splitName p).2) true).map fun r =>
        r.map fun (r, k, _) => (r.map fun dvn => (dvn, (splitName p).1), k) := by
    intro n
    unfold getDirFd
    rw [hcopy]
  have hfile : ∀ n, getFileFd walk realloc n k kernel fd (some path) eatsymlink =
      (parsePathFd walk realloc n k kernel fd (some p) eatsymlink).map fun r =>
        r.map fun (r, k, _) => (r, k) := by
    intro n
    unfold getFileFd
    rw [hcopy]
  rcases basePath_ends h kernel fd (p.head? = some slash) with hclosed | ⟨bvn, k₁, hk₁, hbase⟩
  · refine ⟨0, (.error EBADF, k), (.error EBADF, k), ?_, ?_, rfl⟩
    · rw [hdir, parsePathFd, hclosed _ hp.head_dirname]
      rfl
    · rw [hfile, parsePathFd, hclosed _ Iff.rfl]
      rfl
  obtain ⟨pd, hbased, hpd⟩ := hbase _ hp.head_dirname
  obtain ⟨pf, hbasef, hpf⟩ := hbase p Iff.rfl
  obtain ⟨n, rd, kd, hrunsd, hrd⟩ := rounds_resolve realloc true h hu hw pd.length
    ⟨k₁, bvn, pd, 0⟩ rfl (hpd ▸ head_dropWhile_ne _) hk₁
  obtain ⟨m, rf, kf, hrunsf, hrf⟩ := rounds_resolve realloc eatsymlink h hu hw pf.length
    ⟨k₁, bvn, pf, 0⟩ rfl (hpf ▸ head_dropWhile_ne _) hk₁
  dsimp only at hrd hrf
  rw [hpd, pieces_dropWhile, pieces_dirname, resolve_append] at hrd
  rw [hpf, pieces_dropWhile, hp.pieces, resolve_append] at hrf
  refine ⟨max n m, (rd.map fun dvn => (dvn, (splitName p).1), kd), (rf, kf), ?_, ?_, ?_⟩
  · rw [hdir, parsePathFd, hbased]
    dsimp only [Except.bind]
    rw [parsePath, rounds_mono (le_max_left n m) hrunsd]
    rfl
  · rw [hfile, parsePathFd, hbasef]
    dsimp only [Except.bind]
    rw [parsePath, rounds_mono (le_max_right n m) hrunsf]
    rfl
  cases hbefore : resolve tree (idOf k₁.layer bvn) (SeparatedLists.pieces slash
    (p.rdropWhile (· ≠ slash))) with
  | error e =>
    rw [hbefore] at hrd hrf
    have herr : rd = .error e := hrd
    rw [herr]
    exact hrf
  | ok id =>
    rw [hbefore] at hrd hrf
    dsimp only [Except.bind] at hrd hrf
    rcases hdot id with hself | hnone
    · rw [resolve_cons, hself] at hrd
      obtain ⟨dvn, rfl, hd, hid⟩ := hrd
      refine ⟨hp.filename, sameEnd_of_resolves hw hd ?_⟩
      rw [hid]
      exact hrf
    · rw [resolve_cons, hnone [dot]] at hrd
      rw [resolve_cons, hnone] at hrf
      have herr : rd = .error err := hrd
      rw [herr]
      exact hrf

/-- The hook of a file system that has nothing but its root. -/
def emptyTree : Tree := fun id component =>
  if component = [dot] ∨ component = [dot, dot] then .ok id.2 else .error ENOENT

def emptyWalk : Walker := fun k bvn component _ =>
  .ok (answer (emptyTree (idOf k.layer bvn) component),
    if component = [dot] ∨ component = [dot, dot] then
      { k with layer := VnodeLayer.incVnode k.layer bvn }
    else k)

theorem emptyWalk_walksBy : WalksBy emptyWalk emptyTree k₀ := by
  intro k bvn component follow h
  refine ⟨_, rfl, ?_⟩
  have hlive : Live k.layer bvn := h.refs.live_held List.mem_cons_self
  unfold emptyTree
  split
  · have hc := incVnode_change h.refs.sound hlive.inside hlive.pos
    have hlive' : Live (VnodeLayer.incVnode k.layer bvn) bvn := (h.inc hlive).refs.live_held
      List.mem_cons_self
    have hid := idOf_kept hc hlive hlive'
    refine ⟨rfl, bvn, hlive.inside, ?_, hc⟩
    exact Sound.lookup hc.sound (Sound.registered hc.sound hlive'.inside hlive'.pos) hid
  · exact ⟨rfl, by decide, .refl h.refs.sound⟩

theorem emptyTree_directories : Directories emptyTree ENOENT :=
  fun _ => .inl (if_pos (.inl rfl))

theorem rootKernel_unmounted : Unmounted FailedMount.rootKernel := by
  refine ⟨?_, fun _ => rfl⟩
  have hnone : ∀ v < FailedMount.rootLayer.vnnum, (FailedMount.rootLayer.vns v).mounted = none := by
    decide +kernel
  exact hnone

theorem getDirFd_agrees_emptyTree :
    ∃ n rd rf, getDirFd emptyWalk (fun _ => true) n FailedMount.rootKernel true (-1)
        (some [slash, dot, dot, slash, 120]) = .ok (some rd) ∧
      getFileFd emptyWalk (fun _ => true) n FailedMount.rootKernel true (-1)
        (some [slash, dot, dot, slash, 120]) true = .ok (some rf) ∧ Agree emptyWalk rd rf :=
  getDirFd_agrees FailedMount.rootKernel_ready rootKernel_unmounted emptyWalk_walksBy
    emptyTree_directories _ true (-1) true rfl

end Agreement

section Answers
variable {k k' : Kernel} {kernel eatsymlink : Bool} {fd : ℤ} {path : Option Path}
  {r : Except ℤ ℕ}

theorem parsePath_of_answer {bvn : ℕ}
    (h : (match path with
      | none => .ok (.ok bvn, k)
      | some p => PathWalk.parsePath eatsymlink MAX_SYM_LINKS k bvn p : Resolved) =
        .ok (r, k')) :
    ∃ n iter, parsePath scripted (fun _ => true) eatsymlink n k bvn path =
      .ok (some (r, k', iter)) := by
  cases path with
  | none =>
    cases h
    exact ⟨0, 0, rfl⟩
  | some p => exact parsePath_answers (Nat.zero_add _) h

/-- What `parse_path_fd` returns with the hooks of the kernel. -/
theorem parsePathFd_answers
    (h : PathWalk.parsePathFd k kernel fd path eatsymlink = .ok (r, k')) :
    ∃ n iter, parsePathFd scripted (fun _ => true) n k kernel fd path eatsymlink =
      .ok (some (r, k', iter)) := by
  unfold PathWalk.parsePathFd at h
  unfold parsePathFd basePath
  dsimp only at h
  split at h
  · rename_i hslash
    obtain ⟨k₁, hinc, h⟩ := bind_ok h
    rw [if_pos hslash, hinc]
    exact parsePath_of_answer h
  rename_i hslash
  rw [if_neg hslash]
  split at h
  · rename_i hfd
    rw [if_pos hfd]
    rcases hget : DescriptorTable.getFd (k.files kernel) fd FD_ALL with ⟨_ | f, files⟩
    · rw [hget] at h
      cases h
      exact ⟨0, 0, rfl⟩
    · rw [hget] at h
      obtain ⟨k₁, hinc, h⟩ := bind_ok h
      obtain ⟨k₂, hput, h⟩ := bind_ok h
      dsimp only
      rw [hinc]
      dsimp only [Except.bind]
      rw [hput]
      exact parsePath_of_answer h
  · rename_i hfd
    obtain ⟨k₁, hinc, h⟩ := bind_ok h
    rw [if_neg hfd, hinc]
    exact parsePath_of_answer h

theorem getFileFd_answers (h : PathWalk.getFileFd k kernel fd path eatsymlink = .ok (r, k')) :
    ∃ n, getFileFd scripted (fun _ => true) n k kernel fd path eatsymlink =
      .ok (some (r, k')) := by
  unfold PathWalk.getFileFd at h
  unfold getFileFd
  rcases hnew : newPath path with err | p <;> rw [hnew] at h
  · cases h
    exact ⟨0, rfl⟩
  · obtain ⟨n, iter, hn⟩ := parsePathFd_answers h
    refine ⟨n, ?_⟩
    dsimp only
    rw [hn]
    rfl

theorem getDirFd_answers (h : PathWalk.getDirFd k kernel fd path = .ok (r, k')) :
    ∃ n filename, getDirFd scripted (fun _ => true) n k kernel fd path =
      .ok (some (r.map fun dvn => (dvn, filename), k')) := by
  unfold PathWalk.getDirFd at h
  unfold getDirFd
  rcases hnew : newPath path with err | _ | p <;> rw [hnew] at h
  · cases h
    exact ⟨0, [], rfl⟩
  · cases h
  · obtain ⟨n, iter, hn⟩ := parsePathFd_answers h
    refine ⟨n, p.rtakeWhile (· ≠ slash), ?_⟩
    dsimp only
    rw [splitName_eq]
    dsimp only [List.rdropWhile]
    rw [hn]
    rfl

end Answers

end PathSplitting
