import Mathlib.Data.Finset.Sort
import Mathlib.Tactic
import FsKit.PathSplitting
import FsKit.RootfsPaths

/-! `parse_path` (`kernel.c`) with `rootfs_walk` as its hook. A path is resolved as the map of the
files says, through the links that it comes to, and one vnode is referenced in the end. -/
namespace RootfsResolution

open FallibleRuns NamedTrees RootfsPaths SeparatedLists TransitionTrace VnodeRegistry VnodeCounts
open VnodeTable hiding Ready
open VnodeLayer hiding incVnode decVnode next
open PathWalk hiding Path dot parsePath
open PathRounds
open PathSplitting hiding resolve Resolves
open RootfsTree (Name)
open HeldDirectories (rootfsWalk)
open SkipListSet (maxLevel)

abbrev Bytes := PathWalk.Path

section Hook
variable (ns : RootfsTree.Nspace) (random : Fin (maxLevel + 1))

def toName (p : Bytes) : Name := p.map UInt8.toFin

def toBytes (name : Name) : Bytes := name.map UInt8.ofFin

/-- The node of the skip list with the id. -/
def rootfsReadVnode (vnid : ℤ) : ℤ × Option ℕ :=
  match (ns.live.sort (· ≤ ·)).find? fun n => decide ((ns.node n).vnid = vnid) with
  | some vn => (0, some vn)
  | none => (ENOENT, none)

/-- What `rootfs_walk` has found is entered in the tables or copied. The data of a vnode is what
`rootfs_read_vnode` has answered for its id. -/
def rootfsWalker : Walker := fun k bvn component follow =>
  match (k.layer.vns bvn).ns, (rootfsReadVnode ns (k.layer.vns bvn).vnid).2 with
  | some space, some base =>
    match rootfsWalk ns (fun _ => 0) 0 base (toName component) follow with
    | .error _ => .error .unfinished
    | .ok (err, none) => .ok (.fails err, k)
    | .ok (_, some (.newpath none)) => .error .nullPointer
    | .ok (_, some (.newpath (some text))) =>
      match newPath (some (toBytes text)) with
      | .error err => .ok (.fails err, k)
      | .ok none => .error .nullPointer
      | .ok (some np) => .ok (.link np, k)
    | .ok (_, some (.vnode vnid)) =>
      let (err, data) := rootfsReadVnode ns vnid
      report k space (.found vnid err (data.getD 0) random)
  | _, _ => .error .nullPointer

end Hook

section Map

/-- What a name in a directory leads to: a file, or the path in a link. -/
noncomputable def step (fs : Files) (dir : List Name) (name : Bytes) (follow : Bool) :
    Except ℤ (List Name ⊕ Bytes) :=
  match fs.walk dir (toName name) follow with
  | .error err => .error err
  | .ok (.file p) => .ok (.inl p)
  | .ok (.text t) => (newPath (some (toBytes t))).map fun np => .inr (np.getD [])

/-- The names of a path are followed from a directory, and so are those in the links that it comes
to, of which there may be so many. -/
noncomputable def resolve (fs : Files) (eatsymlink : Bool) (links : ℕ) (dir : List Name) :
    List Bytes → Except ℤ (List Name)
  | [] => .ok dir
  | name :: names =>
    match step fs dir name (eatsymlink || names ≠ []) with
    | .error err => .error err
    | .ok (.inl p) => resolve fs eatsymlink links p names
    | .ok (.inr np) =>
      match links with
      | 0 => .error ELOOP
      | links + 1 =>
        resolve fs eatsymlink links (if np.head? = some slash then [] else dir)
          (pieces slash np ++ names)
  termination_by names => (links, names.length)

end Map

section Tables
variable {k₀ k : Kernel} {held : List ℕ} {bvn vn nsid : ℕ} {vnid : ℤ} {random : Fin (maxLevel + 1)}

/-- In a name space that is there `get_vnode` only fails with the hook. -/
theorem getVnode_zero {s s' : Layer} {e : ℤ} {data d p : ℕ} (h : Sound s)
    (hp : nsidtons s nsid = some p)
    (hget : getVnode s nsid vnid 0 data random = .ok (e, d, s')) : e = 0 := by
  obtain ⟨⟨e', vn, s₂⟩, hload, heq⟩ := map_ok hget
  have hload : e' = 0 := by
    obtain ⟨⟨w, s₁⟩, hfind, hload⟩ := bind_ok hload
    rcases findOrSteal_cases h nsid vnid true with ⟨vn₁, hf, hr, -⟩ |
      ⟨vn₁, s₃, hf, hready, hsheds⟩ |
      ⟨hf, -⟩
    · rw [hf] at hfind
      cases hfind
      dsimp only at hload
      rw [if_neg hr.2] at hload
      cases hload
      rfl
    · rw [hf] at hfind
      cases hfind
      obtain ⟨s₄, hread, -⟩ := readIn_cases hready ((hsheds.spaces.nsidtons nsid).trans hp) true 0
        data (Nat.lt_succ_iff.mp random.2)
      dsimp only at hload
      rw [if_pos hready.held.ns, hsheds.spaces.nsidtons nsid, hp] at hload
      dsimp only at hload
      rw [hread] at hload
      cases hload
      rfl
    · rw [hf] at hfind
      cases hfind
  subst hload
  dsimp only at heq
  rw [if_neg (by decide)] at heq
  cases heq
  rfl

/-- At most one vnode of the tables is not referenced. -/
def Crowded (s : Layer) : Prop :=
  ∀ v < s.vnnum, ∀ w < s.vnnum, (s.vns v).rcnt = 0 → (s.vns w).rcnt = 0 → v = w

/-- A call that has taken one reference finds all vnodes referenced only if there was hardly one
left for it. -/
theorem crowded_of_exhausted (h : Holding k₀ k [bvn]) (hex : Exhausted k.layer) :
    Crowded k₀.layer := by
  have hzero : ∀ v < k₀.layer.vnnum, (k₀.layer.vns v).rcnt = 0 → v = bvn := by
    intro v hv hrcnt
    by_contra hne
    have hpos := hex v (by rw [h.refs.vnnum]; exact hv)
    rw [h.refs.rcnt, hrcnt, List.count_singleton, if_neg (by simpa using Ne.symm hne)] at hpos
    exact absurd hpos (lt_irrefl _)
  intro v hv w hw hv₀ hw₀
  rw [hzero v hv hv₀, hzero w hw hw₀]

/-- A vnode that is found is referenced, if there is a place for it. -/
theorem report_found (h : Holding k₀ k (bvn :: held)) {space : ℕ}
    (hspace : (k.layer.vns bvn).ns = some space)
    (hlive : nsidtons k.layer (k.layer.spaces space).nsid = some space) (vnid : ℤ) (data : ℕ) :
    Ends (fun e => e = .outOfVnodes ∧ Exhausted k.layer) (fun r => r.1 = .found vnid ∧
      nsidOf r.2.layer bvn = nsidOf k.layer bvn ∧
      ∃ vn, lookupVnode r.2.layer (nsidOf r.2.layer bvn) vnid = some vn ∧
        Holding k₀ r.2 (vn :: bvn :: held)) (report k space (.found vnid 0 data random)) := by
  have hbvn : Live k.layer bvn := h.refs.live_held List.mem_cons_self
  have hnsid : nsidOf k.layer bvn = (k.layer.spaces space).nsid := by
    unfold nsidOf
    rw [hspace]
    rfl
  rw [report]
  rcases getVnode_change h.refs.sound (k.layer.spaces space).nsid vnid 0 data
    (Nat.lt_succ_iff.mp random.2) with ⟨d, s, vn, hget, hin, hlookup, hc⟩ |
    ⟨e, d, s, he, hget, -⟩ | ⟨hget, hex⟩
  · rw [hget]
    have h₁ : Holding k₀ { k with layer := s } (vn :: bvn :: held) :=
      h.change hc (h.refs.take hin hc) k.walks
    have hsame : nsidOf s bvn = nsidOf k.layer bvn :=
      congrArg Prod.fst (idOf_kept hc hbvn (h₁.refs.live_held (by simp)))
    refine ⟨rfl, hsame, vn, ?_, h₁⟩
    change lookupVnode s (nsidOf s bvn) vnid = some vn
    rw [hsame, hnsid]
    exact hlookup
  · exact absurd (getVnode_zero h.refs.sound hlive hget) he
  · rw [hget]
    exact ⟨rfl, hex⟩

end Tables

section Nodes
variable {ns : RootfsTree.Nspace} {kids : ℕ → List ℕ} {n : ℕ}

theorem rootfsReadVnode_eq (h : RootfsTree.Sound ns kids) (hn : n ∈ ns.live) :
    rootfsReadVnode ns (ns.node n).vnid = (0, some n) := by
  unfold rootfsReadVnode
  cases hfind : (ns.live.sort (· ≤ ·)).find? fun m => decide ((ns.node m).vnid = (ns.node n).vnid)
    with
  | none =>
    have hnot := List.find?_eq_none.mp hfind n ((Finset.mem_sort _).mpr hn)
    exact absurd (decide_eq_true rfl) hnot
  | some m =>
    have hm : m ∈ ns.live := (Finset.mem_sort _).mp (List.mem_of_find?_eq_some hfind)
    have hid : (ns.node m).vnid = (ns.node n).vnid := by simpa using List.find?_some hfind
    rw [h.tree.vnids hm hn hid]

/-- The vnode stands for the file at the path. -/
def Stands (ns : RootfsTree.Nspace) (nsid : ℕ) (k : Kernel) (vn : ℕ) (p : List Name) : Prop :=
  ∃ n, At (tree ns) p n ∧ idOf k.layer vn = (nsid, (ns.node n).vnid)

/-- A vnode that was referenced before stands for its file on. -/
theorem Stands.kept {k₀ k : Kernel} {held : List ℕ} {nsid vn : ℕ} {p : List Name}
    (hs : Stands ns nsid k₀ vn p) (h : Holding k₀ k held) (hvn : Live k₀.layer vn) :
    Stands ns nsid k vn p := by
  obtain ⟨n, hn, hid⟩ := hs
  obtain ⟨hspace, hvnid, -⟩ := h.refs.kept vn hvn.pos
  exact ⟨n, hn, (h.spaces.idOf hspace hvnid).trans hid⟩

/-- What the hook reports of what it comes to. A file that it has found has one reference more, and
no other has. -/
def Tells (ns : RootfsTree.Nspace) (k₀ k : Kernel) (bvn : ℕ) (target : Except ℤ (List Name ⊕ Bytes))
    (r : Walked × Kernel) : Prop :=
  match target with
  | .error err => r = (.fails err, k)
  | .ok (.inl p) => ∃ n, At (tree ns) p n ∧ r.1 = .found (ns.node n).vnid ∧
      nsidOf r.2.layer bvn = nsidOf k.layer bvn ∧
      ∃ vn, lookupVnode r.2.layer (nsidOf r.2.layer bvn) (ns.node n).vnid = some vn ∧
        Holding k₀ r.2 [vn, bvn]
  | .ok (.inr np) => np ≠ [] ∧ r = (.link np, k)

theorem rootfsWalker_tells (h : RootfsTree.Sound ns kids) (hf : Filed ns)
    (random : Fin (maxLevel + 1)) {k₀ k : Kernel} {bvn nsid : ℕ} {p : List Name}
    (hk : Holding k₀ k [bvn]) (hs : Stands ns nsid k bvn p) (component : Bytes) (follow : Bool) :
    Ends (fun e => e = .outOfVnodes ∧ Exhausted k.layer)
      (Tells ns k₀ k bvn (step (view ns) p component follow))
      (rootfsWalker ns random k bvn component follow) := by
  obtain ⟨base, hbase, hid⟩ := hs
  have hbvn : Live k.layer bvn := hk.refs.live_held List.mem_cons_self
  obtain ⟨space, hspace, hlive⟩ := hk.registered hbvn
  have hvnid : (k.layer.vns bvn).vnid = (ns.node base).vnid := congrArg Prod.snd hid
  have hw := wellFormed h
  obtain ⟨r, hwalk, hleads⟩ := rootfsWalk_leads h hf hbase (fun _ => 0) 0 (toName component) follow
  unfold rootfsWalker step
  rw [hspace, hvnid, rootfsReadVnode_eq h (hbase.mem hw)]
  dsimp only
  rw [hwalk]
  generalize (view ns).walk p (toName component) follow = target at hleads
  rcases target with err | (q | t)
  · obtain ⟨-, rfl⟩ := hleads
    exact rfl
  · obtain ⟨n, hn, rfl⟩ := hleads
    rw [if_neg (not_not.mpr rfl)]
    dsimp only
    rw [rootfsReadVnode_eq h (hn.mem hw)]
    exact (report_found hk hspace hlive _ _).mono fun r hr => ⟨n, hn, hr⟩
  · obtain rfl : r = (0, some (.newpath (some t))) := hleads.trans (if_neg (not_not.mpr rfl))
    dsimp only
    rcases hcopy : newPath (some (toBytes t)) with err | np
    · exact rfl
    · obtain ⟨p, rfl, hcopied⟩ := newPath_copied hcopy
      exact ⟨hcopied.ne, rfl⟩

end Nodes

section Reading

/-- What `rootfs_walk` and `rootfs_readlink` say of a file system is what its map says. A walk from
a vnode that the caller has referenced fails in another way only if all vnodes are referenced. -/
structure ReadsMap (ns : RootfsTree.Nspace) : Prop where
  walk : ∀ {k₀ k : Kernel} {bvn nsid : ℕ} {p : List Name}, Holding k₀ k [bvn] →
    Stands ns nsid k bvn p → ∀ (random : Fin (maxLevel + 1)) (component : Bytes) (follow : Bool),
      Ends (fun e => e = .outOfVnodes ∧ Exhausted k.layer)
        (Tells ns k₀ k bvn (step (view ns) p component follow))
        (rootfsWalker ns random k bvn component follow)
  readlink : ∀ {p : List Name} {n : ℕ}, At (tree ns) p n → ∀ bufsize,
    rootfsReadlink ns n bufsize = .ok ((view ns).readlink p bufsize)

/-- In every state that is reached, `rootfs_walk` and `rootfs_readlink` say what the map says. -/
theorem rootfs_reads_path_map (mem : RootfsTree.Nspace) (root : ℕ) (calls : List RootfsTree.Call)
    (hallowed : EveryStep RootfsTree.next RootfsTree.Allowed (RootfsTree.mounted mem root) calls)
    (hintact : EveryStep RootfsTree.next RootfsTree.Intact (RootfsTree.mounted mem root) calls) :
    EveryState RootfsTree.next ReadsMap (RootfsTree.mounted mem root) calls := by
  refine (everyState_of_step next_mapped (mounted_mapped mem root) (hallowed.and hintact)).mono ?_
  rintro ns ⟨⟨kids, h⟩, hf⟩
  exact ⟨fun hk hs random component follow => rootfsWalker_tells h hf random hk hs component follow,
    fun hn => rootfsReadlink_eq h hf hn⟩

theorem rootKernel_uncrowded : ¬Crowded FailedMount.rootKernel.layer := by
  intro h
  have htwo : ∀ v, v = 1 ∨ v = 2 → v < FailedMount.rootLayer.vnnum ∧
      (FailedMount.rootLayer.vns v).rcnt = 0 := by
    rintro v (rfl | rfl) <;> decide +kernel
  obtain ⟨hone, hone₀⟩ := htwo 1 (.inl rfl)
  obtain ⟨htwo, htwo₀⟩ := htwo 2 (.inr rfl)
  exact absurd (h 1 hone 2 htwo hone₀ htwo₀) (by decide)

/-- The name `bb` in the root. -/
theorem rootfs_reads_path_map_someCalls : ∃ k r, incVnode FailedMount.rootKernel 0 = .ok k ∧
    rootfsWalker someSpace ⟨0, Nat.succ_pos maxLevel⟩ k 0 [98, 98] false = .ok r ∧
    Tells someSpace FailedMount.rootKernel k 0 (step (view someSpace) [] [98, 98] false) r := by
  have hready := FailedMount.rootKernel_ready
  obtain ⟨k, hinc, hk⟩ := Holding.incVnode hready.holding hready hready.rootvn
  have hstands : Stands someSpace 1 FailedMount.rootKernel 0 [] := ⟨_, .root, by decide +kernel⟩
  have htells := (rootfs_reads_path_map RootfsTree.noNodes 0 someCalls someCalls_allowed
    someCalls_intact).last.walk hk (hstands.kept hk hready.rootvn) ⟨0, Nat.succ_pos maxLevel⟩
    [98, 98] false
  obtain ⟨r, hwalk, hr⟩ :=
    htells.returns fun e he => rootKernel_uncrowded (crowded_of_exhausted hk he.2)
  exact ⟨k, r, hinc, hwalk, hr⟩

end Reading

section Rounds
variable {ns : RootfsTree.Nspace} {kids : ℕ → List ℕ} {random : Fin (maxLevel + 1)}
  {eatsymlink : Bool} {k₀ k : Kernel} {held : List ℕ} {vn bvn nsid : ℕ} {p : List Name}

/-- The kernel has nothing but this file system, which is where the paths start. -/
structure Serving (ns : RootfsTree.Nspace) (nsid : ℕ) (k : Kernel) : Prop where
  ready : Ready k
  unmounted : Unmounted k
  root : Stands ns nsid k k.rootvn []

/-- What is left for the next round. -/
def Again (ns : RootfsTree.Nspace) (nsid : ℕ) (k₀ : Kernel) (p : List Name) (names : List Bytes)
    (iter : ℕ) (r : Round) : Prop :=
  ∃ k vn np, Holding k₀ k [vn] ∧ Stands ns nsid k vn p ∧ np.head? ≠ some slash ∧
    pieces slash np = names ∧ r = .again ⟨k, vn, np, iter⟩

/-- A call that started in `k₀` stops for want of a vnode. -/
def OutOfVnodes (k₀ : Kernel) (e : Stop) : Prop := e = .outOfVnodes ∧ Crowded k₀.layer

/-- How a round ends that has a name to follow from the directory `p`, and these behind it. -/
def RoundEnds (ns : RootfsTree.Nspace) (nsid : ℕ) (k₀ : Kernel) (p : List Name)
    (target : Except ℤ (List Name ⊕ Bytes)) (names : List Bytes) (iter : ℕ) (r : Round) : Prop :=
  match target with
  | .error err => ∃ k, Holding k₀ k [] ∧ r = .done (.error err) k iter
  | .ok (.inl q) => Again ns nsid k₀ q names iter r
  | .ok (.inr np) =>
    if MAX_SYM_LINKS ≤ iter then
      ∃ k, Holding k₀ k [] ∧ r = .done (.error ELOOP) k (iter + 1)
    else Again ns nsid k₀ (if np.head? = some slash then [] else p) (pieces slash np ++ names)
      (iter + 1) r

theorem followLink_rootfs (hk : Serving ns nsid k₀) (h : Holding k₀ k [vn])
    (hs : Stands ns nsid k vn p) {newpath : Bytes} (hne : newpath ≠ []) (np : Bytes) (iter : ℕ) :
    ∃ r, followLink (fun _ => true) k vn newpath np iter = .ok r ∧
      if MAX_SYM_LINKS ≤ iter then
        ∃ k, Holding k₀ k [] ∧ r = .done (.error ELOOP) k (iter + 1)
      else Again ns nsid k₀ (if newpath.head? = some slash then [] else p)
        (pieces slash newpath ++ pieces slash np) (iter + 1) r := by
  unfold followLink
  by_cases hiter : MAX_SYM_LINKS ≤ iter
  · obtain ⟨k₁, hdec, h₁⟩ := Holding.decVnode h hk.ready hk.ready.few_nil.lt false
    have hlt : MAX_SYM_LINKS < iter + 1 := Nat.lt_succ_of_le hiter
    simp only [if_pos hiter, if_pos hlt, hdec]
    exact ⟨_, rfl, k₁, h₁, rfl⟩
  have hlt : ¬MAX_SYM_LINKS < iter + 1 := by omega
  have hhead : (catPaths newpath np).head? = newpath.head? := by
    obtain ⟨c, cs, rfl⟩ := List.exists_cons_of_ne_nil hne
    rfl
  have hpieces : pieces slash (catPaths newpath np) = pieces slash newpath ++ pieces slash np :=
    pieces_append newpath np
  simp only [if_neg hiter, if_neg hlt, hhead, Bool.true_eq_false, if_false]
  by_cases habs : newpath.head? = some slash
  · obtain ⟨k₁, hdec, h₁⟩ := Holding.decVnode h hk.ready hk.ready.few_nil.lt false
    have hroot : k₁.rootvn = k₀.rootvn := by rw [h₁.same]
    have hlive : Live k₁.layer k₁.rootvn := by
      rw [hroot]
      exact h₁.refs.live hk.ready.rootvn
    obtain ⟨k₂, hinc, h₂⟩ := Holding.incVnode h₁ hk.ready hlive
    have hroot₂ : k₂.rootvn = k₀.rootvn := by rw [h₂.same]
    simp only [if_pos habs, hdec, Except.bind, hinc]
    refine ⟨_, rfl, k₂, k₂.rootvn, _, ?_, ?_, head_dropWhile_ne _, ?_, rfl⟩
    · rw [hroot₂, ← hroot]
      exact h₂
    · rw [hroot₂]
      exact hk.root.kept h₂ hk.ready.rootvn
    · rw [pieces_dropWhile, hpieces]
  · simp only [if_neg habs]
    exact ⟨_, rfl, k, vn, _, h, hs, hhead ▸ habs, hpieces, rfl⟩

theorem pieces_ne_nil {q : Bytes} (h : q.head? ≠ some slash) : q ≠ [] ↔ pieces slash q ≠ [] := by
  cases q with
  | nil => simp
  | cons c cs =>
    have hc : c ≠ slash := fun he => h (congrArg some he)
    rw [pieces_cons cs hc]
    simp

/-- A round follows one name of the path, or the text of a link. -/
theorem round_rootfs (hs : RootfsTree.Sound ns kids) (hf : Filed ns) (hk : Serving ns nsid k₀)
    {c : Config} (h : Holding k₀ c.kernel [c.bvn]) (hstands : Stands ns nsid c.kernel c.bvn p)
    {ch : UInt8} {cs : Bytes} (hp : c.p = ch :: cs) {names : List Bytes}
    (hnames : names = pieces slash ((cs.dropWhile (· ≠ slash)).dropWhile (· = slash))) :
    Ends (OutOfVnodes k₀)
      (RoundEnds ns nsid k₀ p (step (view ns) p (ch :: cs.takeWhile (· ≠ slash))
        (eatsymlink || names ≠ [])) names c.iter)
      (PathRounds.round (rootfsWalker ns random) (fun _ => true) eatsymlink c) := by
  obtain ⟨k, bvn, p', iter⟩ := c
  dsimp only at hp h hstands ⊢
  subst hp
  have hnext : ((cs.dropWhile (· ≠ slash)).dropWhile (· = slash)).head? ≠ some slash :=
    head_dropWhile_ne _
  have hfollow : decide ((cs.dropWhile (· ≠ slash)).dropWhile (· = slash) ≠ []) =
      decide (names ≠ []) := decide_eq_decide.mpr (hnames ▸ pieces_ne_nil hnext)
  have htells := rootfsWalker_tells hs hf random h hstands (ch :: cs.takeWhile (· ≠ slash))
    (eatsymlink || decide (names ≠ []))
  unfold PathRounds.round
  dsimp only
  rw [leaveRoot_unmounted h hk.unmounted]
  dsimp only [Except.bind]
  rw [hfollow]
  generalize (cs.dropWhile (· ≠ slash)).dropWhile (· = slash) = np at hnext hnames
  have hstops := htells.stops fun e he => (⟨he.1, crowded_of_exhausted h he.2⟩ : OutOfVnodes k₀ e)
  refine hstops.bind fun r hr => ?_
  obtain ⟨walked, k₁⟩ := r
  dsimp only
  generalize step (view ns) p (ch :: cs.takeWhile (· ≠ slash))
    (eatsymlink || decide (names ≠ [])) = target at hr
  rcases target with err | (q | text)
  · cases hr
    obtain ⟨k₂, hdec, h₂⟩ := Holding.decVnode h hk.ready hk.ready.few_nil.lt false
    unfold afterWalk
    dsimp only
    rw [hdec]
    exact ⟨k₂, h₂, rfl⟩
  · obtain ⟨n, hn, hfound, hsame, vn, hlookup, h₁⟩ := hr
    dsimp only at hfound hsame hlookup h₁
    subst hfound
    obtain ⟨k₂, henter, h₂, hid⟩ := enter_unmounted h₁ hk.ready hk.ready.few_nil
      hk.unmounted hlookup
    obtain ⟨_, _, hbase⟩ := hstands
    unfold afterWalk
    dsimp only
    rw [henter]
    refine ⟨k₂, vn, np, h₂, ⟨n, hn, ?_⟩, hnext, hnames.symm, rfl⟩
    have hnsid : nsidOf k.layer bvn = nsid := congrArg Prod.fst hbase
    rw [hid, hsame, hnsid]
  · obtain ⟨hne, hr⟩ := hr
    cases hr
    obtain ⟨r, hlink, hr⟩ := followLink_rootfs hk h hstands hne np iter
    unfold afterWalk
    dsimp only
    rw [hlink]
    rw [← hnames] at hr
    exact hr

/-- The call came to this end, with a reference to the vnode that it returns and no other. -/
def Resolves (ns : RootfsTree.Nspace) (nsid : ℕ) (k₀ : Kernel) (end_ : Except ℤ (List Name))
    (r : Except ℤ ℕ) (k : Kernel) : Prop :=
  match end_ with
  | .error err => r = .error err ∧ Holding k₀ k []
  | .ok p => ∃ vn, r = .ok vn ∧ Holding k₀ k [vn] ∧ Stands ns nsid k vn p

/-- The rounds come to this end, unless there is no vnode for the next file. -/
def Comes (ns : RootfsTree.Nspace) (nsid : ℕ) (k₀ : Kernel) (end_ : Except ℤ (List Name))
    (x : Except Stop (Option (Except ℤ ℕ × Kernel × ℕ))) : Prop :=
  Ends (OutOfVnodes k₀)
    (fun o => ∃ r k iter, o = some (r, k, iter) ∧ Resolves ns nsid k₀ end_ r k) x

/-- The rounds resolve a path as the map does: first by the links that may still be followed, then
by the names that are left. -/
theorem rounds_rootfs (hs : RootfsTree.Sound ns kids) (hf : Filed ns) (hk : Serving ns nsid k₀)
    (links len : ℕ) : ∀ (c : Config) (p : List Name), c.iter + links = MAX_SYM_LINKS →
      (pieces slash c.p).length = len → c.p.head? ≠ some slash → Holding k₀ c.kernel [c.bvn] →
      Stands ns nsid c.kernel c.bvn p → ∃ n,
        Comes ns nsid k₀ (resolve (view ns) eatsymlink links p (pieces slash c.p))
          (rounds (rootfsWalker ns random) (fun _ => true) eatsymlink n c) := by
  induction links using Nat.strong_induction_on generalizing len with
  | _ links ihlinks =>
  induction len using Nat.strong_induction_on with
  | _ len ihlen =>
    intro c p hlinks hlen hhead h hstands
    rcases hp : c.p with _ | ⟨ch, cs⟩
    · refine ⟨1, ?_⟩
      rw [rounds, PathRounds.round, hp, pieces_nil, resolve]
      exact ⟨.ok c.bvn, c.kernel, c.iter, rfl, c.bvn, rfl, h, hstands⟩
    have hch : ch ≠ slash := by
      intro heq
      rw [hp, heq] at hhead
      exact hhead rfl
    have hround : Ends _ _ (PathRounds.round (rootfsWalker ns random) (fun _ => true)
        eatsymlink c) := round_rootfs hs hf hk h hstands hp rfl
    rw [hp, pieces_cons cs hch] at hlen
    rw [pieces_cons cs hch, resolve]
    generalize pieces slash ((cs.dropWhile (· ≠ slash)).dropWhile (· = slash)) = names
      at hround hlen ⊢
    rcases hr : PathRounds.round (rootfsWalker ns random) (fun _ => true) eatsymlink c with e | r
    · rw [hr] at hround
      refine ⟨1, ?_⟩
      rw [rounds, hr]
      exact hround
    rw [hr] at hround
    -- the call is over, or the other rounds decide
    have hdone : ∀ err iter, (∃ k, Holding k₀ k [] ∧ r = .done (.error err) k iter) →
        ∃ n, Comes ns nsid k₀ (.error err)
          (rounds (rootfsWalker ns random) (fun _ => true) eatsymlink n c) := by
      rintro err iter ⟨k, hk', rfl⟩
      refine ⟨1, ?_⟩
      rw [rounds, hr]
      exact ⟨.error err, k, iter, rfl, rfl, hk'⟩
    have hagain : ∀ c' end_, r = .again c' → (∃ n, Comes ns nsid k₀ end_
          (rounds (rootfsWalker ns random) (fun _ => true) eatsymlink n c')) →
        ∃ n, Comes ns nsid k₀ end_
          (rounds (rootfsWalker ns random) (fun _ => true) eatsymlink n c) := by
      rintro c' end_ rfl ⟨n, hn⟩
      refine ⟨n + 1, ?_⟩
      rw [rounds, hr]
      exact hn
    generalize step (view ns) p (ch :: cs.takeWhile (· ≠ slash))
      (eatsymlink || decide (names ≠ [])) = target at hround
    rcases target with err | (q | text)
    · exact hdone err c.iter hround
    · obtain ⟨k, vn, np, hk', hs', hnext, hpieces, hr'⟩ := hround
      refine hagain _ _ hr' ?_
      have hless : (pieces slash np).length < len := by
        rw [hpieces, ← hlen, List.length_cons]
        exact Nat.lt_succ_self _
      have hrest := ihlen _ hless ⟨k, vn, np, c.iter⟩ q hlinks rfl hnext hk' hs'
      rwa [hpieces] at hrest
    · unfold Ends RoundEnds at hround
      dsimp only at hround ⊢
      cases links with
      | zero =>
        have hiter : MAX_SYM_LINKS ≤ c.iter := by omega
        rw [if_pos hiter] at hround
        exact hdone ELOOP (c.iter + 1) hround
      | succ links =>
        have hiter : ¬MAX_SYM_LINKS ≤ c.iter := by omega
        rw [if_neg hiter] at hround
        obtain ⟨k, vn, np, hk', hs', hnext, hpieces, hr'⟩ := hround
        refine hagain _ _ hr' ?_
        have hmore : c.iter + 1 + links = MAX_SYM_LINKS := by omega
        have hrest := ihlinks links (Nat.lt_succ_self _) _ ⟨k, vn, np, c.iter + 1⟩ _ hmore rfl hnext
          hk' hs'
        rwa [hpieces] at hrest

/-- With nothing mounted on the root file system `parse_path` leads to the file that the map has
for the path. The reference to the base is dropped, and the vnode that is returned has one. -/
theorem parsePath_follows_map (hs : RootfsTree.Sound ns kids) (hf : Filed ns)
    (hk : Serving ns nsid k₀) (random : Fin (maxLevel + 1)) (eatsymlink : Bool)
    (h : Holding k₀ k [bvn]) (hstands : Stands ns nsid k bvn p) {path : Bytes}
    (hpath : path.head? ≠ some slash) : ∃ n, Comes ns nsid k₀
      (resolve (view ns) eatsymlink MAX_SYM_LINKS p (pieces slash path))
      (parsePath (rootfsWalker ns random) (fun _ => true) eatsymlink n k bvn (some path)) :=
  rounds_rootfs hs hf hk MAX_SYM_LINKS _ ⟨k, bvn, path, 0⟩ p (Nat.zero_add _) rfl hpath h hstands

end Rounds

section Calls
variable {ns : RootfsTree.Nspace} {kids : ℕ → List ℕ} {k : Kernel} {nsid : ℕ} {dir : List Name}

/-- A path of a call, from the root or from the directory `dir`. -/
noncomputable def resolvePath (fs : Files) (eatsymlink : Bool) (dir : List Name) (path : Bytes) :
    Except ℤ (List Name) :=
  (newPath (some path)).bind fun copy =>
    resolve fs eatsymlink MAX_SYM_LINKS (if path.head? = some slash then [] else dir)
      (pieces slash (copy.getD []))

/-- The call comes to this end, unless there is no vnode for the next file. -/
def CallComes (ns : RootfsTree.Nspace) (nsid : ℕ) (k₀ : Kernel) (end_ : Except ℤ (List Name))
    (x : Except Stop (Option (Except ℤ ℕ × Kernel))) : Prop :=
  Ends (OutOfVnodes k₀) (fun o => ∃ r k, o = some (r, k) ∧ Resolves ns nsid k₀ end_ r k) x

/-- The copy of a path starts like the path. -/
theorem newPath_head {path copy : Bytes} (h : newPath (some path) = .ok (some copy)) :
    copy.head? = path.head? := by
  unfold newPath at h
  dsimp only at h
  split at h
  · cases h
  rename_i hne
  split at h
  · cases h
  split at h
  · cases h
  split at h
  · cases h
    obtain ⟨c, cs, rfl⟩ := List.exists_cons_of_ne_nil hne
    rfl
  · cases h
    rfl

theorem parsePathFd_follows_map (hs : RootfsTree.Sound ns kids) (hf : Filed ns)
    (hk : Serving ns nsid k) (hcwd : Stands ns nsid k k.cwd dir) (random : Fin (maxLevel + 1))
    (kernel : Bool) {fd : ℤ} (hfd : fd < 0) (path : Bytes) (eatsymlink : Bool) : ∃ n,
      Comes ns nsid k (resolve (view ns) eatsymlink MAX_SYM_LINKS
        (if path.head? = some slash then [] else dir) (pieces slash path))
      (PathSplitting.parsePathFd (rootfsWalker ns random) (fun _ => true) n k kernel fd (some path)
        eatsymlink) := by
  have h : Holding k k [] := hk.ready.holding
  by_cases habs : path.head? = some slash
  · obtain ⟨k₁, hinc, h₁⟩ := Holding.incVnode h hk.ready hk.ready.rootvn
    have hroot := hk.root.kept h₁ hk.ready.rootvn
    have hsame : k₁.rootvn = k.rootvn := by rw [h₁.same]
    obtain ⟨n, hn⟩ := parsePath_follows_map hs hf hk random eatsymlink h₁ hroot
      (head_dropWhile_ne path)
    refine ⟨n, ?_⟩
    have hbase : basePath k kernel fd (some path) =
        .ok (.ok (k.rootvn, some (path.dropWhile (· = slash))), k₁) := by
      unfold basePath
      rw [show (some path).bind List.head? = some slash from habs, if_pos rfl, hinc]
      dsimp only [Except.map]
      rw [hsame]
      rfl
    unfold PathSplitting.parsePathFd
    rw [hbase, if_pos habs]
    rw [pieces_dropWhile] at hn
    exact hn
  · obtain ⟨k₁, hinc, h₁⟩ := Holding.incVnode h hk.ready hk.ready.cwd
    have hdir := hcwd.kept h₁ hk.ready.cwd
    have hsame : k₁.cwd = k.cwd := by rw [h₁.same]
    obtain ⟨n, hn⟩ := parsePath_follows_map hs hf hk random eatsymlink h₁ hdir habs
    refine ⟨n, ?_⟩
    have hbase : basePath k kernel fd (some path) = .ok (.ok (k.cwd, some path), k₁) := by
      have hnot : ¬(some path).bind List.head? = some slash := habs
      unfold basePath
      rw [if_neg hnot, if_neg (by omega), hinc]
      dsimp only [Except.map]
      rw [hsame]
    unfold PathSplitting.parsePathFd
    rw [hbase, if_neg habs]
    exact hn

/-- After any run of calls from the mount on, `get_file_fd` leads from a path to the file that the
map has for it, with one reference more to its vnode and to no other, or to the error of the map. -/
theorem get_file_fd_follows_map (mem : RootfsTree.Nspace) (root : ℕ) (calls : List RootfsTree.Call)
    (hallowed : EveryStep RootfsTree.next RootfsTree.Allowed
      (RootfsTree.mounted mem root) calls)
    (hintact : EveryStep RootfsTree.next RootfsTree.Intact
      (RootfsTree.mounted mem root) calls)
    (hns : runTrace RootfsTree.next (RootfsTree.mounted mem root) calls = ns)
    (hk : Serving ns nsid k) (hcwd : Stands ns nsid k k.cwd dir) (random : Fin (maxLevel + 1))
    (kernel : Bool) {fd : ℤ} (hfd : fd < 0) (path : Bytes) (eatsymlink : Bool) : ∃ n,
      CallComes ns nsid k (resolvePath (view ns) eatsymlink dir path)
        (PathSplitting.getFileFd (rootfsWalker ns random) (fun _ => true) n k kernel fd (some path)
          eatsymlink) := by
  have hmapped : Mapped ns := by
    rw [← hns]
    exact (everyState_of_step next_mapped (mounted_mapped mem root)
      (hallowed.and hintact)).last
  obtain ⟨⟨kids, hs⟩, hf⟩ := hmapped
  unfold PathSplitting.getFileFd resolvePath
  rcases hcopy : newPath (some path) with err | copy
  · exact ⟨0, .error err, k, rfl, rfl, hk.ready.holding⟩
  obtain ⟨p, rfl, -⟩ := newPath_copied hcopy
  obtain ⟨n, hn⟩ := parsePathFd_follows_map hs hf hk hcwd random kernel hfd p eatsymlink
  refine ⟨n, ?_⟩
  rw [newPath_head hcopy] at hn
  refine Ends.map hn ?_
  rintro o ⟨r, k', iter, rfl, hr⟩
  exact ⟨r, k', rfl, hr⟩

theorem someSpace_serving : Serving someSpace 1 FailedMount.rootKernel := by
  refine ⟨FailedMount.rootKernel_ready, rootKernel_unmounted, _, .root, ?_⟩
  decide +kernel

/-- The path `/bb/..`. -/
theorem get_file_fd_follows_map_someCalls : ∃ n r k,
    PathSplitting.getFileFd (rootfsWalker someSpace ⟨0, Nat.succ_pos maxLevel⟩) (fun _ => true) n
      FailedMount.rootKernel true (-1) (some [47, 98, 98, 47, 46, 46]) true = .ok (some (r, k)) ∧
    Resolves someSpace 1 FailedMount.rootKernel
      (resolvePath (view someSpace) true [] [47, 98, 98, 47, 46, 46]) r k := by
  obtain ⟨n, hcomes⟩ := get_file_fd_follows_map RootfsTree.noNodes 0 someCalls someCalls_allowed
    someCalls_intact rfl someSpace_serving someSpace_serving.root ⟨0, Nat.succ_pos maxLevel⟩ true
    (show (-1 : ℤ) < 0 by decide) [47, 98, 98, 47, 46, 46] true
  obtain ⟨o, hcall, r, k, rfl, hr⟩ := hcomes.returns fun e he => rootKernel_uncrowded he.2
  exact ⟨n, r, k, hcall, hr⟩

end Calls

end RootfsResolution
