import Mathlib.Tactic
import FsKit.MountCalls

/-! Mounting (`sys_mount`), up to the exits that take a failed mount back. The memory for the
name space is an argument, as is what the hooks are going to answer. -/
namespace FailedMount

open FallibleRuns LinkedList SkipListSet VnodeRegistry VnodeTable VnodeCounts PathWalk MountCalls
open VnodeLayer hiding incVnode decVnode

/-- What `stat` says of the device: there is no device, it cannot be found, or its numbers. -/
inductive Device where
  | absent
  | missing
  | node (dev ino : ℤ)

/-- A hook that enters no vnode into the tables. -/
structure Quiet extends Effect where
  enters : ∀ s, Sound s → ∀ v ns, ((run s).vns v).ns = some ns → (s.vns v).ns = some ns

/-- A `mount` hook fails before it has entered a vnode, or enters the root as its last step.
It returns a pointer to its data. -/
inductive MountReply where
  | fails (effect : Quiet)
  | mounts (effect : Quiet) (vnid : ℤ) (data root : ℕ) (random : Fin (maxLevel + 1))

structure MountHooks where
  rstat : Reply
  isDir : Bool
  mount : MountReply
  unmount : Effect

def findFileSystem (k : Kernel) (name : Path) : Option ℕ :=
  (k.fstab.filterMap id).find? fun fs => (k.fsystem fs).name = name

/-- There is no other way to load a file system. -/
def incFileSystem (k : Kernel) : Option Path → Except Stop (Option ℕ × Kernel)
  | none => if k.fstab.all Option.isNone then .ok (none, k) else .error .nullPointer
  | some name =>
    match findFileSystem k name with
    | none => .ok (none, k)
    | some fs =>
      let f := { k.fsystem fs with rcnt := (k.fsystem fs).rcnt + 1 }
      .ok (some fs, { k with fsystem := Function.update k.fsystem fs f })

/-- The `rstat` hook is called unseen. -/
def callRstat (k : Kernel) (vn : ℕ) (reply : Reply) : Except Stop (ℤ × Kernel) :=
  match (k.layer.vns vn).ns with
  | none => .error .nullPointer
  | some ns =>
    if (k.fsystem (k.space ns).fs).ops .rstat then
      .ok (reply.err, { k with layer := reply.effect.run k.layer })
    else .error .nullPointer

def onDevice (space : ℕ → Space) (dev ino : ℤ) : ℕ → Option ℕ → Except Stop Bool
  | _, none => .ok false
  | 0, some _ => .error .unfinished
  | fuel + 1, some ans =>
    if (space ans).dev = dev ∧ (space ans).ino = ino then .ok true
    else onDevice space dev ino fuel (space ans).next

/-- There are no more name spaces than the table has slots. -/
def alreadyMounted (k : Kernel) : Device → Except Stop Bool
  | .node dev ino => onDevice k.space dev ino k.layer.nns k.nshead
  | _ => .ok false

/-- The id of a free slot, and the next id to try. -/
def findSlot (nstab : ℕ → Option ℕ) (nns : ℕ) : ℕ → ℕ → Option ℕ × ℕ
  | 0, nxnsid => (none, nxnsid)
  | todo + 1, nxnsid =>
    if nstab (nxnsid % nns) = none then (some nxnsid, nxnsid + 1)
    else findSlot nstab nns todo (nxnsid + 1)

def numbers : Device → ℤ × ℤ
  | .node dev ino => (dev, ino)
  | _ => (-1, -1)

/-- The new name space is entered into the table and in front of the list. -/
def enterSpace (k : Kernel) (ns nsid fs : ℕ) (device : Device) : Kernel :=
  let (dev, ino) := numbers device
  let k := { k with
    layer := { k.layer with
      nstab := Function.update k.layer.nstab (nsid % k.layer.nns) (some ns)
      spaces := Function.update k.layer.spaces ns ⟨nsid, false, ⟨none, none⟩⟩ }
    space := Function.update k.space ns ⟨fs, none, none, dev, ino, none, k.nshead⟩ }
  let k := match k.nshead with
    | some head => setSpace k head fun x => { x with prev := some ns }
    | none => k
  { k with nshead := some ns }

def callMount (k : Kernel) (ns : ℕ) : MountReply → Except Stop (Option (ℤ × ℕ) × Kernel)
  | .fails effect => .ok (none, { k with layer := effect.run k.layer })
  | .mounts effect vnid data root random =>
    match newVnode (effect.run k.layer) (k.layer.spaces ns).nsid vnid root random with
    | .error h => .error (.layer h)
    | .ok (err, s) => .ok (if err = 0 then some (vnid, data) else none, { k with layer := s })

abbrev Mounted := Except Stop (Option ℕ × Kernel)

/-- The exits of a mount that fails, from its last label up. -/
def error2 (k : Kernel) (mount : ℕ) : Mounted :=
  (PathWalk.decVnode k mount false).map fun k => (none, k)

def error4 (k : Kernel) (fs mount : ℕ) : Mounted := error2 (decFileSystem k fs) mount

def error5 (k : Kernel) (ns fs mount : ℕ) : Mounted :=
  (lock k).bind fun k => error4 (unlock (dropSpace k ns)) fs mount

def error6 (k : Kernel) (ns fs mount : ℕ) (unmount : Effect) : Mounted :=
  match (k.space ns).root with
  | none => (lock k).bind fun _ => .error .nullPointer
  | some root =>
    (PathWalk.decVnode k root false).bind fun k =>
      error5 { k with layer := unmount.run k.layer } ns fs mount

/-- The hook has mounted the file system. -/
def finishMount (k : Kernel) (ns fs mount : ℕ) (vnid : ℤ) (data : ℕ) (unmount : Effect) : Mounted :=
  (lock k).bind fun k =>
    let root := lookupVnode k.layer (k.layer.spaces ns).nsid vnid
    let k := setSpace k ns fun x => { x with root := root }
    if mount = k.rootvn ∨ (k.layer.vns mount).mounted ≠ none then error6 k ns fs mount unmount
    else
      let k := { k with layer := setVnode k.layer mount fun v => { v with mounted := some ns } }
      .ok (some data, unlock (setSpace k ns fun x => { x with mount := some mount }))

def mountSpace (k : Kernel) (ns fs mount : ℕ) (device : Device) (hooks : MountHooks) : Mounted :=
  (lock k).bind fun k =>
  (alreadyMounted k device).bind fun again =>
    if again then error4 (unlock k) fs mount
    else
      let (slot, nxnsid) := findSlot k.layer.nstab k.layer.nns k.layer.nns k.nxnsid
      let k := { k with nxnsid := nxnsid }
      match slot with
      | none => error4 (unlock k) fs mount
      | some nsid =>
        (callMount (unlock (enterSpace k ns nsid fs device)) ns hooks.mount).bind fun (res, k) =>
          match res with
          | none => error5 k ns fs mount
          | some (vnid, data) => finishMount k ns fs mount vnid data hooks.unmount

/-- The path leads to `mount`. -/
def mountAt (k : Kernel) (ns mount : ℕ) (filesystem : Option Path) (device : Device)
    (hooks : MountHooks) : Mounted :=
  (callRstat k mount hooks.rstat).bind fun (err, k) =>
    if err ≠ 0 ∨ hooks.isDir = false then error2 k mount
    else
      (incFileSystem k filesystem).bind fun (fs, k) =>
        match fs with
        | none => error2 k mount
        | some fs => mountSpace k ns fs mount device hooks

def sysMount (k : Kernel) (ns : ℕ) (filesystem : Option Path) (fd : ℤ) (path : Option Path)
    (device : Device) (hooks : MountHooks) : Mounted :=
  match device with
  | .missing => .ok (none, k)
  | device =>
    (getFileFd k true fd path true).bind fun (res, k) =>
      match res with
      | .error _ => .ok (none, k)
      | .ok mount => mountAt k ns mount filesystem device hooks

section Tables
variable {s : Layer} {ns nsid : ℕ}

theorem nsidtons_iff {p : ℕ} : nsidtons s nsid = some p ↔
    s.nstab (nsid % s.nns) = some p ∧ (s.spaces p).nsid = nsid ∧ (s.spaces p).shutdown = false := by
  unfold nsidtons
  cases s.nstab (nsid % s.nns) with
  | none => simp
  | some q =>
    dsimp only
    constructor
    · intro h
      split at h
      · cases h
      · rename_i hok
        cases h
        rw [not_or, not_not] at hok
        exact ⟨rfl, hok.1, by simpa using hok.2⟩
    · rintro ⟨hq, hid, hup⟩
      cases hq
      rw [if_neg]
      simp [hid, hup]

/-- The vnodes are registered under name spaces of the table. -/
theorem Sound.registered_ne (h : Sound s) (hout : ∀ i, s.nstab i ≠ some ns) {v : ℕ}
    (hv : Registered s v) : (s.vns v).ns ≠ some ns := by
  obtain ⟨p, hp, hlive⟩ := h.registry.live v hv
  rw [hp]
  rintro ⟨⟩
  exact hout _ (nsidtons_iff.mp hlive).1

/-- Other name spaces may come and go, as long as they have no vnodes. -/
theorem Sound.respaced (h : Sound s) {nstab : ℕ → Option ℕ} {spaces : ℕ → Nspace}
    (hvnodes : ∀ p, (spaces p).vnodes = (s.spaces p).vnodes)
    (hsame : ∀ v p, Registered s v → (s.vns v).ns = some p → spaces p = s.spaces p)
    (hslot : ∀ v p, Registered s v → (s.vns v).ns = some p →
      nstab ((s.spaces p).nsid % s.nns) = some p) :
    Sound { s with nstab := nstab, spaces := spaces } := by
  have hid : ∀ v, Registered s v → idOf { s with nstab := nstab, spaces := spaces } v =
    idOf s v := by
    intro v hv
    obtain ⟨p, hp, _⟩ := h.registry.live v hv
    rw [idOf_of_ns (show ({ s with nstab := nstab, spaces := spaces }.vns v).ns = some p from hp),
      idOf_of_ns hp]
    dsimp only
    rw [hsame v p hv hp]
  refine ⟨⟨h.lists.congr rfl rfl rfl fun _ => rfl, ⟨h.registry.wf, h.registry.mem, ?_, ?_, ?_⟩,
    h.placed, fun key => ?_⟩, h.cap⟩
  · refine h.registry.sorted.imp_of_mem fun {a b} ha hb hab => ?_
    rw [hid a ((h.registry.mem a).mp ha), hid b ((h.registry.mem b).mp hb)]
    exact hab
  · intro v hv
    obtain ⟨p, hp, hlive⟩ := h.registry.live v hv
    refine ⟨p, hp, nsidtons_iff.mpr ?_⟩
    dsimp only
    rw [hsame v p hv hp]
    exact ⟨hslot v p hv hp, rfl, (nsidtons_iff.mp hlive).2.2⟩
  · obtain ⟨ys, hys, hmem⟩ := h.registry.spaces
    refine ⟨ys, ?_, hmem⟩
    dsimp only
    rw [funext hvnodes]
    exact hys
  · obtain ⟨life, hlife, his⟩ := h.tracked key
    refine ⟨life, hlife, ?_⟩
    cases life with
    | absent => exact fun v hv => by rw [hid v hv]; exact his v hv
    | present data refs marked =>
      obtain ⟨v, hv, hkey, hrest⟩ := his
      exact ⟨v, hv, by rw [hid v hv]; exact hkey, hrest⟩
    | doomed => exact his

theorem Sound.addSpace (h : Sound s) (ns nsid : ℕ) (hfree : s.nstab (nsid % s.nns) = none)
    (hout : ∀ i, s.nstab i ≠ some ns) :
    Sound { s with
      nstab := Function.update s.nstab (nsid % s.nns) (some ns)
      spaces := Function.update s.spaces ns ⟨nsid, false, ⟨none, none⟩⟩ } := by
  refine Sound.respaced h (fun p => ?_) (fun v p hv hp => ?_) fun v p hv hp => ?_
  · by_cases hpn : p = ns
    · obtain ⟨ys, hys, hmem⟩ := h.registry.spaces
      have hnil : ys ns = [] := List.eq_nil_iff_forall_not_mem.mpr fun v hv =>
        Sound.registered_ne h hout ((hmem ns v).mp hv).1 ((hmem ns v).mp hv).2
      have hlist := hys.isList ns
      rw [hnil] at hlist
      rw [hpn, Function.update_self]
      generalize (s.spaces ns).vnodes = e at hlist ⊢
      obtain ⟨head, tail⟩ := e
      rw [show head = none from hlist.head, show tail = none from hlist.tail]
    · rw [Function.update_of_ne hpn]
  · rw [Function.update_of_ne]
    rintro rfl
    exact Sound.registered_ne h hout hv hp
  · obtain ⟨q, hq, hlive⟩ := h.registry.live v hv
    cases hq.symm.trans hp
    have hslot := (nsidtons_iff.mp hlive).1
    rw [Function.update_of_ne]
    · exact hslot
    · intro heq
      rw [heq, hfree] at hslot
      cases hslot

theorem Sound.dropSlot (h : Sound s) (ns slot : ℕ) (hslot : s.nstab slot = some ns)
    (hout : ∀ v, Registered s v → (s.vns v).ns ≠ some ns) :
    Sound { s with nstab := Function.update s.nstab slot none } := by
  refine Sound.respaced h (fun _ => rfl) (fun _ _ _ _ => rfl) fun v p hv hp => ?_
  obtain ⟨q, hq, hlive⟩ := h.registry.live v hv
  cases hq.symm.trans hp
  rw [Function.update_of_ne]
  · exact (nsidtons_iff.mp hlive).1
  · intro heq
    have hslot' := (nsidtons_iff.mp hlive).1
    rw [heq, hslot] at hslot'
    cases hslot'
    exact hout v hv hp

end Tables

/-- The list of all name spaces, which starts at `nshead`. -/
structure SpaceList (k : Kernel) (xs : List ℕ) : Prop where
  linked : Linked ⟨fun p => (k.space p).next, fun p => (k.space p).prev⟩ none xs none
  head : k.nshead = xs.head?
  length : xs.length ≤ k.layer.nns

/-- Memory that no name space occupies. -/
structure Fresh (k : Kernel) (ns : ℕ) : Prop where
  nstab : ∀ i, k.layer.nstab i ≠ some ns
  list : ∃ xs, SpaceList k xs ∧ ns ∉ xs

/-- A mount that failed has left nothing behind. -/
structure Restored (k k' : Kernel) (ns : ℕ) : Prop where
  nstab : k'.layer.nstab = k.layer.nstab
  nshead : k'.nshead = k.nshead
  space : ∀ p, p ≠ ns → k'.space p = k.space p
  fsystem : ∀ f, (k'.fsystem f).rcnt = (k.fsystem f).rcnt
  mounted : ∀ w < k.layer.vnnum, (k'.layer.vns w).mounted = (k.layer.vns w).mounted
  rcnt : ∀ w, (k'.layer.vns w).rcnt = (k.layer.vns w).rcnt
  gone : ∀ v, Registered k'.layer v → (k'.layer.vns v).ns ≠ some ns

/-- A mount has a reference to the mount point and has counted itself in `d`. -/
structure Pending (k₀ k : Kernel) (ns mount : ℕ) (d : ℕ → ℤ) : Prop where
  unlocked : k.vnlock = false
  rootvn : k.rootvn = k₀.rootvn
  refs : Refs k₀.layer k.layer [mount]
  nns : k.layer.nns = k₀.layer.nns
  nstab : k.layer.nstab = k₀.layer.nstab
  nshead : k.nshead = k₀.nshead
  space : ∀ p, p ≠ ns → k.space p = k₀.space p
  rcnt : ∀ f, (k.fsystem f).rcnt = (k₀.fsystem f).rcnt + d f

section Exits
variable {k₀ k : Kernel} {ns fs mount : ℕ} {d : ℕ → ℤ}

theorem Holding.pending (h : Holding k₀ k [mount]) (h₀ : Ready k₀) (ns : ℕ) :
    Pending k₀ k ns mount 0 where
  unlocked := (h.usable h₀).unlocked
  rootvn := by rw [h.same]
  refs := h.refs
  nns := h.spaces.nns
  nstab := h.spaces.nstab
  nshead := by rw [h.same]
  space p _ := by rw [h.same]
  rcnt f := by
    rw [h.same]
    simp

theorem Pending.error2 (h : Pending k₀ k ns mount 0) (h₀ : Ready k₀) (hns : Fresh k₀ ns) :
    ∃ k', error2 k mount = .ok (none, k') ∧ k'.vnlock = false ∧ Restored k₀ k' ns := by
  obtain ⟨s, hdec, hc⟩ := decVnode_eq h.unlocked h.refs.sound
    (h.refs.live_held List.mem_cons_self) (h.refs.lastSeen h₀.few_nil.lt) false
  have hrefs := h.refs.drop hc
  have hnstab : s.nstab = k₀.layer.nstab := hc.spaces.nstab.trans h.nstab
  unfold FailedMount.error2
  rw [hdec]
  refine ⟨_, rfl, h.unlocked, hnstab, h.nshead, h.space, fun f => ?_, fun w hw => ?_,
    hrefs.rcnt_eq, fun v hv => ?_⟩
  · rw [h.rcnt f]
    simp
  · exact hrefs.mounted_eq fun ns hm => (h₀.roots w ns hm hw).1
  · exact Sound.registered_ne hc.sound (by rw [hnstab]; exact hns.nstab) hv

theorem decFileSystem_same (k : Kernel) (fs : ℕ) :
    decFileSystem k fs = { k with
      fsystem := Function.update k.fsystem fs
        { k.fsystem fs with rcnt := (k.fsystem fs).rcnt - 1 }
      fstab := (decFileSystem k fs).fstab } := by
  unfold decFileSystem
  dsimp only
  split <;> rfl

theorem Pending.error4 (h : Pending k₀ k ns mount (Pi.single fs 1)) (h₀ : Ready k₀)
    (hns : Fresh k₀ ns) :
    ∃ k', error4 k fs mount = .ok (none, k') ∧ k'.vnlock = false ∧ Restored k₀ k' ns := by
  unfold FailedMount.error4
  rw [decFileSystem_same]
  refine Pending.error2 ?_ h₀ hns
  refine ⟨h.unlocked, h.rootvn, h.refs, h.nns, h.nstab, h.nshead, h.space, fun f => ?_⟩
  dsimp only
  by_cases hf : f = fs
  · rw [hf, Function.update_self]
    dsimp only
    rw [h.rcnt fs]
    simp
  · rw [Function.update_of_ne hf, h.rcnt f]
    simp [hf]

end Exits

/-- The new name space is in the table and in the list. -/
structure Entered (k₀ k : Kernel) (ns nsid fs mount : ℕ) : Prop where
  unlocked : k.vnlock = false
  rootvn : k.rootvn = k₀.rootvn
  refs : Refs k₀.layer k.layer [mount]
  nns : k.layer.nns = k₀.layer.nns
  nstab : k.layer.nstab = Function.update k₀.layer.nstab (nsid % k₀.layer.nns) (some ns)
  free : k₀.layer.nstab (nsid % k₀.layer.nns) = none
  ids : (k.layer.spaces ns).nsid = nsid ∧ (k.layer.spaces ns).shutdown = false
  nshead : k.nshead = some ns
  links : (k.space ns).prev = none ∧ (k.space ns).next = k₀.nshead
  space : ∀ p, p ≠ ns → k.space p =
    if k₀.nshead = some p then { k₀.space p with prev := some ns } else k₀.space p
  rcnt : ∀ f, (k.fsystem f).rcnt = (k₀.fsystem f).rcnt + (Pi.single fs 1 : ℕ → ℤ) f
  empty : ∀ v, Registered k.layer v → (k.layer.vns v).ns ≠ some ns

section Entry
variable {k₀ k : Kernel} {ns nsid fs mount : ℕ}

theorem Pending.enter (h : Pending k₀ k ns mount (Pi.single fs 1)) (hns : Fresh k₀ ns)
    (hfree : k₀.layer.nstab (nsid % k₀.layer.nns) = none) (device : Device) :
    Entered k₀ (enterSpace k ns nsid fs device) ns nsid fs mount := by
  obtain ⟨xs, hxs, hout⟩ := hns.list
  have hne : k₀.nshead ≠ some ns := by
    intro heq
    rw [hxs.head] at heq
    exact hout (List.mem_of_mem_head? heq)
  have hsound := Sound.addSpace h.refs.sound ns nsid
    (by rw [h.nns, h.nstab]; exact hfree) (by rw [h.nstab]; exact hns.nstab)
  have hrefs := h.refs.trans (Refs.of_vns h.refs.sound hsound rfl rfl)
  have hnstab : Function.update k.layer.nstab (nsid % k.layer.nns) (some ns) =
      Function.update k₀.layer.nstab (nsid % k₀.layer.nns) (some ns) := by rw [h.nns, h.nstab]
  have hspace : ∀ x p, p ≠ ns → Function.update k.space ns x p = k₀.space p := by
    intro x p hp
    rw [Function.update_of_ne hp, h.space p hp]
  have hempty : ∀ v, Registered k.layer v → (k.layer.vns v).ns ≠ some ns := fun v hv =>
    Sound.registered_ne h.refs.sound (by rw [h.nstab]; exact hns.nstab) hv
  unfold enterSpace
  rw [h.nshead]
  cases hhead : k₀.nshead with
  | none =>
    refine ⟨h.unlocked, h.rootvn, hrefs, h.nns, hnstab, hfree, ?_, rfl, ?_, fun p hp => ?_, h.rcnt,
      hempty⟩
    · simp
    · simp [hhead]
    · simp [hspace _ p hp, hhead]
  | some head =>
    have hh : head ≠ ns := by
      rintro rfl
      exact hne hhead
    refine ⟨h.unlocked, h.rootvn, hrefs, h.nns, hnstab, hfree, ?_, rfl, ?_, fun p hp => ?_, h.rcnt,
      hempty⟩
    · simp [setSpace]
    · simp [setSpace, hhead, Function.update_of_ne hh.symm]
    · rw [hhead]
      by_cases hph : p = head
      · subst hph
        simp only [setSpace, Function.update_self, if_true, hspace _ p hp]
      · simp only [setSpace, Function.update_of_ne hph, hspace _ p hp, Option.some.injEq,
          Ne.symm hph, if_false]

/-- The hooks work on a name space that stays where it is. -/
theorem Entered.quiet (h : Entered k₀ k ns nsid fs mount) (e : Quiet) :
    Entered k₀ { k with layer := e.run k.layer } ns nsid fs mount := by
  have hc := e.neutral k.layer h.refs.sound
  exact {
    unlocked := h.unlocked
    rootvn := h.rootvn
    refs := h.refs.neutral hc
    nns := hc.spaces.nns.trans h.nns
    nstab := hc.spaces.nstab.trans h.nstab
    free := h.free
    ids := ⟨(hc.spaces.ids ns).1.trans h.ids.1, (hc.spaces.ids ns).2.trans h.ids.2⟩
    nshead := h.nshead
    links := h.links
    space := h.space
    rcnt := h.rcnt
    empty v hv hns := by
      have hin : v < k.layer.vnnum := by
        rw [← hc.vnnum]
        exact hv.1
      have hbefore := e.enters k.layer h.refs.sound v ns hns
      refine h.empty v ⟨hin, ?_⟩ hbefore
      rw [hbefore]
      exact Option.some_ne_none ns }

theorem Entered.drop (h : Entered k₀ k ns nsid fs mount) (hns : Fresh k₀ ns) :
    Pending k₀ (dropSpace k ns) ns mount (Pi.single fs 1) := by
  obtain ⟨xs, hxs, hnot⟩ := hns.list
  have hsound := Sound.dropSlot h.refs.sound ns (nsid % k₀.layer.nns)
    (by rw [h.nstab, Function.update_self]) h.empty
  have hrefs := h.refs.trans (Refs.of_vns h.refs.sound hsound rfl rfl)
  have hnstab : Function.update k.layer.nstab (nsid % k₀.layer.nns) none = k₀.layer.nstab := by
    rw [h.nstab, Function.update_idem, ← h.free, Function.update_eq_self]
  unfold dropSpace
  rw [h.links.1, h.links.2, h.ids.1, h.nns]
  cases hhead : k₀.nshead with
  | none =>
    refine ⟨h.unlocked, h.rootvn, hrefs, h.nns, hnstab, hhead.symm, fun p hp => ?_, h.rcnt⟩
    rw [h.space p hp, hhead]
    simp
  | some head =>
    refine ⟨h.unlocked, h.rootvn, hrefs, h.nns, hnstab, hhead.symm, fun p hp => ?_, h.rcnt⟩
    have hspace := h.space p hp
    rw [hhead] at hspace
    by_cases hph : p = head
    · -- the old head had nothing before it
      subst hph
      have hprev : (k₀.space p).prev = none := by
        rw [hxs.head] at hhead
        cases xs with
        | nil => cases hhead
        | cons x xs =>
          cases hhead
          exact hxs.linked.1
      simp only [setSpace, Function.update_self, hspace, if_true]
      rw [← hprev]
    · simp only [setSpace, Function.update_of_ne hph]
      rw [hspace, if_neg]
      simp [Ne.symm hph]

theorem Entered.error5 (h : Entered k₀ k ns nsid fs mount) (h₀ : Ready k₀) (hns : Fresh k₀ ns) :
    ∃ k', error5 k ns fs mount = .ok (none, k') ∧ k'.vnlock = false ∧ Restored k₀ k' ns := by
  have hp := h.drop hns
  unfold FailedMount.error5
  rw [lock_eq h.unlocked]
  refine Pending.error4 ?_ h₀ hns
  have hlocked : unlock (dropSpace { k with vnlock := true } ns) =
      { dropSpace k ns with vnlock := false } := by
    unfold dropSpace
    dsimp only
    cases (k.space ns).prev <;> cases (k.space ns).next <;> rfl
  rw [hlocked]
  exact ⟨rfl, hp.rootvn, hp.refs, hp.nns, hp.nstab, hp.nshead, hp.space, hp.rcnt⟩

end Entry

section Search
variable {nstab : ℕ → Option ℕ} {nns nsid : ℕ}

theorem findSlot_some {todo n m : ℕ} (h : findSlot nstab nns todo n = (some nsid, m)) :
    nstab (nsid % nns) = none := by
  induction todo generalizing n with
  | zero => cases h
  | succ todo ih =>
    rw [findSlot] at h
    split at h
    · rename_i hfree
      cases h
      exact hfree
    · exact ih h

theorem findSlot_none {todo n m : ℕ} (h : findSlot nstab nns todo n = (none, m)) :
    ∀ j < todo, nstab ((n + j) % nns) ≠ none := by
  induction todo generalizing n with
  | zero => exact fun j hj => absurd hj (Nat.not_lt_zero j)
  | succ todo ih =>
    rw [findSlot] at h
    split at h
    · cases h
    rename_i hfull
    intro j hj
    cases j with
    | zero => exact hfull
    | succ j =>
      rw [show n + (j + 1) = n + 1 + j by omega]
      exact ih h j (by omega)

/-- A search over as many ids as there are slots sees every slot. -/
theorem findSlot_full {n m : ℕ} (h : findSlot nstab nns nns n = (none, m)) {i : ℕ} (hi : i < nns) :
    nstab i ≠ none := by
  have hlt : n % nns < nns := Nat.mod_lt n (by omega)
  have hj := findSlot_none h ((i + (nns - n % nns)) % nns) (Nat.mod_lt _ (by omega))
  have hround : (n + (i + (nns - n % nns)) % nns) % nns = i := by
    rw [Nat.add_mod_mod, ← Nat.mod_add_mod,
      show n % nns + (i + (nns - n % nns)) = i + nns by omega, Nat.add_mod_right,
      Nat.mod_eq_of_lt hi]
  rwa [hround] at hj

theorem onDevice_eq {space : ℕ → Space} {dev ino : ℤ} {p : Option ℕ} {xs : List ℕ} {fuel : ℕ}
    (h : Linked ⟨fun p => (space p).next, fun p => (space p).prev⟩ p xs none)
    (hlen : xs.length ≤ fuel) :
    onDevice space dev ino fuel xs.head? =
      .ok (xs.any fun q => (space q).dev = dev ∧ (space q).ino = ino) := by
  induction xs generalizing p fuel with
  | nil => cases fuel <;> rfl
  | cons x xs ih =>
    cases fuel with
    | zero => simp at hlen
    | succ fuel =>
      obtain ⟨_, hnext, hrest⟩ := h
      rw [Option.or_none] at hnext
      dsimp only at hnext
      rw [List.head?_cons, onDevice, hnext, List.any_cons]
      split
      · rename_i hx
        rw [decide_eq_true hx, Bool.true_or]
      · rename_i hx
        rw [decide_eq_false hx, Bool.false_or]
        exact ih hrest (by simpa using hlen)

/-- A mount that is under way does not show in the list. -/
theorem Pending.again {k₀ k : Kernel} {ns mount : ℕ} {d : ℕ → ℤ}
    (h : Pending k₀ k ns mount d) (hns : Fresh k₀ ns) (device : Device) :
    ∃ again, alreadyMounted k device = .ok again ∧ alreadyMounted k₀ device = .ok again := by
  obtain ⟨xs, hxs, hnot⟩ := hns.list
  have hsame : ∀ q ∈ xs, k.space q = k₀.space q := by
    intro q hq
    refine h.space q ?_
    rintro rfl
    exact hnot hq
  cases device with
  | absent => exact ⟨false, rfl, rfl⟩
  | missing => exact ⟨false, rfl, rfl⟩
  | node dev ino =>
    refine ⟨xs.any fun q => (k₀.space q).dev = dev ∧ (k₀.space q).ino = ino, ?_, ?_⟩
    · have hlinked :
          Linked ⟨fun p => (k.space p).next, fun p => (k.space p).prev⟩ none xs none := by
        refine hxs.linked.congr fun q hq => ?_
        dsimp only
        rw [hsame q hq]
        exact ⟨rfl, rfl⟩
      unfold alreadyMounted
      dsimp only
      rw [h.nns, h.nshead, hxs.head, onDevice_eq hlinked hxs.length]
      congr 1
      rw [Bool.eq_iff_iff, List.any_eq_true, List.any_eq_true]
      refine exists_congr fun q => and_congr_right fun hq => ?_
      rw [hsame q hq]
    · unfold alreadyMounted
      dsimp only
      rw [hxs.head, onDevice_eq hxs.linked hxs.length]

end Search

/-- The mount reaches its last check and fails there. -/
structure Collides (k : Kernel) (mount : ℕ) (device : Device) (reply : MountReply) : Prop where
  taken : mount = k.rootvn ∨ (k.layer.vns mount).mounted ≠ none
  unused : alreadyMounted k device = .ok false
  slot : ∃ i < k.layer.nns, k.layer.nstab i = none
  mounts : ∃ effect vnid data root random, reply = .mounts effect vnid data root random
  vnode : ∃ w < k.layer.vnnum, (k.layer.vns w).rcnt = 0

/-- The lock is not taken twice and is given back, and a mount that fails is undone. -/
def Undone (k : Kernel) (ns : ℕ) : Mounted → Prop :=
  Ends (fun e => e = .outOfVnodes ∨ e = .nullPointer) fun r =>
    r.2.vnlock = false ∧ (r.1 = none → Restored k r.2 ns)

theorem undone_of_none {k : Kernel} {ns : ℕ} {x : Mounted}
    (h : ∃ k', x = .ok (none, k') ∧ k'.vnlock = false ∧ Restored k k' ns) : Undone k ns x := by
  obtain ⟨k', rfl, hlock, hr⟩ := h
  exact ⟨hlock, fun _ => hr⟩

section Phases
variable {k₀ k : Kernel} {ns nsid fs mount : ℕ}

/-- With the lock in its hands the last exit takes it again. -/
theorem error6_locked (h : k.vnlock = true) (unmount : Effect) :
    error6 k ns fs mount unmount = .error .lockedTwice := by
  have hlock : lock k = .error .lockedTwice := by
    unfold lock
    rw [if_pos h]
  unfold error6
  cases (k.space ns).root with
  | none =>
    dsimp only
    rw [hlock]
    rfl
  | some root =>
    dsimp only
    unfold PathWalk.decVnode
    rw [hlock]
    rfl

theorem finishMount_eq (h : k.vnlock = false) (ns fs mount : ℕ) (vnid : ℤ) (data : ℕ)
    (unmount : Effect) :
    (mount = k.rootvn ∨ (k.layer.vns mount).mounted ≠ none →
      finishMount k ns fs mount vnid data unmount = .error .lockedTwice) ∧
    (¬ (mount = k.rootvn ∨ (k.layer.vns mount).mounted ≠ none) →
      ∃ k', finishMount k ns fs mount vnid data unmount = .ok (some data, k') ∧
        k'.vnlock = false) := by
  unfold finishMount
  rw [lock_eq h]
  dsimp only [Except.bind]
  constructor
  · intro htaken
    exact (if_pos htaken).trans (error6_locked rfl unmount)
  · intro hfree
    exact ⟨_, if_neg hfree, rfl⟩

/-- A mount point that is taken is referenced by who took it. -/
theorem Refs.taken_live {held : List ℕ} (h : Refs k₀.layer k.layer held) (h₀ : Ready k₀)
    (hin : mount ∈ held) (htaken : mount = k₀.rootvn ∨ (k₀.layer.vns mount).mounted ≠ none) :
    Live k₀.layer mount := by
  rcases htaken with rfl | hm
  · exact h₀.rootvn
  · obtain ⟨p, hp⟩ := Option.ne_none_iff_exists'.mp hm
    exact (h₀.roots mount p hp (h.inside mount hin)).1

/-- The new name space has no vnode, so its root has new ids. -/
theorem Entered.newVnode (h : Entered k₀ k ns nsid fs mount) (vnid : ℤ) (root : ℕ)
    (random : Fin (maxLevel + 1)) :
    (∃ s vn, newVnode k.layer nsid vnid root random = .ok (0, s) ∧ vn < k.layer.vnnum ∧
      (k.layer.vns vn).rcnt = 0 ∧ Change k.layer s (Pi.single vn 1)) ∨
    (VnodeLayer.newVnode k.layer nsid vnid root random = .ok (ENOMEM, k.layer) ∧
      ∀ w < k.layer.vnnum, (k.layer.vns w).rcnt ≠ 0) := by
  have hlive : nsidtons k.layer nsid = some ns := by
    refine nsidtons_iff.mpr ⟨?_, h.ids⟩
    rw [h.nstab, h.nns, Function.update_self]
  have hnew : ∀ w, Registered k.layer w → idOf k.layer w ≠ (nsid, vnid) := by
    intro w hw hid
    obtain ⟨p, hp, hplive⟩ := h.refs.sound.registry.live w hw
    rw [idOf_of_ns hp] at hid
    rw [(Prod.mk.inj hid).1, hlive] at hplive
    cases hplive
    exact h.empty w hw hp
  rcases newVnode_change h.refs.sound hlive hnew root (Nat.lt_succ_iff.mp random.2) with
    ⟨s, vn, hs, hin, hz, _, hc⟩ | hfull
  · exact .inl ⟨s, vn, hs, hin, hz, hc⟩
  · exact .inr hfull

/-- What the mount hook leaves decides the rest. -/
theorem Entered.mounting (h : Entered k₀ k ns nsid fs mount) (h₀ : Ready k₀) (hns : Fresh k₀ ns)
    {device : Device} (hunused : alreadyMounted k₀ device = .ok false) {i : ℕ}
    (hi : i < k₀.layer.nns) (hslot : k₀.layer.nstab i = none) (hooks : MountHooks) :
    Undone k₀ ns ((callMount k ns hooks.mount).bind fun (res, k) =>
      match res with
      | none => FailedMount.error5 k ns fs mount
      | some (vnid, data) => finishMount k ns fs mount vnid data hooks.unmount) ↔
      ¬ Collides k₀ mount device hooks.mount := by
  cases hreply : hooks.mount with
  | fails effect =>
    refine iff_of_true (undone_of_none ((h.quiet effect).error5 h₀ hns)) fun hc => ?_
    obtain ⟨_, _, _, _, _, hne⟩ := hc.mounts
    cases hne
  | mounts effect vnid data root random =>
    have h₁ := h.quiet effect
    unfold callMount
    rw [h.ids.1]
    dsimp only
    have hcount := h₁.refs.rcnt
    have hnum := h₁.refs.vnnum
    have hcases := h₁.newVnode vnid root random
    generalize effect.run k.layer = s₁ at h₁ hcases hcount hnum ⊢
    rcases hcases with ⟨s₂, vn, hnew, hin, hz, hc⟩ | ⟨hnew, hall⟩
    · -- the root is registered: only the mount point is left to check
      rw [hnew]
      dsimp only [Except.bind]
      rw [if_pos rfl]
      dsimp only
      have hheld : Live s₁ mount := h₁.refs.live_held List.mem_cons_self
      have hrefs : Refs k₀.layer s₂ [vn, mount] := h₁.refs.take (by rw [hc.vnnum]; exact hin) hc
      have hmounted : (s₂.vns mount).mounted = (k₀.layer.vns mount).mounted :=
        hrefs.mounted_eq fun p hp =>
          (h₀.roots mount p hp (h₁.refs.inside mount List.mem_cons_self)).1
      have hfree : (k₀.layer.vns vn).rcnt = 0 := by
        have hpos := (h₀.sound.placed vn (by rw [← hnum]; exact hin)).rcnt
        rw [hcount vn] at hz
        omega
      have hiff : (mount = ({ k with layer := s₂ } : Kernel).rootvn ∨
          (({ k with layer := s₂ } : Kernel).layer.vns mount).mounted ≠ none) ↔
          (mount = k₀.rootvn ∨ (k₀.layer.vns mount).mounted ≠ none) := by
        rw [show ({ k with layer := s₂ } : Kernel).rootvn = k₀.rootvn from h.rootvn]
        dsimp only
        rw [hmounted]
      obtain ⟨hbad, hgood⟩ := finishMount_eq (k := { k with layer := s₂ }) h.unlocked ns fs mount
        vnid data hooks.unmount
      by_cases htaken : mount = k₀.rootvn ∨ (k₀.layer.vns mount).mounted ≠ none
      · rw [hbad (hiff.mpr htaken)]
        refine iff_of_false (fun hu => ?_) (not_not.mpr ⟨htaken, hunused, ⟨i, hi, hslot⟩,
          ⟨effect, vnid, data, root, random, rfl⟩, ⟨vn, by rw [← hnum]; exact hin, hfree⟩⟩)
        rcases hu with hu | hu <;> cases hu
      · obtain ⟨k', hk', hlock⟩ := hgood (mt hiff.mp htaken)
        rw [hk']
        exact iff_of_true ⟨hlock, fun hnone => by cases hnone⟩ fun hcol => htaken hcol.taken
    · rw [hnew]
      dsimp only [Except.bind]
      rw [if_neg (by decide)]
      refine iff_of_true (undone_of_none (h₁.error5 h₀ hns)) fun hcol => ?_
      obtain ⟨w, hw, hz⟩ := hcol.vnode
      have hlive := Refs.taken_live (k := { k with layer := s₁ }) h₁.refs h₀ List.mem_cons_self
        hcol.taken
      have hne : w ≠ mount := by
        rintro rfl
        have := hlive.pos
        omega
      refine hall w (by rw [hnum]; exact hw) ?_
      rw [hcount w, hz]
      simp [Ne.symm hne]

theorem Pending.mountSpace_iff (h : Pending k₀ k ns mount (Pi.single fs 1)) (h₀ : Ready k₀)
    (hns : Fresh k₀ ns) (device : Device) (hooks : MountHooks) :
    Undone k₀ ns (mountSpace k ns fs mount device hooks) ↔
      ¬ Collides k₀ mount device hooks.mount := by
  have hidle : ∀ n, Pending k₀ { k with vnlock := false, nxnsid := n } ns mount (Pi.single fs 1) :=
    fun n => ⟨rfl, h.rootvn, h.refs, h.nns, h.nstab, h.nshead, h.space, h.rcnt⟩
  obtain ⟨again, hagain, hagain₀⟩ := (hidle k.nxnsid).again hns device
  have hlocked : alreadyMounted { k with vnlock := true } device = .ok again := by
    rw [← hagain]
    cases device <;> rfl
  unfold mountSpace
  rw [lock_eq h.unlocked]
  dsimp only [Except.bind]
  rw [hlocked]
  dsimp only
  cases again with
  | true =>
    rw [if_pos rfl]
    refine iff_of_true (undone_of_none ((hidle k.nxnsid).error4 h₀ hns)) fun hc => ?_
    have := hagain₀.symm.trans hc.unused
    cases this
  | false =>
    rw [if_neg Bool.false_ne_true]
    rcases hfind : findSlot k.layer.nstab k.layer.nns k.layer.nns k.nxnsid with ⟨_ | nsid, n⟩
    · refine iff_of_true (undone_of_none ((hidle n).error4 h₀ hns)) fun hc => ?_
      obtain ⟨i, hi, hslot⟩ := hc.slot
      rw [h.nstab, h.nns] at hfind
      exact findSlot_full hfind hi hslot
    · have hfree := findSlot_some hfind
      rw [h.nstab, h.nns] at hfree
      have hpos : 0 < k₀.layer.nns := by
        rw [← h.nns]
        by_contra hz
        rw [Nat.eq_zero_of_not_pos hz] at hfind
        cases hfind
      have henter := (hidle n).enter hns hfree device
      have hunlock : unlock (enterSpace { k with vnlock := true, nxnsid := n } ns nsid fs device) =
          enterSpace { k with vnlock := false, nxnsid := n } ns nsid fs device := by
        unfold enterSpace
        dsimp only
        cases k.nshead <;> rfl
      dsimp only
      rw [hunlock]
      exact henter.mounting h₀ hns hagain₀ (Nat.mod_lt nsid hpos) hfree hooks

end Phases

/-- The mount goes through up to its last check, and the place is taken. -/
def Overmounts (k : Kernel) (filesystem : Option Path) (fd : ℤ) (path : Option Path)
    (device : Device) (hooks : MountHooks) : Prop :=
  device ≠ .missing ∧ ∃ mount k₁, getFileFd k true fd path true = .ok (.ok mount, k₁) ∧
    (∃ p, (k.layer.vns mount).ns = some p ∧ (k.fsystem (k.space p).fs).ops .rstat = true) ∧
    hooks.rstat.err = 0 ∧ hooks.isDir = true ∧
    (∃ name fs, filesystem = some name ∧ findFileSystem k name = some fs) ∧
    Collides k mount device hooks.mount

section Call
variable {k₀ k : Kernel} {ns mount : ℕ}

theorem Holding.counted (h : Holding k₀ k [mount]) (h₀ : Ready k₀) (ns fs : ℕ) {f : Fsystem}
    (hf : f.rcnt = (k.fsystem fs).rcnt + 1) :
    Pending k₀ { k with fsystem := Function.update k.fsystem fs f } ns mount (Pi.single fs 1) := by
  have hp := Holding.pending h h₀ ns
  refine ⟨hp.unlocked, hp.rootvn, hp.refs, hp.nns, hp.nstab, hp.nshead, hp.space, fun g => ?_⟩
  have hrcnt := hp.rcnt g
  rw [Pi.zero_apply, add_zero] at hrcnt
  by_cases hg : g = fs
  · subst hg
    simp [hf, hrcnt]
  · simp [hg, hrcnt]

theorem Holding.mountAt_iff (h : Holding k₀ k [mount]) (h₀ : Ready k₀) (hns : Fresh k₀ ns)
    (filesystem : Option Path) (device : Device) (hooks : MountHooks) :
    Undone k₀ ns (mountAt k ns mount filesystem device hooks) ↔
      ¬ ((∃ p, (k₀.layer.vns mount).ns = some p ∧
          (k₀.fsystem (k₀.space p).fs).ops .rstat = true) ∧
        hooks.rstat.err = 0 ∧ hooks.isDir = true ∧
        (∃ name fs, filesystem = some name ∧ findFileSystem k₀ name = some fs) ∧
        Collides k₀ mount device hooks.mount) := by
  have hfsystem : k.fsystem = k₀.fsystem := by rw [h.same]
  have hspace : k.space = k₀.space := by rw [h.same]
  have hfstab : k.fstab = k₀.fstab := by rw [h.same]
  have hstop : ∀ e, e = Stop.outOfVnodes ∨ e = .nullPointer → Undone k₀ ns (.error e) :=
    fun e he => he
  obtain ⟨p, hp, _⟩ := h.registered (h.refs.live_held List.mem_cons_self)
  unfold mountAt callRstat
  rw [hp]
  dsimp only
  by_cases hop : (k.fsystem (k.space p).fs).ops .rstat = true
  swap
  · rw [if_neg hop]
    refine iff_of_true (hstop _ (.inr rfl)) ?_
    rintro ⟨⟨q, hq, hstat⟩, _, _, _, hc⟩
    have hlive := Refs.taken_live h.refs h₀ List.mem_cons_self hc.taken
    rw [← (h.refs.kept mount hlive.pos).1, hp] at hq
    cases hq
    rw [hfsystem, hspace] at hop
    exact hop hstat
  rw [if_pos hop]
  dsimp only [Except.bind]
  have h₁ := h.neutral hooks.rstat.effect k.walks
  by_cases hdir : hooks.rstat.err ≠ 0 ∨ hooks.isDir = false
  · rw [if_pos hdir]
    refine iff_of_true (undone_of_none ((Holding.pending h₁ h₀ ns).error2 h₀ hns)) ?_
    rintro ⟨_, herr, hisDir, _⟩
    rcases hdir with hne | hno
    · exact hne herr
    · rw [hisDir] at hno
      cases hno
  rw [if_neg hdir]
  rw [not_or, not_not, Bool.not_eq_false] at hdir
  cases filesystem with
  | none =>
    unfold incFileSystem
    have hnot : ¬ ∃ name fs, (none : Option Path) = some name ∧
        findFileSystem k₀ name = some fs := by
      rintro ⟨name, fs, hname, _⟩
      cases hname
    dsimp only
    by_cases hempty : k.fstab.all Option.isNone
    · rw [if_pos hempty]
      refine iff_of_true (undone_of_none ((Holding.pending h₁ h₀ ns).error2 h₀ hns)) ?_
      exact fun hall => hnot hall.2.2.2.1
    · rw [if_neg hempty]
      exact iff_of_true (hstop _ (.inr rfl)) fun hall => hnot hall.2.2.2.1
  | some name =>
    have hfind : findFileSystem { k with layer := hooks.rstat.effect.run k.layer } name =
        findFileSystem k₀ name := by
      unfold findFileSystem
      rw [← hfsystem, ← hfstab]
    unfold incFileSystem
    dsimp only
    rw [hfind]
    cases hfs : findFileSystem k₀ name with
    | none =>
      refine iff_of_true (undone_of_none ((Holding.pending h₁ h₀ ns).error2 h₀ hns)) ?_
      rintro ⟨_, _, _, ⟨name', fs, hname, hsome⟩, _⟩
      cases hname
      rw [hfs] at hsome
      cases hsome
    | some fs =>
      dsimp only
      rw [(Holding.counted h₁ h₀ ns fs rfl).mountSpace_iff h₀ hns device hooks]
      refine not_congr ⟨fun hc => ⟨⟨p, ?_, ?_⟩, hdir.1, hdir.2, ⟨name, fs, rfl, hfs⟩, hc⟩,
        fun hall => hall.2.2.2.2⟩
      · have hlive := Refs.taken_live h.refs h₀ List.mem_cons_self hc.taken
        rw [← (h.refs.kept mount hlive.pos).1]
        exact hp
      · rw [← hfsystem, ← hspace]
        exact hop

end Call

/-- A failed mount is undone and the lock is handled well, unless the mount point turns out to
be taken when the file system is mounted already. -/
theorem failed_mount_undone_iff {k : Kernel} {ns : ℕ} (h₀ : PathWalk.Ready k) (hns : Fresh k ns)
    (filesystem : Option Path) (fd : ℤ) (path : Option Path) (device : Device)
    (hooks : MountHooks) :
    Undone k ns (sysMount k ns filesystem fd path device hooks) ↔
      ¬ Overmounts k filesystem fd path device hooks := by
  unfold Overmounts
  by_cases hdev : device = .missing
  · subst hdev
    refine iff_of_true ⟨h₀.unlocked, fun _ => ?_⟩ fun h => h.1 rfl
    exact ⟨rfl, rfl, fun _ _ => rfl, fun _ => rfl, fun _ _ => rfl, fun _ => rfl,
      fun v hv => Sound.registered_ne h₀.sound hns.nstab hv⟩
  have hcall : sysMount k ns filesystem fd path device hooks =
      (getFileFd k true fd path true).bind fun (res, k) =>
        match res with
        | .error _ => .ok (none, k)
        | .ok mount => mountAt k ns mount filesystem device hooks := by
    cases device with
    | absent => rfl
    | missing => exact absurd rfl hdev
    | node dev ino => rfl
  have hfirst := getFileFd_ends (S := fun e => e = Stop.outOfVnodes ∨ e = .nullPointer) (.inl rfl)
    h₀.holding h₀ h₀.few_nil true fd path true
  rw [hcall]
  rcases hget : getFileFd k true fd path true with e | ⟨e | mount, k₁⟩
  · rw [hget] at hfirst
    refine iff_of_true hfirst ?_
    rintro ⟨_, _, _, hok, _⟩
    cases hok
  · rw [hget] at hfirst
    have h₁ : Holding k k₁ [] := hfirst.2
    refine iff_of_true ⟨(h₁.ready h₀).unlocked, fun _ => ?_⟩ ?_
    · have hsame := Holding.unchanged h₁ h₀
      refine ⟨hsame.nstab, hsame.nshead, fun p _ => by rw [hsame.space], fun f => by rw [h₁.same],
        hsame.mounted, hsame.rcnt, fun v hv => ?_⟩
      exact Sound.registered_ne h₁.refs.sound (by rw [hsame.nstab]; exact hns.nstab) hv
    · rintro ⟨_, _, _, hok, _⟩
      cases hok
  · rw [hget] at hfirst
    have h₁ : Holding k k₁ [mount] := hfirst
    dsimp only [Except.bind]
    rw [Holding.mountAt_iff h₁ h₀ hns filesystem device hooks]
    refine not_congr ⟨fun hall => ⟨hdev, mount, k₁, rfl, hall⟩, ?_⟩
    rintro ⟨_, mount', k', hok, hall⟩
    cases hok
    exact hall

/-- The root file system alone; vnode 0 is its root and the current directory. One slot of the
table of name spaces is free. -/
def rootLayer : Layer :=
  TransitionTrace.runTrace VnodeLayer.next
    (initVnodeLayer (2 ^ 18) (fun | 1 => some 0 | _ => none) freshSpaces)
    [.new 1 1 10 0, .inc 0]

def rootKernel : Kernel where
  layer := rootLayer
  vnlock := false
  rootvn := 0
  cwd := 0
  space _ := ⟨0, some 0, none, -1, -1, none, none⟩
  nshead := some 0
  nxnsid := 2
  fsystem _ := ⟨1, [114], true, 2, fun _ => true⟩
  fstab := [none, some 0]
  files _ := ⟨DescriptorTable.newFds 4, fun _ => ⟨0, 0, 0, 0⟩, []⟩
  walks _ := ⟨idle, none, .found 1 0 10 ⟨0, Nat.succ_pos maxLevel⟩⟩

theorem rootLayer_sound : Sound rootLayer := by
  have hempty : ∀ p, (freshSpaces p).vnodes = ⟨none, none⟩ := by
    intro p
    cases p <;> rfl
  have hinit := init_sound (show 2 ^ 17 ≤ 2 ^ 18 by norm_num) (fun | 1 => some 0 | _ => none) hempty
  have h₁ := next_sound hinit (e := .new 1 1 10 0) (by decide +kernel) trivial
  exact next_sound h₁ (e := .inc 0) (by decide +kernel) trivial

theorem rootLayer_fitsInt : FitsInt rootLayer := by
  unfold FitsInt
  decide +kernel

theorem rootKernel_ready : PathWalk.Ready rootKernel := by
  have hlive : Live rootLayer 0 := by
    have hzero : 0 < rootLayer.vnnum ∧ 0 < (rootLayer.vns 0).rcnt := by decide +kernel
    exact ⟨hzero.1, hzero.2⟩
  have hnone : ∀ v < rootLayer.vnnum, (rootLayer.vns v).mounted = none := by decide +kernel
  refine ⟨⟨rootLayer_sound, rfl, hlive, hlive, fun v ns hm hv => ?_, fun ns _ root hroot => ?_,
    fun ns _ mount hm => ?_, fun ns _ _ root hroot => ?_, fun kernel i f _ hf => ?_⟩,
    rootLayer_fitsInt⟩
  · have := (hnone v hv).symm.trans hm
    cases this
  · cases hroot
    exact hlive
  · cases hm
  · cases hroot
    rfl
  · cases hf

theorem rootKernel_fresh : Fresh rootKernel 1 := by
  refine ⟨fun i => ?_, [0], ⟨⟨rfl, rfl, trivial⟩, rfl, by decide⟩, by decide⟩
  change (fun | 1 => some 0 | _ => none : ℕ → Option ℕ) i ≠ some 1
  dsimp only
  split <;> simp

/-- The mount hook enters nothing but the root. -/
def idleMount : Quiet := ⟨idle, fun _ _ _ _ h => h⟩

/-- A second root file system, which its hook does not mount. -/
def refusingHooks : MountHooks := ⟨⟨idle, 0⟩, true, .fails idleMount, idle⟩

theorem failed_mount_undone_refused :
    Undone rootKernel 1 (sysMount rootKernel 1 (some [114]) (-1) (some [47]) .absent
      refusingHooks) := by
  refine (failed_mount_undone_iff rootKernel_ready rootKernel_fresh _ _ _ _ _).mpr ?_
  rintro ⟨_, _, _, _, _, _, _, _, hc⟩
  obtain ⟨_, _, _, _, _, hne⟩ := hc.mounts
  cases hne

/-- A second root file system, with vnode id 1 for its root. -/
def mountingHooks : MountHooks :=
  ⟨⟨idle, 0⟩, true, .mounts idleMount 1 5 20 ⟨0, Nat.succ_pos maxLevel⟩, idle⟩

/-- A mount on `/` takes the lock a second time. -/
theorem mount_on_root_locks_twice :
    PathWalk.Ready rootKernel ∧ Fresh rootKernel 1 ∧
      (sysMount rootKernel 1 (some [114]) (-1) (some [47]) .absent mountingHooks).map
        (fun _ => ()) = .error .lockedTwice ∧
      ¬ Undone rootKernel 1 (sysMount rootKernel 1 (some [114]) (-1) (some [47]) .absent
        mountingHooks) := by
  have hrun : (sysMount rootKernel 1 (some [114]) (-1) (some [47]) .absent mountingHooks).map
      (fun _ => ()) = .error .lockedTwice := by
    decide +kernel
  refine ⟨rootKernel_ready, rootKernel_fresh, hrun, fun hu => ?_⟩
  rcases hr : sysMount rootKernel 1 (some [114]) (-1) (some [47]) .absent mountingHooks with e | r
  · rw [hr] at hrun hu
    simp only [Except.map, Except.error.injEq] at hrun
    rw [hrun] at hu
    rcases hu with hu | hu <;> cases hu
  · rw [hr] at hrun
    cases hrun

end FailedMount
