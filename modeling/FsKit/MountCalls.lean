import Mathlib.Tactic
import FsKit.PathCalls

/-! Mounting and unmounting (`kernel.c`). Both calls look up their path as the kernel does. -/
namespace MountCalls

open FallibleRuns LinkedList SkipListSet VnodeRegistry VnodeTable VnodeCounts PathWalk PathCalls
open VnodeLayer hiding incVnode decVnode
open DescriptorTable (EMFILE)

def EBUSY : ℤ := 16
def ENOTDIR : ℤ := 20

/-- The walk over the vnodes of a name space that looks for one in use. -/
def anyInUse (s : Layer) : ℕ → Option ℕ → Except Stop Bool
  | _, none => .ok false
  | 0, some _ => .error .unfinished
  | fuel + 1, some vn =>
    if (s.vns vn).busy ∨ (s.vns vn).intRcnt ≠ 0 then .ok true
    else anyInUse s fuel (s.nspace.next vn)

def markBusy (s : Layer) : ℕ → Option ℕ → Except Stop Layer
  | _, none => .ok s
  | 0, some _ => .error .unfinished
  | fuel + 1, some vn =>
    markBusy (setVnode s vn fun v => { v with busy := true }) fuel (s.nspace.next vn)

/-- The vnodes of a name space are released, from the front of its list. -/
def releaseAll (ns : ℕ) : ℕ → Layer → Except Stop Layer
  | 0, s => if (s.spaces ns).vnodes.head = none then .ok s else .error .unfinished
  | fuel + 1, s =>
    match (s.spaces ns).vnodes.head with
    | none => .ok s
    | some vn =>
      let s := record s
        (.releaseVnode (s.spaces ns).nsid (s.vns vn).vnid (s.vns vn).data false)
      let s := setVnode s vn fun v => { v with busy := false }
      match clearVnode s vn with
      | .error h => .error (.layer h)
      | .ok s => releaseAll ns fuel (moveVnode s vn .free)

def setSpace (k : Kernel) (ns : ℕ) (f : Space → Space) : Kernel :=
  { k with space := Function.update k.space ns (f (k.space ns)) }

/-- Takes a name space out of the list of all and out of the table. -/
def dropSpace (k : Kernel) (ns : ℕ) : Kernel :=
  let prev := (k.space ns).prev
  let next := (k.space ns).next
  let slot := (k.layer.spaces ns).nsid % k.layer.nns
  let k := match prev with
    | some p => setSpace k p fun x => { x with next := next }
    | none => { k with nshead := next }
  let k := match next with
    | some n => setSpace k n fun x => { x with prev := prev }
    | none => k
  { k with layer := { k.layer with nstab := Function.update k.layer.nstab slot none } }

def decFileSystem (k : Kernel) (fs : ℕ) : Kernel :=
  let f := { k.fsystem fs with rcnt := (k.fsystem fs).rcnt - 1 }
  let k := { k with fsystem := Function.update k.fsystem fs f }
  if f.fixed = false ∧ f.rcnt = 0 then
    { k with fstab := k.fstab.set (f.fsid % k.fstab.length) none }
  else k

/-- The name space is taken off its mount point and shut down. What the log shows are the two
references to the root that are dropped. -/
def beginUnload (s : Layer) (root ns mount : ℕ) : Layer :=
  let o := Obs.putting (s.spaces ns).nsid (s.vns root).vnid
  let s := setVnode (record (record s o) o) mount fun v => { v with mounted := none }
  { s with spaces := Function.update s.spaces ns { s.spaces ns with shutdown := true } }

def unload (s : Layer) (ns : ℕ) : Except Stop Layer :=
  (markBusy s s.vnnum (s.spaces ns).vnodes.head).bind fun s => releaseAll ns s.vnnum s

/-- An unmount that is not refused, from the point where the count of the root is two lower.
When the `unmount` hook is called no vnode is left. -/
def unmountSpace (k : Kernel) (root ns : ℕ) : Returned :=
  match (k.space ns).mount with
  | none => .error .nullPointer
  | some mount =>
    (unload (beginUnload k.layer root ns mount) ns).bind fun s =>
      let k := unlock (dropSpace { k with layer := s } ns)
      let k := decFileSystem k (k.space ns).fs
      (PathWalk.decVnode k mount false).map fun k => (0, k)

def sysUnmount (k : Kernel) (fd : ℤ) (path : Option Path) : Returned :=
  (getFileFd k true fd path true).bind fun (res, k) =>
    match res with
    | .error err => .ok (err, k)
    | .ok root =>
      (lock k).bind fun k =>
        match (k.layer.vns root).ns with
        | none => .error .nullPointer
        | some ns =>
          if (k.space ns).root ≠ some root then .ok (EINVAL, unlock k)
          else if root = k.rootvn then .ok (EBUSY, unlock k)
          else
            let s := setVnode k.layer root fun v => { v with rcnt := v.rcnt - 2 }
            (anyInUse s s.vnnum (s.spaces ns).vnodes.head).bind fun inUse =>
              if inUse then
                let s := setVnode s root fun v => { v with rcnt := v.rcnt + 1 }
                let o := Obs.putting (s.spaces ns).nsid (s.vns root).vnid
                .ok (EBUSY, unlock { k with layer := record s o })
              else unmountSpace { k with layer := s } root ns

section Walks
variable {s : Layer} {p : Option ℕ} {xs : List ℕ} {fuel : ℕ}

theorem anyInUse_eq (h : Linked s.nspace p xs none) (hlen : xs.length ≤ fuel) :
    anyInUse s fuel xs.head? =
      .ok (xs.any fun v => (s.vns v).busy ∨ (s.vns v).intRcnt ≠ 0) := by
  induction xs generalizing p fuel with
  | nil => cases fuel <;> rfl
  | cons x xs ih =>
    cases fuel with
    | zero => simp at hlen
    | succ fuel =>
      obtain ⟨_, hnext, hrest⟩ := h
      rw [Option.or_none] at hnext
      rw [List.head?_cons, anyInUse, hnext, List.any_cons]
      split
      · rename_i hx
        rw [decide_eq_true hx]
        rfl
      · rename_i hx
        rw [decide_eq_false hx, Bool.false_or]
        exact ih hrest (by simpa using hlen)

/-- Only the marks of the vnodes differ. -/
structure SameButBusy (s s' : Layer) : Prop where
  vnnum : s'.vnnum = s.vnnum
  nspace : s'.nspace = s.nspace
  spaces : s'.spaces = s.spaces
  list : s'.list = s.list
  lists : s'.lists = s.lists
  vns : ∀ v, ∃ b, s'.vns v = { s.vns v with busy := b }

theorem markBusy_returns (h : Linked s.nspace p xs none) (hlen : xs.length ≤ fuel) :
    ∃ s', markBusy s fuel xs.head? = .ok s' ∧ SameButBusy s s' := by
  induction xs generalizing p fuel s with
  | nil => exact ⟨s, by cases fuel <;> rfl, rfl, rfl, rfl, rfl, rfl, fun v => ⟨(s.vns v).busy, rfl⟩⟩
  | cons x xs ih =>
    cases fuel with
    | zero => simp at hlen
    | succ fuel =>
      obtain ⟨_, hnext, hrest⟩ := h
      rw [Option.or_none] at hnext
      rw [List.head?_cons, markBusy, hnext]
      obtain ⟨s', hmark, hs'⟩ := ih (s := setVnode s x fun v => { v with busy := true }) hrest
        (by simpa using hlen)
      refine ⟨s', hmark, hs'.vnnum, hs'.nspace, hs'.spaces, hs'.list, hs'.lists, fun v => ?_⟩
      obtain ⟨b, hb⟩ := hs'.vns v
      refine ⟨b, ?_⟩
      rw [hb, setVnode_vns]
      by_cases hv : v = x
      · rw [hv, Function.update_self]
      · rw [Function.update_of_ne hv]

end Walks

/-- A name space is being unloaded, so many of its vnodes are left. -/
structure Unloading (s : Layer) (ns : ℕ) (xs : List ℕ) : Prop where
  lists : Lists s
  list : IsList s.nspace (s.spaces ns).vnodes xs
  named : ∀ v ∈ xs, v < s.vnnum ∧ (s.vns v).ns = some ns
  used : ∀ v < s.vnnum, (s.vns v).inlist = .used → (s.vns v).ns ≠ none

section Unload
variable {s s' : Layer} {vn ns : ℕ} {xs : List ℕ}

theorem Unloading.congr (h : Unloading s ns xs) (hnum : s'.vnnum = s.vnnum)
    (hnspace : s'.nspace = s.nspace) (hvnodes : (s'.spaces ns).vnodes = (s.spaces ns).vnodes)
    (hlist : s'.list = s.list) (hlists : s'.lists = s.lists)
    (hv : ∀ v, (s'.vns v).ns = (s.vns v).ns ∧ (s'.vns v).inlist = (s.vns v).inlist) :
    Unloading s' ns xs := by
  refine ⟨h.lists.congr hlist hlists hnum fun v => (hv v).2, ?_, fun v hx => ?_,
    fun v hlt hin => ?_⟩
  · rw [hnspace, hvnodes]
    exact h.list
  · rw [hnum, (hv v).1]
    exact h.named v hx
  · rw [(hv v).1]
    rw [(hv v).2] at hin
    exact h.used v (by rw [← hnum]; exact hlt) hin

theorem Unloading.length_le (h : Unloading s ns xs) : xs.length ≤ s.vnnum := by
  have hsub : xs ⊆ List.range s.vnnum := fun v hv => List.mem_range.mpr (h.named v hv).1
  have := (h.list.nodup.subperm hsub).length_le
  rwa [List.length_range] at this

/-- One round of the loop: the first vnode of the list is cleared. -/
theorem Unloading.clear (h : Unloading s ns (vn :: xs)) :
    ∃ s', clearVnode s vn = .ok s' ∧ Unloading (moveVnode s' vn .free) ns xs ∧
      s'.vnnum = s.vnnum ∧ ∀ v, v ≠ vn → s'.vns v = s.vns v := by
  obtain ⟨hlt, hns⟩ := h.named vn List.mem_cons_self
  have hout := (List.nodup_cons.mp h.list.nodup).1
  have hsplit : IsList s.nspace (s.spaces ns).vnodes ([] ++ vn :: xs) := h.list
  have hrest := unlink_isList hsplit
  have hoth : ∀ s', clearVnode s vn = .ok s' → ∀ v, v ≠ vn → s'.vns v = s.vns v := by
    intro s' hs' v hv
    rw [(clearVnode_vns hs').1, Function.update_of_ne hv]
  unfold clearVnode at hoth ⊢
  rw [hns] at hoth ⊢
  dsimp only at hoth ⊢
  generalize unlink s.nspace (s.spaces ns).vnodes vn = cut at hrest hoth ⊢
  obtain ⟨links, ends⟩ := cut
  dsimp only at hrest hoth ⊢
  have hkept := hoth _ rfl
  refine ⟨_, rfl, ?_, rfl, hkept⟩
  generalize hs' : setVnode (setSpaceVnodes _ ns ends) vn _ = s' at hkept ⊢
  have hnum : s'.vnnum = s.vnnum := by rw [← hs']; rfl
  have hlist : s'.list = s.list := by rw [← hs']; rfl
  have hlists : s'.lists = s.lists := by rw [← hs']; rfl
  have hnspace : s'.nspace = (links.setNext vn none).setPrev vn none := by rw [← hs']; rfl
  have hvnodes : (s'.spaces ns).vnodes = ends := by
    rw [← hs']
    simp [setVnode, setSpaceVnodes]
  have hinl : (s'.vns vn).inlist = (s.vns vn).inlist := by
    rw [← hs', setVnode_vns, Function.update_self]
    rfl
  have hsame : ∀ v, (s'.vns v).inlist = (s.vns v).inlist := by
    intro v
    by_cases hv : v = vn
    · rw [hv, hinl]
    · rw [hkept v hv]
  have hl := h.lists.congr hlist hlists hnum hsame
  have hmove : ∀ v, v ≠ vn → (moveVnode s' vn .free).vns v = s.vns v := by
    intro v hv
    rw [moveVnode_vns, Function.update_of_ne hv, hkept v hv]
  refine ⟨hl.move (by rw [hnum]; exact hlt) .free, ?_, fun v hx => ?_, fun v hv hin => ?_⟩
  · change IsList s'.nspace (s'.spaces ns).vnodes xs
    rw [hnspace, hvnodes]
    refine hrest.congr fun x hx => ?_
    have hne : x ≠ vn := by
      rintro rfl
      exact hout hx
    simp [Links.setNext_next, Links.setPrev_prev, hne]
  · have hne : v ≠ vn := by
      rintro rfl
      exact hout hx
    rw [hmove v hne]
    obtain ⟨h₁, h₂⟩ := h.named v (List.mem_cons_of_mem vn hx)
    exact ⟨by change v < s'.vnnum; rw [hnum]; exact h₁, h₂⟩
  · have hne : v ≠ vn := by
      rintro rfl
      rw [moveVnode_vns, Function.update_self] at hin
      cases hin
    rw [hmove v hne] at hin ⊢
    exact h.used v (by rw [← hnum]; exact hv) hin

theorem releaseAll_returns {fuel : ℕ} (h : Unloading s ns xs) (hlen : xs.length ≤ fuel) :
    ∃ s', releaseAll ns fuel s = .ok s' ∧ Unloading s' ns [] ∧ s'.vnnum = s.vnnum ∧
      ∀ v, v ∉ xs → s'.vns v = s.vns v := by
  induction xs generalizing s fuel with
  | nil =>
    have hnone : (s.spaces ns).vnodes.head = none := h.list.head
    refine ⟨s, ?_, h, rfl, fun _ _ => rfl⟩
    cases fuel with
    | zero => rw [releaseAll, if_pos hnone]
    | succ fuel => rw [releaseAll, hnone]
  | cons x xs ih =>
    cases fuel with
    | zero => simp at hlen
    | succ fuel =>
      have hhead : (s.spaces ns).vnodes.head = some x := h.list.head
      rw [releaseAll, hhead]
      dsimp only
      generalize hs₁ : setVnode (record s _) x (fun v => { v with busy := false }) = s₁
      have hoth : ∀ v, v ≠ x → s₁.vns v = s.vns v := by
        intro v hv
        rw [← hs₁, setVnode_vns, Function.update_of_ne hv]
        rfl
      have h₁ : Unloading s₁ ns (x :: xs) := by
        refine h.congr (by rw [← hs₁]; rfl) (by rw [← hs₁]; rfl) (by rw [← hs₁]; rfl)
          (by rw [← hs₁]; rfl) (by rw [← hs₁]; rfl) fun v => ?_
        by_cases hv : v = x
        · rw [hv, ← hs₁, setVnode_vns, Function.update_self]
          exact ⟨rfl, rfl⟩
        · rw [hoth v hv]
          exact ⟨rfl, rfl⟩
      have hnum₁ : s₁.vnnum = s.vnnum := by rw [← hs₁]; rfl
      obtain ⟨s₂, hclear, h₂, hnum₂, hoth₂⟩ := h₁.clear
      rw [hclear]
      dsimp only
      obtain ⟨s', hrel, h', hnum', hoth'⟩ := ih h₂ (by simpa using hlen)
      refine ⟨s', hrel, h', (hnum'.trans hnum₂).trans hnum₁, fun v hv => ?_⟩
      rw [List.mem_cons, not_or] at hv
      obtain ⟨hvx, hvxs⟩ := hv
      rw [hoth' v hvxs, moveVnode_vns, Function.update_of_ne hvx, hoth₂ v hvx, hoth v hvx]

theorem set_ns {f : Vnode → Vnode} (hf : ∀ v, (f v).ns = v.ns) (w v : ℕ) :
    ((setVnode s w f).vns v).ns = (s.vns v).ns := by
  rw [setVnode_vns]
  by_cases hv : v = w
  · rw [hv, Function.update_self, hf]
  · rw [Function.update_of_ne hv]

theorem clearVnode_returns (h : (s.vns vn).ns ≠ none) : ∃ s', clearVnode s vn = .ok s' := by
  obtain ⟨p, hp⟩ := Option.ne_none_iff_exists'.mp h
  unfold clearVnode
  rw [hp]
  exact ⟨_, rfl⟩

theorem flushVnode_returns (h : (s.vns vn).ns ≠ none) (r : Bool) :
    ∃ s', flushVnode s vn r = .ok s' := by
  obtain ⟨p, hp⟩ := Option.ne_none_iff_exists'.mp h
  unfold flushVnode
  rw [hp]
  refine clearVnode_returns ?_
  rw [set_ns (f := fun v => { v with busy := false }) fun _ => rfl]
  change ((setVnode s vn fun v => { v with busy := true }).vns vn).ns ≠ none
  rw [set_ns (f := fun v => { v with busy := true }) fun _ => rfl]
  exact h

theorem disposeRemoved_returns (h : (s.vns vn).ns ≠ none) (r : Bool) :
    ∃ s', disposeRemoved s vn r = .ok s' := by
  obtain ⟨p, hp⟩ := Option.ne_none_iff_exists'.mp h
  unfold disposeRemoved
  rw [hp]
  dsimp only
  generalize hs₁ : record (moveVnode (setVnode s vn fun v => { v with busy := true }) vn .locked)
    _ = s₁
  have hns : (s₁.vns vn).ns ≠ none := by
    rw [← hs₁]
    change ((moveVnode (setVnode s vn fun v => { v with busy := true }) vn .locked).vns vn).ns ≠ _
    rw [(moveVnode_alike _ vn .locked vn).ns,
      set_ns (f := fun v => { v with busy := true }) fun _ => rfl]
    exact h
  obtain ⟨s₂, hs₂⟩ := clearVnode_returns hns
  rw [hs₂]
  exact ⟨_, rfl⟩

/-- Dropping a reference needs no more of the tables than that the vnodes in the used list
have a name space. -/
theorem decVnode_returns (hl : Lists s) (hvn : vn < s.vnnum) (hns : (s.vns vn).ns ≠ none)
    (hused : ∀ v < s.vnnum, (s.vns v).inlist = .used → (s.vns v).ns ≠ none) (r : Bool) :
    ∃ s', VnodeLayer.decVnode s vn r = .ok s' := by
  have hfields : ∀ v, ((setVnode s vn fun v => { v with rcnt := v.rcnt - 1 }).vns v).ns =
      (s.vns v).ns ∧ ((setVnode s vn fun v => { v with rcnt := v.rcnt - 1 }).vns v).inlist =
      (s.vns v).inlist := by
    intro v
    refine ⟨set_ns (f := fun v => { v with rcnt := v.rcnt - 1 }) (fun _ => rfl) vn v, ?_⟩
    rw [setVnode_vns]
    by_cases hv : v = vn
    · rw [hv, Function.update_self]
    · rw [Function.update_of_ne hv]
  have hl₁ : Lists (setVnode s vn fun v => { v with rcnt := v.rcnt - 1 }) :=
    hl.congr rfl rfl rfl fun v => (hfields v).2
  have hnum : (setVnode s vn fun v => { v with rcnt := v.rcnt - 1 }).vnnum = s.vnnum := rfl
  unfold VnodeLayer.decVnode
  dsimp only
  generalize setVnode s vn (fun v => { v with rcnt := v.rcnt - 1 }) = s₁ at *
  split
  swap
  · exact ⟨s₁, rfl⟩
  split
  · refine disposeRemoved_returns ?_ r
    rw [(hfields vn).1]
    exact hns
  unfold keepUsed
  dsimp only
  have hl₂ := hl₁.move (by rw [hnum]; exact hvn) .used
  have hinl : ((moveVnode s₁ vn .used).vns vn).inlist = .used := by
    rw [moveVnode_vns, Function.update_self]
  have hnum₂ : (moveVnode s₁ vn .used).vnnum = s.vnnum := hnum
  have hused₂ : ∀ v < s.vnnum, ((moveVnode s₁ vn .used).vns v).inlist = .used →
      ((moveVnode s₁ vn .used).vns v).ns ≠ none := by
    intro v hv hin
    rw [(moveVnode_alike s₁ vn .used v).ns, (hfields v).1]
    by_cases hvv : v = vn
    · rw [hvv]
      exact hns
    · rw [moveVnode_vns, Function.update_of_ne hvv, (hfields v).2] at hin
      exact hused v hv hin
  generalize moveVnode s₁ vn .used = s₂ at *
  split
  swap
  · exact ⟨s₂, rfl⟩
  cases hh : (s₂.lists .used).ends.head with
  | none => exact absurd hinl (hl₂.head_none hh (by rw [hnum₂]; exact hvn))
  | some ovn =>
    rw [stealVnode_some hh]
    obtain ⟨hlt, hin⟩ := hl₂.head_some hh
    obtain ⟨s₃, hs₃⟩ := flushVnode_returns (s := moveVnode s₂ ovn .locked) (by
      rw [(moveVnode_alike s₂ ovn .locked ovn).ns]
      exact hused₂ ovn (by rw [← hnum₂]; exact hlt) hin) r
    dsimp only
    rw [hs₃]
    exact ⟨_, rfl⟩

theorem unmountSpace_zero {k k' : Kernel} {root : ℕ} {err : ℤ}
    (h : unmountSpace k root ns = .ok (err, k')) : err = 0 := by
  have hz : Ends (fun _ => True) (fun r => r.1 = 0) (unmountSpace k root ns) := by
    unfold unmountSpace
    cases (k.space ns).mount with
    | none => trivial
    | some mount =>
      have hany : ∀ {α : Type} (x : Except Stop α), Ends (fun _ => True) (fun _ => True) x :=
        fun x => by cases x <;> trivial
      exact (hany _).bind fun _ _ => (hany _).map fun _ _ => rfl
  exact hz.of_ok h

/-- The tables that `dropSpace` leaves. -/
theorem dropSpace_layer (k : Kernel) (ns : ℕ) : ∃ nstab,
    (dropSpace k ns).layer = { k.layer with nstab := nstab } ∧
      (dropSpace k ns).vnlock = k.vnlock := by
  unfold dropSpace
  cases (k.space ns).prev <;> cases (k.space ns).next <;> exact ⟨_, rfl, rfl⟩

theorem decFileSystem_layer (k : Kernel) (fs : ℕ) :
    (decFileSystem k fs).layer = k.layer ∧ (decFileSystem k fs).vnlock = k.vnlock := by
  unfold decFileSystem
  dsimp only
  split <;> exact ⟨rfl, rfl⟩

theorem Unloading.begin (h : Unloading s ns xs) (root mount : ℕ) :
    Unloading (beginUnload s root ns mount) ns xs := by
  refine h.congr rfl rfl ?_ rfl rfl fun v => ?_
  · unfold beginUnload
    dsimp only
    rw [Function.update_self]
    rfl
  · change ((setVnode s mount fun v => { v with mounted := none }).vns v).ns = _ ∧
      ((setVnode s mount fun v => { v with mounted := none }).vns v).inlist = _
    rw [setVnode_vns]
    by_cases hv : v = mount
    · rw [hv, Function.update_self]
      exact ⟨rfl, rfl⟩
    · rw [Function.update_of_ne hv]
      exact ⟨rfl, rfl⟩

theorem unload_returns (h : Unloading s ns xs) :
    ∃ s', unload s ns = .ok s' ∧ Unloading s' ns [] ∧ s'.vnnum = s.vnnum ∧
      ∀ v, v ∉ xs → (s'.vns v).ns = (s.vns v).ns := by
  obtain ⟨s₁, hmark, hsame⟩ := markBusy_returns h.list.linked h.length_le
  rw [← h.list.head] at hmark
  have h₁ : Unloading s₁ ns xs := by
    refine h.congr hsame.vnnum hsame.nspace (by rw [hsame.spaces]) hsame.list hsame.lists
      fun v => ?_
    obtain ⟨b, hb⟩ := hsame.vns v
    rw [hb]
    exact ⟨rfl, rfl⟩
  obtain ⟨s₂, hrel, h₂, hnum, hoth⟩ := releaseAll_returns h₁ h₁.length_le
  refine ⟨s₂, ?_, h₂, hnum.trans hsame.vnnum, fun v hv => ?_⟩
  · unfold unload
    rw [hmark]
    exact hrel
  · obtain ⟨b, hb⟩ := hsame.vns v
    rw [hoth v hv, hb]

/-- Once it is clear that no vnode is in use, the unmount goes through. -/
theorem unmountSpace_returns {k : Kernel} {root mount : ℕ} (h : Unloading k.layer ns xs)
    (hmount : (k.space ns).mount = some mount) (hin : mount < k.layer.vnnum)
    (hns : (k.layer.vns mount).ns ≠ none) (hout : mount ∉ xs) :
    ∃ k', unmountSpace k root ns = .ok (0, k') := by
  unfold unmountSpace
  rw [hmount]
  dsimp only
  have hbegin : ((beginUnload k.layer root ns mount).vns mount).ns = (k.layer.vns mount).ns :=
    set_ns (f := fun v => { v with mounted := none }) (fun _ => rfl) mount mount
  obtain ⟨s, hun, hs, hnum, hoth⟩ := unload_returns (h.begin root mount)
  rw [hun]
  dsimp only [Except.bind]
  have hns' : (s.vns mount).ns ≠ none := by
    rw [hoth mount hout, hbegin]
    exact hns
  have hin' : mount < s.vnnum := by
    rw [hnum]
    exact hin
  obtain ⟨nstab, hl, _⟩ := dropSpace_layer { k with layer := s } ns
  generalize dropSpace { k with layer := s } ns = k₁ at hl ⊢
  obtain ⟨hl', hlock⟩ := decFileSystem_layer (unlock k₁) ((unlock k₁).space ns).fs
  generalize decFileSystem (unlock k₁) ((unlock k₁).space ns).fs = k₂ at hl' hlock ⊢
  have hl₂ : k₂.layer = { s with nstab := nstab } := hl'.trans hl
  -- what is left of the tables is enough to drop the reference to the mount point
  obtain ⟨s', hs'⟩ := decVnode_returns
    (s := record k₂.layer (.putting (nsidOf k₂.layer mount) (k₂.layer.vns mount).vnid))
    (by rw [hl₂]; exact hs.lists.congr rfl rfl rfl fun _ => rfl) (by rw [hl₂]; exact hin')
    (by rw [hl₂]; exact hns') (by rw [hl₂]; exact hs.used) false
  unfold PathWalk.decVnode lock
  rw [hlock, if_neg (by simp [unlock])]
  dsimp only [Except.bind]
  rw [hs']
  exact ⟨_, rfl⟩

end Unload

/-- The path is resolved to a vnode that is not the root of its name space, or to the root of
the root file system. -/
def WrongRoot (k : Kernel) (fd : ℤ) (path : Option Path) : Prop :=
  ∃ root k₁, getFileFd k true fd path true = .ok (.ok root, k₁) ∧ (root = k.rootvn ∨
    ∀ ns, (k₁.layer.vns root).ns = some ns → (k.space ns).root ≠ some root)

/-- Nobody but its mount refers to anything in the name space of the root. -/
def Unmountable (k : Kernel) (root : ℕ) : Prop :=
  ∃ ns, (k.layer.vns root).ns = some ns ∧ (k.space ns).root = some root ∧ root ≠ k.rootvn ∧
    (k.layer.vns root).rcnt = 1 ∧
    ∀ v < k.layer.vnnum, v ≠ root → (k.layer.vns v).ns = some ns → (k.layer.vns v).rcnt = 0

section Unmount
variable {k k₁ : Kernel} {root ns : ℕ} {fd : ℤ} {path : Option Path}

theorem resolved_holding (h₀ : Ready k)
    (hget : getFileFd k true fd path true = .ok (.ok root, k₁)) : Holding k k₁ [root] :=
  (getFileFd_ends (S := fun _ => True) trivial h₀.holding h₀ h₀.few_nil true fd path
    true).of_ok hget

/-- The call after the path has been resolved. -/
theorem sysUnmount_resolved (h₀ : Ready k)
    (hget : getFileFd k true fd path true = .ok (.ok root, k₁))
    (hns : (k₁.layer.vns root).ns = some ns) :
    sysUnmount k fd path =
      if (k₁.space ns).root ≠ some root then .ok (EINVAL, k₁)
      else if root = k₁.rootvn then .ok (EBUSY, k₁)
      else
        let s := setVnode k₁.layer root fun v => { v with rcnt := v.rcnt - 2 }
        (anyInUse s s.vnnum (s.spaces ns).vnodes.head).bind fun inUse =>
          if inUse then
            let s := setVnode s root fun v => { v with rcnt := v.rcnt + 1 }
            let o := Obs.putting (s.spaces ns).nsid (s.vns root).vnid
            .ok (EBUSY, { k₁ with layer := record s o })
          else unmountSpace { { k₁ with vnlock := true } with layer := s } root ns := by
  have h₁ := (resolved_holding h₀ hget).usable h₀
  have hun : unlock { k₁ with vnlock := true } = k₁ := unlock_eq h₁.unlocked k₁.layer
  unfold sysUnmount
  rw [hget]
  dsimp only [Except.bind]
  rw [lock_eq h₁.unlocked]
  dsimp only
  rw [hns]
  simp only [hun, unlock_eq h₁.unlocked]

/-- The wrong roots keep the reference of the path lookup. -/
theorem sysUnmount_leaks (h₀ : Ready k) (h : WrongRoot k fd path) :
    ∃ root err k', sysUnmount k fd path = .ok (err, k') ∧ err ≠ 0 ∧ Holding k k' [root] := by
  obtain ⟨root, k₁, hget, hwrong⟩ := h
  have h₁ := resolved_holding h₀ hget
  obtain ⟨ns, hns, _⟩ := h₁.registered (h₁.refs.live_held List.mem_cons_self)
  rw [sysUnmount_resolved h₀ hget hns]
  have hspace : k₁.space = k.space := by rw [h₁.same]
  have hroot : k₁.rootvn = k.rootvn := by rw [h₁.same]
  rw [hspace, hroot]
  by_cases hne : (k.space ns).root ≠ some root
  · exact ⟨root, EINVAL, k₁, by rw [if_pos hne], by decide, h₁⟩
  · rw [if_neg hne]
    refine ⟨root, EBUSY, k₁, ?_, by decide, h₁⟩
    rw [if_pos (hwrong.resolve_right fun h => hne (h ns hns))]

/-- The count of a root that is found busy ends where it was before the lookup. -/
theorem busy_change (h₀ : Ready k) (h₁ : Holding k k₁ [root])
    (hns : (k₁.layer.vns root).ns = some ns) (hroot : (k.space ns).root = some root) :
    Change k₁.layer
      (record (setVnode (setVnode k₁.layer root fun v => { v with rcnt := v.rcnt - 2 }) root
        fun v => { v with rcnt := v.rcnt + 1 })
        (.putting (k₁.layer.spaces ns).nsid (k₁.layer.vns root).vnid)) (Pi.single root (-1)) := by
  have hlive : Live k₁.layer root := h₁.refs.live_held List.mem_cons_self
  obtain ⟨p, hp, hlivens⟩ := h₁.registered hlive
  obtain rfl : ns = p := Option.some.inj (hns.symm.trans hp)
  have hbase : 0 < (k.layer.vns root).rcnt := by
    refine (h₀.tops ns ?_ root hroot).pos
    rw [← (h₁.spaces.ids ns).1, ← h₁.spaces.nsidtons]
    exact hlivens
  have htwo : (k₁.layer.vns root).rcnt = (k.layer.vns root).rcnt + 1 := by
    rw [h₁.refs.rcnt root]
    simp
  have hseen := h₁.refs.lastSeen h₀.few_nil.lt
  obtain ⟨s, hdec, hc⟩ := decVnode_change h₁.refs.sound hlive.inside hlive.pos hseen
    (o := .putting (k₁.layer.spaces ns).nsid (k₁.layer.vns root).vnid)
    (by rw [idOf_of_ns hns]; rfl) false
  have hs : s = record
      (setVnode (setVnode k₁.layer root fun v => { v with rcnt := v.rcnt - 2 }) root
      fun v => { v with rcnt := v.rcnt + 1 })
      (.putting (k₁.layer.spaces ns).nsid (k₁.layer.vns root).vnid) := by
    unfold VnodeLayer.decVnode at hdec
    dsimp only at hdec
    rw [if_neg] at hdec
    · simp only [Except.ok.injEq] at hdec
      rw [← hdec]
      unfold setVnode record
      dsimp only
      rw [Function.update_idem, Function.update_self]
      congr 2
      simp only [Vnode.mk.injEq, true_and, and_true]
      ring
    · rw [setVnode_vns, Function.update_self]
      intro hz
      have hone := hseen hz
      omega
  rw [← hs]
  exact hc

/-- Any other refusal leaves no reference behind. -/
theorem sysUnmount_refused (h₀ : Ready k) (hright : ¬ WrongRoot k fd path) {err : ℤ} {k' : Kernel}
    (h : sysUnmount k fd path = .ok (err, k')) (herr : err ≠ 0) : Holding k k' [] := by
  have hfirst :=
    getFileFd_ends (S := fun _ => True) trivial h₀.holding h₀ h₀.few_nil true fd path true
  rcases hget : getFileFd k true fd path true with e | ⟨e | root, k₁⟩
  · unfold sysUnmount at h
    rw [hget] at h
    cases h
  · rw [hget] at hfirst
    unfold sysUnmount at h
    rw [hget] at h
    cases h
    exact hfirst.2
  · have h₁ := resolved_holding h₀ hget
    obtain ⟨ns, hns, _⟩ := h₁.registered (h₁.refs.live_held List.mem_cons_self)
    rw [sysUnmount_resolved h₀ hget hns] at h
    have hspace : k₁.space = k.space := by rw [h₁.same]
    have hrootvn : k₁.rootvn = k.rootvn := by rw [h₁.same]
    have hroot : (k.space ns).root = some root := by
      by_contra hne
      refine hright ⟨root, k₁, hget, .inr fun p hp => ?_⟩
      rw [← Option.some.inj (hns.symm.trans hp)]
      exact hne
    rw [if_neg (not_not.mpr (by rw [hspace]; exact hroot)),
      if_neg fun heq => hright ⟨root, k₁, hget, .inl (heq.trans hrootvn)⟩] at h
    dsimp only at h
    generalize hany : anyInUse _ _ _ = inUse at h
    rcases inUse with e | _ | _
    · cases h
    · exact absurd (unmountSpace_zero h) herr
    · simp only [Except.bind, if_true, Except.ok.injEq, Prod.mk.injEq] at h
      obtain ⟨_, rfl⟩ := h
      have hc := busy_change h₀ h₁ hns hroot
      have hid : ((setVnode (setVnode k₁.layer root fun v => { v with rcnt := v.rcnt - 2 }) root
          fun v => { v with rcnt := v.rcnt + 1 }).vns root).vnid = (k₁.layer.vns root).vnid := by
        simp [setVnode]
      rw [hid]
      exact h₁.change hc (h₁.refs.drop hc) k₁.walks

end Unmount

section Later
variable {k k' k₁ : Kernel} {root ns : ℕ} {fd : ℤ} {path : Option Path}

/-- Sound tables can be unloaded, whatever the count of the root. -/
theorem unloading_of_sound {s : Layer} (h : Sound s) (ns root : ℕ) {f : Vnode → Vnode}
    (hf : ∀ v, (f v).ns = v.ns ∧ (f v).inlist = v.inlist) :
    ∃ xs, Unloading (setVnode s root f) ns xs ∧
      ∀ v, v ∈ xs ↔ Registered s v ∧ (s.vns v).ns = some ns := by
  obtain ⟨ys, hys, hmem⟩ := h.registry.spaces
  have hfields : ∀ v, ((setVnode s root f).vns v).ns = (s.vns v).ns ∧
      ((setVnode s root f).vns v).inlist = (s.vns v).inlist := by
    intro v
    rw [setVnode_vns]
    by_cases hv : v = root
    · rw [hv, Function.update_self]
      exact hf _
    · rw [Function.update_of_ne hv]
      exact ⟨rfl, rfl⟩
  refine ⟨ys ns, ⟨h.lists.congr rfl rfl rfl fun v => (hfields v).2, hys.isList ns, fun v hv => ?_,
    fun v hv hin => ?_⟩, hmem ns⟩
  · obtain ⟨hr, hvns⟩ := (hmem ns v).mp hv
    exact ⟨hr.1, by rw [(hfields v).1]; exact hvns⟩
  · rw [(hfields v).1]
    rw [(hfields v).2] at hin
    exact (h.used_facts hv hin).1.2

/-- The check of an unmount sees the counts as they were before the lookup of its path. -/
theorem none_in_use_iff (h₀ : Ready k) (h₁ : Holding k k₁ [root])
    (hns : (k₁.layer.vns root).ns = some ns) :
    (∀ v, Registered k₁.layer v → (k₁.layer.vns v).ns = some ns →
      (k₁.layer.vns v).rcnt = if v = root then 2 else 0) ↔
    (k.layer.vns root).rcnt = 1 ∧
      ∀ v < k.layer.vnnum, v ≠ root → (k.layer.vns v).ns = some ns → (k.layer.vns v).rcnt = 0 := by
  have hlive : Live k₁.layer root := h₁.refs.live_held List.mem_cons_self
  have hroot : (k₁.layer.vns root).rcnt = (k.layer.vns root).rcnt + 1 := by
    rw [h₁.refs.rcnt root]
    simp
  have hoth : ∀ v, v ≠ root → (k₁.layer.vns v).rcnt = (k.layer.vns v).rcnt := by
    intro v hv
    rw [h₁.refs.rcnt v]
    simp [Ne.symm hv]
  constructor
  · intro h
    refine ⟨?_, fun v hv hne hvns => ?_⟩
    · have := h root (Sound.registered h₁.refs.sound hlive.inside hlive.pos) hns
      rw [if_pos rfl] at this
      omega
    · by_contra hz
      have hpos := (h₀.sound.placed v hv).rcnt
      have hv' : Live k₁.layer v := h₁.refs.live ⟨hv, by omega⟩
      have := h v (Sound.registered h₁.refs.sound hv'.inside hv'.pos) (by
        rw [(h₁.refs.kept v (by omega)).1]
        exact hvns)
      rw [if_neg hne, hoth v hne] at this
      exact hz this
  · rintro ⟨hone, hrest⟩ v hr hvns
    by_cases hv : v = root
    · rw [if_pos hv, hv]
      omega
    · rw [if_neg hv, hoth v hv]
      have hlt : v < k.layer.vnnum := by
        rw [← h₁.refs.vnnum]
        exact hr.1
      by_contra hz
      have hpos := (h₀.sound.placed v hlt).rcnt
      refine hz (hrest v hlt hv ?_)
      rw [← (h₁.refs.kept v (by omega)).1]
      exact hvns

/-- A path that leads to the root decides nothing else about an unmount. -/
theorem unmount_succeeds_iff (h₀ : Ready k)
    (hget : getFileFd k true fd path true = .ok (.ok root, k₁)) :
    (∃ k', sysUnmount k fd path = .ok (0, k')) ↔ Unmountable k root := by
  have h₁ := resolved_holding h₀ hget
  have hlive : Live k₁.layer root := h₁.refs.live_held List.mem_cons_self
  obtain ⟨ns, hns, hlivens⟩ := h₁.registered hlive
  have hspace : k₁.space = k.space := by rw [h₁.same]
  have hrootvn : k₁.rootvn = k.rootvn := by rw [h₁.same]
  have hsame : ∀ p, (k.layer.vns root).ns = some p → (k.layer.vns root).rcnt = 1 → p = ns := by
    intro p hp hone
    rw [← (h₁.refs.kept root (by omega)).1, hns] at hp
    exact (Option.some.inj hp).symm
  rw [sysUnmount_resolved h₀ hget hns]
  by_cases hroot : (k.space ns).root = some root
  swap
  · rw [hspace, if_pos hroot]
    refine iff_of_false (fun ⟨_, h⟩ => by cases h) ?_
    rintro ⟨p, hp, hroot', _, hone, _⟩
    rw [hsame p hp hone] at hroot'
    exact hroot hroot'
  rw [if_neg (not_not.mpr (by rw [hspace]; exact hroot))]
  by_cases htop : root = k.rootvn
  · rw [if_pos (htop.trans hrootvn.symm)]
    refine iff_of_false (fun ⟨_, h⟩ => by cases h) ?_
    rintro ⟨_, _, _, hne, _⟩
    exact hne htop
  rw [if_neg fun h => htop (h.trans hrootvn)]
  dsimp only
  obtain ⟨xs, hxs, hmem⟩ := unloading_of_sound h₁.refs.sound ns root
    (f := fun v => { v with rcnt := v.rcnt - 2 }) fun _ => ⟨rfl, rfl⟩
  have hany := anyInUse_eq hxs.list.linked hxs.length_le
  rw [← hxs.list.head] at hany
  have hcounts : ∀ v ∈ xs, (((setVnode k₁.layer root fun v => { v with rcnt := v.rcnt - 2 }).vns
      v).busy = true ∨ ((setVnode k₁.layer root fun v => { v with rcnt := v.rcnt - 2 }).vns
      v).intRcnt ≠ 0) ↔ (k₁.layer.vns v).rcnt ≠ if v = root then 2 else 0 := by
    intro v hv
    obtain ⟨hlt, _⟩ := ((hmem v).mp hv).1
    have hidle := (h₁.refs.sound.placed v hlt).idle
    rw [h₁.refs.vnnum] at hlt
    have hnonneg := (h₁.refs.base.placed v hlt).rcnt
    have hless := h₀.counts v hlt
    have hcount := h₁.refs.rcnt v
    rw [setVnode_vns]
    by_cases hvr : v = root
    · subst hvr
      rw [List.count_singleton_self] at hcount
      rw [Function.update_self, if_pos rfl]
      simp only [hidle, Bool.false_eq_true, false_or, ne_eq, Vnode.intRcnt,
        MachineIntegers.toInt32_eq_zero]
      omega
    · rw [List.count_cons_of_ne (Ne.symm hvr), List.count_nil] at hcount
      rw [Function.update_of_ne hvr, if_neg hvr]
      simp only [hidle, Bool.false_eq_true, false_or, ne_eq, Vnode.intRcnt,
        MachineIntegers.toInt32_eq_zero]
      omega
  have hnone : (xs.any fun v =>
      ((setVnode k₁.layer root fun v => { v with rcnt := v.rcnt - 2 }).vns v).busy = true ∨
      ((setVnode k₁.layer root fun v => { v with rcnt := v.rcnt - 2 }).vns v).intRcnt ≠ 0) = false ↔
      Unmountable k root := by
    rw [List.any_eq_false]
    have hiff := none_in_use_iff h₀ h₁ hns
    constructor
    · intro h
      obtain ⟨hone, hrest⟩ := hiff.mp fun v hr hvns => by
        have hv := (hmem v).mpr ⟨hr, hvns⟩
        have := h v hv
        rw [decide_eq_true_eq, hcounts v hv] at this
        exact not_not.mp this
      refine ⟨ns, ?_, hroot, htop, hone, hrest⟩
      rw [← (h₁.refs.kept root (by omega)).1]
      exact hns
    · rintro ⟨p, hp, _, _, hone, hrest⟩ v hv
      rw [hsame p hp hone] at hrest
      obtain ⟨hr, hvns⟩ := (hmem v).mp hv
      rw [decide_eq_true_eq, hcounts v hv]
      exact not_not.mpr (hiff.mpr ⟨hone, hrest⟩ v hr hvns)
  rw [hany]
  dsimp only [Except.bind]
  rw [← hnone]
  split
  · rename_i htrue
    refine iff_of_false ?_ fun hfalse => ?_
    · rintro ⟨_, h⟩
      cases h
    · rw [hfalse] at htrue
      cases htrue
  · rename_i hfalse
    refine iff_of_true ?_ (Bool.not_eq_true _ ▸ hfalse)
    cases hm : (k₁.space ns).mount with
    | none =>
      have hfirst := (h₁.usable h₀).first ns hlivens hm root (by rw [hspace]; exact hroot)
      exact absurd (hfirst.trans hrootvn) htop
    | some mount =>
      obtain ⟨hmlive, hmns⟩ := (h₁.usable h₀).mounts ns hlivens mount hm
      obtain ⟨p, hp, _⟩ := h₁.registered hmlive
      refine unmountSpace_returns hxs hm hmlive.inside ?_ fun hmem' =>
        hmns ((hmem mount).mp hmem').2
      change ((setVnode k₁.layer root fun v => { v with rcnt := v.rcnt - 2 }).vns mount).ns ≠ none
      rw [set_ns (f := fun v => { v with rcnt := v.rcnt - 2 }) fun _ => rfl, hp]
      exact Option.some_ne_none p

theorem Unmountable.kept (h : Holding k k' []) (hu : Unmountable k root) :
    Unmountable k' root := by
  obtain ⟨ns, hns, hroot, htop, hone, hrest⟩ := hu
  refine ⟨ns, ?_, ?_, ?_, ?_, fun v hv hne hvns => ?_⟩
  · rw [(h.refs.kept root (by omega)).1]
    exact hns
  · rw [h.same]
    exact hroot
  · rw [h.same]
    exact htop
  · rw [h.refs.rcnt_eq]
    exact hone
  · rw [h.refs.rcnt_eq]
    have hlt : v < k.layer.vnnum := by
      rw [← h.refs.vnnum]
      exact hv
    by_contra hz
    have hpos := (h.refs.base.placed v hlt).rcnt
    rw [(h.refs.kept v (by omega)).1] at hvns
    exact hz (hrest v hlt hne hvns)

end Later

/-- The counts, the links between mount points and name spaces, the list of the name spaces
and their table are the same. -/
structure Unchanged (k k' : Kernel) : Prop where
  rcnt : ∀ w, (k'.layer.vns w).rcnt = (k.layer.vns w).rcnt
  mounted : ∀ w < k.layer.vnnum, (k'.layer.vns w).mounted = (k.layer.vns w).mounted
  space : k'.space = k.space
  nshead : k'.nshead = k.nshead
  nstab : k'.layer.nstab = k.layer.nstab

/-- Every root that could be unmounted can be unmounted later, by any path that leads to it. -/
def LaterSucceeds (k k' : Kernel) : Prop :=
  ∀ root fd₁ path₁ walks₁ k₁, getFileFd { k with walks := walks₁ } true fd₁ path₁ true =
      .ok (.ok root, k₁) →
    (∃ k₂, sysUnmount { k with walks := walks₁ } fd₁ path₁ = .ok (0, k₂)) →
    ∀ fd₂ path₂ walks₂ k₃, getFileFd { k' with walks := walks₂ } true fd₂ path₂ true =
        .ok (.ok root, k₃) →
      ∃ k₄, sysUnmount { k' with walks := walks₂ } fd₂ path₂ = .ok (0, k₄)

/-- An unmount that is refused changes nothing. -/
def RefusedHarmless (k : Kernel) (fd : ℤ) (path : Option Path) : Prop :=
  ∀ err k', sysUnmount k fd path = .ok (err, k') → err ≠ 0 → Unchanged k k' ∧ LaterSucceeds k k'

theorem Holding.unchanged {k k' : Kernel} (h : Holding k k' []) (h₀ : Ready k) :
    Unchanged k k' where
  rcnt := h.refs.rcnt_eq
  mounted w hw := h.refs.mounted_eq fun ns hm => (h₀.roots w ns hm hw).1
  space := by rw [h.same]
  nshead := by rw [h.same]
  nstab := h.spaces.nstab

theorem Holding.laterSucceeds {k k' : Kernel} (h : Holding k k' []) (h₀ : Ready k) :
    LaterSucceeds k k' := by
  intro root fd₁ path₁ walks₁ k₁ hget₁ hok fd₂ path₂ walks₂ k₃ hget₂
  have hu := (unmount_succeeds_iff (h₀.withWalks walks₁) hget₁).mp hok
  have hu' : Unmountable k' root := Unmountable.kept h hu
  exact (unmount_succeeds_iff ((h.ready h₀).withWalks walks₂) hget₂).mpr hu'

/-- A refused unmount changes nothing, unless its path leads to a vnode that is not the root
of its name space or to the root of the root file system. -/
theorem refused_unmount_harmless_iff {k : Kernel} (h₀ : Ready k) (fd : ℤ) (path : Option Path) :
    RefusedHarmless k fd path ↔ ¬ WrongRoot k fd path := by
  constructor
  · intro h hwrong
    obtain ⟨root, err, k', hexec, herr, h'⟩ := sysUnmount_leaks h₀ hwrong
    have hsame := (h err k' hexec herr).1.rcnt root
    rw [h'.refs.rcnt root] at hsame
    simp at hsame
  · intro hright err k' hexec herr
    have h' := sysUnmount_refused h₀ hright hexec herr
    exact ⟨Holding.unchanged h' h₀, Holding.laterSucceeds h' h₀⟩

/-- The mount point is found under `m`. -/
def pointAnswers : List Answer := [.found 2 0 0 ⟨0, Nat.succ_pos maxLevel⟩]

theorem refused_unmount_harmless_mounted :
    RefusedHarmless (mountedKernel pointAnswers) (-1) (some [47, 109]) := by
  refine (refused_unmount_harmless_iff (mountedKernel_ready _) _ _).mpr ?_
  have hrun : ((getFileFd (mountedKernel pointAnswers) true (-1) (some [47, 109])
      true).toOption.map fun r => (r.1.toOption, (r.2.layer.vns 2).ns)) =
        some (some 2, some 1) := by
    decide +kernel
  rintro ⟨root, k₁, hget, hwrong⟩
  rw [hget] at hrun
  simp only [Except.toOption, Option.map_some, Option.some.injEq, Prod.mk.injEq] at hrun
  obtain ⟨rfl, hns⟩ := hrun
  rcases hwrong with h | h
  · cases h
  · exact h 1 hns rfl

/-- A directory below the mount point. -/
def belowAnswers : List Answer :=
  [.found 2 0 0 ⟨0, Nat.succ_pos maxLevel⟩, .found 7 0 30 ⟨0, Nat.succ_pos maxLevel⟩]

/-- `unmount("/m/d")` is refused with `EINVAL` and leaves a reference to `d`, in vnode 3. The
name space on `m` could be unmounted before and is busy after. -/
theorem refused_unmount_leaks :
    Ready (mountedKernel belowAnswers) ∧
      ((sysUnmount (mountedKernel belowAnswers) (-1) (some [47, 109, 47, 100])).toOption.map
        fun r => (r.1, (r.2.layer.vns 3).rcnt,
          (sysUnmount { r.2 with walks := (mountedKernel pointAnswers).walks } (-1)
            (some [47, 109])).toOption.map Prod.fst)) = some (EINVAL, 1, some EBUSY) ∧
      ((mountedKernel belowAnswers).layer.vns 3).rcnt = 0 ∧
      (sysUnmount (mountedKernel pointAnswers) (-1) (some [47, 109])).toOption.map Prod.fst =
        some 0 ∧
      ¬ RefusedHarmless (mountedKernel belowAnswers) (-1) (some [47, 109, 47, 100]) := by
  have hrun : ((sysUnmount (mountedKernel belowAnswers) (-1)
      (some [47, 109, 47, 100])).toOption.map fun r => (r.1, (r.2.layer.vns 3).rcnt,
        (sysUnmount { r.2 with walks := (mountedKernel pointAnswers).walks } (-1)
          (some [47, 109])).toOption.map Prod.fst)) = some (EINVAL, 1, some EBUSY) := by
    decide +kernel
  have hzero : ((mountedKernel belowAnswers).layer.vns 3).rcnt = 0 := by decide +kernel
  refine ⟨mountedKernel_ready _, hrun, hzero, by decide +kernel, fun h => ?_⟩
  rcases hr : sysUnmount (mountedKernel belowAnswers) (-1) (some [47, 109, 47, 100])
    with e | ⟨err, k'⟩
  · rw [hr] at hrun
    cases hrun
  · rw [hr] at hrun
    simp only [Except.toOption, Option.map_some, Option.some.injEq, Prod.mk.injEq] at hrun
    have hsame := (h err k' hr (by rw [hrun.1]; decide)).1.rcnt 3
    omega

end MountCalls
