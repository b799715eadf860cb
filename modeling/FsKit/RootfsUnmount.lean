import Mathlib.Tactic
import FsKit.RootfsPaths

/-! The walk of `rootfs_unmount` (`rootfs.c`), which gives the nodes back from the leaves on. It
ends at the first leaf that it finds in the root, so most of the nodes are not given back. -/
namespace RootfsUnmount

open FallibleRuns LinkedList RootfsPaths RootfsTree TransitionTrace
open RootfsRenames (Below)

section Model
variable (ns : Nspace)

/-- The inner loop. A node that was given back is not looked at again. -/
def descend : ℕ → ℕ → Except Stop ℕ
  | 0, _ => .error .endless
  | fuel + 1, vn =>
    if vn ∉ ns.live then .error .badPointer
    else match ns.head vn with
      | none => .ok vn
      | some c => descend fuel c

/-- Takes the first child out of the list of `vn` and gives it back. -/
def rootfsRemoveVnode (vn avn : ℕ) : Nspace :=
  let r := takeOut ns.links (ns.head vn) avn
  { ns with
    links := r.1
    head := Function.update ns.head vn r.2
    live := ns.live.erase avn }

/-- The loop, with the nodes that it gives back. -/
def unmountLoop : ℕ → Nspace → ℕ → Except Stop (List ℕ × Nspace)
  | 0, _, _ => .error .endless
  | fuel + 1, ns, vn =>
    (descend ns ns.live.card vn).bind fun leaf =>
      let vn := (ns.node leaf).parent
      if vn = ns.root then .ok ([], ns)
      else match ns.head vn with
        | none => .error .badPointer
        | some avn =>
          (unmountLoop fuel (rootfsRemoveVnode ns vn avn) vn).map fun (freed, ns) =>
            (avn :: freed, ns)

/-- The nodes that are given back beside the root, in their order. -/
def rootfsUnmount : Except Stop (List ℕ × Nspace) := unmountLoop ns.live.card ns ns.root

end Model

section Spine
variable {ns : Nspace} {kids : ℕ → List ℕ} {n c d vn avn : ℕ}

/-- The way from the root to the node is through first children. -/
inductive Leftmost (ns : Nspace) : ℕ → Prop where
  | root : Leftmost ns ns.root
  | head {d c : ℕ} : Leftmost ns d → ns.head d = some c → Leftmost ns c

theorem head_mem (h : Sound ns kids) (hd : d ∈ ns.live) (hc : ns.head d = some c) : c ∈ kids d := by
  refine List.mem_of_head? ?_
  rw [← (h.isList hd).head]
  exact hc

theorem Leftmost.live (h : Sound ns kids) (hl : Leftmost ns n) : n ∈ ns.live := by
  induction hl with
  | root => exact h.root
  | head _ hc ih => exact h.live (head_mem h ih hc)

/-- A node on the way is the first child of its parent, which is on the way too. -/
theorem Leftmost.parent (h : Sound ns kids) (hl : Leftmost ns n) (hn : n ≠ ns.root) :
    Leftmost ns (parentOf ns n) ∧ ns.head (parentOf ns n) = some n := by
  cases hl with
  | root => exact absurd rfl hn
  | @head d _ hd hc =>
    have hpar : parentOf ns n = d := h.tree.parent d n (head_mem h (hd.live h) hc)
    rw [hpar]
    exact ⟨hd, hc⟩

/-- A path is shorter than there are nodes. -/
theorem depth_lt (h : Sound ns kids) {p : List Name} (hn : NamedTrees.At (tree ns) p n) :
    p.length < ns.live.card := by
  have hlive : n ∈ ns.live := hn.mem (wellFormed h)
  obtain ⟨k, hk, hsteps⟩ := (h.tree.reaches n hlive).steps_lt hlive h.closed
  refine lt_of_le_of_lt ?_ hk
  clear hlive hk
  induction p generalizing n k with
  | nil => exact Nat.zero_le k
  | cons a p ih =>
    obtain ⟨hup, -, -, hne⟩ := NamedTrees.at_cons.mp hn
    cases k with
    | zero => exact absurd hsteps hne
    | succ k => exact Nat.succ_le_succ (ih hup k hsteps)

/-- The inner loop ends at a leaf of the way. -/
theorem descend_leaf (h : Sound ns kids) : ∀ {fuel vn : ℕ} {p : List Name},
    NamedTrees.At (tree ns) p vn → Leftmost ns vn → ns.live.card ≤ fuel + p.length →
    ∃ leaf, descend ns fuel vn = .ok leaf ∧ Leftmost ns leaf ∧ ns.head leaf = none := by
  intro fuel
  induction fuel with
  | zero =>
    intro vn p hat _ hfuel
    exact absurd (depth_lt h hat) (by omega)
  | succ fuel ih =>
    intro vn p hat hl hfuel
    have hlive := hl.live h
    unfold descend
    rw [if_neg (not_not.mpr hlive)]
    cases hhead : ns.head vn with
    | none => exact ⟨vn, rfl, hl, hhead⟩
    | some c =>
      have hmem := head_mem h hlive hhead
      have hin := (h.tree.member c).mp ⟨vn, hmem⟩
      have hpar : (tree ns).parent c = vn := h.tree.parent vn c hmem
      have hatc : NamedTrees.At (tree ns) (nameOf ns c :: p) c :=
        NamedTrees.At.child (hpar ▸ hat) hin.1 hin.2
      exact ih hatc (.head hl hhead) (by rw [List.length_cons]; omega)

theorem kids_of_below (h : Sound ns kids) (hb : Below ns d n) (hn : n ∈ ns.live) : kids d ≠ [] := by
  induction hb with
  | child hne hpar =>
    have hmem := (h.mem_parent hn hne).1
    rw [hpar] at hmem
    exact List.ne_nil_of_mem hmem
  | up hne _ ih => exact ih (h.mem_parent hn hne).2

theorem leaf_above_nothing (h : Sound ns kids) (hd : d ∈ ns.live) (hleaf : ns.head d = none)
    (hn : n ∈ ns.live) : ¬Below ns d n :=
  fun hb => kids_of_below h hb hn ((h.isList hd).eq_nil hleaf)

theorem below_congr {ns' : Nspace} (hroot : ns'.root = ns.root) (hnode : ns'.node = ns.node) :
    Below ns' d n ↔ Below ns d n := by
  have hpar : parentOf ns' = parentOf ns := by
    unfold parentOf
    rw [hnode]
  constructor
  · intro hb
    induction hb with
    | child hne hp => exact .child (hroot ▸ hne) (hpar ▸ hp)
    | up hne _ ih => exact .up (hroot ▸ hne) (by rw [← hpar]; exact ih)
  · intro hb
    induction hb with
    | child hne hp => exact .child (hroot ▸ hne) (by rw [hpar]; exact hp)
    | up hne _ ih => exact .up (hroot ▸ hne) (by rw [hpar]; exact ih)

/-- A node on the way lies below the first child of the root, unless it is that child. -/
theorem Leftmost.under (h : Sound ns kids) (hl : Leftmost ns n) (hn : n ≠ ns.root)
    (hpar : parentOf ns n ≠ ns.root) : ∃ c, ns.head ns.root = some c ∧ Below ns c n := by
  induction hl with
  | root => exact absurd rfl hn
  | @head d c hd hc ih =>
    have hparc : parentOf ns c = d := h.tree.parent d c (head_mem h (hd.live h) hc)
    rw [hparc] at hpar
    by_cases hdd : parentOf ns d = ns.root
    · have hhead := (hd.parent h hpar).2
      rw [hdd] at hhead
      exact ⟨d, hhead, .child hn hparc⟩
    · obtain ⟨c', hc', hb⟩ := ih hpar hdd
      exact ⟨c', hc', .up hn (hparc.symm ▸ hb)⟩

end Spine

section Loop
variable {ns : Nspace} {kids : ℕ → List ℕ} {n vn avn leaf : ℕ}

theorem rootfsRemoveVnode_eq (hpar : parentOf ns leaf = vn) :
    rootfsRemoveVnode ns vn leaf = { linkOut ns leaf with live := ns.live.erase leaf } := by
  unfold rootfsRemoveVnode linkOut
  rw [show (ns.node leaf).parent = vn from hpar]

/-- A leaf that is given back leaves a tree. -/
theorem rootfsRemoveVnode_sound (h : Sound ns kids) (hmem : leaf ∈ kids vn)
    (hleaf : kids leaf = []) :
    Sound (rootfsRemoveVnode ns vn leaf) (Function.update kids vn ((kids vn).erase leaf)) := by
  have hdrop := h.dropVnode hmem hleaf
  rw [rootfsRemoveVnode_eq (h.tree.parent vn leaf hmem)]
  refine ⟨⟨hdrop.tree.lists.congr fun d x hx => ?_, hdrop.tree.member, hdrop.tree.parent,
    hdrop.tree.named, hdrop.tree.sorted, hdrop.tree.reaches, hdrop.tree.vnids⟩, hdrop.root,
    hdrop.dirs, hdrop.counter⟩
  have hne : x ≠ leaf := ((h.tree.mem_erase_kids hmem x d).mp hx).1
  unfold dropVnode linkOut
  simp only [Links.setPrev_next, Links.setNext_next, Links.setPrev_prev, Links.setNext_prev, hne,
    if_false, and_self]

/-- What has been given back from the nodes below the first child of the root. -/
structure GivesBack (ns ns' : Nspace) (freed : List ℕ) : Prop where
  nodup : freed.Nodup
  live : ∀ n, n ∈ ns'.live ↔ n ∈ ns.live ∧ n ∉ freed
  below : ∀ n, n ∈ freed ↔ n ∈ ns.live ∧ ∃ c, ns.head ns.root = some c ∧ Below ns c n
  upwards : freed.Pairwise fun a b => ¬Below ns a b

theorem Leftmost.removed (h : Sound ns kids) (hl : Leftmost ns n) (hn : n = vn ∨ Below ns n vn)
    (hvn : vn ∈ ns.live) : Leftmost (rootfsRemoveVnode ns vn leaf) n := by
  induction hl with
  | root => exact .root
  | @head d c hd hc ih =>
    have hmem := head_mem h (hd.live h) hc
    have hpar := h.tree.parent d c hmem
    have hroot := ((h.tree.member c).mp ⟨d, hmem⟩).2
    have hb : Below ns d vn := by
      rcases hn with rfl | hn
      · exact .child hroot hpar
      · exact hpar ▸ hn.parent hroot
    refine .head (ih (.inr hb)) ?_
    have hne : d ≠ vn := by
      rintro rfl
      exact Below.irrefl (h.tree.reaches d hvn) hb
    exact (Function.update_of_ne hne _ _).trans hc

theorem unmountLoop_stops (fuel : ℕ) (h : descend ns ns.live.card vn = .ok leaf)
    (hroot : parentOf ns leaf = ns.root) : unmountLoop (fuel + 1) ns vn = .ok ([], ns) := by
  unfold unmountLoop
  rw [h]
  exact if_pos hroot

theorem unmountLoop_goes_on (fuel : ℕ) (h : descend ns ns.live.card vn = .ok leaf)
    (hroot : parentOf ns leaf ≠ ns.root) (hhead : ns.head (parentOf ns leaf) = some avn) :
    unmountLoop (fuel + 1) ns vn = (unmountLoop fuel
      (rootfsRemoveVnode ns (parentOf ns leaf) avn) (parentOf ns leaf)).map fun (freed, ns) =>
        (avn :: freed, ns) := by
  unfold parentOf at hroot hhead ⊢
  conv_lhs => unfold unmountLoop
  rw [h]
  dsimp only [Except.bind]
  rw [if_neg hroot, hhead]

/-- The loop gives back what lies below the first child of the root. -/
theorem unmountLoop_gives : ∀ {fuel : ℕ} {ns : Nspace} {kids : ℕ → List ℕ} {vn : ℕ},
    Sound ns kids → parentOf ns ns.root = ns.root → Leftmost ns vn → ns.live.card ≤ fuel →
    ∃ freed ns', unmountLoop fuel ns vn = .ok (freed, ns') ∧ GivesBack ns ns' freed := by
  intro fuel
  induction fuel with
  | zero =>
    intro ns kids vn h _ _ hfuel
    have hpos := Finset.card_pos.mpr ⟨ns.root, h.root⟩
    omega
  | succ fuel ih =>
    intro ns kids vn h htop hl hfuel
    obtain ⟨p, hp⟩ := (wellFormed h).found vn (hl.live h)
    obtain ⟨leaf, hdescend, hleaf, hnone⟩ := descend_leaf h hp hl
      (Nat.le_add_right ns.live.card p.length)
    have hlive := hleaf.live h
    have hkids : kids leaf = [] := (h.isList hlive).eq_nil hnone
    by_cases hroot : parentOf ns leaf = ns.root
    · refine ⟨[], ns, unmountLoop_stops fuel hdescend hroot, List.nodup_nil, fun n => by simp,
        fun n => ?_, .nil⟩
      refine ⟨fun hn => absurd hn List.not_mem_nil, ?_⟩
      rintro ⟨hn, c, hc, hb⟩
      have hcl : c = leaf := by
        by_cases hlr : leaf = ns.root
        · rw [hlr] at hnone
          rw [hnone] at hc
          cases hc
        · have hhead := (hleaf.parent h hlr).2
          rw [hroot, hc] at hhead
          exact Option.some.inj hhead
      exact absurd (hcl ▸ hb) (leaf_above_nothing h hlive hnone hn)
    · have hlr : leaf ≠ ns.root := fun he => hroot (he ▸ htop)
      obtain ⟨hup, hhead⟩ := hleaf.parent h hlr
      have hmem : leaf ∈ kids (parentOf ns leaf) := (h.mem_parent hlive hlr).1
      have h₁ := rootfsRemoveVnode_sound h hmem hkids
      have hl₁ : Leftmost (rootfsRemoveVnode ns (parentOf ns leaf) leaf) (parentOf ns leaf) :=
        hup.removed h (.inl rfl) (hup.live h)
      have hcard : (rootfsRemoveVnode ns (parentOf ns leaf) leaf).live.card ≤ fuel := by
        have := Finset.card_erase_of_mem hlive
        change (ns.live.erase leaf).card ≤ fuel
        omega
      obtain ⟨freed, ns', hloop, hgives⟩ := ih h₁ htop hl₁ hcard
      have hcongr : ∀ {d n}, Below (rootfsRemoveVnode ns (parentOf ns leaf) leaf) d n ↔
          Below ns d n := below_congr rfl rfl
      have hlive₁ : ∀ {n}, n ∈ (rootfsRemoveVnode ns (parentOf ns leaf) leaf).live ↔
          n ≠ leaf ∧ n ∈ ns.live := Finset.mem_erase
      have hhead₁ : (rootfsRemoveVnode ns (parentOf ns leaf) leaf).head ns.root =
          ns.head ns.root := Function.update_of_ne (Ne.symm hroot) _ _
      refine ⟨leaf :: freed, ns', ?_, ?_, fun n => ?_, fun n => ?_, ?_⟩
      · rw [unmountLoop_goes_on fuel hdescend hroot hhead, hloop]
        rfl
      · refine List.nodup_cons.mpr ⟨fun hin => ?_, hgives.nodup⟩
        exact (hlive₁.mp ((hgives.below leaf).mp hin).1).1 rfl
      · rw [hgives.live, hlive₁, List.mem_cons, not_or]
        tauto
      · rw [List.mem_cons, hgives.below, hlive₁]
        constructor
        · rintro (rfl | ⟨⟨-, hn⟩, c, hc, hb⟩)
          · exact ⟨hlive, hleaf.under h hlr hroot⟩
          · exact ⟨hn, c, hhead₁ ▸ hc, hcongr.mp hb⟩
        · rintro ⟨hn, c, hc, hb⟩
          by_cases hnl : n = leaf
          · exact .inl hnl
          · exact .inr ⟨⟨hnl, hn⟩, c, hhead₁.symm ▸ hc, hcongr.mpr hb⟩
      · refine List.pairwise_cons.mpr ⟨fun b hb => ?_, ?_⟩
        · have hbl := (hlive₁.mp ((hgives.below b).mp hb).1).2
          exact leaf_above_nothing h hlive hnone hbl
        · exact hgives.upwards.imp fun hnot hb => hnot (hcongr.mpr hb)

end Loop

section Runs
variable {ns : Nspace} {kids : ℕ → List ℕ} {n : ℕ}

theorem below_root (h : Sound ns kids) (hn : n ∈ ns.live) (hne : n ≠ ns.root) :
    Below ns ns.root n := by
  have hreach := h.tree.reaches n hn
  induction hreach with
  | here => exact absurd rfl hne
  | @up n _ ih =>
    by_cases hpar : parentOf ns n = ns.root
    · exact .child hne hpar
    · exact .up hne (ih (h.closed n hn hne) hpar)

/-- After any run of calls from the mount on, `rootfs_unmount` comes to an end and looks at nothing
that it has given back. It gives back what lies below the first child of the root, the children
before their parents, and nothing else: the other nodes are lost, unless there is only the root. -/
theorem unmount_gives_back_first_subtree (mem : Nspace) (root : ℕ) (calls : List Call)
    (hallowed : EveryStep next Allowed (mounted mem root) calls)
    (hintact : EveryStep next Intact (mounted mem root) calls)
    (hns : runTrace next (mounted mem root) calls = ns) :
    ∃ freed ns', rootfsUnmount ns = .ok (freed, ns') ∧ GivesBack ns ns' freed ∧
      ((∀ n ∈ ns'.live, n = ns.root) ↔ ns.head ns.root = none) := by
  have hmapped : Mapped ns := by
    rw [← hns]
    exact (everyState_of_step next_mapped (mounted_mapped mem root) (hallowed.and hintact)).last
  obtain ⟨⟨kids, h⟩, hf⟩ := hmapped
  obtain ⟨freed, ns', hcall, hgives⟩ := unmountLoop_gives h hf.top .root (le_refl _)
  refine ⟨freed, ns', hcall, hgives, ?_, ?_⟩
  · intro hall
    by_contra hne
    obtain ⟨c, hc⟩ := Option.ne_none_iff_exists'.mp hne
    have hmem := head_mem h h.root hc
    obtain ⟨hlive, hroot⟩ := (h.tree.member c).mp ⟨_, hmem⟩
    refine hroot (hall c ((hgives.live c).mpr ⟨hlive, fun hin => ?_⟩))
    obtain ⟨-, c', hc', hb⟩ := (hgives.below c).mp hin
    rw [hc, Option.some.injEq] at hc'
    subst hc'
    exact Below.irrefl (h.tree.reaches c hlive) hb
  · intro hnone n hn
    by_contra hne
    have hlive := ((hgives.live n).mp hn).1
    exact leaf_above_nothing h h.root hnone hlive (below_root h hlive hne)

theorem unmount_gives_back_first_subtree_someCalls :
    ∃ freed ns', rootfsUnmount someSpace = .ok (freed, ns') ∧ GivesBack someSpace ns' freed ∧
      ((∀ n ∈ ns'.live, n = someSpace.root) ↔ someSpace.head someSpace.root = none) :=
  unmount_gives_back_first_subtree noNodes 0 someCalls someCalls_allowed someCalls_intact rfl

/-- Two directories in the root are not given back. -/
example : (rootfsUnmount (next (next (mounted noNodes 0) (.mkdir 0 [97] 0o755 1))
    (.mkdir 0 [98] 0o755 2))).toOption.map Prod.fst = some [] := by
  decide +kernel

end Runs

end RootfsUnmount
