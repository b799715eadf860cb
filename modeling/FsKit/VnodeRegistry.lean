import Mathlib.Tactic
import FsKit.VnodeLayer

/-! The structures of the vnode layer, part by part: moving a vnode between the three lists,
and entering it into and taking it out of the skip list and the list of its name space. -/
namespace VnodeRegistry

open LinkedList SkipListSet VnodeLayer

section Moves
variable {s s' : Layer} {vn : ℕ} {n m : ListName}

@[simp] theorem setVnode_vns (s : Layer) (vn : ℕ) (f : Vnode → Vnode) :
    (setVnode s vn f).vns = Function.update s.vns vn (f (s.vns vn)) := rfl

@[simp] theorem moveVnode_vns (s : Layer) (vn : ℕ) (n : ListName) :
    (moveVnode s vn n).vns = Function.update s.vns vn { s.vns vn with inlist := n } := rfl

theorem moveVnode_num (s : Layer) (vn : ℕ) (n m : ListName) :
    ((moveVnode s vn n).lists m).num =
      (s.lists m).num - (if m = (s.vns vn).inlist then 1 else 0) + if m = n then 1 else 0 := by
  unfold moveVnode
  dsimp only
  by_cases hm : m = n
  · subst hm
    rw [Function.update_self, if_pos rfl]
    dsimp only
    by_cases hs : m = (s.vns vn).inlist
    · rw [← hs, Function.update_self, if_pos rfl]
    · rw [Function.update_of_ne hs, if_neg hs]
      omega
  · rw [Function.update_of_ne hm, if_neg hm]
    by_cases hs : m = (s.vns vn).inlist
    · rw [← hs, Function.update_self, if_pos rfl]
      dsimp only
      omega
    · rw [Function.update_of_ne hs, if_neg hs]
      omega

/-- The links and the ends after a move, as the family of lists has them. -/
theorem moveVnode_family (s : Layer) (vn : ℕ) (n : ListName) :
    let ends := Function.update (fun m => (s.lists m).ends) (s.vns vn).inlist
      (unlink s.list (s.lists (s.vns vn).inlist).ends vn).2
    let pushed := pushBack (unlink s.list (s.lists (s.vns vn).inlist).ends vn).1 (ends n) vn
    (moveVnode s vn n).list = pushed.1 ∧
    (fun m => ((moveVnode s vn n).lists m).ends) = Function.update ends n pushed.2 := by
  have hends : ∀ (f : ListName → VnList) (k : ListName) (v : VnList),
      (fun m => (Function.update f k v m).ends) = Function.update (fun m => (f m).ends) k v.ends :=
    fun f k v => Function.comp_update VnList.ends f k v
  intro ends pushed
  unfold moveVnode
  dsimp only
  rw [hends, hends]
  have hn : (Function.update s.lists (s.vns vn).inlist
      ⟨(unlink s.list (s.lists (s.vns vn).inlist).ends vn).2,
        (s.lists (s.vns vn).inlist).num - 1⟩ n).ends = ends n := congrFun (hends _ _ _) n
  rw [hn]
  exact ⟨rfl, rfl⟩

/-- The three lists hold the vnodes with their names in `inlist`, and count them. -/
structure Holds (s : Layer) (xs : ListName → List ℕ) : Prop where
  family : Family s.list (fun n => (s.lists n).ends) xs
  num : ∀ n, (s.lists n).num = (xs n).length
  mem : ∀ n v, v ∈ xs n ↔ v < s.vnnum ∧ (s.vns v).inlist = n

def Lists (s : Layer) : Prop := ∃ xs, Holds s xs

theorem Lists.congr (h : Lists s) (hl : s'.list = s.list) (hls : s'.lists = s.lists)
    (hn : s'.vnnum = s.vnnum) (hv : ∀ v, (s'.vns v).inlist = (s.vns v).inlist) : Lists s' := by
  obtain ⟨xs, h₁, h₂, h₃⟩ := h
  refine ⟨xs, by rw [hl, hls]; exact h₁, by rw [hls]; exact h₂, fun n v => ?_⟩
  rw [h₃, hn, hv]

theorem Lists.head_some (h : Lists s) (hh : (s.lists n).ends.head = some vn) :
    vn < s.vnnum ∧ (s.vns vn).inlist = n := by
  obtain ⟨xs, h₁, _, h₃⟩ := h
  rw [(h₁.isList n).head] at hh
  exact (h₃ n vn).mp (List.mem_of_head? hh)

theorem Lists.head_none (h : Lists s) (hh : (s.lists n).ends.head = none) {v : ℕ}
    (hv : v < s.vnnum) : (s.vns v).inlist ≠ n := by
  obtain ⟨xs, h₁, _, h₃⟩ := h
  have hnil := (h₁.isList n).eq_nil hh
  intro hn
  have hmem := (h₃ n v).mpr ⟨hv, hn⟩
  rw [hnil] at hmem
  cases hmem

theorem Lists.move (h : Lists s) (hvn : vn < s.vnnum) (n : ListName) :
    Lists (moveVnode s vn n) := by
  obtain ⟨xs, h₁, h₂, h₃⟩ := h
  have hsrc := (h₃ _ vn).mpr ⟨hvn, rfl⟩
  generalize hk : (s.vns vn).inlist = k at hsrc
  have hnodup := (h₁.isList k).nodup
  have hf := h₁.unlink hsrc
  have hmem : ∀ m v, v ∈ Function.update xs k ((xs k).erase vn) m ↔ v ≠ vn ∧ v ∈ xs m := by
    intro m v
    by_cases hm : m = k
    · subst hm
      rw [Function.update_self, hnodup.mem_erase_iff]
    · rw [Function.update_of_ne hm]
      refine ⟨fun hv => ⟨?_, hv⟩, fun hv => hv.2⟩
      rintro rfl
      exact hm (h₁.apart hv hsrc)
  have hout : ∀ m, vn ∉ Function.update xs k ((xs k).erase vn) m := by
    intro m hv
    exact ((hmem m vn).mp hv).1 rfl
  have hb := hf.pushBack hout n
  obtain ⟨hlist, hends⟩ := moveVnode_family s vn n
  rw [hk] at hlist hends
  rw [← hlist, ← hends] at hb
  refine ⟨_, hb, fun m => ?_, fun m v => ?_⟩
  · rw [moveVnode_num, h₂, hk]
    by_cases hm : m = n
    · subst hm
      rw [Function.update_self, if_pos rfl, List.length_append, List.length_singleton]
      by_cases hmk : m = k
      · subst hmk
        have hlen := List.length_erase_add_one hsrc
        rw [Function.update_self, if_pos rfl]
        push_cast
        omega
      · rw [Function.update_of_ne hmk, if_neg hmk]
        push_cast
        omega
    · rw [Function.update_of_ne hm, if_neg hm]
      by_cases hmk : m = k
      · subst hmk
        have hlen := List.length_erase_add_one hsrc
        rw [Function.update_self, if_pos rfl]
        omega
      · rw [Function.update_of_ne hmk, if_neg hmk]
        omega
  · have hback : v ∈ Function.update (Function.update xs k ((xs k).erase vn)) n
        (Function.update xs k ((xs k).erase vn) n ++ [vn]) m ↔
        (v ≠ vn ∧ v ∈ xs m) ∨ (v = vn ∧ m = n) := by
      by_cases hm : m = n
      · subst hm
        rw [Function.update_self, List.mem_append, hmem, List.mem_singleton]
        simp
      · rw [Function.update_of_ne hm, hmem]
        simp [hm]
    rw [hback, h₃, moveVnode_vns]
    by_cases hv : v = vn
    · subst hv
      rw [Function.update_self]
      constructor
      · rintro (⟨hne, _⟩ | ⟨_, rfl⟩)
        · exact absurd rfl hne
        · exact ⟨hvn, rfl⟩
      · rintro ⟨_, rfl⟩
        exact Or.inr ⟨rfl, rfl⟩
    · rw [Function.update_of_ne hv]
      constructor
      · rintro (⟨_, hmem⟩ | ⟨rfl, _⟩)
        · exact hmem
        · exact absurd rfl hv
      · intro hmem
        exact Or.inl ⟨hv, hmem⟩

theorem Holds.total {xs : ListName → List ℕ} (h : Holds s xs) :
    (xs .free).length + (xs .used).length + (xs .locked).length = s.vnnum := by
  have hnodup : (xs .free ++ xs .used ++ xs .locked).Nodup := by
    rw [List.nodup_append, List.nodup_append]
    refine ⟨⟨(h.family.isList _).nodup, (h.family.isList _).nodup, ?_⟩,
      (h.family.isList _).nodup, ?_⟩
    · rintro a ha b hb rfl
      cases h.family.apart ha hb
    · rintro a ha b hb rfl
      rcases List.mem_append.mp ha with ha | ha <;> cases h.family.apart ha hb
  have hmem : ∀ v, v ∈ xs .free ++ xs .used ++ xs .locked ↔ v ∈ List.range s.vnnum := by
    intro v
    rw [List.mem_append, List.mem_append, h.mem, h.mem, h.mem, List.mem_range]
    cases (s.vns v).inlist <;> simp
  have hperm := (List.perm_ext_iff_of_nodup hnodup List.nodup_range).mpr hmem
  have hlen := hperm.length_eq
  rw [List.length_append, List.length_append, List.length_range] at hlen
  exact hlen

end Moves

section Keys
variable {s s' : Layer} {R : ℕ → Prop} {vn nsid random : ℕ} {vnid : ℤ}

/-- The ids of a vnode, name space first. -/
def idOf (s : Layer) (vn : ℕ) : ℕ × ℤ := (nsidOf s vn, (s.vns vn).vnid)

/-- The order of `compare_vnode`. -/
def IdLt (a b : ℕ × ℤ) : Prop := a.2 < b.2 ∨ a.2 = b.2 ∧ a.1 < b.1

theorem IdLt.trans {a b c : ℕ × ℤ} (h₁ : IdLt a b) (h₂ : IdLt b c) : IdLt a c := by
  unfold IdLt at *
  omega

theorem IdLt.irrefl (a : ℕ × ℤ) : ¬ IdLt a a := by
  unfold IdLt
  omega

theorem compareWith_neg (s : Layer) (nsid : ℕ) (vnid : ℤ) (vn : ℕ) :
    compareWith s nsid vnid vn < 0 ↔ IdLt (idOf s vn) (nsid, vnid) := by
  unfold compareWith compareVnode IdLt idOf
  dsimp only
  split_ifs <;> omega

theorem compareWith_pos (s : Layer) (nsid : ℕ) (vnid : ℤ) (vn : ℕ) :
    0 < compareWith s nsid vnid vn ↔ IdLt (nsid, vnid) (idOf s vn) := by
  unfold compareWith compareVnode IdLt idOf
  dsimp only
  split_ifs <;> omega

theorem compareWith_zero (s : Layer) (nsid : ℕ) (vnid : ℤ) (vn : ℕ) :
    compareWith s nsid vnid vn = 0 ↔ idOf s vn = (nsid, vnid) := by
  have hsign : compareWith s nsid vnid vn = 0 ↔
      ¬ compareWith s nsid vnid vn < 0 ∧ ¬ 0 < compareWith s nsid vnid vn := by omega
  rw [hsign, compareWith_neg, compareWith_pos]
  unfold IdLt idOf
  rw [Prod.mk.injEq]
  dsimp only
  omega

/-- The skip list and the lists of the name spaces hold the vnodes in `R`, by their ids. -/
structure Registry (s : Layer) (R : ℕ → Prop) : Prop where
  wf : Wf s.skiplist
  mem : ∀ v, v ∈ members s.skiplist ↔ R v
  sorted : (members s.skiplist).Pairwise fun a b => IdLt (idOf s a) (idOf s b)
  live : ∀ v, R v → ∃ p, (s.vns v).ns = some p ∧ nsidtons s (s.spaces p).nsid = some p
  spaces : ∃ ys : ℕ → List ℕ, Family s.nspace (fun p => (s.spaces p).vnodes) ys ∧
    ∀ p v, v ∈ ys p ↔ R v ∧ (s.vns v).ns = some p

theorem Registry.fits (h : Registry s R) (nsid : ℕ) (vnid : ℤ) :
    Fits (compareWith s nsid vnid) (members s.skiplist) := by
  refine h.sorted.imp fun {a b} hab hle => ?_
  rw [compareWith_neg]
  rcases hle.lt_or_eq with hlt | heq
  · exact hab.trans ((compareWith_neg s nsid vnid b).mp hlt)
  · rw [compareWith_zero] at heq
    rwa [heq] at hab

theorem Registry.id_inj (h : Registry s R) {v w : ℕ} (hv : R v) (hw : R w)
    (hid : idOf s v = idOf s w) : v = w := by
  by_contra hne
  have hmv := (h.mem v).mpr hv
  have hmw := (h.mem w).mpr hw
  obtain ⟨as, bs, hsplit⟩ := List.append_of_mem hmv
  rw [hsplit, List.mem_append, List.mem_cons] at hmw
  have hsorted := h.sorted
  rw [hsplit, List.pairwise_append, List.pairwise_cons] at hsorted
  rcases hmw with hw | rfl | hw
  · have := hsorted.2.2 w hw v List.mem_cons_self
    rw [hid] at this
    exact IdLt.irrefl _ this
  · exact hne rfl
  · have := hsorted.2.1.1 w hw
    rw [hid] at this
    exact IdLt.irrefl _ this

/-- A lookup finds the registered vnode with the ids, if there is one. -/
theorem Registry.lookup_some (h : Registry s R) (hl : lookupVnode s nsid vnid = some vn) :
    R vn ∧ idOf s vn = (nsid, vnid) := by
  obtain ⟨hmem, hzero⟩ := (searchSL_spec h.wf (h.fits nsid vnid)).1 vn hl
  exact ⟨(h.mem vn).mp hmem, (compareWith_zero s nsid vnid vn).mp hzero⟩

theorem Registry.lookup_none (h : Registry s R) (hl : lookupVnode s nsid vnid = none) {v : ℕ}
    (hv : R v) : idOf s v ≠ (nsid, vnid) := by
  have hne := (searchSL_spec h.wf (h.fits nsid vnid)).2 hl v ((h.mem v).mpr hv)
  rwa [Ne, compareWith_zero] at hne

/-- The name spaces of two tables have the same ids and marks. -/
structure SameSpaces (s s' : Layer) : Prop where
  nns : s'.nns = s.nns
  nstab : s'.nstab = s.nstab
  ids : ∀ p, (s'.spaces p).nsid = (s.spaces p).nsid ∧ (s'.spaces p).shutdown = (s.spaces p).shutdown

theorem SameSpaces.nsidtons (h : SameSpaces s s') (nsid : ℕ) :
    nsidtons s' nsid = nsidtons s nsid := by
  unfold VnodeLayer.nsidtons
  rw [h.nns, h.nstab]
  cases s.nstab (nsid % s.nns) with
  | none => rfl
  | some p => simp only [(h.ids p).1, (h.ids p).2]

theorem SameSpaces.idOf (h : SameSpaces s s') {v : ℕ} (hns : (s'.vns v).ns = (s.vns v).ns)
    (hvnid : (s'.vns v).vnid = (s.vns v).vnid) : idOf s' v = idOf s v := by
  unfold VnodeRegistry.idOf nsidOf
  rw [hns, hvnid]
  cases (s.vns v).ns with
  | none => rfl
  | some p => simp only [Option.map_some, (h.ids p).1]

theorem Registry.congr (h : Registry s R) (hsl : s'.skiplist = s.skiplist)
    (hns : s'.nspace = s.nspace) (hsp : s'.spaces = s.spaces) (htab : s'.nstab = s.nstab)
    (hnns : s'.nns = s.nns)
    (hv : ∀ v, R v → (s'.vns v).ns = (s.vns v).ns ∧ (s'.vns v).vnid = (s.vns v).vnid) :
    Registry s' R := by
  have hsame : SameSpaces s s' := ⟨hnns, htab, fun p => by rw [hsp]; exact ⟨rfl, rfl⟩⟩
  refine ⟨by rw [hsl]; exact h.wf, by rw [hsl]; exact h.mem, ?_, ?_, ?_⟩
  · rw [hsl]
    refine h.sorted.imp_of_mem fun {a b} ha hb hab => ?_
    have ha := hv a ((h.mem a).mp ha)
    have hb := hv b ((h.mem b).mp hb)
    rwa [hsame.idOf ha.1 ha.2, hsame.idOf hb.1 hb.2]
  · intro v hR
    obtain ⟨p, hp, hlive⟩ := h.live v hR
    refine ⟨p, by rw [(hv v hR).1, hp], ?_⟩
    rw [hsp, hsame.nsidtons, hlive]
  · obtain ⟨ys, hys, hmem⟩ := h.spaces
    refine ⟨ys, by rw [hns, hsp]; exact hys, fun p v => ?_⟩
    rw [hmem]
    refine and_congr_right fun hR => ?_
    rw [(hv v hR).1]

/-- Everything beside the vnodes' fields, the skip list and the lists of the name spaces. -/
structure Beside (s s' : Layer) : Prop where
  spaces : SameSpaces s s'
  vnnum : s'.vnnum = s.vnnum
  usdvnnum : s'.usdvnnum = s.usdvnnum
  list : s'.list = s.list
  lists : s'.lists = s.lists
  log : s'.log = s.log

theorem setSpaceVnodes_vnodes (s : Layer) (p : ℕ) (e : Ends ℕ) :
    (fun q => ((setSpaceVnodes s p e).spaces q).vnodes) =
      Function.update (fun q => (s.spaces q).vnodes) p e :=
  Function.comp_update Nspace.vnodes s.spaces p { s.spaces p with vnodes := e }

theorem setSpaceVnodes_same (s : Layer) (p : ℕ) (e : Ends ℕ) :
    SameSpaces s (setSpaceVnodes s p e) := by
  refine ⟨rfl, rfl, fun q => ?_⟩
  unfold setSpaceVnodes
  dsimp only
  by_cases hq : q = p
  · subst hq
    rw [Function.update_self]
    exact ⟨rfl, rfl⟩
  · rw [Function.update_of_ne hq]
    exact ⟨rfl, rfl⟩

/-- Registering a vnode with ids that are not taken. -/
theorem Registry.sort (h : Registry s R) (hv : ¬ R vn) {p : ℕ} (hns : (s.vns vn).ns = some p)
    (hlive : nsidtons s (s.spaces p).nsid = some p) (hid : ∀ w, R w → idOf s w ≠ idOf s vn)
    (hr : random ≤ maxLevel) :
    ∃ s', sortVnode s vn random = .ok (0, s') ∧ Registry s' (fun w => w = vn ∨ R w) ∧
      Beside s s' ∧ s'.vns = s.vns := by
  have hkey : idOf s vn = ((s.spaces p).nsid, (s.vns vn).vnid) := by
    simp [idOf, nsidOf, hns]
  obtain ⟨hone, hwf, as, bs, hmem, hmem', hlt, hgt⟩ :=
    insertSL_spec h.wf (h.fits (s.spaces p).nsid (s.vns vn).vnid) (fun w hw => by
      rw [Ne, compareWith_zero, ← hkey]
      exact hid w ((h.mem w).mp hw)) vn hr
  unfold sortVnode
  rw [hns]
  dsimp only
  generalize insertSL s.skiplist vn _ random = ins at hone hwf hmem' ⊢
  obtain ⟨ok, skiplist⟩ := ins
  dsimp only at hone hwf hmem' ⊢
  subst hone
  rw [if_neg (by decide)]
  obtain ⟨ys, hys, hin⟩ := h.spaces
  have hout : ∀ q, vn ∉ ys q := fun q hq => hv ((hin q vn).mp hq).1
  have hfront := hys.pushFront hout p
  generalize pushFront s.nspace (s.spaces p).vnodes vn = pushed at hfront ⊢
  obtain ⟨links, ends⟩ := pushed
  dsimp only at hfront ⊢
  have hsame := setSpaceVnodes_same { s with skiplist := skiplist, nspace := links } p ends
  have hsame' : SameSpaces s
      (setSpaceVnodes { s with skiplist := skiplist, nspace := links } p ends) :=
    ⟨hsame.nns, hsame.nstab, hsame.ids⟩
  have hperm : ∀ w, w ∈ as ++ vn :: bs ↔ w = vn ∨ R w := by
    intro w
    rw [List.perm_middle.mem_iff, List.mem_cons, ← hmem, h.mem]
  refine ⟨_, rfl, ⟨hwf, ?_, ?_, ?_, ?_⟩, ⟨hsame', rfl, rfl, rfl, rfl, rfl⟩, rfl⟩
  · intro w
    rw [← hperm w, ← hmem']
    rfl
  · have hsorted := h.sorted
    have hids : ∀ w, idOf (setSpaceVnodes { s with skiplist := skiplist, nspace := links } p ends) w
        = idOf s w := fun w => hsame'.idOf rfl rfl
    have hgoal : (as ++ vn :: bs).Pairwise fun a b => IdLt (idOf s a) (idOf s b) := by
      rw [hmem, List.pairwise_append] at hsorted
      obtain ⟨h₁, h₂, h₃⟩ := hsorted
      rw [List.pairwise_append, List.pairwise_cons]
      refine ⟨h₁, ⟨fun b hb => ?_, h₂⟩, fun a ha b hb => ?_⟩
      · rw [hkey, ← compareWith_pos]
        exact hgt b hb
      · rcases List.mem_cons.mp hb with rfl | hb
        · rw [hkey, ← compareWith_neg]
          exact hlt a ha
        · exact h₃ a ha b hb
    have hmem'' : members (setSpaceVnodes { s with skiplist := skiplist, nspace := links }
        p ends).skiplist = as ++ vn :: bs := hmem'
    rw [hmem'']
    exact hgoal.imp fun {a b} hab => by rwa [hids, hids]
  · have hnsid : ∀ q, ((setSpaceVnodes { s with skiplist := skiplist, nspace := links } p
        ends).spaces q).nsid = (s.spaces q).nsid := fun q => (hsame'.ids q).1
    rintro w (rfl | hw)
    · exact ⟨p, hns, by rw [hnsid, hsame'.nsidtons, hlive]⟩
    · obtain ⟨q, hq, hl⟩ := h.live w hw
      exact ⟨q, hq, by rw [hnsid, hsame'.nsidtons, hl]⟩
  · refine ⟨Function.update ys p (vn :: ys p), ?_, fun q w => ?_⟩
    · rw [setSpaceVnodes_vnodes]
      exact hfront
    · have hvns : ((setSpaceVnodes { s with skiplist := skiplist, nspace := links } p
          ends).vns w).ns = (s.vns w).ns := rfl
      rw [hvns]
      by_cases hq : q = p
      · subst hq
        rw [Function.update_self, List.mem_cons, hin]
        constructor
        · rintro (rfl | hw)
          · exact ⟨Or.inl rfl, hns⟩
          · exact ⟨Or.inr hw.1, hw.2⟩
        · rintro ⟨rfl | hw, hwns⟩
          · exact Or.inl rfl
          · exact Or.inr ⟨hw, hwns⟩
      · rw [Function.update_of_ne hq, hin]
        constructor
        · exact fun hw => ⟨Or.inr hw.1, hw.2⟩
        · rintro ⟨rfl | hw, hwns⟩
          · rw [hns] at hwns
            cases hwns
            exact absurd rfl hq
          · exact ⟨hw, hwns⟩

/-- A vnode as `clear_vnode` leaves it. -/
def cleared (v : Vnode) : Vnode :=
  { v with
    vnid := invalidVnid, ns := none, remove := false, data := 0, rcnt := 0, busy := false
    mounted := none }

/-- Taking a registered vnode out again. -/
theorem Registry.clear (h : Registry s R) (hv : R vn) :
    ∃ s', clearVnode s vn = .ok s' ∧ Registry s' (fun w => R w ∧ w ≠ vn) ∧ Beside s s' ∧
      s'.vns = Function.update s.vns vn (cleared (s.vns vn)) := by
  obtain ⟨p, hns, hlive⟩ := h.live vn hv
  have hkey : idOf s vn = ((s.spaces p).nsid, (s.vns vn).vnid) := by
    simp [idOf, nsidOf, hns]
  obtain ⟨_, hwf, as, bs, hmem, hmem'⟩ :=
    deleteSL_spec h.wf (h.fits (s.spaces p).nsid (s.vns vn).vnid) ((h.mem vn).mpr hv)
      ((compareWith_zero s _ _ vn).mpr hkey)
  unfold clearVnode
  rw [hns]
  dsimp only
  generalize (deleteSL s.skiplist _).2 = skiplist at hwf hmem' ⊢
  obtain ⟨ys, hys, hin⟩ := h.spaces
  have hunlink := hys.unlink ((hin p vn).mpr ⟨hv, hns⟩)
  have hnodup := (hys.isList p).nodup
  generalize unlink s.nspace (s.spaces p).vnodes vn = out at hunlink ⊢
  obtain ⟨links, ends⟩ := out
  dsimp only at hunlink ⊢
  generalize hlinks : (links.setNext vn none).setPrev vn none = links'
  have hsame := setSpaceVnodes_same { s with skiplist := skiplist, nspace := links' } p ends
  have hnotin : ∀ q, vn ∉ Function.update ys p ((ys p).erase vn) q := by
    intro q hq
    by_cases hqp : q = p
    · subst hqp
      rw [Function.update_self, hnodup.mem_erase_iff] at hq
      exact hq.1 rfl
    · rw [Function.update_of_ne hqp, hin, hns] at hq
      exact hqp (Option.some.inj hq.2).symm
  have hfam : Family links' (Function.update (fun q => (s.spaces q).vnodes) p ends)
      (Function.update ys p ((ys p).erase vn)) := by
    refine ⟨fun q => (hunlink.isList q).congr fun w hw => ?_, hunlink.apart⟩
    have hwvn : w ≠ vn := by rintro rfl; exact hnotin q hw
    rw [← hlinks]
    simp [Links.setNext_next, Links.setPrev_prev, hwvn]
  have hother : ∀ w, w ≠ vn → Function.update s.vns vn (cleared (s.vns vn)) w = s.vns w :=
    fun w hw => Function.update_of_ne hw _ _
  generalize hs' : setVnode (setSpaceVnodes { s with skiplist := skiplist, nspace := links' } p
    ends) vn _ = s'
  have hvns : s'.vns = Function.update s.vns vn (cleared (s.vns vn)) := by rw [← hs']; rfl
  have hsame' : SameSpaces s s' := by
    rw [← hs']
    exact ⟨hsame.nns, hsame.nstab, hsame.ids⟩
  have hsl : s'.skiplist = skiplist := by rw [← hs']; rfl
  have hids : ∀ w, w ≠ vn → idOf s' w = idOf s w := by
    intro w hw
    refine hsame'.idOf ?_ ?_
    · rw [hvns, hother w hw]
    · rw [hvns, hother w hw]
  have hout : vn ∉ as ++ bs := by
    have hsorted := h.sorted
    rw [hmem] at hsorted
    have hn : (as ++ vn :: bs).Nodup := hsorted.imp fun {a b} hab => by
      rintro rfl
      exact IdLt.irrefl _ hab
    exact (List.nodup_cons.mp (List.nodup_middle.mp hn)).1
  refine ⟨s', rfl, ⟨by rw [hsl]; exact hwf, ?_, ?_, ?_, ?_⟩,
    ⟨hsame', by rw [← hs']; rfl, by rw [← hs']; rfl, by rw [← hs']; rfl, by rw [← hs']; rfl,
      by rw [← hs']; rfl⟩, hvns⟩
  · intro w
    rw [hsl, hmem', ← h.mem w, hmem, List.perm_middle.mem_iff, List.mem_cons]
    constructor
    · intro hw
      exact ⟨Or.inr hw, by rintro rfl; exact hout hw⟩
    · rintro ⟨rfl | hw, hne⟩
      · exact absurd rfl hne
      · exact hw
  · rw [hsl, hmem']
    have hsorted := h.sorted
    rw [hmem] at hsorted
    have hsub : (as ++ bs).Sublist (as ++ vn :: bs) :=
      (List.Sublist.refl as).append (List.sublist_cons_self vn bs)
    refine (hsorted.sublist hsub).imp_of_mem fun {a b} ha hb hab => ?_
    have hav : a ≠ vn := by rintro rfl; exact hout ha
    have hbv : b ≠ vn := by rintro rfl; exact hout hb
    rwa [hids a hav, hids b hbv]
  · rintro w ⟨hw, hne⟩
    obtain ⟨q, hq, hl⟩ := h.live w hw
    refine ⟨q, by rw [hvns, hother w hne, hq], ?_⟩
    rw [(hsame'.ids q).1, hsame'.nsidtons, hl]
  · refine ⟨Function.update ys p ((ys p).erase vn), ?_, fun q w => ?_⟩
    · have hnsp : s'.nspace = links' := by rw [← hs']; rfl
      have hends : (fun q => (s'.spaces q).vnodes) =
          Function.update (fun q => (s.spaces q).vnodes) p ends := by
        rw [← hs']
        exact setSpaceVnodes_vnodes _ _ _
      rw [hnsp, hends]
      exact hfam
    · rw [hvns]
      by_cases hw : w = vn
      · subst hw
        rw [Function.update_self]
        simp [hnotin q, cleared]
      · rw [hother w hw]
        by_cases hq : q = p
        · subst hq
          rw [Function.update_self, hnodup.mem_erase_iff, hin]
          simp [hw]
        · rw [Function.update_of_ne hq, hin]
          simp [hw]

end Keys

end VnodeRegistry
