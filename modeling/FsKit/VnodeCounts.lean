import Mathlib.Tactic
import FsKit.VnodeTable

/-! What the calls of the vnode layer do to the reference counts. A call changes the count of
the one vnode it is about; on the way the layer may take the ids from a vnode that nobody
refers to, never from one that is referenced. -/
namespace VnodeCounts

open MachineIntegers SkipListSet VnodeLayer VnodeRegistry VnodeTable

/-- The fields of a vnode that its holders rely on. -/
structure Alike (v v' : Vnode) : Prop where
  rcnt : v'.rcnt = v.rcnt
  ns : v'.ns = v.ns
  vnid : v'.vnid = v.vnid
  mounted : v'.mounted = v.mounted

/-- A vnode that nobody refers to has lost its ids. -/
structure Shed (v v' : Vnode) : Prop where
  before : v.rcnt = 0
  after : v'.rcnt = 0
  mounted : v'.mounted = none

theorem Alike.refl (v : Vnode) : Alike v v := ⟨rfl, rfl, rfl, rfl⟩

theorem Alike.trans {u v w : Vnode} (h : Alike u v) (k : Alike v w) : Alike u w :=
  ⟨k.rcnt.trans h.rcnt, k.ns.trans h.ns, k.vnid.trans h.vnid, k.mounted.trans h.mounted⟩

theorem calm_trans {u v w : Vnode} (h : Alike u v ∨ Shed u v) (k : Alike v w ∨ Shed v w) :
    Alike u w ∨ Shed u w := by
  rcases h with h | h <;> rcases k with k | k
  · exact .inl (h.trans k)
  · exact .inr ⟨h.rcnt ▸ k.before, k.after, k.mounted⟩
  · exact .inr ⟨h.before, k.rcnt.trans h.after, k.mounted.trans h.mounted⟩
  · exact .inr ⟨h.before, k.after, k.mounted⟩

/-- Nothing happened to the vnodes beside `V`, except that some were shed. -/
structure CalmBut (V : ℕ → Prop) (s s' : Layer) : Prop where
  vnnum : s'.vnnum = s.vnnum
  spaces : SameSpaces s s'
  others : ∀ w, ¬ V w → Alike (s.vns w) (s'.vns w) ∨ Shed (s.vns w) (s'.vns w)

section Steps
variable {V : ℕ → Prop} {s s' s'' : Layer} {vn : ℕ}

theorem CalmBut.refl (V : ℕ → Prop) (s : Layer) : CalmBut V s s :=
  ⟨rfl, ⟨rfl, rfl, fun _ => ⟨rfl, rfl⟩⟩, fun _ _ => .inl (.refl _)⟩

theorem CalmBut.trans (h : CalmBut V s s') (k : CalmBut V s' s'') : CalmBut V s s'' where
  vnnum := k.vnnum.trans h.vnnum
  spaces := ⟨k.spaces.nns.trans h.spaces.nns, k.spaces.nstab.trans h.spaces.nstab, fun p =>
    ⟨(k.spaces.ids p).1.trans (h.spaces.ids p).1, (k.spaces.ids p).2.trans (h.spaces.ids p).2⟩⟩
  others w hw := calm_trans (h.others w hw) (k.others w hw)

theorem CalmBut.mono {W : ℕ → Prop} (h : CalmBut V s s') (hVW : ∀ w, V w → W w) :
    CalmBut W s s' :=
  ⟨h.vnnum, h.spaces, fun w hw => h.others w fun hV => hw (hVW w hV)⟩

theorem calm_record (o : Obs) : CalmBut V s (record s o) :=
  ⟨rfl, ⟨rfl, rfl, fun _ => ⟨rfl, rfl⟩⟩, fun _ _ => .inl (.refl _)⟩

theorem calm_set (hV : V vn) (f : Vnode → Vnode) : CalmBut V s (setVnode s vn f) := by
  refine ⟨rfl, ⟨rfl, rfl, fun _ => ⟨rfl, rfl⟩⟩, fun w hw => .inl ?_⟩
  have hne : w ≠ vn := by
    rintro rfl
    exact hw hV
  rw [setVnode_vns, Function.update_of_ne hne]
  exact .refl _

theorem moveVnode_alike (s : Layer) (vn : ℕ) (n : ListName) (w : ℕ) :
    Alike (s.vns w) ((moveVnode s vn n).vns w) := by
  rw [moveVnode_vns]
  by_cases hw : w = vn
  · rw [hw, Function.update_self]
    exact ⟨rfl, rfl, rfl, rfl⟩
  · rw [Function.update_of_ne hw]
    exact .refl _

theorem calm_move (vn : ℕ) (n : ListName) : CalmBut V s (moveVnode s vn n) :=
  ⟨rfl, ⟨rfl, rfl, fun _ => ⟨rfl, rfl⟩⟩, fun w _ => .inl (moveVnode_alike s vn n w)⟩

theorem clearVnode_vns (h : clearVnode s vn = .ok s') :
    s'.vns = Function.update s.vns vn (cleared (s.vns vn)) ∧ s'.vnnum = s.vnnum ∧
      SameSpaces s s' := by
  unfold clearVnode at h
  cases hns : (s.vns vn).ns with
  | none =>
    rw [hns] at h
    cases h
  | some p =>
    rw [hns] at h
    simp only [Except.ok.injEq] at h
    subst h
    exact ⟨rfl, rfl, rfl, rfl, (setSpaceVnodes_same s p _).ids⟩

theorem calm_clear (h : clearVnode s vn = .ok s') (hz : V vn ∨ (s.vns vn).rcnt = 0) :
    CalmBut V s s' := by
  obtain ⟨hvns, hnum, hspaces⟩ := clearVnode_vns h
  refine ⟨hnum, hspaces, fun w hw => ?_⟩
  rw [hvns]
  by_cases hwv : w = vn
  · subst hwv
    rw [Function.update_self]
    exact .inr ⟨hz.resolve_left hw, rfl, rfl⟩
  · rw [Function.update_of_ne hwv]
    exact .inl (.refl _)

theorem flushVnode_vns {r : Bool} (h : flushVnode s vn r = .ok s') :
    (s'.vns vn).rcnt = 0 ∧ (s'.vns vn).mounted = none ∧
      ((V vn ∨ (s.vns vn).rcnt = 0) → CalmBut V s s') := by
  unfold flushVnode at h
  cases hns : (s.vns vn).ns with
  | none =>
    rw [hns] at h
    cases h
  | some p =>
    rw [hns] at h
    dsimp only at h
    generalize hs₁ : setVnode (record (setVnode s vn fun v => { v with busy := true }) _) vn
      (fun v => { v with busy := false }) = s₁ at h
    have hat : s₁.vns vn = { s.vns vn with busy := false } := by
      rw [← hs₁, setVnode_vns, Function.update_self]
      change { Function.update s.vns vn { s.vns vn with busy := true } vn with busy := false } = _
      rw [Function.update_self]
    have hoth : ∀ w, w ≠ vn → s₁.vns w = s.vns w := by
      intro w hw
      rw [← hs₁, setVnode_vns, Function.update_of_ne hw]
      exact Function.update_of_ne hw _ _
    have hcalm : CalmBut V s s₁ := by
      refine ⟨by rw [← hs₁]; rfl, by rw [← hs₁]; exact ⟨rfl, rfl, fun _ => ⟨rfl, rfl⟩⟩, ?_⟩
      intro w _
      refine .inl ?_
      by_cases hw : w = vn
      · rw [hw, hat]
        exact ⟨rfl, rfl, rfl, rfl⟩
      · rw [hoth w hw]
        exact .refl _
    obtain ⟨hvns, _, _⟩ := clearVnode_vns h
    refine ⟨by rw [hvns, Function.update_self]; rfl, by rw [hvns, Function.update_self]; rfl, ?_⟩
    intro hz
    refine hcalm.trans (calm_clear h ?_)
    rw [hat]
    exact hz

end Steps

/-- The counts changed by `d`; a vnode that stays referenced keeps its identity, and no vnode
has become a mount point. -/
structure Change (s s' : Layer) (d : ℕ → ℤ) : Prop where
  sound : Sound s'
  vnnum : s'.vnnum = s.vnnum
  spaces : SameSpaces s s'
  rcnt : ∀ w, (s'.vns w).rcnt = (s.vns w).rcnt + d w
  kept : ∀ w, 0 < (s.vns w).rcnt → 0 < (s'.vns w).rcnt → (s'.vns w).ns = (s.vns w).ns ∧
    (s'.vns w).vnid = (s.vns w).vnid ∧ (s'.vns w).mounted = (s.vns w).mounted
  mounted : ∀ w ns, (s'.vns w).mounted = some ns → (s.vns w).mounted = some ns

theorem Change.refl {s : Layer} (h : Sound s) : Change s s 0 :=
  ⟨h, rfl, ⟨rfl, rfl, fun _ => ⟨rfl, rfl⟩⟩, fun _ => (add_zero _).symm,
    fun _ _ _ => ⟨rfl, rfl, rfl⟩, fun _ _ h => h⟩

/-- A change of one vnode, given what happened to that vnode itself. -/
theorem Change.of_one {s s' : Layer} {vn : ℕ} {k : ℤ} (h : CalmBut (· = vn) s s') (hs : Sound s')
    (hr : (s'.vns vn).rcnt = (s.vns vn).rcnt + k)
    (hk : 0 < (s.vns vn).rcnt → 0 < (s'.vns vn).rcnt →
      (s'.vns vn).ns = (s.vns vn).ns ∧ (s'.vns vn).vnid = (s.vns vn).vnid ∧
        (s'.vns vn).mounted = (s.vns vn).mounted)
    (hm : ∀ ns, (s'.vns vn).mounted = some ns → (s.vns vn).mounted = some ns) :
    Change s s' (Pi.single vn k) := by
  refine ⟨hs, h.vnnum, h.spaces, fun w => ?_, fun w h₀ h₁ => ?_, fun w ns hw => ?_⟩
  · by_cases hwv : w = vn
    · subst hwv
      rw [Pi.single_eq_same, hr]
    · rw [Pi.single_eq_of_ne hwv, add_zero]
      rcases h.others w hwv with ha | ha
      · exact ha.rcnt
      · rw [ha.before, ha.after]
  · by_cases hwv : w = vn
    · subst hwv
      exact hk h₀ h₁
    · rcases h.others w hwv with ha | ha
      · exact ⟨ha.ns, ha.vnid, ha.mounted⟩
      · rw [ha.before] at h₀
        omega
  · by_cases hwv : w = vn
    · subst hwv
      exact hm ns hw
    · rcases h.others w hwv with ha | ha
      · rw [← ha.mounted]
        exact hw
      · rw [ha.mounted] at hw
        cases hw

section Calls
variable {s s' : Layer} {vn nsid random data : ℕ} {vnid err : ℤ}

theorem Sound.registered (h : Sound s) (hvn : vn < s.vnnum) (hpos : 0 < (s.vns vn).rcnt) :
    Registered s vn := by
  refine ⟨hvn, fun hns => ?_⟩
  have := ((h.placed vn hvn).free hns).2.1
  omega

theorem used_rcnt {v : Vnode} (h : Placed v) (hin : v.inlist = .used) : v.rcnt = 0 := by
  by_contra hne
  by_cases hns : v.ns = none
  · have := (h.free hns).1
    rw [hin] at this
    cases this
  · have := h.locked hns hne
    rw [hin] at this
    cases this

/-- `keep_used` sheds a vnode from the front of the used list, where nobody refers to any. -/
theorem keepUsed_calm {r : Bool} (hl : Lists s) (hvn : vn < s.vnnum)
    (hused : ∀ w < s.vnnum, w ≠ vn → (s.vns w).inlist = .used → (s.vns w).rcnt = 0)
    (h : keepUsed s vn r = .ok s') :
    CalmBut (· = vn) s s' ∧ (Alike (s.vns vn) (s'.vns vn) ∨
      (s'.vns vn).rcnt = 0 ∧ (s'.vns vn).mounted = none) := by
  unfold keepUsed at h
  dsimp only at h
  have hmove := hl.move hvn .used
  have hat := moveVnode_alike s vn .used vn
  split at h
  swap
  · simp only [Except.ok.injEq] at h
    subst h
    exact ⟨calm_move vn .used, .inl hat⟩
  cases hh : ((moveVnode s vn .used).lists .used).ends.head with
  | none =>
    rw [stealVnode_none hh] at h
    cases h
  | some ovn =>
    rw [stealVnode_some hh] at h
    dsimp only at h
    obtain ⟨hlt, hin⟩ := hmove.head_some hh
    cases hf : flushVnode (moveVnode (moveVnode s vn .used) ovn .locked) ovn r with
    | error e =>
      rw [hf] at h
      cases h
    | ok s₁ =>
      rw [hf] at h
      simp only [Except.map, Except.ok.injEq] at h
      subst h
      obtain ⟨hz, hm, hcalm⟩ := flushVnode_vns (V := (· = vn)) hf
      have hcond :
          ovn = vn ∨ ((moveVnode (moveVnode s vn .used) ovn .locked).vns ovn).rcnt = 0 := by
        by_cases ho : ovn = vn
        · exact .inl ho
        · refine .inr ?_
          rw [(moveVnode_alike _ ovn .locked ovn).rcnt, moveVnode_vns, Function.update_of_ne ho]
          rw [moveVnode_vns, Function.update_of_ne ho] at hin
          exact hused ovn hlt ho hin
      have hstart : CalmBut (· = vn) s (moveVnode (moveVnode s vn .used) ovn .locked) :=
        (calm_move vn .used).trans (calm_move ovn .locked)
      refine ⟨(hstart.trans (hcalm hcond)).trans (calm_move ovn .free), ?_⟩
      have hlast := moveVnode_alike s₁ ovn .free vn
      by_cases ho : ovn = vn
      · subst ho
        exact .inr ⟨hlast.rcnt.trans hz, hlast.mounted.trans hm⟩
      · -- another vnode was shed, so `vn` itself is only moved
        obtain ⟨_, _, hcalm'⟩ := flushVnode_vns (V := (· = ovn)) hf
        have hvo := (hcalm' (.inl rfl)).others vn fun he => ho he.symm
        have hstart' := hat.trans (moveVnode_alike (moveVnode s vn .used) ovn .locked vn)
        rcases hvo with hvo | hvo
        · exact .inl ((hstart'.trans hvo).trans hlast)
        · exact .inr ⟨hlast.rcnt.trans hvo.after, hlast.mounted.trans hvo.mounted⟩

theorem disposeRemoved_calm {r : Bool} (h : disposeRemoved s vn r = .ok s') :
    CalmBut (· = vn) s s' ∧ (s'.vns vn).rcnt = 0 ∧ (s'.vns vn).mounted = none := by
  unfold disposeRemoved at h
  cases hns : (s.vns vn).ns with
  | none =>
    rw [hns] at h
    cases h
  | some p =>
    rw [hns] at h
    dsimp only at h
    generalize hs₁ : record (moveVnode (setVnode s vn fun v => { v with busy := true }) vn .locked)
      _ = s₁ at h
    have hcalm : CalmBut (· = vn) s s₁ := by
      rw [← hs₁]
      exact ((calm_set (V := (· = vn)) rfl _).trans (calm_move vn .locked)).trans (calm_record _)
    cases hc : clearVnode s₁ vn with
    | error e =>
      rw [hc] at h
      cases h
    | ok s₂ =>
      rw [hc] at h
      simp only [Except.map, Except.ok.injEq] at h
      subst h
      obtain ⟨hvns, _, _⟩ := clearVnode_vns hc
      have hlast := moveVnode_alike s₂ vn .free vn
      have hat : s₂.vns vn = cleared (s₁.vns vn) := by rw [hvns, Function.update_self]
      refine ⟨(hcalm.trans (calm_clear hc (.inl rfl))).trans (calm_move vn .free), ?_, ?_⟩
      · rw [hlast.rcnt, hat]
        rfl
      · rw [hlast.mounted, hat]
        rfl

/-- A holder of a reference drops it. -/
theorem decVnode_change (h : Sound s) (hvn : vn < s.vnnum) (hpos : 0 < (s.vns vn).rcnt)
    (hseen : LastSeen (s.vns vn)) {o : Obs} (ho : act o = (idOf s vn, .put)) (r : Bool) :
    ∃ s', decVnode (record s o) vn r = .ok s' ∧ Change s s' (Pi.single vn (-1)) := by
  obtain ⟨s', hdec, hs'⟩ := decVnode_sound h (Sound.registered h hvn hpos) hpos hseen ho r
  refine ⟨s', hdec, ?_⟩
  have hat : (setVnode (record s o) vn fun v => { v with rcnt := v.rcnt - 1 }).vns vn =
      { s.vns vn with rcnt := (s.vns vn).rcnt - 1 } := by
    rw [setVnode_vns, Function.update_self]
    rfl
  have hoth : ∀ w, w ≠ vn →
      (setVnode (record s o) vn fun v => { v with rcnt := v.rcnt - 1 }).vns w = s.vns w := by
    intro w hw
    rw [setVnode_vns, Function.update_of_ne hw]
    rfl
  have hcalm : CalmBut (· = vn) s
      (setVnode (record s o) vn fun v => { v with rcnt := v.rcnt - 1 }) :=
    (calm_record o).trans (calm_set (V := (· = vn)) rfl _)
  have hlists : Lists (setVnode (record s o) vn fun v => { v with rcnt := v.rcnt - 1 }) := by
    refine h.lists.congr rfl rfl rfl fun v => ?_
    by_cases hv : v = vn
    · rw [hv, hat]
    · rw [hoth v hv]
  have hnum : (setVnode (record s o) vn fun v => { v with rcnt := v.rcnt - 1 }).vnnum =
      s.vnnum := rfl
  unfold decVnode at hdec
  dsimp only at hdec
  generalize setVnode (record s o) vn (fun v => { v with rcnt := v.rcnt - 1 }) = s₁ at *
  rw [hat] at hdec
  unfold Vnode.intRcnt at hdec
  dsimp only at hdec
  by_cases hlast : toInt32 ((s.vns vn).rcnt - 1) = 0
  · rw [if_pos hlast] at hdec
    have hone : (s.vns vn).rcnt = 1 := hseen hlast
    have hend : CalmBut (· = vn) s₁ s' ∧ (s'.vns vn).rcnt = 0 ∧
        ∀ ns, (s'.vns vn).mounted = some ns → (s.vns vn).mounted = some ns := by
      by_cases hrem : (s.vns vn).remove = true
      · rw [if_pos hrem] at hdec
        obtain ⟨hc, hz, hm⟩ := disposeRemoved_calm hdec
        refine ⟨hc, hz, fun ns hns => ?_⟩
        rw [hm] at hns
        cases hns
      · rw [if_neg hrem] at hdec
        obtain ⟨hc, ha | ⟨hz, hm⟩⟩ := keepUsed_calm hlists (by rw [hnum]; exact hvn) (by
          intro w hw hwv hin
          rw [hoth w hwv] at hin ⊢
          rw [hnum] at hw
          exact used_rcnt (h.placed w hw) hin) hdec
        · refine ⟨hc, by rw [ha.rcnt, hat]; dsimp only; omega, fun ns hns => ?_⟩
          rw [ha.mounted, hat] at hns
          exact hns
        · refine ⟨hc, hz, fun ns hns => ?_⟩
          rw [hm] at hns
          cases hns
    obtain ⟨hc, hz, hm⟩ := hend
    refine .of_one (hcalm.trans hc) hs' (by rw [hz]; omega) (fun _ hpos' => ?_) hm
    rw [hz] at hpos'
    omega
  · rw [if_neg hlast] at hdec
    simp only [Except.ok.injEq] at hdec
    subst hdec
    refine .of_one hcalm hs' (by rw [hat]; rfl) (fun _ _ => ?_) fun ns hns => ?_
    · rw [hat]
      exact ⟨rfl, rfl, rfl⟩
    · rw [hat] at hns
      exact hns

theorem incVnode_change (h : Sound s) (hvn : vn < s.vnnum) (hpos : 0 < (s.vns vn).rcnt) :
    Change s (incVnode s vn) (Pi.single vn 1) := by
  have hat : (incVnode s vn).vns vn = { s.vns vn with rcnt := (s.vns vn).rcnt + 1 } :=
    Function.update_self _ _ _
  refine .of_one ((calm_set (V := (· = vn)) rfl _).trans (calm_record _))
    (incVnode_sound h hvn hpos)
    (by rw [hat]) (fun _ _ => ?_) fun ns hns => ?_
  · rw [hat]
    exact ⟨rfl, rfl, rfl⟩
  · rw [hat] at hns
    exact hns

/-- The search for a vnode to read into only sheds. -/
theorem findOrSteal_calm {V : ℕ → Prop} {r : Bool} {fuel : ℕ} (h : Sound s)
    (hf : findOrSteal s nsid vnid r fuel = .ok (vn, s')) : CalmBut V s s' := by
  induction fuel generalizing s with
  | zero => cases hf
  | succ fuel ih =>
    rw [findOrSteal] at hf
    cases hl : lookupVnode s nsid vnid with
    | some w =>
      rw [hl] at hf
      dsimp only at hf
      split at hf
      · cases hf
      · simp only [Except.ok.injEq, Prod.mk.injEq] at hf
        rw [← hf.2]
        exact .refl V s
    | none =>
      rw [hl] at hf
      dsimp only at hf
      cases hfree : (s.lists .free).ends.head with
      | some w =>
        rw [stealVnode_some hfree] at hf
        simp only [Except.ok.injEq, Prod.mk.injEq] at hf
        rw [← hf.2]
        exact calm_move w .locked
      | none =>
        rw [stealVnode_none hfree] at hf
        dsimp only at hf
        cases hused : (s.lists .used).ends.head with
        | none =>
          rw [stealVnode_none hused] at hf
          cases hf
        | some w =>
          rw [stealVnode_some hused] at hf
          dsimp only at hf
          have hu : ∀ w, Registered s w → idOf s w ≠ (nsid, vnid) :=
            fun w hw => h.registry.lookup_none hl hw
          obtain ⟨s₁, hflush, hready, _⟩ := h.ready_used hu hused r
          rw [hflush] at hf
          dsimp only [Except.bind] at hf
          obtain ⟨hlt, hin⟩ := h.lists.head_some hused
          have hz : ((moveVnode s w .locked).vns w).rcnt = 0 := by
            rw [(moveVnode_alike s w .locked w).rcnt]
            exact (h.used_facts hlt hin).2.1
          have hshed : CalmBut V s (moveVnode s₁ w .free) :=
            ((calm_move w .locked).trans ((flushVnode_vns hflush).2.2 (.inr hz))).trans
              (calm_move w .free)
          exact hshed.trans (ih (hready.held.sound hready.inlist hready.cap) hf)

theorem sortVnode_vns {e : ℤ} (h : sortVnode s vn random = .ok (e, s')) :
    s'.vns = s.vns ∧ s'.vnnum = s.vnnum ∧ SameSpaces s s' := by
  unfold sortVnode at h
  cases hns : (s.vns vn).ns with
  | none =>
    rw [hns] at h
    cases h
  | some p =>
    rw [hns] at h
    dsimp only at h
    split at h
    · simp only [Except.ok.injEq, Prod.mk.injEq] at h
      rw [← h.2]
      exact ⟨rfl, rfl, rfl, rfl, fun _ => ⟨rfl, rfl⟩⟩
    · simp only [Except.ok.injEq, Prod.mk.injEq] at h
      rw [← h.2]
      exact ⟨rfl, rfl, rfl, rfl, (setSpaceVnodes_same s p _).ids⟩

theorem clear_and_free {s₀ : Layer} {e e' : ℤ} (hcalm : CalmBut (· = vn) s₀ s)
    (h : (clearVnode s vn).map (fun s => (e, moveVnode s vn .free)) = .ok (e', s')) :
    CalmBut (· = vn) s₀ s' ∧ e' = e ∧ (s'.vns vn).rcnt = 0 ∧ (s'.vns vn).mounted = none := by
  cases hc : clearVnode s vn with
  | error e =>
    rw [hc] at h
    cases h
  | ok s₁ =>
    rw [hc] at h
    simp only [Except.map, Except.ok.injEq, Prod.mk.injEq] at h
    obtain ⟨rfl, rfl⟩ := h
    have hlast := moveVnode_alike s₁ vn .free vn
    have hat : s₁.vns vn = cleared (s.vns vn) := by
      rw [(clearVnode_vns hc).1, Function.update_self]
    refine ⟨(hcalm.trans (calm_clear hc (.inl rfl))).trans (calm_move vn .free), rfl, ?_, ?_⟩
    · rw [hlast.rcnt, hat]
      rfl
    · rw [hlast.mounted, hat]
      rfl

theorem readIn_calm {p : ℕ} {r : Bool} {e : ℤ}
    (h : readIn s vn p vnid r err data random = .ok (e, s')) :
    CalmBut (· = vn) s s' ∧
      (e ≠ 0 → (s'.vns vn).rcnt = 0 ∧ (s'.vns vn).mounted = none) ∧
      (e = 0 → (s'.vns vn).rcnt = 1 ∧ (s'.vns vn).mounted = (s.vns vn).mounted) := by
  unfold readIn at h
  dsimp only at h
  have hset : CalmBut (· = vn) s
      (setVnode s vn fun v => { v with ns := some p, vnid := vnid, busy := true }) :=
    calm_set (V := (· = vn)) rfl _
  have hat : ((setVnode s vn fun v => { v with ns := some p, vnid := vnid, busy := true }).vns
      vn).mounted = (s.vns vn).mounted := by
    rw [setVnode_vns, Function.update_self]
  generalize setVnode s vn (fun v => { v with ns := some p, vnid := vnid, busy := true }) = s₁ at *
  cases hsort : sortVnode s₁ vn random with
  | error halt =>
    rw [hsort] at h
    cases h
  | ok res =>
    obtain ⟨e₁, s₂⟩ := res
    rw [hsort] at h
    dsimp only [Except.bind] at h
    obtain ⟨hvns, hnum, hspaces⟩ := sortVnode_vns hsort
    have hcalm : CalmBut (· = vn) s s₂ := by
      refine hset.trans ⟨hnum, hspaces, fun w _ => .inl ?_⟩
      rw [hvns]
      exact .refl _
    by_cases he₁ : e₁ = 0
    swap
    · rw [if_pos he₁] at h
      obtain ⟨hc, rfl, hz⟩ := clear_and_free hcalm h
      exact ⟨hc, fun _ => hz, fun h0 => absurd h0 he₁⟩
    rw [if_neg (not_not.mpr he₁)] at h
    generalize hs₃ : setVnode (record (moveVnode s₂ vn .locked) _) vn
      (fun v => { v with data := data, busy := false }) = s₃ at h
    have hcalm₃ : CalmBut (· = vn) s s₃ := by
      rw [← hs₃]
      exact ((hcalm.trans (calm_move vn .locked)).trans (calm_record _)).trans
        (calm_set (V := (· = vn)) rfl _)
    have hat₃ : (s₃.vns vn).mounted = (s.vns vn).mounted := by
      rw [← hs₃, setVnode_vns, Function.update_self]
      change ((moveVnode s₂ vn .locked).vns vn).mounted = _
      rw [(moveVnode_alike s₂ vn .locked vn).mounted, hvns, hat]
    by_cases herr : err = 0
    · rw [if_neg (not_not.mpr herr)] at h
      simp only [Except.ok.injEq, Prod.mk.injEq] at h
      obtain ⟨rfl, rfl⟩ := h
      refine ⟨hcalm₃.trans (calm_set (V := (· = vn)) rfl _), fun h0 => absurd rfl h0, fun _ => ?_⟩
      rw [setVnode_vns, Function.update_self]
      exact ⟨rfl, hat₃⟩
    · rw [if_pos herr] at h
      obtain ⟨hc, rfl, hz⟩ := clear_and_free hcalm₃ h
      exact ⟨hc, fun _ => hz, fun h0 => absurd h0 herr⟩

theorem Sound.lookup (h : Sound s) (hr : Registered s vn) (hid : idOf s vn = (nsid, vnid)) :
    lookupVnode s nsid vnid = some vn := by
  cases hl : lookupVnode s nsid vnid with
  | none => exact absurd hid (h.registry.lookup_none hl hr)
  | some w =>
    obtain ⟨hw, hidw⟩ := h.registry.lookup_some hl
    rw [h.registry.id_inj hw hr (hidw.trans hid.symm)]

theorem take_calm (s : Layer) (vn : ℕ) :
    let s₁ := setVnode s vn fun v => { v with rcnt := v.rcnt + 1 }
    let s' := if (s₁.vns vn).intRcnt = 1 then moveVnode s₁ vn .locked else s₁
    CalmBut (· = vn) s s' ∧ (s'.vns vn).rcnt = (s.vns vn).rcnt + 1 ∧
      (s'.vns vn).ns = (s.vns vn).ns ∧ (s'.vns vn).vnid = (s.vns vn).vnid ∧
      (s'.vns vn).mounted = (s.vns vn).mounted := by
  intro s₁ s'
  have hset : CalmBut (· = vn) s s₁ := calm_set (V := (· = vn)) rfl _
  have hat : s₁.vns vn = { s.vns vn with rcnt := (s.vns vn).rcnt + 1 } := by
    rw [setVnode_vns, Function.update_self]
  by_cases hone : (s₁.vns vn).intRcnt = 1
  · have hs' : s' = moveVnode s₁ vn .locked := if_pos hone
    have ha := moveVnode_alike s₁ vn .locked vn
    rw [hs', ha.rcnt, ha.ns, ha.vnid, ha.mounted, hat]
    exact ⟨hset.trans (calm_move vn .locked), rfl, rfl, rfl, rfl⟩
  · have hs' : s' = s₁ := if_neg hone
    rw [hs', hat]
    exact ⟨hset, rfl, rfl, rfl, rfl⟩

/-- The tables do not depend on the links between the name spaces. -/
theorem Sound.setMounted (h : Sound s) (hvn : vn < s.vnnum) (ns : Option ℕ) :
    Sound (setVnode s vn fun v => { v with mounted := ns }) := by
  have hat : (setVnode s vn fun v => { v with mounted := ns }).vns vn =
      { s.vns vn with mounted := ns } := by
    rw [setVnode_vns, Function.update_self]
  have hp := h.placed vn hvn
  refine ⟨((h.around hvn).set (f := fun v => { v with mounted := ns }) rfl rfl rfl).settled ?_ ?_,
    h.cap⟩
  · rw [hat]
    exact ⟨hp.idle, hp.rcnt, hp.free, hp.used, hp.locked⟩
  · intro hr
    refine tracked_of_life hr ?_
    rw [hat, idOf_set (f := fun v => { v with mounted := ns }) rfl rfl]
    exact h.life ((registered_set (f := fun v => { v with mounted := ns }) rfl).mp hr)

/-- A vnode that has been read in is found. -/
theorem getVnode_found (h : Sound s) (hr : Registered s vn) (hid : idOf s vn = (nsid, vnid)) :
    ∃ d s', getVnode s nsid vnid err data random = .ok (0, d, s') ∧
      Change s s' (Pi.single vn 1) ∧ lookupVnode s' nsid vnid = some vn := by
  have hfind : findOrSteal s nsid vnid true 2 = .ok (vn, s) := by
    rw [findOrSteal, Sound.lookup h hr hid]
    dsimp only
    rw [(h.placed vn hr.1).idle]
    rfl
  have htaken := h.take hr hid
  obtain ⟨hcalm, hrcnt, hns, hvnid, hm⟩ := take_calm s vn
  unfold getVnode loadVnode
  simp only [hfind, Except.bind, hr.2, if_false, Except.map, ne_eq, not_true_eq_false]
  generalize (if ((setVnode s vn fun v => { v with rcnt := v.rcnt + 1 }).vns vn).intRcnt = 1
    then moveVnode (setVnode s vn fun v => { v with rcnt := v.rcnt + 1 }) vn .locked
    else setVnode s vn fun v => { v with rcnt := v.rcnt + 1 }) = s₁ at *
  have hsound := htaken.sound
  refine ⟨_, _, rfl, ?_, Sound.lookup hsound htaken.registered htaken.id⟩
  refine .of_one (hcalm.trans (calm_record _)) hsound hrcnt (fun _ _ => ⟨hns, hvnid, hm⟩) ?_
  intro ns hmount
  rw [← hm]
  exact hmount

/-- `get_vnode` takes one reference to the vnode it is asked for, or none when it fails. -/
theorem getVnode_change (h : Sound s) (nsid : ℕ) (vnid err : ℤ) (data : ℕ)
    (hrand : random ≤ maxLevel) :
    (∃ d s' vn, getVnode s nsid vnid err data random = .ok (0, d, s') ∧ vn < s'.vnnum ∧
      lookupVnode s' nsid vnid = some vn ∧ Change s s' (Pi.single vn 1)) ∨
    (∃ e d s', e ≠ 0 ∧ getVnode s nsid vnid err data random = .ok (e, d, s') ∧ Change s s' 0) ∨
    (getVnode s nsid vnid err data random = .error .nullPointer ∧ Exhausted s) := by
  rcases findOrSteal_cases h nsid vnid true with ⟨vn, _, hr, hid⟩ |
    ⟨vn, s₁, hfind, hready, hsheds⟩ | ⟨hfind, hex⟩
  · obtain ⟨d, s', hget, hc, hlook⟩ := getVnode_found h hr hid
    exact .inl ⟨d, s', vn, hget, by rw [hc.vnnum]; exact hr.1, hlook, hc⟩
  all_goals unfold getVnode loadVnode
  · have hcalm₁ : CalmBut (· = vn) s s₁ := findOrSteal_calm h hfind
    have hbefore : (s.vns vn).rcnt = 0 := by
      rcases (findOrSteal_calm (V := fun _ => False) h hfind).others vn id with ha | ha
      · rw [← ha.rcnt]
        exact hready.held.rcnt
      · exact ha.before
    have hmount₁ : ∀ ns, (s₁.vns vn).mounted = some ns → (s.vns vn).mounted = some ns := by
      intro ns hm
      rcases (findOrSteal_calm (V := fun _ => False) h hfind).others vn id with ha | ha
      · rw [← ha.mounted]
        exact hm
      · rw [ha.mounted] at hm
        cases hm
    have hnot : ∀ P : Prop, 0 < (s.vns vn).rcnt → P := fun P hpos => by omega
    simp only [hfind, Except.bind, hready.held.ns, if_true]
    cases hns : nsidtons s₁ nsid with
    | none =>
      refine .inr (.inl ⟨ENOENT, 0, moveVnode s₁ vn .free, by decide, rfl, ?_⟩)
      have ha := moveVnode_alike s₁ vn .free vn
      rw [← Pi.single_zero (M := fun _ => ℤ) vn]
      refine .of_one (hcalm₁.trans (calm_move vn .free))
        (hready.held.sound hready.inlist hready.cap) ?_ (fun hpos => hnot _ hpos) fun ns hm => ?_
      · rw [ha.rcnt, hready.held.rcnt, hbefore]
        rfl
      · rw [ha.mounted] at hm
        exact hmount₁ ns hm
    | some p =>
      obtain ⟨s₂, hread, hok, hbad⟩ := readIn_cases hready hns true err data hrand
      obtain ⟨hcalm₂, hfail, hsucc⟩ := readIn_calm hread
      simp only [hread, Except.map]
      by_cases herr : err = 0
      · subst herr
        have htaken := hok rfl
        obtain ⟨hone, hm⟩ := hsucc rfl
        refine .inl ⟨_, _, vn, rfl, htaken.registered.1,
          Sound.lookup htaken.sound htaken.registered htaken.id, ?_⟩
        refine .of_one ((hcalm₁.trans hcalm₂).trans (calm_record _)) htaken.sound ?_
          (fun hpos => hnot _ hpos) fun ns hmount => ?_
        · rw [hbefore]
          exact hone
        · refine hmount₁ ns ?_
          rw [← hm]
          exact hmount
      · obtain ⟨hz, hm⟩ := hfail herr
        refine .inr (.inl ⟨err, 0, s₂, herr, by rw [if_pos herr], ?_⟩)
        rw [← Pi.single_zero (M := fun _ => ℤ) vn]
        refine .of_one (hcalm₁.trans hcalm₂) (hbad herr) ?_ (fun hpos => hnot _ hpos) ?_
        · rw [hz, hbefore]
          rfl
        · intro ns hmount
          rw [hm] at hmount
          cases hmount
  · refine .inr (.inr ⟨?_, hex⟩)
    simp only [hfind, Except.bind, Except.map]

theorem enterNew_calm {p : ℕ} {e : ℤ} (hp : nsidtons s nsid = some p)
    (h : enterNew s vn nsid vnid data random = .ok (e, s')) :
    CalmBut (· = vn) s s' ∧ (s'.vns vn).rcnt = 1 ∧ (s'.vns vn).mounted = (s.vns vn).mounted := by
  unfold enterNew at h
  rw [hp] at h
  dsimp only at h
  have hset : CalmBut (· = vn) s
      (setVnode s vn fun v => { v with ns := some p, vnid := vnid, data := data, rcnt := 1 }) :=
    calm_set (V := (· = vn)) rfl _
  have hat : (setVnode s vn fun v => { v with
      ns := some p, vnid := vnid, data := data, rcnt := 1 }).vns vn =
      { s.vns vn with ns := some p, vnid := vnid, data := data, rcnt := 1 } := by
    rw [setVnode_vns, Function.update_self]
  generalize setVnode s vn (fun v => { v with
    ns := some p, vnid := vnid, data := data, rcnt := 1 }) = s₁ at *
  cases hsort : sortVnode s₁ vn random with
  | error halt =>
    rw [hsort] at h
    cases h
  | ok res =>
    obtain ⟨e₁, s₂⟩ := res
    obtain ⟨hvns, hnum, hspaces⟩ := sortVnode_vns hsort
    have hcalm : CalmBut (· = vn) s s₂ := by
      refine hset.trans ⟨hnum, hspaces, fun w _ => .inl ?_⟩
      rw [hvns]
      exact .refl _
    have hat₂ : s₂.vns vn =
        { s.vns vn with ns := some p, vnid := vnid, data := data, rcnt := 1 } := by
      rw [hvns, hat]
    rw [hsort] at h
    simp only [Except.map, Except.ok.injEq] at h
    have hs' : s' = s₂ ∨ ∃ o, s' = record s₂ o := by
      split at h
      · cases h
        exact .inr ⟨_, rfl⟩
      · cases h
        exact .inl rfl
    rcases hs' with rfl | ⟨o, rfl⟩
    · rw [hat₂]
      exact ⟨hcalm, rfl, rfl⟩
    · refine ⟨hcalm.trans (calm_record o), ?_, ?_⟩
      · change (s₂.vns vn).rcnt = 1
        rw [hat₂]
      · change (s₂.vns vn).mounted = _
        rw [hat₂]

theorem Sound.unlocked_rcnt (h : Sound s) (hvn : vn < s.vnnum)
    (hin : (s.vns vn).inlist ≠ .locked) : (s.vns vn).rcnt = 0 := by
  have hp := h.placed vn hvn
  by_cases hns : (s.vns vn).ns = none
  · exact (hp.free hns).2.1
  · by_contra hz
    exact hin (hp.locked hns hz)

/-- `new_vnode` takes a vnode that nobody refers to, if there is one. -/
theorem newVnode_change (h : Sound s) {p : ℕ} (hp : nsidtons s nsid = some p)
    (hu : ∀ w, Registered s w → idOf s w ≠ (nsid, vnid)) (data : ℕ) (hrand : random ≤ maxLevel) :
    (∃ s' vn, newVnode s nsid vnid data random = .ok (0, s') ∧ vn < s.vnnum ∧
      (s.vns vn).rcnt = 0 ∧ lookupVnode s' nsid vnid = some vn ∧ Change s s' (Pi.single vn 1)) ∨
    (newVnode s nsid vnid data random = .ok (ENOMEM, s) ∧ ∀ w < s.vnnum, (s.vns w).rcnt ≠ 0) := by
  -- what is common to a free vnode and to a used one that has been flushed
  have henter : ∀ {vn s₁}, vn < s.vnnum → (s.vns vn).rcnt = 0 → Ready s₁ vn nsid vnid →
      SameSpaces s s₁ → CalmBut (· = vn) s s₁ →
      (∀ ns, (s₁.vns vn).mounted = some ns → (s.vns vn).mounted = some ns) →
      ∃ s', enterNew s₁ vn nsid vnid data random = .ok (0, s') ∧ vn < s.vnnum ∧
        (s.vns vn).rcnt = 0 ∧ lookupVnode s' nsid vnid = some vn ∧
          Change s s' (Pi.single vn 1) := by
    intro vn s₁ hvn hz hready hspaces hcalm hmount
    have hp₁ : nsidtons s₁ nsid = some p := by rw [hspaces.nsidtons, hp]
    obtain ⟨s', hs', hsound, hr, hid⟩ := enterNew_sound hready hp₁ data hrand
    obtain ⟨hcalm', hone, hm⟩ := enterNew_calm hp₁ hs'
    refine ⟨s', hs', hvn, hz, Sound.lookup hsound hr hid, ?_⟩
    refine .of_one (hcalm.trans hcalm') hsound (by rw [hone, hz]; rfl) (fun hpos => by omega) ?_
    intro ns hns
    rw [hm] at hns
    exact hmount ns hns
  unfold newVnode
  cases hf : (s.lists .free).ends.head with
  | some vn =>
    obtain ⟨hlt, hin⟩ := h.lists.head_some hf
    have hz := Sound.unlocked_rcnt h hlt (by rw [hin]; decide)
    simp only [stealVnode_some hf]
    obtain ⟨s', hs'⟩ := henter hlt hz (h.ready_free hu hf) (sheds_move .locked).spaces
      (calm_move vn .locked) fun ns hm => by rwa [(moveVnode_alike s vn .locked vn).mounted] at hm
    exact .inl ⟨s', vn, hs'⟩
  | none =>
    cases hus : (s.lists .used).ends.head with
    | none =>
      simp only [stealVnode_none hf, stealVnode_none hus]
      refine .inr ⟨trivial, fun w hw hz => ?_⟩
      have hp := h.placed w hw
      by_cases hns : (s.vns w).ns = none
      · exact h.lists.head_none hf hw (hp.free hns).1
      · exact h.lists.head_none hus hw (hp.used hns hz).1
    | some vn =>
      obtain ⟨hlt, hin⟩ := h.lists.head_some hus
      have hz := Sound.unlocked_rcnt h hlt (by rw [hin]; decide)
      obtain ⟨s₁, hflush, hready, hsheds⟩ := h.ready_used hu hus true
      obtain ⟨_, hm, hcalm⟩ := flushVnode_vns (V := (· = vn)) hflush
      simp only [stealVnode_none hf, stealVnode_some hus, hflush, Except.bind]
      obtain ⟨s', hs'⟩ := henter hlt hz hready hsheds.spaces
        ((calm_move vn .locked).trans (hcalm (.inl rfl))) fun ns hns => by
          rw [hm] at hns
          cases hns
      exact .inl ⟨s', vn, hs'⟩

end Calls

/-- A vnode of the table that somebody refers to. -/
structure Live (s : Layer) (vn : ℕ) : Prop where
  inside : vn < s.vnnum
  pos : 0 < (s.vns vn).rcnt

/-- Since the tables were as in `s₀` the vnodes of the list have been referenced, each as often
as it is in the list, and nothing has been taken from who held a reference before. -/
structure Refs (s₀ s : Layer) (held : List ℕ) : Prop where
  base : Sound s₀
  sound : Sound s
  vnnum : s.vnnum = s₀.vnnum
  rcnt : ∀ w, (s.vns w).rcnt = (s₀.vns w).rcnt + held.count w
  kept : ∀ w, 0 < (s₀.vns w).rcnt → (s.vns w).ns = (s₀.vns w).ns ∧
    (s.vns w).vnid = (s₀.vns w).vnid ∧ (s.vns w).mounted = (s₀.vns w).mounted
  mounted : ∀ w ns, (s.vns w).mounted = some ns → (s₀.vns w).mounted = some ns
  inside : ∀ w ∈ held, w < s₀.vnnum

section References
variable {s₀ s s' : Layer} {held held' : List ℕ} {vn : ℕ}

/-- A change that is not about the vnodes. -/
theorem Refs.of_vns (h : Sound s) (h' : Sound s') (hnum : s'.vnnum = s.vnnum)
    (hvns : s'.vns = s.vns) : Refs s s' [] :=
  ⟨h, h', hnum, fun _ => by simp [hvns], fun _ _ => by simp [hvns],
    fun _ _ hm => by rwa [hvns] at hm, fun _ hw => by cases hw⟩

theorem Refs.live (h : Refs s₀ s held) (hvn : Live s₀ vn) : Live s vn := by
  refine ⟨by rw [h.vnnum]; exact hvn.inside, ?_⟩
  have := hvn.pos
  rw [h.rcnt vn]
  omega

theorem Refs.live_held (h : Refs s₀ s held) (hvn : vn ∈ held) : Live s vn := by
  have hin := h.inside vn hvn
  refine ⟨by rw [h.vnnum]; exact hin, ?_⟩
  have hcount := List.count_pos_iff.mpr hvn
  have := (h.base.placed vn hin).rcnt
  rw [h.rcnt vn]
  omega

/-- With all references that a call has, a count has not wrapped to zero. -/
def Unwrapped (s₀ : Layer) (held : List ℕ) : Prop :=
  ∀ w < s₀.vnnum, (s₀.vns w).rcnt + held.count w < 2 ^ 32

theorem Refs.lastSeen (h : Refs s₀ s (vn :: held)) (hun : Unwrapped s₀ held) :
    LastSeen (s.vns vn) := by
  have hless := hun vn (h.inside vn List.mem_cons_self)
  refine lastSeen_of_le (h.live_held List.mem_cons_self).pos ?_
  rw [h.rcnt vn, List.count_cons_self]
  push_cast
  omega

theorem Refs.perm (h : Refs s₀ s held) (hp : held.Perm held') : Refs s₀ s held' :=
  ⟨h.base, h.sound, h.vnnum, fun w => by rw [h.rcnt w, hp.count_eq], h.kept, h.mounted,
    fun w hw => h.inside w (hp.mem_iff.mpr hw)⟩

theorem Refs.trans (h : Refs s₀ s held) (h' : Refs s s' held') : Refs s₀ s' (held' ++ held) := by
  refine ⟨h.base, h'.sound, h'.vnnum.trans h.vnnum, fun w => ?_, fun w hw => ?_,
    fun w ns hm => h.mounted w ns (h'.mounted w ns hm), fun w hw => ?_⟩
  · rw [h'.rcnt w, h.rcnt w, List.count_append]
    push_cast
    ring
  · have hpos : 0 < (s.vns w).rcnt := by
      rw [h.rcnt w]
      omega
    obtain ⟨h₁, h₂, h₃⟩ := h'.kept w hpos
    obtain ⟨h₄, h₅, h₆⟩ := h.kept w hw
    exact ⟨h₁.trans h₄, h₂.trans h₅, h₃.trans h₆⟩
  · rcases List.mem_append.mp hw with hw | hw
    · rw [← h.vnnum]
      exact h'.inside w hw
    · exact h.inside w hw

/-- A change of the counts that the list follows. -/
theorem Refs.change (h : Refs s₀ s held) {d : ℕ → ℤ} (hc : Change s s' d)
    (hd : ∀ w, (held'.count w : ℤ) = held.count w + d w) (hin : ∀ w ∈ held', w < s₀.vnnum) :
    Refs s₀ s' held' := by
  have hrcnt : ∀ w, (s'.vns w).rcnt = (s₀.vns w).rcnt + held'.count w := by
    intro w
    rw [hc.rcnt w, h.rcnt w, hd w, add_assoc]
  refine ⟨h.base, hc.sound, hc.vnnum.trans h.vnnum, hrcnt, fun w hw => ?_,
    fun w ns hw => h.mounted w ns (hc.mounted w ns hw), hin⟩
  have hpos : 0 < (s.vns w).rcnt := by
    rw [h.rcnt w]
    omega
  have hpos' : 0 < (s'.vns w).rcnt := by
    rw [hrcnt w]
    omega
  obtain ⟨h₁, h₂, h₃⟩ := hc.kept w hpos hpos'
  obtain ⟨h₄, h₅, h₆⟩ := h.kept w hw
  exact ⟨h₁.trans h₄, h₂.trans h₅, h₃.trans h₆⟩

theorem count_cons_single (held : List ℕ) (vn w : ℕ) :
    ((vn :: held).count w : ℤ) = held.count w + (Pi.single vn 1 : ℕ → ℤ) w := by
  by_cases hw : w = vn
  · subst hw
    simp
  · simp [hw, Ne.symm hw]

theorem Refs.take (h : Refs s₀ s held) (hin : vn < s'.vnnum)
    (hc : Change s s' (Pi.single vn 1)) : Refs s₀ s' (vn :: held) := by
  refine h.change hc (count_cons_single held vn) fun w hw => ?_
  rcases List.mem_cons.mp hw with rfl | hw
  · rw [← h.vnnum, ← hc.vnnum]
    exact hin
  · exact h.inside w hw

theorem Refs.drop (h : Refs s₀ s (vn :: held)) (hc : Change s s' (Pi.single vn (-1))) :
    Refs s₀ s' held := by
  refine h.change hc (fun w => ?_) fun w hw => h.inside w (List.mem_cons_of_mem vn hw)
  rw [count_cons_single held vn w, Pi.single_neg]
  simp

theorem Refs.neutral (h : Refs s₀ s held) (hc : Change s s' 0) : Refs s₀ s' held :=
  h.change hc (fun w => by simp) h.inside

theorem Refs.rcnt_eq (h : Refs s₀ s []) (w : ℕ) : (s.vns w).rcnt = (s₀.vns w).rcnt := by
  rw [h.rcnt w]
  simp

/-- The mount points, which the mounts refer to, stay as they are. -/
theorem Refs.mounted_eq (h : Refs s₀ s held) {w : ℕ}
    (hw : ∀ ns, (s₀.vns w).mounted = some ns → Live s₀ w) :
    (s.vns w).mounted = (s₀.vns w).mounted := by
  cases hm : (s₀.vns w).mounted with
  | some ns => rw [(h.kept w (hw ns hm).pos).2.2, hm]
  | none =>
    cases hm' : (s.vns w).mounted with
    | none => rfl
    | some ns =>
      rw [h.mounted w ns hm'] at hm
      cases hm

end References

end VnodeCounts
