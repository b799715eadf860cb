import Mathlib.Tactic
import FsKit.VnodeCounts

/-! Runs of the calls of the vnode layer. The tables and the life cycles are kept as long as
the `int` in a vnode can count its references: what a call does to the exact counts says when
that is. -/
namespace VnodeRuns

open MachineIntegers TransitionTrace SkipListSet LifecycleProtocol VnodeLayer VnodeRegistry
open VnodeTable VnodeCounts

section Counts
variable {s s' : Layer} {vn nsid random data : ℕ} {vnid err : ℤ}

/-- No call takes the reference of a vnode that its `int` cannot count. -/
def RefsFit (s : Layer) : Event → Prop
  | .get nsid vnid _ _ _ => ∀ w < s.vnnum, (s.vns w).ns ≠ none → idOf s w = (nsid, vnid) →
      (s.vns w).rcnt + 1 < 2 ^ 31
  | .inc vn => (s.vns vn).rcnt + 1 < 2 ^ 31
  | _ => True

instance (s : Layer) : (e : Event) → Decidable (RefsFit s e)
  | .get nsid vnid _ _ _ =>
    inferInstanceAs (Decidable (∀ w < s.vnnum, (s.vns w).ns ≠ none → idOf s w = (nsid, vnid) →
      (s.vns w).rcnt + 1 < 2 ^ 31))
  | .inc vn => inferInstanceAs (Decidable ((s.vns vn).rcnt + 1 < 2 ^ 31))
  | .new .. | .put .. | .remove .. | .unremove .. => inferInstanceAs (Decidable True)

theorem fitsInt_of_nonpos {d : ℕ → ℤ} (hc : Change s s' d) (hd : ∀ w, d w ≤ 0)
    (hfit : FitsInt s) : FitsInt s' := by
  intro w hw
  have hless := hfit w (by rw [← hc.vnnum]; exact hw)
  have hle := hd w
  rw [hc.rcnt w]
  omega

theorem fitsInt_of_single (hc : Change s s' (Pi.single vn 1)) (hfit : FitsInt s)
    (hin : vn < s.vnnum) : FitsInt s' ↔ (s.vns vn).rcnt + 1 < 2 ^ 31 := by
  constructor
  · intro hfit'
    have hless := hfit' vn (by rw [hc.vnnum]; exact hin)
    rwa [hc.rcnt vn, Pi.single_eq_same] at hless
  · intro hone w hw
    have hless := hfit w (by rw [← hc.vnnum]; exact hw)
    rw [hc.rcnt w]
    by_cases heq : w = vn
    · rw [heq, Pi.single_eq_same]
      exact hone
    · rw [Pi.single_eq_of_ne heq]
      omega

/-- The counts only go up one by one. -/
theorem le_of_single (hc : Change s s' (Pi.single vn 1)) (hfit : FitsInt s) {w : ℕ}
    (hw : w < s'.vnnum) : (s'.vns w).rcnt ≤ 2 ^ 31 := by
  have hless := hfit w (by rw [← hc.vnnum]; exact hw)
  rw [hc.rcnt w]
  by_cases heq : w = vn
  · rw [heq, Pi.single_eq_same]
    rw [heq] at hless
    omega
  · rw [Pi.single_eq_of_ne heq]
    omega

theorem markVnode_rcnt (remove : Bool) (s : Layer) (nsid : ℕ) (vnid : ℤ) :
    (markVnode remove s nsid vnid).2.vnnum = s.vnnum ∧
      SameSpaces s (markVnode remove s nsid vnid).2 ∧
      ∀ w, ((markVnode remove s nsid vnid).2.vns w).rcnt = (s.vns w).rcnt := by
  unfold markVnode
  split
  · exact ⟨rfl, ⟨rfl, rfl, fun _ => ⟨rfl, rfl⟩⟩, fun _ => rfl⟩
  split
  · exact ⟨rfl, ⟨rfl, rfl, fun _ => ⟨rfl, rfl⟩⟩, fun _ => rfl⟩
  · rename_i vn _ _
    refine ⟨rfl, ⟨rfl, rfl, fun _ => ⟨rfl, rfl⟩⟩, fun w => ?_⟩
    by_cases hw : w = vn
    · subst hw
      simp [record, setVnode]
    · simp [record, setVnode, Function.update_of_ne hw]

/-- What a call does to exact counts that fit. -/
structure Counted (s s' : Layer) (fits : Prop) : Prop where
  sound : Sound s'
  le : ∀ w < s'.vnnum, (s'.vns w).rcnt ≤ 2 ^ 31
  iff : FitsInt s' ↔ fits

theorem Counted.of_fits (hs : Sound s') (hfit : FitsInt s') {fits : Prop} (h : fits) :
    Counted s s' fits :=
  ⟨hs, fun w hw => (hfit w hw).le, iff_of_true hfit h⟩

theorem Counted.of_single (hc : Change s s' (Pi.single vn 1)) (hfit : FitsInt s)
    (hin : vn < s.vnnum) {fits : Prop} (h : (s.vns vn).rcnt + 1 < 2 ^ 31 ↔ fits) :
    Counted s s' fits :=
  ⟨hc.sound, fun _ hw => le_of_single hc hfit hw, (fitsInt_of_single hc hfit hin).trans h⟩

theorem seesLast_of_fits (h : Sound s) (hfit : FitsInt s) {e : Event} (he : Callable s e) :
    SeesLast s e := by
  cases e with
  | put nsid vnid =>
    intro w hw hns hid
    obtain ⟨v, hv, hvns, hvid, hpos⟩ := he
    obtain rfl : w = v := h.registry.id_inj ⟨hw, hns⟩ ⟨hv, hvns⟩ (hid.trans hvid.symm)
    have hless := hfit w hw
    exact lastSeen_of_le hpos (by omega)
  | _ => trivial

end Counts

section Steps
variable {s : Layer}

/-- One call, from counts that fit: they fit afterwards exactly if it takes no reference too
many. -/
theorem next_counted (h : Sound s) (hfit : FitsInt s) {e : Event} (he : Enabled s e) :
    Counted s (next s e) (RefsFit s e) := by
  have hlast := seesLast_of_fits h hfit he.1
  have hsound := next_sound h he.1 hlast
  cases e with
  | new nsid vnid data random =>
    obtain ⟨⟨hu, hlive, hrand⟩, hroom⟩ := he
    obtain ⟨p, hp⟩ := Option.ne_none_iff_exists'.mp hlive
    rcases newVnode_change h hp (fun w hw => hu w hw.1 hw.2) data hrand with
      ⟨s', vn, hnew, hin, hz, _, hc⟩ | ⟨_, hall⟩
    · have hnext : next s (.new nsid vnid data random) = s' := by
        rw [next, exec, hnew]
        rfl
      rw [hnext]
      exact .of_single hc hfit hin (iff_of_true (by rw [hz]; norm_num) trivial)
    · refine absurd (fun v hv => ?_) hroom.not_exhausted
      have hpos := (h.placed v hv).rcnt
      have hne := hall v hv
      omega
  | get nsid vnid err data random =>
    by_cases hknown : ∃ w, Registered s w ∧ idOf s w = (nsid, vnid)
    · obtain ⟨w, hr, hid⟩ := hknown
      obtain ⟨d, s', hget, hc, _⟩ := getVnode_found h hr hid
      have hnext : next s (.get nsid vnid err data random) = s' := by
        rw [next, exec, hget]
        rfl
      rw [hnext]
      refine .of_single hc hfit hr.1 ⟨fun hone v hv hns hvid => ?_, fun hone => ?_⟩
      · rw [h.registry.id_inj ⟨hv, hns⟩ hr (hvid.trans hid.symm)]
        exact hone
      · exact hone w hr.1 hr.2 hid
    have hfits : RefsFit s (.get nsid vnid err data random) :=
      fun v hv hns hid => absurd ⟨v, ⟨hv, hns⟩, hid⟩ hknown
    rcases getVnode_change h nsid vnid err data he.1 with ⟨d, s', vn, hget, hin, hlook, hc⟩ |
      ⟨e, d, s', _, hget, hc⟩ | ⟨_, hex⟩
    · have hnext : next s (.get nsid vnid err data random) = s' := by
        rw [next, exec, hget]
        rfl
      rw [hnext]
      rw [hc.vnnum] at hin
      refine .of_single hc hfit hin (iff_of_true ?_ hfits)
      -- who was referenced before would have been registered under these ids
      by_contra hlarge
      have hpos : 0 < (s.vns vn).rcnt := by omega
      have hpos' : 0 < (s'.vns vn).rcnt := by
        rw [hc.rcnt vn, Pi.single_eq_same]
        omega
      refine hknown ⟨vn, Sound.registered h hin hpos, ?_⟩
      obtain ⟨hns, hvnid, _⟩ := hc.kept vn hpos hpos'
      rw [← (hc.sound.registry.lookup_some hlook).2]
      exact (hc.spaces.idOf hns hvnid).symm
    · have hnext : next s (.get nsid vnid err data random) = s' := by
        rw [next, exec, hget]
        rfl
      rw [hnext]
      exact .of_fits hc.sound (fitsInt_of_nonpos hc (fun _ => le_rfl) hfit) hfits
    · exact absurd hex (HasRoom.not_exhausted he.2)
  | put nsid vnid =>
    obtain ⟨w, hw, hns, hid, hpos⟩ := he.1
    have hlook := Sound.lookup h ⟨hw, hns⟩ hid
    obtain ⟨s', hdec, hc⟩ := decVnode_change h hw hpos (hlast w hw hns hid)
      (o := .putting nsid vnid) (by rw [hid]; rfl) true
    have hnext : next s (.put nsid vnid) = s' := by
      rw [next, exec, putVnode, hlook]
      dsimp only
      rw [hdec]
      rfl
    rw [hnext]
    refine .of_fits hc.sound (fitsInt_of_nonpos hc (fun v => ?_) hfit) trivial
    by_cases hv : v = w
    · rw [hv, Pi.single_eq_same]
      norm_num
    · rw [Pi.single_eq_of_ne hv]
  | remove nsid vnid =>
    obtain ⟨hnum, _, hrcnt⟩ := markVnode_rcnt true s nsid vnid
    refine .of_fits hsound (fun w hw => ?_) trivial
    exact (hrcnt w).trans_lt (hfit w (by rw [← hnum]; exact hw))
  | unremove nsid vnid =>
    obtain ⟨hnum, _, hrcnt⟩ := markVnode_rcnt false s nsid vnid
    refine .of_fits hsound (fun w hw => ?_) trivial
    exact (hrcnt w).trans_lt (hfit w (by rw [← hnum]; exact hw))
  | inc vn => exact .of_single (incVnode_change h he.1.1 he.1.2) hfit he.1.1 Iff.rfl

/-- A count of `2 ^ 31` is seen below zero, and its vnode is in no list that it belongs to. -/
theorem not_invariant (h : Sound s) {v : ℕ} (hv : v < s.vnnum) (hcount : (s.vns v).rcnt = 2 ^ 31) :
    ¬TableInvariant s := by
  intro hinv
  have hseen : (s.vns v).intRcnt = -2 ^ 31 := by
    rw [Vnode.intRcnt, hcount, toInt32_of_ge] <;> norm_num
  have hr : Registered s v := Sound.registered h hv (by omega)
  obtain ⟨xs, _, _, hone, hplaces⟩ := hinv.lists
  obtain ⟨hfree, hused, hlocked⟩ := hplaces v hv
  rw [hseen] at hused hlocked
  obtain ⟨n, hn, _⟩ := hone v hv
  cases n with
  | free => exact hfree.mp hn hr
  | used => exact absurd (hused.mp hn).2 (by norm_num)
  | locked => exact absurd (hlocked.mp hn) (by norm_num)

theorem Counted.invariant_iff {s' : Layer} {fits : Prop} (h : Counted s s' fits) :
    TableInvariant s' ↔ fits := by
  rw [← h.iff]
  refine ⟨fun hinv v hv => ?_, h.sound.invariant⟩
  by_contra hlarge
  have hle := h.le v hv
  exact not_invariant h.sound hv (by omega) hinv

end Steps

section Runs
variable {memsize : ℕ} {nstab : ℕ → Option ℕ} {spaces : ℕ → Nspace} {es : List Event}

/-- The counts of the tables of `init_vnode_layer` are zero. -/
theorem init_fitsInt : FitsInt (initVnodeLayer memsize nstab spaces) :=
  fun _ _ => show (0 : ℤ) < 2 ^ 31 by norm_num

/-- From the tables of `init_vnode_layer` on, the invariant is kept exactly as long as no vnode
gets a reference that its `int` cannot count, and till then every call returns. -/
theorem vnode_table_invariant_iff (hmem : 2 ^ 17 ≤ memsize)
    (hempty : ∀ p, (spaces p).vnodes = ⟨none, none⟩)
    (h : EveryStep next Enabled (initVnodeLayer memsize nstab spaces) es) :
    (EveryState next TableInvariant (initVnodeLayer memsize nstab spaces) es ↔
      EveryStep next RefsFit (initVnodeLayer memsize nstab spaces) es) ∧
    (EveryStep next RefsFit (initVnodeLayer memsize nstab spaces) es →
      EveryStep next Returns (initVnodeLayer memsize nstab spaces) es) := by
  have hinit : Sound (initVnodeLayer memsize nstab spaces) ∧
      FitsInt (initVnodeLayer memsize nstab spaces) := ⟨init_sound hmem nstab hempty, init_fitsInt⟩
  constructor
  · refine everyState_iff_everyStep (I := fun s => Sound s ∧ FitsInt s) ?_ ?_ hinit
      (hinit.1.invariant hinit.2) h
    · intro s e hs _ he hinv
      have hc := next_counted hs.1 hs.2 he
      exact ⟨hc.sound, hc.iff.mpr (hc.invariant_iff.mp hinv)⟩
    · intro s e hs _ he
      exact (next_counted hs.1 hs.2 he).invariant_iff
  · intro hfits
    refine @everyStep_of_inv _ _ next _ _ (fun s => Sound s ∧ FitsInt s) ?_ ?_ _ _ hinit
      (h.and hfits)
    · intro s e hs he
      have hc := next_counted hs.1 hs.2 he.1
      exact ⟨hc.sound, hc.iff.mpr he.2⟩
    · intro s e hs he
      exact enabled_returns hs.1 he.1 (seesLast_of_fits hs.1 hs.2 he.1.1)

theorem vnode_table_invariant_oneSpace :
    EveryState next TableInvariant oneSpace
      [.new 1 5 10 0, .get 1 6 0 20 1, .put 1 5, .remove 1 6, .put 1 6] := by
  refine (vnode_table_invariant_iff (by norm_num) (fun _ => rfl) ?_).1.mpr ?_
  · exact ⟨by decide +kernel, by decide +kernel, by decide +kernel, by decide +kernel,
      by decide +kernel, trivial⟩
  · exact ⟨trivial, by decide +kernel, trivial, trivial, trivial, trivial⟩

/-- The log of a state follows the life cycle of every id: acquisitions and disposals take
turns, a disposal comes when no reference is left and is a removal exactly when the vnode was
marked as its last reference went, and in between the data pointer stays and nothing is read. -/
def LivesFollowed (s : Layer) : Prop :=
  ∀ key, ∃ life, follow key .absent (history s) = some life ∧ LifeIs s key life ∧
    acquisitions key (history s) = disposals key (history s) + life.held

theorem Sound.livesFollowed {s : Layer} (h : Sound s) : LivesFollowed s := by
  intro key
  obtain ⟨life, hf, hl⟩ := h.tracked key
  exact ⟨life, hf, hl, follow_alternates hf⟩

/-- What the file systems see of each id follows the life cycle, as long as no `put_vnode`
mistakes a count for the last reference. -/
theorem vnode_lifecycle (hmem : 2 ^ 17 ≤ memsize) (hempty : ∀ p, (spaces p).vnodes = ⟨none, none⟩)
    (h : EveryStep next Callable (initVnodeLayer memsize nstab spaces) es)
    (hlast : EveryStep next SeesLast (initVnodeLayer memsize nstab spaces) es) :
    EveryState next LivesFollowed (initVnodeLayer memsize nstab spaces) es := by
  refine EveryState.mono (fun s (hs : Sound s) => Sound.livesFollowed hs) ?_
  exact everyState_of_step (fun s e hs he => next_sound hs he.1 he.2) (init_sound hmem nstab hempty)
    (h.and hlast)

theorem vnode_lifecycle_oneSpace : EveryState next LivesFollowed oneSpace
    [.get 1 6 0 20 1, .get 1 6 0 30 1, .remove 1 6, .put 1 6, .put 1 6, .get 1 6 5 0 0] := by
  refine vnode_lifecycle (by norm_num) (fun _ => rfl) ?_ ?_
  · exact ⟨by decide +kernel, by decide +kernel, by decide +kernel, by decide +kernel,
      by decide +kernel, by decide +kernel, trivial⟩
  · exact ⟨trivial, trivial, trivial, by decide +kernel, by decide +kernel, trivial, trivial⟩

end Runs

section Overflow
variable {s : Layer} {vn nsid data random : ℕ} {vnid err : ℤ} {n : ℤ}

/-- One vnode is referenced, so often, and no other. -/
structure OnlyHeld (s : Layer) (vn : ℕ) (key : ℕ × ℤ) (n : ℤ) : Prop where
  sound : Sound s
  registered : Registered s vn
  id : idOf s vn = key
  rcnt : (s.vns vn).rcnt = n
  others : ∀ w < s.vnnum, w ≠ vn → (s.vns w).rcnt = 0

theorem OnlyHeld.hasRoom (h : OnlyHeld s vn (nsid, vnid) n) (hnum : 1 < s.vnnum) : HasRoom s := by
  refine lt_of_le_of_lt (Finset.card_le_card (t := {vn}) fun w hw => ?_) hnum
  obtain ⟨hin, hpos⟩ := Finset.mem_filter.mp hw
  by_contra hne
  rw [h.others w (Finset.mem_range.mp hin) (by simpa using hne)] at hpos
  exact lt_irrefl 0 hpos

theorem OnlyHeld.get (h : OnlyHeld s vn (nsid, vnid) n) (err : ℤ) (data random : ℕ) :
    OnlyHeld (next s (.get nsid vnid err data random)) vn (nsid, vnid) (n + 1) ∧
      (next s (.get nsid vnid err data random)).vnnum = s.vnnum := by
  obtain ⟨d, s', hget, hc, hlook⟩ : ∃ d s', getVnode s nsid vnid err data random = .ok (0, d, s') ∧
      Change s s' (Pi.single vn 1) ∧ lookupVnode s' nsid vnid = some vn :=
    getVnode_found h.sound h.registered h.id
  have hnext : next s (.get nsid vnid err data random) = s' := by
    rw [next, exec, hget]
    rfl
  rw [hnext]
  obtain ⟨hr, hid⟩ := hc.sound.registry.lookup_some hlook
  refine ⟨⟨hc.sound, hr, hid, ?_, fun w hw hne => ?_⟩, hc.vnnum⟩
  · rw [hc.rcnt vn, h.rcnt, Pi.single_eq_same]
  · rw [hc.rcnt w, h.others w (by rw [← hc.vnnum]; exact hw) hne, Pi.single_eq_of_ne hne]
    rfl

/-- Any number of further calls of `get_vnode` for that vnode. -/
theorem OnlyHeld.gets (h : OnlyHeld s vn (nsid, vnid) n) (hnum : 1 < s.vnnum) (err : ℤ)
    (data : ℕ) (hrand : random ≤ maxLevel) (m : ℕ) :
    EveryStep next Enabled s (List.replicate m (.get nsid vnid err data random)) ∧
    OnlyHeld (runTrace next s (List.replicate m (.get nsid vnid err data random))) vn (nsid, vnid)
      (n + m) := by
  induction m generalizing s n with
  | zero => exact ⟨trivial, by simpa using h⟩
  | succ m ih =>
    obtain ⟨h₁, hnum₁⟩ := h.get err data random
    obtain ⟨hsteps, hend⟩ := ih h₁ (by rw [hnum₁]; exact hnum)
    rw [List.replicate_succ]
    refine ⟨⟨⟨hrand, h.hasRoom hnum⟩, hsteps⟩, ?_⟩
    rw [runTrace_cons]
    have hsum : n + 1 + (m : ℤ) = n + (m + 1 : ℕ) := by
      push_cast
      ring
    rw [← hsum]
    exact hend

/-- `get_vnode` for vnode 6, so often. -/
def heldOften (n : ℕ) : List Event := List.replicate n (.get 1 6 0 20 1)

theorem heldOften_held {n : ℕ} (hn : 0 < n) : EveryStep next Enabled oneSpace (heldOften n) ∧
    OnlyHeld (runTrace next oneSpace (heldOften n)) 0 (1, 6) n := by
  obtain ⟨m, rfl⟩ := Nat.exists_eq_add_of_lt hn
  have hstart : OnlyHeld (next oneSpace (.get 1 6 0 20 1)) 0 (1, 6) 1 :=
    ⟨next_sound oneSpace_sound (by decide +kernel) trivial, ⟨by decide +kernel, by decide +kernel⟩,
      by decide +kernel, by decide +kernel, by decide +kernel⟩
  have hfirst : Enabled oneSpace (.get 1 6 0 20 1) := by decide +kernel
  have hnum : 1 < (next oneSpace (.get 1 6 0 20 1)).vnnum := by decide +kernel
  generalize hs : next oneSpace (.get 1 6 0 20 1) = s at hstart hnum
  obtain ⟨hsteps, hend⟩ := hstart.gets hnum 0 20 (by decide : 1 ≤ maxLevel) m
  unfold heldOften
  rw [zero_add, List.replicate_succ, runTrace_cons, hs]
  refine ⟨⟨hfirst, by rw [hs]; exact hsteps⟩, ?_⟩
  push_cast
  rw [add_comm]
  exact hend

/-- With `2 ^ 31` references a vnode on the locked list has a count below zero. -/
theorem vnode_table_overflow : EveryStep next Enabled oneSpace (heldOften (2 ^ 31)) ∧
    ¬EveryState next TableInvariant oneSpace (heldOften (2 ^ 31)) := by
  obtain ⟨hsteps, hend⟩ := heldOften_held (n := 2 ^ 31) (by norm_num)
  refine ⟨hsteps, fun hinv => ?_⟩
  exact not_invariant hend.sound hend.registered.1 (by rw [hend.rcnt]; norm_num) hinv.last

/-- A marked vnode is removed when its count is seen to reach zero. -/
theorem put_removes (h : Sound s) (hr : Registered s vn) (hid : idOf s vn = (nsid, vnid))
    (hmark : (s.vns vn).remove = true) (hseen : toInt32 ((s.vns vn).rcnt - 1) = 0) :
    (next s (.put nsid vnid)).log =
      s.log ++ [.putting nsid vnid, .removeVnode nsid vnid (s.vns vn).data true] := by
  obtain ⟨p, hp⟩ := Option.ne_none_iff_exists'.mp hr.2
  have hids : (s.spaces p).nsid = nsid ∧ (s.vns vn).vnid = vnid := by
    rw [idOf, nsidOf, hp] at hid
    exact ⟨congrArg Prod.fst hid, congrArg Prod.snd hid⟩
  rw [next, exec, putVnode, Sound.lookup h hr hid]
  unfold decVnode disposeRemoved clearVnode
  simp [record, setVnode, moveVnode, Vnode.intRcnt, hseen, hmark, hp, hids, Except.map,
    setSpaceVnodes]

/-- The history then does not follow the life cycle, unless it was the last reference. -/
theorem put_not_followed (h : Sound s) (hr : Registered s vn) (hid : idOf s vn = (nsid, vnid))
    (hmark : (s.vns vn).remove = true) (hseen : toInt32 ((s.vns vn).rcnt - 1) = 0)
    (hmany : 1 < (s.vns vn).rcnt) : ¬LivesFollowed (next s (.put nsid vnid)) := by
  intro hlives
  obtain ⟨life, hf, _⟩ := hlives (nsid, vnid)
  have hlife := h.life hr
  rw [hid] at hlife
  unfold history at hf
  rw [put_removes h hr hid hmark hseen, List.map_append, follow_append] at hf
  unfold lifeOf history at hlife
  rw [hlife, hmark] at hf
  have hnot : ¬(s.vns vn).rcnt ≤ 0 := by omega
  have hone : (s.vns vn).rcnt ≠ 1 := by omega
  simp [follow, act, Life.step, hnot, hone] at hf

/-- A vnode that has been marked is put once, with all other references still there. -/
def putOnce (n : ℕ) : List Event := heldOften n ++ [.remove 1 6, .put 1 6]

/-- When the references are one modulo `2 ^ 32`, the vnode is removed under the holders of the
others. -/
theorem putOnce_not_followed {n : ℕ} (hn : 1 < n) (hmod : n % 2 ^ 32 = 1) :
    EveryStep next Callable oneSpace (putOnce n) ∧
    ¬EveryState next LivesFollowed oneSpace (putOnce n) := by
  obtain ⟨hsteps, hend⟩ := heldOften_held (n := n) (by omega)
  unfold putOnce
  generalize heldOften n = gets at *
  rw [everyStep_append]
  generalize hs : runTrace next oneSpace gets = s at *
  have hseen : (s.vns 0).intRcnt ≠ 0 := by
    rw [Vnode.intRcnt, hend.rcnt, Ne, toInt32_eq_zero]
    omega
  have hmarked : (next s (.remove 1 6)).vns 0 = { s.vns 0 with remove := true } := by
    rw [next, exec, removeVnode, markVnode, Sound.lookup hend.sound hend.registered hend.id]
    simp [hseen, record, setVnode]
  have hsound : Sound (next s (.remove 1 6)) := next_sound hend.sound trivial trivial
  obtain ⟨hnum, hspaces, _⟩ := markVnode_rcnt true s 1 6
  change (next s (.remove 1 6)).vnnum = s.vnnum at hnum
  change SameSpaces s (next s (.remove 1 6)) at hspaces
  have hrcnt : ((next s (.remove 1 6)).vns 0).rcnt = n := by
    rw [hmarked]
    exact hend.rcnt
  have hr : Registered (next s (.remove 1 6)) 0 := by
    refine ⟨by rw [hnum]; exact hend.registered.1, ?_⟩
    rw [hmarked]
    exact hend.registered.2
  have hid : idOf (next s (.remove 1 6)) 0 = (1, 6) := by
    rw [← hend.id]
    exact hspaces.idOf (by rw [hmarked]) (by rw [hmarked])
  refine ⟨⟨hsteps.mono fun _ _ he => he.1, trivial, ⟨0, hr.1, hr.2, hid, ?_⟩, trivial⟩,
    fun hlives => ?_⟩
  · rw [hrcnt]
    omega
  · have hlast := hlives.last
    rw [runTrace_append, hs, runTrace_cons, runTrace_cons, runTrace_nil] at hlast
    refine put_not_followed hsound hr hid (by rw [hmarked]) ?_ ?_ hlast
    · rw [hrcnt, toInt32_eq_zero]
      omega
    · rw [hrcnt]
      omega

/-- The file system is told to remove a vnode that is still referenced `2 ^ 32` times. -/
theorem vnode_lifecycle_overflow : EveryStep next Callable oneSpace (putOnce (2 ^ 32 + 1)) ∧
    ¬EveryState next LivesFollowed oneSpace (putOnce (2 ^ 32 + 1)) :=
  putOnce_not_followed (by norm_num) (by norm_num)

end Overflow

end VnodeRuns
