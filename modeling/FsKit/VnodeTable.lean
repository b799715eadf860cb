import Mathlib.Tactic
import FsKit.TransitionTrace
import FsKit.LifecycleProtocol
import FsKit.VnodeRegistry

/-! What the calls of the vnode layer keep. Every vnode is in one of the three lists, the
skip list and the lists of the name spaces hold the vnodes that are registered, and the log
follows the life cycle of every id. -/
namespace VnodeTable

open TransitionTrace LinkedList MachineIntegers SkipListSet LifecycleProtocol VnodeLayer
open VnodeRegistry

/-- What an observation means for the life of the ids it is about. -/
def act : Obs → (ℕ × ℤ) × Act ℕ
  | .readVnode nsid vnid _ err data =>
    ((nsid, vnid), if err ≠ 0 then .readFailed else .read data)
  | .releaseVnode nsid vnid data _ => ((nsid, vnid), .release data)
  | .removeVnode nsid vnid data _ => ((nsid, vnid), .remove data)
  | .created nsid vnid data => ((nsid, vnid), .created data)
  | .got nsid vnid data => ((nsid, vnid), .got data)
  | .referenced nsid vnid => ((nsid, vnid), .referenced)
  | .putting nsid vnid => ((nsid, vnid), .put)
  | .marked nsid vnid remove => ((nsid, vnid), .mark remove)

def history (s : Layer) : List ((ℕ × ℤ) × Act ℕ) := s.log.map act

/-- The life of the ids, as the log has it. -/
def lifeOf (s : Layer) (key : ℕ × ℤ) : Option (Life ℕ) := follow key .absent (history s)

def Registered (s : Layer) (v : ℕ) : Prop := v < s.vnnum ∧ (s.vns v).ns ≠ none

/-- The table has the vnode of these ids as the life says. -/
def LifeIs (s : Layer) (key : ℕ × ℤ) : Life ℕ → Prop
  | .absent => ∀ v, Registered s v → idOf s v ≠ key
  | .present data refs marked => ∃ v, Registered s v ∧ idOf s v = key ∧ (s.vns v).data = data ∧
      (s.vns v).rcnt = refs ∧ (s.vns v).remove = marked
  | .doomed _ => False

def Tracked (s : Layer) (key : ℕ × ℤ) : Prop :=
  ∃ life, lifeOf s key = some life ∧ LifeIs s key life

/-- Where a vnode belongs, by its name space and its references. -/
structure Placed (v : Vnode) : Prop where
  idle : v.busy = false
  rcnt : 0 ≤ v.rcnt
  free : v.ns = none → v.inlist = .free ∧ v.rcnt = 0 ∧ v.remove = false
  used : v.ns ≠ none → v.rcnt = 0 → v.inlist = .used ∧ v.remove = false
  locked : v.ns ≠ none → v.rcnt ≠ 0 → v.inlist = .locked

/-- A holder who sees the count reach zero has dropped the last reference. -/
def LastSeen (v : Vnode) : Prop := toInt32 (v.rcnt - 1) = 0 → v.rcnt = 1

instance (v : Vnode) : Decidable (LastSeen v) := inferInstanceAs (Decidable (_ → _))

theorem lastSeen_of_le {v : Vnode} (hpos : 0 < v.rcnt) (hle : v.rcnt ≤ 2 ^ 32) : LastSeen v := by
  intro hz
  rw [toInt32_eq_zero_of_lt (by omega) (by omega)] at hz
  omega

structure Settled (s : Layer) : Prop where
  lists : Lists s
  registry : Registry s (Registered s)
  placed : ∀ v < s.vnnum, Placed (s.vns v)
  tracked : ∀ key, Tracked s key

def WithinCap (s : Layer) : Prop := (s.lists .used).num ≤ s.usdvnnum

structure Sound (s : Layer) : Prop extends Settled s where
  cap : WithinCap s

/-- All of it, except what concerns one vnode that a call has in its hands. -/
structure Around (s : Layer) (vn : ℕ) : Prop where
  inside : vn < s.vnnum
  lists : Lists s
  registry : Registry s (Registered s)
  placed : ∀ v < s.vnnum, v ≠ vn → Placed (s.vns v)
  tracked : ∀ key, (Registered s vn → idOf s vn ≠ key) → Tracked s key

section InHand
variable {s s' : Layer} {vn nsid random : ℕ} {vnid : ℤ} {key : ℕ × ℤ}

theorem Settled.around (h : Settled s) (hvn : vn < s.vnnum) : Around s vn :=
  ⟨hvn, h.lists, h.registry, fun v hv _ => h.placed v hv, fun key _ => h.tracked key⟩

theorem Around.settled (h : Around s vn) (hp : Placed (s.vns vn))
    (ht : Registered s vn → Tracked s (idOf s vn)) : Settled s := by
  refine ⟨h.lists, h.registry, fun v hv => ?_, fun key => ?_⟩
  · by_cases hvn : v = vn
    · subst hvn
      exact hp
    · exact h.placed v hv hvn
  · by_cases hkey : Registered s vn ∧ idOf s vn = key
    · rw [← hkey.2]
      exact ht hkey.1
    · exact h.tracked key fun hr hid => hkey ⟨hr, hid⟩

/-- Only one vnode differs, and the ids in question are not its. -/
theorem LifeIs.other {life : Life ℕ} (h : LifeIs s key life) (hsame : SameSpaces s s')
    (hnum : s'.vnnum = s.vnnum) (hv : ∀ v, v ≠ vn → s'.vns v = s.vns v)
    (h₁ : Registered s vn → idOf s vn ≠ key) (h₂ : Registered s' vn → idOf s' vn ≠ key) :
    LifeIs s' key life := by
  have hid : ∀ v, v ≠ vn → idOf s' v = idOf s v := by
    intro v hvn
    exact hsame.idOf (by rw [hv v hvn]) (by rw [hv v hvn])
  have hreg : ∀ v, v ≠ vn → (Registered s' v ↔ Registered s v) := by
    intro v hvn
    unfold Registered
    rw [hv v hvn, hnum]
  cases life with
  | absent =>
    intro v hr
    by_cases hvn : v = vn
    · subst hvn
      exact h₂ hr
    · rw [hid v hvn]
      exact h v ((hreg v hvn).mp hr)
  | present data refs marked =>
    obtain ⟨v, hr, hk, hrest⟩ := h
    have hvn : v ≠ vn := by
      rintro rfl
      exact h₁ hr hk
    refine ⟨v, (hreg v hvn).mpr hr, by rw [hid v hvn, hk], ?_⟩
    rw [hv v hvn]
    exact hrest
  | doomed data => exact h

theorem Around.move (h : Around s vn) (n : ListName) : Around (moveVnode s vn n) vn := by
  have hsame : SameSpaces s (moveVnode s vn n) := ⟨rfl, rfl, fun _ => ⟨rfl, rfl⟩⟩
  have hv : ∀ v, v ≠ vn → (moveVnode s vn n).vns v = s.vns v :=
    fun v hvn => by rw [moveVnode_vns, Function.update_of_ne hvn]
  have hns : ∀ v, ((moveVnode s vn n).vns v).ns = (s.vns v).ns ∧
      ((moveVnode s vn n).vns v).vnid = (s.vns v).vnid := by
    intro v
    by_cases hvn : v = vn
    · subst hvn
      rw [moveVnode_vns, Function.update_self]
      exact ⟨rfl, rfl⟩
    · rw [hv v hvn]
      exact ⟨rfl, rfl⟩
  have hreg : Registered (moveVnode s vn n) = Registered s := by
    funext v
    unfold Registered
    rw [(hns v).1]
    rfl
  have hid : idOf (moveVnode s vn n) vn = idOf s vn := hsame.idOf (hns vn).1 (hns vn).2
  refine ⟨h.inside, h.lists.move h.inside n, ?_, fun v hlt hvn => ?_, fun key hkey => ?_⟩
  · rw [hreg]
    exact h.registry.congr rfl rfl rfl rfl rfl fun v _ => hns v
  · rw [hv v hvn]
    exact h.placed v hlt hvn
  · rw [hreg, hid] at hkey
    obtain ⟨life, hf, hl⟩ := h.tracked key hkey
    refine ⟨life, hf, hl.other hsame rfl hv hkey ?_⟩
    rw [hreg, hid]
    exact hkey

theorem Around.set (h : Around s vn) {f : Vnode → Vnode} (hns : (f (s.vns vn)).ns = (s.vns vn).ns)
    (hvnid : (f (s.vns vn)).vnid = (s.vns vn).vnid)
    (hlist : (f (s.vns vn)).inlist = (s.vns vn).inlist) : Around (setVnode s vn f) vn := by
  have hsame : SameSpaces s (setVnode s vn f) := ⟨rfl, rfl, fun _ => ⟨rfl, rfl⟩⟩
  have hv : ∀ v, v ≠ vn → (setVnode s vn f).vns v = s.vns v :=
    fun v hvn => by rw [setVnode_vns, Function.update_of_ne hvn]
  have hat : (setVnode s vn f).vns vn = f (s.vns vn) := by rw [setVnode_vns, Function.update_self]
  have hfields : ∀ v, ((setVnode s vn f).vns v).ns = (s.vns v).ns ∧
      ((setVnode s vn f).vns v).vnid = (s.vns v).vnid ∧
      ((setVnode s vn f).vns v).inlist = (s.vns v).inlist := by
    intro v
    by_cases hvn : v = vn
    · subst hvn
      rw [hat]
      exact ⟨hns, hvnid, hlist⟩
    · rw [hv v hvn]
      exact ⟨rfl, rfl, rfl⟩
  have hreg : Registered (setVnode s vn f) = Registered s := by
    funext v
    unfold Registered
    rw [(hfields v).1]
    rfl
  have hid : idOf (setVnode s vn f) vn = idOf s vn :=
    hsame.idOf (hfields vn).1 (hfields vn).2.1
  refine ⟨h.inside, h.lists.congr rfl rfl rfl fun v => (hfields v).2.2, ?_,
    fun v hlt hvn => ?_, fun key hkey => ?_⟩
  · rw [hreg]
    exact h.registry.congr rfl rfl rfl rfl rfl fun v _ => ⟨(hfields v).1, (hfields v).2.1⟩
  · rw [hv v hvn]
    exact h.placed v hlt hvn
  · rw [hreg, hid] at hkey
    obtain ⟨life, hf, hl⟩ := h.tracked key hkey
    refine ⟨life, hf, hl.other hsame rfl hv hkey ?_⟩
    rw [hreg, hid]
    exact hkey

theorem lifeOf_record_other {o : Obs} (h : (act o).1 ≠ key) :
    lifeOf (record s o) key = lifeOf s key := by
  unfold lifeOf history record
  rw [List.map_append, follow_append]
  cases follow key Life.absent (s.log.map act) with
  | none => rfl
  | some life => simp [follow, h]

theorem lifeOf_record {o : Obs} {life life' : Life ℕ} (hkey : (act o).1 = key)
    (h : lifeOf s key = some life) (hstep : life.step (act o).2 = some life') :
    lifeOf (record s o) key = some life' := by
  unfold lifeOf history record at *
  rw [List.map_append, follow_append, h]
  simp [follow, hkey, hstep]

theorem Around.record (h : Around s vn) (hr : Registered s vn) {o : Obs}
    (ho : (act o).1 = idOf s vn) : Around (record s o) vn := by
  refine ⟨h.inside, h.lists.congr rfl rfl rfl fun _ => rfl,
    h.registry.congr rfl rfl rfl rfl rfl fun _ _ => ⟨rfl, rfl⟩, h.placed, fun key hkey => ?_⟩
  have hne : idOf s vn ≠ key := hkey hr
  obtain ⟨life, hf, hl⟩ := h.tracked key fun _ => hne
  refine ⟨life, ?_, hl⟩
  rw [lifeOf_record_other (by rw [ho]; exact hne)]
  exact hf

theorem lifeOf_beside (h : Beside s s') (key : ℕ × ℤ) : lifeOf s' key = lifeOf s key := by
  unfold lifeOf history
  rw [h.log]

theorem idOf_of_ns {p : ℕ} (h : (s.vns vn).ns = some p) :
    idOf s vn = ((s.spaces p).nsid, (s.vns vn).vnid) := by
  simp [idOf, nsidOf, h]

/-- A vnode in hand gets ids that are not taken and is entered into the registry. -/
theorem Around.register (h : Around s vn) (hfree : (s.vns vn).ns = none) {f : Vnode → Vnode}
    {p : ℕ} (hns : (f (s.vns vn)).ns = some p)
    (hlist : (f (s.vns vn)).inlist = (s.vns vn).inlist)
    (hlive : nsidtons s (s.spaces p).nsid = some p)
    (hid : ∀ w, Registered s w → idOf s w ≠ ((s.spaces p).nsid, (f (s.vns vn)).vnid))
    (hr : random ≤ maxLevel) :
    ∃ s', sortVnode (setVnode s vn f) vn random = .ok (0, s') ∧ Around s' vn ∧ Beside s s' ∧
      s'.vns vn = f (s.vns vn) := by
  have hunreg : ¬ Registered s vn := fun hreg => hreg.2 hfree
  have hset : (setVnode s vn f).vns vn = f (s.vns vn) := by
    rw [setVnode_vns, Function.update_self]
  have hoth : ∀ v, v ≠ vn → (setVnode s vn f).vns v = s.vns v := fun v hvn => by
    rw [setVnode_vns, Function.update_of_ne hvn]
  have hsame : SameSpaces s (setVnode s vn f) := ⟨rfl, rfl, fun _ => ⟨rfl, rfl⟩⟩
  have hne : ∀ {w}, Registered s w → w ≠ vn := by
    rintro w hw rfl
    exact hunreg hw
  have hregistry : Registry (setVnode s vn f) (Registered s) := by
    refine h.registry.congr rfl rfl rfl rfl rfl fun w hw => ?_
    rw [hoth w (hne hw)]
    exact ⟨rfl, rfl⟩
  have hkey : idOf (setVnode s vn f) vn = ((s.spaces p).nsid, (f (s.vns vn)).vnid) := by
    rw [idOf_of_ns (by rw [hset]; exact hns), hset]
    rfl
  obtain ⟨s', hsort, hreg, hb, hvns⟩ := hregistry.sort hunreg (by rw [hset]; exact hns)
    (by rw [hsame.nsidtons]; exact hlive)
    (fun w hw => by
      rw [hkey, hsame.idOf (by rw [hoth w (hne hw)]) (by rw [hoth w (hne hw)])]
      exact hid w hw) hr
  have hb' : Beside s s' := ⟨⟨hb.spaces.nns, hb.spaces.nstab, hb.spaces.ids⟩, hb.vnnum,
    hb.usdvnnum, hb.list, hb.lists, hb.log⟩
  have hat : s'.vns vn = f (s.vns vn) := by rw [hvns, hset]
  have hv : ∀ v, v ≠ vn → s'.vns v = s.vns v := fun v hvn => by rw [hvns, hoth v hvn]
  have hregvn : Registered s' vn := by
    refine ⟨by rw [hb'.vnnum]; exact h.inside, ?_⟩
    rw [hat, hns]
    exact Option.some_ne_none p
  have hreg' : (fun w => w = vn ∨ Registered s w) = Registered s' := by
    funext w
    by_cases hw : w = vn
    · subst hw
      simp [hregvn]
    · unfold Registered
      simp [hw, hv w hw, hb'.vnnum]
  rw [hreg'] at hreg
  refine ⟨s', hsort, ⟨by rw [hb'.vnnum]; exact h.inside, ?_, hreg, ?_, ?_⟩, hb', hat⟩
  · refine h.lists.congr hb'.list hb'.lists hb'.vnnum fun v => ?_
    by_cases hvn : v = vn
    · subst hvn
      rw [hat, hlist]
    · rw [hv v hvn]
  · intro v hlt hvn
    rw [hv v hvn]
    exact h.placed v (by rw [← hb'.vnnum]; exact hlt) hvn
  · intro key hk
    obtain ⟨life, hf, hl⟩ := h.tracked key fun hr => absurd hr hunreg
    refine ⟨life, by rw [lifeOf_beside hb', hf], hl.other hb'.spaces hb'.vnnum hv ?_ hk⟩
    exact fun hr => absurd hr hunreg

theorem idOf_set {f : Vnode → Vnode} (hns : (f (s.vns vn)).ns = (s.vns vn).ns)
    (hvnid : (f (s.vns vn)).vnid = (s.vns vn).vnid) : idOf (setVnode s vn f) vn = idOf s vn := by
  unfold idOf nsidOf
  rw [setVnode_vns, Function.update_self, hns, hvnid]
  rfl

theorem registered_set {f : Vnode → Vnode} (hns : (f (s.vns vn)).ns = (s.vns vn).ns) :
    Registered (setVnode s vn f) vn ↔ Registered s vn := by
  unfold Registered
  rw [setVnode_vns, Function.update_self, hns]
  rfl

theorem idOf_move (n : ListName) : idOf (moveVnode s vn n) vn = idOf s vn := by
  unfold idOf nsidOf
  rw [moveVnode_vns, Function.update_self]
  rfl

theorem registered_move (n : ListName) : Registered (moveVnode s vn n) vn ↔ Registered s vn := by
  unfold Registered
  rw [moveVnode_vns, Function.update_self]
  rfl

/-- Vnodes may have lost their ids, nothing else happened to the registry. -/
structure Sheds (s s' : Layer) : Prop where
  spaces : SameSpaces s s'
  vnnum : s'.vnnum = s.vnnum
  usdvnnum : s'.usdvnnum = s.usdvnnum
  registered : ∀ w, Registered s' w → Registered s w ∧ idOf s' w = idOf s w

theorem Sheds.trans {t : Layer} (h₁ : Sheds s t) (h₂ : Sheds t s') : Sheds s s' where
  spaces := ⟨h₂.spaces.nns.trans h₁.spaces.nns, h₂.spaces.nstab.trans h₁.spaces.nstab, fun p =>
    ⟨(h₂.spaces.ids p).1.trans (h₁.spaces.ids p).1, (h₂.spaces.ids p).2.trans (h₁.spaces.ids p).2⟩⟩
  vnnum := h₂.vnnum.trans h₁.vnnum
  usdvnnum := h₂.usdvnnum.trans h₁.usdvnnum
  registered w hw := by
    obtain ⟨hw₂, hid₂⟩ := h₂.registered w hw
    obtain ⟨hw₁, hid₁⟩ := h₁.registered w hw₂
    exact ⟨hw₁, hid₂.trans hid₁⟩

theorem sheds_of_ids (hsame : SameSpaces s s') (hnum : s'.vnnum = s.vnnum)
    (husd : s'.usdvnnum = s.usdvnnum)
    (hv : ∀ v, (s'.vns v).ns = (s.vns v).ns ∧ (s'.vns v).vnid = (s.vns v).vnid) : Sheds s s' := by
  refine ⟨hsame, hnum, husd, fun w hw => ⟨⟨?_, ?_⟩, hsame.idOf (hv w).1 (hv w).2⟩⟩
  · rw [← hnum]
    exact hw.1
  · rw [← (hv w).1]
    exact hw.2

theorem sheds_set {f : Vnode → Vnode} (hns : (f (s.vns vn)).ns = (s.vns vn).ns)
    (hvnid : (f (s.vns vn)).vnid = (s.vns vn).vnid) : Sheds s (setVnode s vn f) := by
  refine sheds_of_ids ⟨rfl, rfl, fun _ => ⟨rfl, rfl⟩⟩ rfl rfl fun v => ?_
  by_cases hv : v = vn
  · subst hv
    rw [setVnode_vns, Function.update_self]
    exact ⟨hns, hvnid⟩
  · rw [setVnode_vns, Function.update_of_ne hv]
    exact ⟨rfl, rfl⟩

theorem sheds_record (o : Obs) : Sheds s (record s o) :=
  sheds_of_ids ⟨rfl, rfl, fun _ => ⟨rfl, rfl⟩⟩ rfl rfl fun _ => ⟨rfl, rfl⟩

theorem sheds_move (n : ListName) : Sheds s (moveVnode s vn n) := by
  refine sheds_of_ids ⟨rfl, rfl, fun _ => ⟨rfl, rfl⟩⟩ rfl rfl fun v => ?_
  by_cases hv : v = vn
  · subst hv
    rw [moveVnode_vns, Function.update_self]
    exact ⟨rfl, rfl⟩
  · rw [moveVnode_vns, Function.update_of_ne hv]
    exact ⟨rfl, rfl⟩

/-- A vnode in hand that the registry does not know. -/
structure Held (s : Layer) (vn : ℕ) : Prop where
  around : Around s vn
  ns : (s.vns vn).ns = none
  idle : (s.vns vn).busy = false
  rcnt : (s.vns vn).rcnt = 0
  remove : (s.vns vn).remove = false

theorem Held.unregistered (h : Held s vn) : ¬ Registered s vn := fun hr => hr.2 h.ns

theorem Held.move (h : Held s vn) (n : ListName) : Held (moveVnode s vn n) vn := by
  have hat : (moveVnode s vn n).vns vn = { s.vns vn with inlist := n } := by
    rw [moveVnode_vns, Function.update_self]
  refine ⟨h.around.move n, ?_, ?_, ?_, ?_⟩ <;> rw [hat]
  · exact h.ns
  · exact h.idle
  · exact h.rcnt
  · exact h.remove

/-- The vnode is taken out of the registry after its disposal has been logged. -/
theorem Around.clear (h : Around s vn) (hr : Registered s vn)
    (hgone : lifeOf s (idOf s vn) = some .absent) :
    ∃ s', clearVnode s vn = .ok s' ∧ Held s' vn ∧ Sheds s s' ∧ s'.lists = s.lists ∧
      (s'.vns vn).inlist = (s.vns vn).inlist := by
  obtain ⟨s', hclear, hreg, hb, hvns⟩ := h.registry.clear hr
  have hat : s'.vns vn = cleared (s.vns vn) := by rw [hvns, Function.update_self]
  have hv : ∀ v, v ≠ vn → s'.vns v = s.vns v := fun v hvn => by
    rw [hvns, Function.update_of_ne hvn]
  have hunreg : ¬ Registered s' vn := by
    rintro ⟨_, hns⟩
    rw [hat] at hns
    exact hns rfl
  have hiff : ∀ v, v ≠ vn → (Registered s' v ↔ Registered s v) := by
    intro v hvn
    unfold Registered
    rw [hv v hvn, hb.vnnum]
  have hid : ∀ v, v ≠ vn → idOf s' v = idOf s v := by
    intro v hvn
    exact hb.spaces.idOf (by rw [hv v hvn]) (by rw [hv v hvn])
  have hne : ∀ {v}, Registered s' v → v ≠ vn := by
    rintro v hrv rfl
    exact hunreg hrv
  have hreg' : (fun w => Registered s w ∧ w ≠ vn) = Registered s' := by
    funext w
    by_cases hw : w = vn
    · subst hw
      simp [hunreg]
    · simp [hw, hiff w hw]
  rw [hreg'] at hreg
  have haround : Around s' vn := by
    refine ⟨by rw [hb.vnnum]; exact h.inside, ?_, hreg, ?_, ?_⟩
    · refine h.lists.congr hb.list hb.lists hb.vnnum fun v => ?_
      by_cases hvn : v = vn
      · subst hvn
        rw [hat]
        rfl
      · rw [hv v hvn]
    · intro v hlt hvn
      rw [hv v hvn]
      exact h.placed v (by rw [← hb.vnnum]; exact hlt) hvn
    · intro key _
      by_cases hkey : idOf s vn = key
      · subst hkey
        refine ⟨.absent, by rw [lifeOf_beside hb, hgone], fun v hrv heq => ?_⟩
        rw [hid v (hne hrv)] at heq
        exact hne hrv (h.registry.id_inj ((hiff v (hne hrv)).mp hrv) hr heq)
      · obtain ⟨life, hf, hl⟩ := h.tracked key fun _ => hkey
        refine ⟨life, by rw [lifeOf_beside hb, hf],
          hl.other hb.spaces hb.vnnum hv (fun _ => hkey) ?_⟩
        exact fun hrv => absurd hrv hunreg
  refine ⟨s', hclear, ⟨haround, ?_, ?_, ?_, ?_⟩, ⟨hb.spaces, hb.vnnum, hb.usdvnnum, ?_⟩,
    hb.lists, by rw [hat]; rfl⟩
  · rw [hat]; rfl
  · rw [hat]; rfl
  · rw [hat]; rfl
  · rw [hat]; rfl
  · intro w hw
    exact ⟨(hiff w (hne hw)).mp hw, hid w (hne hw)⟩

/-- A vnode that was read or made, has no reference and is not marked, is released. -/
theorem Around.flush (h : Around s vn) (hr : Registered s vn)
    (hlife : lifeOf s (idOf s vn) = some (.present (s.vns vn).data 0 false)) (r : Bool) :
    ∃ s', flushVnode s vn r = .ok s' ∧ Held s' vn ∧ Sheds s s' ∧ s'.lists = s.lists ∧
      (s'.vns vn).inlist = (s.vns vn).inlist := by
  obtain ⟨p, hns, _⟩ := h.registry.live vn hr
  have hkey := idOf_of_ns hns
  unfold flushVnode
  rw [hns]
  dsimp only
  generalize hf : (fun v : Vnode => { v with busy := true }) = f
  have hfns : ∀ v, (f v).ns = v.ns ∧ (f v).vnid = v.vnid ∧ (f v).inlist = v.inlist ∧
      (f v).data = v.data := by
    intro v
    rw [← hf]
    exact ⟨rfl, rfl, rfl, rfl⟩
  have hat : (setVnode s vn f).vns vn = f (s.vns vn) := by
    rw [setVnode_vns, Function.update_self]
  have h₁ := h.set (hfns _).1 (hfns _).2.1 (hfns _).2.2.1
  have hr₁ := (registered_set (hfns (s.vns vn)).1).mpr hr
  have hid₁ := idOf_set (hfns (s.vns vn)).1 (hfns (s.vns vn)).2.1
  rw [hat, (hfns _).2.1, (hfns _).2.2.2]
  generalize ho : Obs.releaseVnode ((setVnode s vn f).spaces p).nsid (s.vns vn).vnid
    (s.vns vn).data r = o
  have hact : act o = (idOf s vn, .release (s.vns vn).data) := by rw [← ho, hkey]; rfl
  have h₂ := h₁.record hr₁ (o := o) (by rw [hact, hid₁])
  have hlife₂ : lifeOf (VnodeLayer.record (setVnode s vn f) o) (idOf s vn) = some .absent :=
    lifeOf_record (by rw [hact]) hlife (by rw [hact]; simp [Life.step])
  have h₃ := h₂.set (f := fun v => { v with busy := false }) rfl rfl rfl
  have hid₃ : idOf (setVnode (VnodeLayer.record (setVnode s vn f) o) vn
      fun v => { v with busy := false }) vn = idOf s vn := (idOf_set rfl rfl).trans hid₁
  obtain ⟨s', hclear, hheld, hsheds, hlists, hin⟩ :=
    h₃.clear ((registered_set rfl).mpr hr₁) (by rw [hid₃]; exact hlife₂)
  refine ⟨s', hclear, hheld, ?_, hlists, ?_⟩
  · exact ((sheds_set (hfns _).1 (hfns _).2.1).trans (sheds_record o)).trans
      ((sheds_set rfl rfl).trans hsheds)
  · rw [hin, setVnode_vns, Function.update_self]
    dsimp only
    rw [show (VnodeLayer.record (setVnode s vn f) o).vns vn = f (s.vns vn) from hat]
    exact (hfns _).2.2.1

/-- The life of a registered vnode is what its fields say. -/
theorem Settled.life (h : Settled s) (hr : Registered s vn) :
    lifeOf s (idOf s vn) =
      some (.present (s.vns vn).data (s.vns vn).rcnt (s.vns vn).remove) := by
  obtain ⟨life, hf, hl⟩ := h.tracked (idOf s vn)
  rw [hf]
  cases life with
  | absent => exact absurd rfl (hl vn hr)
  | present data refs marked =>
    obtain ⟨v, hrv, hid, rfl, rfl, rfl⟩ := hl
    rw [h.registry.id_inj hrv hr hid]
  | doomed data => exact absurd hl id

theorem tracked_of_life (hr : Registered s vn)
    (hlife : lifeOf s (idOf s vn) =
      some (.present (s.vns vn).data (s.vns vn).rcnt (s.vns vn).remove)) :
    Tracked s (idOf s vn) :=
  ⟨_, hlife, vn, hr, rfl, rfl, rfl, rfl⟩

theorem Held.settled (h : Held s vn) : Settled (moveVnode s vn .free) := by
  have hm := h.move .free
  refine hm.around.settled ?_ fun hr => absurd hr hm.unregistered
  have hin : ((moveVnode s vn .free).vns vn).inlist = .free := by
    rw [moveVnode_vns, Function.update_self]
  refine ⟨hm.idle, hm.rcnt.ge, fun _ => ⟨hin, hm.rcnt, hm.remove⟩, ?_, ?_⟩
  · exact fun hne => absurd hm.ns hne
  · exact fun hne => absurd hm.ns hne

theorem Settled.free_ns (h : Settled s) (hvn : vn < s.vnnum) (hin : (s.vns vn).inlist = .free) :
    (s.vns vn).ns = none := by
  by_contra hne
  have hp := h.placed vn hvn
  by_cases hz : (s.vns vn).rcnt = 0
  · have := (hp.used hne hz).1
    rw [hin] at this
    cases this
  · have := hp.locked hne hz
    rw [hin] at this
    cases this

theorem Settled.used_facts (h : Settled s) (hvn : vn < s.vnnum)
    (hin : (s.vns vn).inlist = .used) :
    Registered s vn ∧ (s.vns vn).rcnt = 0 ∧ (s.vns vn).remove = false := by
  have hp := h.placed vn hvn
  have hne : (s.vns vn).ns ≠ none := by
    intro hns
    have := (hp.free hns).1
    rw [hin] at this
    cases this
  have hz : (s.vns vn).rcnt = 0 := by
    by_contra hz
    have := hp.locked hne hz
    rw [hin] at this
    cases this
  exact ⟨⟨hvn, hne⟩, hz, (hp.used hne hz).2⟩

/-- A vnode stolen from the free list. -/
theorem Settled.stealFree (h : Settled s) (hh : (s.lists .free).ends.head = some vn) :
    Held (moveVnode s vn .locked) vn ∧
      ((moveVnode s vn .locked).lists .used).num = (s.lists .used).num := by
  obtain ⟨hvn, hin⟩ := h.lists.head_some hh
  have hns := h.free_ns hvn hin
  have hp := h.placed vn hvn
  have hheld : Held s vn :=
    ⟨h.around hvn, hns, hp.idle, (hp.free hns).2.1, (hp.free hns).2.2⟩
  refine ⟨hheld.move .locked, ?_⟩
  rw [moveVnode_num, hin, if_neg (by decide), if_neg (by decide)]
  omega

/-- A vnode stolen from the used list and flushed. -/
theorem Settled.stealUsed (h : Settled s) (hh : (s.lists .used).ends.head = some vn) (r : Bool) :
    ∃ s', flushVnode (moveVnode s vn .locked) vn r = .ok s' ∧ Held s' vn ∧ Sheds s s' ∧
      (s'.lists .used).num = (s.lists .used).num - 1 ∧ (s'.vns vn).inlist = .locked := by
  obtain ⟨hvn, hin⟩ := h.lists.head_some hh
  obtain ⟨hr, hz, hrem⟩ := h.used_facts hvn hin
  have hlife := h.life hr
  rw [hz, hrem] at hlife
  have hat : (moveVnode s vn .locked).vns vn = { s.vns vn with inlist := .locked } := by
    rw [moveVnode_vns, Function.update_self]
  obtain ⟨s', hflush, hheld, hsheds, hlists, hinl⟩ :=
    ((h.around hvn).move .locked).flush ((registered_move .locked).mpr hr)
      (by rw [idOf_move, hat]; exact hlife) r
  refine ⟨s', hflush, hheld, (sheds_move .locked).trans hsheds, ?_, ?_⟩
  · rw [hlists, moveVnode_num, hin, if_pos rfl, if_neg (by decide)]
    omega
  · rw [hinl, hat]

/-- With nothing in the free list and nothing in the used one, all vnodes are referenced. -/
theorem Settled.all_referenced (h : Settled s) (hfree : (s.lists .free).ends.head = none)
    (hused : (s.lists .used).ends.head = none) {v : ℕ} (hv : v < s.vnnum) :
    0 < (s.vns v).rcnt := by
  have hp := h.placed v hv
  have hns : (s.vns v).ns ≠ none := fun hns => h.lists.head_none hfree hv (hp.free hns).1
  have hz : (s.vns v).rcnt ≠ 0 := fun hz => h.lists.head_none hused hv (hp.used hns hz).1
  have := hp.rcnt
  omega

end InHand

section Dropping
variable {s s' : Layer} {vn nsid : ℕ} {vnid : ℤ}

theorem WithinCap.move (h : WithinCap s) (hin : (s.vns vn).inlist = .locked) {n : ListName}
    (hn : n ≠ .used) : WithinCap (moveVnode s vn n) := by
  have hnum := moveVnode_num s vn n .used
  have husd : (moveVnode s vn n).usdvnnum = s.usdvnnum := rfl
  rw [hin, if_neg (by decide), if_neg (Ne.symm hn)] at hnum
  unfold WithinCap at *
  rw [hnum, husd]
  omega

theorem Held.sound (h : Held s vn) (hin : (s.vns vn).inlist = .locked) (hcap : WithinCap s) :
    Sound (moveVnode s vn .free) := ⟨h.settled, hcap.move hin (by decide)⟩

theorem disposeRemoved_sound (h : Around s vn) (hr : Registered s vn)
    (hin : (s.vns vn).inlist = .locked)
    (hlife : lifeOf s (idOf s vn) = some (.doomed (s.vns vn).data)) (hcap : WithinCap s)
    (r : Bool) : ∃ s', disposeRemoved s vn r = .ok s' ∧ Sound s' := by
  obtain ⟨p, hns, _⟩ := h.registry.live vn hr
  have hkey := idOf_of_ns hns
  unfold disposeRemoved
  rw [hns]
  dsimp only
  have hat : (setVnode s vn fun v => { v with busy := true }).vns vn =
      { s.vns vn with busy := true } := by rw [setVnode_vns, Function.update_self]
  have h₁ := h.set (f := fun v => { v with busy := true }) rfl rfl rfl
  have hr₁ : Registered (setVnode s vn fun v => { v with busy := true }) vn :=
    (registered_set rfl).mpr hr
  have hid₁ : idOf (setVnode s vn fun v => { v with busy := true }) vn = idOf s vn :=
    idOf_set rfl rfl
  have hlife₁ : lifeOf (setVnode s vn fun v => { v with busy := true }) (idOf s vn) =
      some (.doomed (s.vns vn).data) := hlife
  have hcap₁ : WithinCap (setVnode s vn fun v => { v with busy := true }) := hcap
  have hsp₁ : (setVnode s vn fun v => { v with busy := true }).spaces = s.spaces := rfl
  generalize setVnode s vn (fun v => { v with busy := true }) = s₁ at *
  have hat₂ : (moveVnode s₁ vn .locked).vns vn =
      { s.vns vn with busy := true, inlist := .locked } := by
    rw [moveVnode_vns, Function.update_self, hat]
  have h₂ := h₁.move .locked
  have hr₂ := (registered_move .locked).mpr hr₁
  have hid₂ : idOf (moveVnode s₁ vn .locked) vn = idOf s vn := (idOf_move .locked).trans hid₁
  have hlife₂ : lifeOf (moveVnode s₁ vn .locked) (idOf s vn) =
      some (.doomed (s.vns vn).data) := hlife₁
  have hcap₂ : WithinCap (moveVnode s₁ vn .locked) :=
    hcap₁.move (by rw [hat]; exact hin) (by decide)
  have hsp₂ : (moveVnode s₁ vn .locked).spaces = s.spaces := hsp₁
  generalize moveVnode s₁ vn .locked = s₂ at *
  rw [hat₂, hsp₂]
  dsimp only
  generalize ho : Obs.removeVnode (s.spaces p).nsid (s.vns vn).vnid (s.vns vn).data r = o
  have hact : act o = (idOf s vn, .remove (s.vns vn).data) := by rw [← ho, hkey]; rfl
  have h₃ := h₂.record hr₂ (o := o) (by rw [hact, hid₂])
  have hlife₃ : lifeOf (record s₂ o) (idOf s vn) = some .absent :=
    lifeOf_record (by rw [hact]) hlife₂ (by rw [hact]; simp [Life.step])
  obtain ⟨s', hclear, hheld, hsheds, hlists, hinl⟩ := h₃.clear hr₂ (by
    have hid₃ : idOf (record s₂ o) vn = idOf s vn := hid₂
    rw [hid₃]
    exact hlife₃)
  have hin' : (s'.vns vn).inlist = .locked := by
    have hrec : (record s₂ o).vns vn = s₂.vns vn := rfl
    rw [hinl, hrec, hat₂]
  refine ⟨_, by rw [hclear]; rfl, hheld.sound hin' ?_⟩
  unfold WithinCap at *
  rw [hlists, hsheds.usdvnnum]
  exact hcap₂

theorem keepUsed_sound (h : Around s vn) (hr : Registered s vn)
    (hin : (s.vns vn).inlist = .locked) (hidle : (s.vns vn).busy = false)
    (hz : (s.vns vn).rcnt = 0) (hrem : (s.vns vn).remove = false)
    (hlife : lifeOf s (idOf s vn) = some (.present (s.vns vn).data 0 false))
    (hcap : WithinCap s) (r : Bool) : ∃ s', keepUsed s vn r = .ok s' ∧ Sound s' := by
  have hat : (moveVnode s vn .used).vns vn = { s.vns vn with inlist := .used } := by
    rw [moveVnode_vns, Function.update_self]
  have hr₁ : Registered (moveVnode s vn .used) vn := (registered_move .used).mpr hr
  have hsettled : Settled (moveVnode s vn .used) := by
    refine (h.move .used).settled ?_ fun _ => tracked_of_life hr₁ ?_
    · rw [hat]
      refine ⟨hidle, hz.ge, fun hns => absurd hns hr.2, fun _ _ => ⟨rfl, hrem⟩, ?_⟩
      exact fun _ hne => absurd hz hne
    · rw [idOf_move, hat, hz, hrem]
      exact hlife
  have hnum : ((moveVnode s vn .used).lists .used).num = (s.lists .used).num + 1 := by
    rw [moveVnode_num, hin, if_neg (by decide), if_pos rfl]
    omega
  have husd : (moveVnode s vn .used).usdvnnum = s.usdvnnum := rfl
  unfold keepUsed
  dsimp only
  unfold WithinCap at hcap
  generalize moveVnode s vn .used = s₁ at *
  by_cases hover : (s₁.usdvnnum : ℤ) < (s₁.lists .used).num
  · rw [if_pos hover]
    unfold stealVnode
    cases hh : (s₁.lists .used).ends.head with
    | none =>
      -- the vnode that was just put there is in the list
      have hinl : (s₁.vns vn).inlist = .used := by rw [hat]
      exact absurd hinl (hsettled.lists.head_none hh hr₁.1)
    | some ovn =>
      obtain ⟨s', hflush, hheld, hsheds, hnum', hin'⟩ := hsettled.stealUsed hh r
      refine ⟨_, by simp only [hflush]; rfl, hheld.sound hin' ?_⟩
      unfold WithinCap
      rw [hnum', hsheds.usdvnnum]
      omega
  · rw [if_neg hover]
    exact ⟨s₁, rfl, hsettled, not_lt.mp hover⟩

/-- A holder of a reference drops it. -/
theorem decVnode_sound (h : Sound s) (hr : Registered s vn) (hpos : 0 < (s.vns vn).rcnt)
    (hseen : LastSeen (s.vns vn)) {o : Obs} (ho : act o = (idOf s vn, .put)) (r : Bool) :
    ∃ s', decVnode (record s o) vn r = .ok s' ∧ Sound s' := by
  have hp := h.placed vn hr.1
  have hlife := h.life hr
  have hinl := hp.locked hr.2 (by omega)
  have h₁ := (h.around hr.1).record hr (o := o) (by rw [ho])
  have hat : (setVnode (record s o) vn fun v => { v with rcnt := v.rcnt - 1 }).vns vn =
      { s.vns vn with rcnt := (s.vns vn).rcnt - 1 } := by
    rw [setVnode_vns, Function.update_self]
    rfl
  have h₂ := h₁.set (f := fun v => { v with rcnt := v.rcnt - 1 }) rfl rfl rfl
  have hr₂ : Registered (setVnode (record s o) vn fun v => { v with rcnt := v.rcnt - 1 }) vn :=
    (registered_set rfl).mpr hr
  have hid₂ : idOf (setVnode (record s o) vn fun v => { v with rcnt := v.rcnt - 1 }) vn =
      idOf s vn := idOf_set rfl rfl
  have hlife₂ : ∀ life, (Life.present (s.vns vn).data (s.vns vn).rcnt (s.vns vn).remove).step .put =
      some life → lifeOf (setVnode (record s o) vn fun v => { v with rcnt := v.rcnt - 1 })
        (idOf s vn) = some life := by
    intro life hstep
    exact lifeOf_record (by rw [ho]) hlife (by rw [ho]; exact hstep)
  have hcap₂ : WithinCap (setVnode (record s o) vn fun v => { v with rcnt := v.rcnt - 1 }) := h.cap
  unfold decVnode
  dsimp only
  generalize setVnode (record s o) vn (fun v => { v with rcnt := v.rcnt - 1 }) = s₂ at *
  rw [hat]
  unfold Vnode.intRcnt
  dsimp only
  by_cases hlast : toInt32 ((s.vns vn).rcnt - 1) = 0
  · rw [if_pos hlast]
    have hone : (s.vns vn).rcnt = 1 := hseen hlast
    by_cases hrem : (s.vns vn).remove = true
    · rw [if_pos hrem]
      refine disposeRemoved_sound h₂ hr₂ (by rw [hat]; exact hinl) ?_ hcap₂ r
      rw [hid₂, hat]
      exact hlife₂ _ (by simp [Life.step, hone, hrem])
    · rw [if_neg hrem]
      rw [Bool.not_eq_true] at hrem
      refine keepUsed_sound h₂ hr₂ (by rw [hat]; exact hinl) (by rw [hat]; exact hp.idle)
        (by rw [hat]; dsimp only; omega) (by rw [hat]; exact hrem) ?_ hcap₂ r
      rw [hid₂, hat]
      exact hlife₂ _ (by simp [Life.step, hone, hrem])
  · rw [if_neg hlast]
    have hmore : (s.vns vn).rcnt - 1 ≠ 0 := fun hz => hlast (by rw [hz]; rfl)
    refine ⟨s₂, rfl, h₂.settled ?_ fun _ => tracked_of_life hr₂ ?_, hcap₂⟩
    · rw [hat]
      refine ⟨hp.idle, by dsimp only; omega, fun hns => absurd hns hr.2, ?_, fun _ _ => hinl⟩
      exact fun _ hz => absurd hz hmore
    · rw [hid₂, hat]
      refine hlife₂ _ ?_
      rw [Life.step, if_neg (by omega), if_neg (by omega)]

theorem putVnode_sound (h : Sound s) (hheld : ∀ vn, Registered s vn → idOf s vn = (nsid, vnid) →
      0 < (s.vns vn).rcnt ∧ LastSeen (s.vns vn)) :
    ∃ err s', putVnode s nsid vnid = .ok (err, s') ∧ Sound s' := by
  unfold putVnode
  cases hl : lookupVnode s nsid vnid with
  | none => exact ⟨ENOENT, s, rfl, h⟩
  | some vn =>
    obtain ⟨hr, hid⟩ := h.registry.lookup_some hl
    obtain ⟨s', hdec, hs'⟩ := decVnode_sound h hr (hheld vn hr hid).1 (hheld vn hr hid).2
      (o := .putting nsid vnid) (by rw [hid]; rfl) true
    exact ⟨0, s', by simp only [hdec]; rfl, hs'⟩

end Dropping

section Loading
variable {s s' : Layer} {vn nsid random data : ℕ} {vnid err : ℤ}

/-- A vnode with none of the ids in the registry is in hand. -/
structure Ready (s : Layer) (vn nsid : ℕ) (vnid : ℤ) : Prop where
  held : Held s vn
  inlist : (s.vns vn).inlist = .locked
  cap : WithinCap s
  unknown : ∀ w, Registered s w → idOf s w ≠ (nsid, vnid)

theorem Sheds.unknown (h : Sheds s s') (hu : ∀ w, Registered s w → idOf s w ≠ (nsid, vnid))
    {w : ℕ} (hw : Registered s' w) : idOf s' w ≠ (nsid, vnid) := by
  obtain ⟨hr, hid⟩ := h.registered w hw
  rw [hid]
  exact hu w hr

theorem Sound.ready_free (h : Sound s) (hu : ∀ w, Registered s w → idOf s w ≠ (nsid, vnid))
    (hh : (s.lists .free).ends.head = some vn) :
    Ready (moveVnode s vn .locked) vn nsid vnid := by
  obtain ⟨hheld, hnum⟩ := h.stealFree hh
  refine ⟨hheld, by rw [moveVnode_vns, Function.update_self], ?_, fun w hw => ?_⟩
  · have hcap := h.cap
    have husd : (moveVnode s vn .locked).usdvnnum = s.usdvnnum := rfl
    unfold WithinCap at *
    rw [hnum, husd]
    exact hcap
  · exact (sheds_move .locked).unknown hu hw

theorem Sound.ready_used (h : Sound s) (hu : ∀ w, Registered s w → idOf s w ≠ (nsid, vnid))
    (hh : (s.lists .used).ends.head = some vn) (r : Bool) :
    ∃ s', flushVnode (moveVnode s vn .locked) vn r = .ok s' ∧ Ready s' vn nsid vnid ∧
      Sheds s s' := by
  obtain ⟨s', hflush, hheld, hsheds, hnum, hin⟩ := h.stealUsed hh r
  refine ⟨s', hflush, ⟨hheld, hin, ?_, fun w hw => hsheds.unknown hu hw⟩, hsheds⟩
  have hcap := h.cap
  unfold WithinCap at *
  rw [hnum, hsheds.usdvnnum]
  omega

theorem stealVnode_some {n : ListName} (h : (s.lists n).ends.head = some vn) :
    stealVnode s n = (some vn, moveVnode s vn .locked) := by
  unfold stealVnode
  rw [h]

theorem stealVnode_none {n : ListName} (h : (s.lists n).ends.head = none) :
    stealVnode s n = (none, s) := by
  unfold stealVnode
  rw [h]

/-- All vnodes of the table are referenced. -/
def Exhausted (s : Layer) : Prop := ∀ v < s.vnnum, 0 < (s.vns v).rcnt

/-- How the loop of `load_vnode` ends. -/
theorem findOrSteal_cases (h : Sound s) (nsid : ℕ) (vnid : ℤ) (r : Bool) :
    (∃ vn, findOrSteal s nsid vnid r 2 = .ok (vn, s) ∧ Registered s vn ∧
      idOf s vn = (nsid, vnid)) ∨
    (∃ vn s', findOrSteal s nsid vnid r 2 = .ok (vn, s') ∧ Ready s' vn nsid vnid ∧ Sheds s s') ∨
    (findOrSteal s nsid vnid r 2 = .error .nullPointer ∧ Exhausted s) := by
  rw [findOrSteal]
  cases hl : lookupVnode s nsid vnid with
  | some vn =>
    obtain ⟨hr, hid⟩ := h.registry.lookup_some hl
    have hidle := (h.placed vn hr.1).idle
    exact Or.inl ⟨vn, by simp [hidle], hr, hid⟩
  | none =>
    have hu : ∀ w, Registered s w → idOf s w ≠ (nsid, vnid) :=
      fun w hw => h.registry.lookup_none hl hw
    cases hf : (s.lists .free).ends.head with
    | some vn =>
      simp only [stealVnode_some hf]
      exact Or.inr (Or.inl ⟨vn, _, rfl, h.ready_free hu hf, sheds_move .locked⟩)
    | none =>
      cases hus : (s.lists .used).ends.head with
      | none =>
        simp only [stealVnode_none hf, stealVnode_none hus]
        exact Or.inr (Or.inr ⟨trivial, fun v hv => h.all_referenced hf hus hv⟩)
      | some vn =>
        -- the flushed vnode goes to the free list, where the second round finds one
        obtain ⟨s₁, hflush, hready, hsheds⟩ := h.ready_used hu hus r
        have hsound := hready.held.sound hready.inlist hready.cap
        have hsheds₂ : Sheds s (moveVnode s₁ vn .free) := hsheds.trans (sheds_move .free)
        have hu₂ : ∀ w, Registered (moveVnode s₁ vn .free) w →
            idOf (moveVnode s₁ vn .free) w ≠ (nsid, vnid) := fun w hw => hsheds₂.unknown hu hw
        have hin : ((moveVnode s₁ vn .free).vns vn).inlist = .free := by
          rw [moveVnode_vns, Function.update_self]
        have hlt : vn < (moveVnode s₁ vn .free).vnnum := hready.held.around.inside
        refine Or.inr (Or.inl ?_)
        simp only [stealVnode_none hf, stealVnode_some hus, hflush, Except.bind]
        generalize moveVnode s₁ vn .free = s₂ at *
        rw [findOrSteal]
        cases hl₂ : lookupVnode s₂ nsid vnid with
        | some w =>
          obtain ⟨hr, hid⟩ := hsound.registry.lookup_some hl₂
          exact absurd hid (hu₂ w hr)
        | none =>
          cases hf₂ : (s₂.lists .free).ends.head with
          | none => exact absurd hin (hsound.lists.head_none hf₂ hlt)
          | some w =>
            simp only [stealVnode_some hf₂]
            exact ⟨w, _, rfl, hsound.ready_free hu₂ hf₂, hsheds₂.trans (sheds_move .locked)⟩

theorem nsidtons_nsid {p : ℕ} (h : nsidtons s nsid = some p) : (s.spaces p).nsid = nsid := by
  unfold nsidtons at h
  cases ht : s.nstab (nsid % s.nns) with
  | none =>
    rw [ht] at h
    cases h
  | some q =>
    rw [ht] at h
    simp only at h
    split at h
    · cases h
    · rename_i hok
      cases h
      exact not_not.mp fun hne => hok (Or.inl hne)

/-- A reference has been taken that the log does not show yet. -/
structure Taken (s : Layer) (vn nsid : ℕ) (vnid : ℤ) : Prop where
  around : Around s vn
  registered : Registered s vn
  id : idOf s vn = (nsid, vnid)
  placed : Placed (s.vns vn)
  cap : WithinCap s
  life : lifeOf s (nsid, vnid) =
    some (.present (s.vns vn).data ((s.vns vn).rcnt - 1) (s.vns vn).remove)

theorem Taken.sound (h : Taken s vn nsid vnid) :
    Sound (record s (.got nsid vnid (s.vns vn).data)) := by
  generalize ho : Obs.got nsid vnid (s.vns vn).data = o
  have hact : act o = ((nsid, vnid), .got (s.vns vn).data) := by rw [← ho]; rfl
  refine ⟨(h.around.record h.registered (o := o) (by rw [hact, h.id])).settled h.placed
    fun hr => tracked_of_life hr ?_, h.cap⟩
  have hid : idOf (record s o) vn = (nsid, vnid) := h.id
  rw [hid]
  refine lifeOf_record (by rw [hact]) h.life ?_
  rw [hact]
  simp [Life.step, record]

theorem Held.life_absent (h : Held s vn) (hu : ∀ w, Registered s w → idOf s w ≠ (nsid, vnid)) :
    lifeOf s (nsid, vnid) = some .absent := by
  obtain ⟨life, hf, hl⟩ := h.around.tracked (nsid, vnid) fun hr => absurd hr h.unregistered
  rw [hf]
  cases life with
  | absent => rfl
  | present data refs marked =>
    obtain ⟨w, hw, hid, _⟩ := hl
    exact absurd hid (hu w hw)
  | doomed data => exact absurd hl id

/-- A vnode in hand is read in, or goes back when the hook fails. -/
theorem readIn_cases (h : Ready s vn nsid vnid) {p : ℕ} (hp : nsidtons s nsid = some p)
    (r : Bool) (err : ℤ) (data : ℕ) (hrand : random ≤ maxLevel) :
    ∃ s', readIn s vn p vnid r err data random = .ok (err, s') ∧
      (err = 0 → Taken s' vn nsid vnid) ∧ (err ≠ 0 → Sound s') := by
  have hnsid := nsidtons_nsid hp
  have hnone := h.held.life_absent h.unknown
  obtain ⟨s₁, hsort, h₁, hb, hat⟩ := h.held.around.register h.held.ns
    (f := fun v => { v with ns := some p, vnid := vnid, busy := true }) rfl rfl
    (by rw [hnsid]; exact hp) (by rw [hnsid]; exact h.unknown) hrand
  have hr₁ : Registered s₁ vn := by
    refine ⟨by rw [hb.vnnum]; exact h.held.around.inside, ?_⟩
    rw [hat]
    exact Option.some_ne_none p
  have hid₁ : idOf s₁ vn = (nsid, vnid) := by
    rw [idOf_of_ns (by rw [hat]), hat, (hb.spaces.ids p).1, hnsid]
  have hlife₁ : lifeOf s₁ (nsid, vnid) = some .absent := by rw [lifeOf_beside hb]; exact hnone
  have hcap₁ : WithinCap s₁ := by
    have hcap := h.cap
    unfold WithinCap at *
    rw [hb.lists, hb.usdvnnum]
    exact hcap
  have hnsid₁ : (s₁.spaces p).nsid = nsid := by rw [(hb.spaces.ids p).1, hnsid]
  have hin₁ : (s₁.vns vn).inlist = .locked := by rw [hat]; exact h.inlist
  unfold readIn
  simp only [hsort, Except.bind, ne_eq, not_true_eq_false, if_false]
  -- into the locked list, and the hook is called
  have hat₂ : (moveVnode s₁ vn .locked).vns vn =
      { s.vns vn with ns := some p, vnid := vnid, busy := true, inlist := .locked } := by
    rw [moveVnode_vns, Function.update_self, hat]
  have h₂ := h₁.move .locked
  have hr₂ : Registered (moveVnode s₁ vn .locked) vn := (registered_move .locked).mpr hr₁
  have hid₂ : idOf (moveVnode s₁ vn .locked) vn = (nsid, vnid) := (idOf_move .locked).trans hid₁
  have hlife₂ : lifeOf (moveVnode s₁ vn .locked) (nsid, vnid) = some .absent := hlife₁
  have hcap₂ : WithinCap (moveVnode s₁ vn .locked) := hcap₁.move hin₁ (by decide)
  have hnsid₂ : ((moveVnode s₁ vn .locked).spaces p).nsid = nsid := hnsid₁
  generalize moveVnode s₁ vn .locked = s₂ at *
  rw [hnsid₂]
  generalize ho : Obs.readVnode nsid vnid r err data = o
  have hact : act o = ((nsid, vnid), if err ≠ 0 then .readFailed else .read data) := by
    rw [← ho]
    rfl
  have h₃ := h₂.record hr₂ (o := o) (by rw [hact, hid₂])
  have h₄ := h₃.set (f := fun v => { v with data := data, busy := false }) rfl rfl rfl
  have hat₄ : (setVnode (record s₂ o) vn fun v => { v with data := data, busy := false }).vns vn =
      { s.vns vn with
        ns := some p, vnid := vnid, busy := false, inlist := .locked, data := data } := by
    rw [setVnode_vns, Function.update_self, show (record s₂ o).vns vn = s₂.vns vn from rfl, hat₂]
  have hr₄ : Registered (setVnode (record s₂ o) vn
      fun v => { v with data := data, busy := false }) vn := (registered_set rfl).mpr hr₂
  have hid₄ : idOf (setVnode (record s₂ o) vn fun v => { v with data := data, busy := false }) vn =
      (nsid, vnid) := (idOf_set rfl rfl).trans hid₂
  have hlife₄ : ∀ life, Life.absent.step (if err ≠ 0 then .readFailed else .read data) =
      some life → lifeOf (setVnode (record s₂ o) vn
        fun v => { v with data := data, busy := false }) (nsid, vnid) = some life := by
    intro life hstep
    exact lifeOf_record (by rw [hact]) hlife₂ (by rw [hact]; exact hstep)
  have hcap₄ : WithinCap (setVnode (record s₂ o) vn
      fun v => { v with data := data, busy := false }) := hcap₂
  generalize setVnode (record s₂ o) vn (fun v => { v with data := data, busy := false }) = s₄ at *
  by_cases herr : err = 0
  · rw [if_neg (not_not.mpr herr)]
    have hat₅ : (setVnode s₄ vn fun v => { v with rcnt := 1 }).vns vn =
        { s.vns vn with
          ns := some p, vnid := vnid, busy := false, inlist := .locked, data := data
          rcnt := 1 } := by
      rw [setVnode_vns, Function.update_self, hat₄]
    refine ⟨_, by rw [herr], fun _ => ⟨h₄.set rfl rfl rfl, (registered_set rfl).mpr hr₄,
      (idOf_set rfl rfl).trans hid₄, ?_, hcap₄, ?_⟩, fun hne => absurd herr hne⟩
    · rw [hat₅]
      refine ⟨rfl, zero_le_one, fun hns => absurd hns (Option.some_ne_none p), ?_, fun _ _ => rfl⟩
      exact fun _ hz => absurd hz one_ne_zero
    · have hlife := hlife₄ (.present data 0 false) (by simp [herr, Life.step])
      have hrem : (s.vns vn).remove = false := h.held.remove
      rw [hat₅]
      dsimp only
      rw [hrem]
      exact hlife
  · rw [if_pos herr]
    obtain ⟨s₅, hclear, hheld, hsheds, hlists, hin⟩ := h₄.clear hr₄ (by
      rw [hid₄]
      exact hlife₄ .absent (by simp [herr, Life.step]))
    refine ⟨_, by rw [hclear]; rfl, fun hz => absurd hz herr, fun _ => hheld.sound ?_ ?_⟩
    · rw [hin, hat₄]
    · unfold WithinCap at *
      rw [hlists, hsheds.usdvnnum]
      exact hcap₄

/-- The vnode stays where it is when it is moved to the end of its list. -/
theorem Taken.relocked (h : Taken s vn nsid vnid) (hin : (s.vns vn).inlist = .locked) :
    Taken (moveVnode s vn .locked) vn nsid vnid := by
  have hat : (moveVnode s vn .locked).vns vn = s.vns vn := by
    rw [moveVnode_vns, Function.update_self]
    exact congrArg (fun n => { s.vns vn with inlist := n }) hin.symm
  refine ⟨h.around.move .locked, (registered_move .locked).mpr h.registered,
    (idOf_move .locked).trans h.id, ?_, ?_, ?_⟩
  · rw [hat]
    exact h.placed
  · have hcap := h.cap
    have hnum := moveVnode_num s vn .locked .used
    have husd : (moveVnode s vn .locked).usdvnnum = s.usdvnnum := rfl
    simp only [hin, reduceCtorEq, if_false, sub_zero, add_zero] at hnum
    unfold WithinCap at *
    rw [hnum, husd]
    exact hcap
  · rw [hat]
    exact h.life

/-- A reference to a vnode that is in the table already. When the count is seen to be one the
vnode goes to the locked list, where it is already if its references are many. -/
theorem Sound.take (h : Sound s) (hr : Registered s vn) (hid : idOf s vn = (nsid, vnid)) :
    Taken (if ((setVnode s vn fun v => { v with rcnt := v.rcnt + 1 }).vns vn).intRcnt = 1
      then moveVnode (setVnode s vn fun v => { v with rcnt := v.rcnt + 1 }) vn .locked
      else setVnode s vn fun v => { v with rcnt := v.rcnt + 1 }) vn nsid vnid := by
  have hp := h.placed vn hr.1
  have hlife := h.life hr
  rw [hid] at hlife
  have hat : (setVnode s vn fun v => { v with rcnt := v.rcnt + 1 }).vns vn =
      { s.vns vn with rcnt := (s.vns vn).rcnt + 1 } := by
    rw [setVnode_vns, Function.update_self]
  have h₁ := (h.around hr.1).set (f := fun v => { v with rcnt := v.rcnt + 1 }) rfl rfl rfl
  have hr₁ : Registered (setVnode s vn fun v => { v with rcnt := v.rcnt + 1 }) vn :=
    (registered_set rfl).mpr hr
  have hid₁ : idOf (setVnode s vn fun v => { v with rcnt := v.rcnt + 1 }) vn = (nsid, vnid) :=
    (idOf_set rfl rfl).trans hid
  have hlife₁ : lifeOf (setVnode s vn fun v => { v with rcnt := v.rcnt + 1 }) (nsid, vnid) =
      some (.present (s.vns vn).data (s.vns vn).rcnt (s.vns vn).remove) := hlife
  have hcap₁ : WithinCap (setVnode s vn fun v => { v with rcnt := v.rcnt + 1 }) := h.cap
  generalize setVnode s vn (fun v => { v with rcnt := v.rcnt + 1 }) = s₁ at *
  have hrcnt := hp.rcnt
  by_cases hz : (s.vns vn).rcnt = 0
  · have hone : (s₁.vns vn).intRcnt = 1 := by
      rw [hat, Vnode.intRcnt, hz]
      rfl
    rw [if_pos hone]
    have hin : (s₁.vns vn).inlist = .used := by rw [hat]; exact (hp.used hr.2 hz).1
    have hat₂ : (moveVnode s₁ vn .locked).vns vn =
        { s.vns vn with rcnt := (s.vns vn).rcnt + 1, inlist := .locked } := by
      rw [moveVnode_vns, Function.update_self, hat]
    refine ⟨h₁.move .locked, (registered_move .locked).mpr hr₁, (idOf_move .locked).trans hid₁,
      ?_, ?_, ?_⟩
    · rw [hat₂]
      refine ⟨hp.idle, by dsimp only; omega, fun hns => absurd hns hr.2, ?_, fun _ _ => rfl⟩
      exact fun _ hne => absurd hne (by dsimp only; omega)
    · have hnum := moveVnode_num s₁ vn .locked .used
      have husd : (moveVnode s₁ vn .locked).usdvnnum = s₁.usdvnnum := rfl
      rw [hin, if_pos rfl, if_neg (by decide)] at hnum
      unfold WithinCap at *
      rw [hnum, husd]
      omega
    · rw [hat₂]
      dsimp only
      rw [add_sub_cancel_right]
      exact hlife₁
  · have hlocked : (s₁.vns vn).inlist = .locked := by
      rw [hat]
      exact hp.locked hr.2 hz
    have htaken : Taken s₁ vn nsid vnid := by
      refine ⟨h₁, hr₁, hid₁, ?_, hcap₁, ?_⟩
      · rw [hat]
        refine ⟨hp.idle, by dsimp only; omega, fun hns => absurd hns hr.2, ?_,
          fun _ _ => hp.locked hr.2 hz⟩
        exact fun _ hz => absurd hz (by dsimp only; omega)
      · rw [hat]
        dsimp only
        rw [add_sub_cancel_right]
        exact hlife₁
    split
    · exact htaken.relocked hlocked
    · exact htaken

/-- `get_vnode` returns, unless the table is exhausted. -/
theorem getVnode_cases (h : Sound s) (nsid : ℕ) (vnid err : ℤ) (data : ℕ)
    (hrand : random ≤ maxLevel) :
    (∃ e d s', getVnode s nsid vnid err data random = .ok (e, d, s') ∧ Sound s') ∨
    (getVnode s nsid vnid err data random = .error .nullPointer ∧ Exhausted s) := by
  unfold getVnode loadVnode
  rcases findOrSteal_cases h nsid vnid true with ⟨vn, hfind, hr, hid⟩ |
    ⟨vn, s₁, hfind, hready, hsheds⟩ | ⟨hfind, hex⟩
  · refine Or.inl ?_
    simp only [hfind, Except.bind, hr.2, if_false, Except.map, ne_eq, not_true_eq_false]
    exact ⟨0, _, _, rfl, (h.take hr hid).sound⟩
  · refine Or.inl ?_
    simp only [hfind, Except.bind, hready.held.ns, if_true]
    cases hns : nsidtons s₁ nsid with
    | none =>
      simp only [Except.map]
      rw [if_pos (by decide)]
      exact ⟨ENOENT, 0, _, rfl, hready.held.sound hready.inlist hready.cap⟩
    | some p =>
      obtain ⟨s₂, hread, hok, hbad⟩ := readIn_cases hready hns true err data hrand
      simp only [hread, Except.map]
      by_cases herr : err = 0
      · subst herr
        simp only [ne_eq, not_true_eq_false, if_false]
        exact ⟨0, _, _, rfl, (hok rfl).sound⟩
      · rw [if_pos herr]
        exact ⟨err, 0, _, rfl, hbad herr⟩
  · refine Or.inr ⟨?_, hex⟩
    simp only [hfind, Except.bind, Except.map]

/-- A vnode in hand becomes a new one of a live name space. -/
theorem enterNew_sound (h : Ready s vn nsid vnid) {p : ℕ} (hp : nsidtons s nsid = some p)
    (data : ℕ) (hrand : random ≤ maxLevel) :
    ∃ s', enterNew s vn nsid vnid data random = .ok (0, s') ∧ Sound s' ∧ Registered s' vn ∧
      idOf s' vn = (nsid, vnid) := by
  have hnsid := nsidtons_nsid hp
  have hnone := h.held.life_absent h.unknown
  obtain ⟨s₁, hsort, h₁, hb, hat⟩ := h.held.around.register h.held.ns
    (f := fun v => { v with ns := some p, vnid := vnid, data := data, rcnt := 1 }) rfl rfl
    (by rw [hnsid]; exact hp) (by rw [hnsid]; exact h.unknown) hrand
  have hr₁ : Registered s₁ vn := by
    refine ⟨by rw [hb.vnnum]; exact h.held.around.inside, ?_⟩
    rw [hat]
    exact Option.some_ne_none p
  have hid₁ : idOf s₁ vn = (nsid, vnid) := by
    rw [idOf_of_ns (by rw [hat]), hat, (hb.spaces.ids p).1, hnsid]
  unfold enterNew
  rw [hp]
  simp only [hsort, Except.map, if_true]
  generalize ho : Obs.created nsid vnid data = o
  have hact : act o = ((nsid, vnid), .created data) := by rw [← ho]; rfl
  refine ⟨_, rfl, ⟨(h₁.record hr₁ (o := o) (by rw [hact, hid₁])).settled ?_
    fun hr => tracked_of_life hr ?_, ?_⟩, hr₁, hid₁⟩
  · have hrec : (record s₁ o).vns vn = s₁.vns vn := rfl
    rw [hrec, hat]
    refine ⟨h.held.idle, zero_le_one, fun hns => absurd hns (Option.some_ne_none p), ?_,
      fun _ _ => h.inlist⟩
    exact fun _ hz => absurd hz one_ne_zero
  · have hid : idOf (record s₁ o) vn = (nsid, vnid) := hid₁
    have hrec : (record s₁ o).vns vn = s₁.vns vn := rfl
    rw [hid, hrec, hat]
    dsimp only
    rw [h.held.remove]
    refine lifeOf_record (by rw [hact]) ((lifeOf_beside hb _).trans hnone) ?_
    rw [hact]
    rfl
  · have hcap := h.cap
    have hrec : (record s₁ o).lists = s₁.lists ∧ (record s₁ o).usdvnnum = s₁.usdvnnum :=
      ⟨rfl, rfl⟩
    unfold WithinCap at *
    rw [hrec.1, hrec.2, hb.lists, hb.usdvnnum]
    exact hcap

/-- `new_vnode` with ids that are not registered, of a live name space. -/
theorem newVnode_cases (h : Sound s) {p : ℕ} (hp : nsidtons s nsid = some p)
    (hu : ∀ w, Registered s w → idOf s w ≠ (nsid, vnid)) (data : ℕ) (hrand : random ≤ maxLevel) :
    (∃ s' vn, newVnode s nsid vnid data random = .ok (0, s') ∧ Sound s' ∧ Registered s' vn ∧
      idOf s' vn = (nsid, vnid)) ∨ newVnode s nsid vnid data random = .ok (ENOMEM, s) := by
  unfold newVnode
  cases hf : (s.lists .free).ends.head with
  | some vn =>
    simp only [stealVnode_some hf]
    obtain ⟨s', hs', hsound⟩ := enterNew_sound (h.ready_free hu hf)
      (by rw [(sheds_move .locked).spaces.nsidtons]; exact hp) data hrand
    exact .inl ⟨s', vn, hs', hsound⟩
  | none =>
    cases hus : (s.lists .used).ends.head with
    | none =>
      simp only [stealVnode_none hf, stealVnode_none hus]
      exact .inr trivial
    | some vn =>
      simp only [stealVnode_none hf, stealVnode_some hus]
      obtain ⟨s₁, hflush, hready, hsheds⟩ := h.ready_used hu hus true
      simp only [hflush, Except.bind]
      obtain ⟨s', hs', hsound⟩ := enterNew_sound hready
        (by rw [hsheds.spaces.nsidtons]; exact hp) data hrand
      exact .inl ⟨s', vn, hs', hsound⟩

theorem markVnode_sound (h : Sound s) (remove : Bool) (nsid : ℕ) (vnid : ℤ) :
    Sound (markVnode remove s nsid vnid).2 := by
  unfold markVnode
  cases hl : lookupVnode s nsid vnid with
  | none => exact h
  | some vn =>
    dsimp only
    by_cases hseen : (s.vns vn).intRcnt = 0
    · rw [if_pos hseen]
      exact h
    rw [if_neg hseen]
    have hz : (s.vns vn).rcnt ≠ 0 := fun hz => hseen (by rw [Vnode.intRcnt, hz]; rfl)
    obtain ⟨hr, hid⟩ := h.registry.lookup_some hl
    have hp := h.placed vn hr.1
    have hlife := h.life hr
    rw [hid] at hlife
    have hat : (setVnode s vn fun v => { v with remove := remove }).vns vn =
        { s.vns vn with remove := remove } := by rw [setVnode_vns, Function.update_self]
    have h₁ := (h.around hr.1).set (f := fun v => { v with remove := remove }) rfl rfl rfl
    have hr₁ : Registered (setVnode s vn fun v => { v with remove := remove }) vn :=
      (registered_set rfl).mpr hr
    have hid₁ : idOf (setVnode s vn fun v => { v with remove := remove }) vn = (nsid, vnid) :=
      (idOf_set rfl rfl).trans hid
    have hlife₁ : lifeOf (setVnode s vn fun v => { v with remove := remove }) (nsid, vnid) =
        some (.present (s.vns vn).data (s.vns vn).rcnt (s.vns vn).remove) := hlife
    have hcap₁ : WithinCap (setVnode s vn fun v => { v with remove := remove }) := h.cap
    generalize setVnode s vn (fun v => { v with remove := remove }) = s₁ at *
    generalize ho : Obs.marked nsid vnid remove = o
    have hact : act o = ((nsid, vnid), .mark remove) := by rw [← ho]; rfl
    have hrec : (record s₁ o).vns vn = s₁.vns vn := rfl
    refine ⟨(h₁.record hr₁ (o := o) (by rw [hact, hid₁])).settled ?_
      fun hr => tracked_of_life hr ?_, hcap₁⟩
    · rw [hrec, hat]
      refine ⟨hp.idle, hp.rcnt, fun hns => absurd hns hr.2, fun _ hz' => absurd hz' hz,
        fun _ _ => hp.locked hr.2 hz⟩
    · have hid₂ : idOf (record s₁ o) vn = (nsid, vnid) := hid₁
      rw [hid₂, hrec, hat]
      refine lifeOf_record (by rw [hact]) hlife₁ ?_
      have hpos := hp.rcnt
      rw [hact]
      dsimp only
      rw [Life.step, if_pos (by omega)]

theorem incVnode_sound (h : Sound s) (hvn : vn < s.vnnum) (hpos : 0 < (s.vns vn).rcnt) :
    Sound (incVnode s vn) := by
  have hp := h.placed vn hvn
  have hr : Registered s vn := by
    refine ⟨hvn, fun hns => ?_⟩
    have := (hp.free hns).2.1
    omega
  have hlife := h.life hr
  have hat : (setVnode s vn fun v => { v with rcnt := v.rcnt + 1 }).vns vn =
      { s.vns vn with rcnt := (s.vns vn).rcnt + 1 } := by
    rw [setVnode_vns, Function.update_self]
  have h₁ := (h.around hvn).set (f := fun v => { v with rcnt := v.rcnt + 1 }) rfl rfl rfl
  have hr₁ : Registered (setVnode s vn fun v => { v with rcnt := v.rcnt + 1 }) vn :=
    (registered_set rfl).mpr hr
  have hid₁ : idOf (setVnode s vn fun v => { v with rcnt := v.rcnt + 1 }) vn = idOf s vn :=
    idOf_set rfl rfl
  have hlife₁ : lifeOf (setVnode s vn fun v => { v with rcnt := v.rcnt + 1 }) (idOf s vn) =
      some (.present (s.vns vn).data (s.vns vn).rcnt (s.vns vn).remove) := hlife
  have hcap₁ : WithinCap (setVnode s vn fun v => { v with rcnt := v.rcnt + 1 }) := h.cap
  unfold incVnode
  generalize setVnode s vn (fun v => { v with rcnt := v.rcnt + 1 }) = s₁ at *
  generalize ho : Obs.referenced (nsidOf s vn) (s.vns vn).vnid = o
  have hact : act o = (idOf s vn, .referenced) := by rw [← ho]; rfl
  have hrec : (record s₁ o).vns vn = s₁.vns vn := rfl
  refine ⟨(h₁.record hr₁ (o := o) (by rw [hact, hid₁])).settled ?_
    fun hr => tracked_of_life hr ?_, hcap₁⟩
  · rw [hrec, hat]
    refine ⟨hp.idle, by dsimp only; omega, fun hns => absurd hns hr.2, ?_,
      fun _ _ => hp.locked hr.2 (by omega)⟩
    exact fun _ hz => absurd hz (by dsimp only; omega)
  · have hid₂ : idOf (record s₁ o) vn = idOf s vn := hid₁
    rw [hid₂, hrec, hat]
    refine lifeOf_record (by rw [hact]) hlife₁ ?_
    rw [hact]
    dsimp only
    rw [Life.step, if_pos hpos]

end Loading

section Runs
variable {s : Layer}

/-- What the callers of the layer keep to: new ids are not registered and belong to a live
name space, and who puts or counts up a vnode has a reference to it. -/
def Callable (s : Layer) : Event → Prop
  | .new nsid vnid _ random => (∀ w < s.vnnum, (s.vns w).ns ≠ none → idOf s w ≠ (nsid, vnid)) ∧
      nsidtons s nsid ≠ none ∧ random ≤ maxLevel
  | .get _ _ _ _ random => random ≤ maxLevel
  | .put nsid vnid => ∃ w < s.vnnum, (s.vns w).ns ≠ none ∧ idOf s w = (nsid, vnid) ∧
      0 < (s.vns w).rcnt
  | .remove _ _ => True
  | .unremove _ _ => True
  | .inc vn => vn < s.vnnum ∧ 0 < (s.vns vn).rcnt

instance (s : Layer) (e : Event) : Decidable (Callable s e) := by
  cases e <;> simp only [Callable] <;> infer_instance

/-- A `put_vnode` does not mistake a count for the last reference. -/
def SeesLast (s : Layer) : Event → Prop
  | .put nsid vnid => ∀ w < s.vnnum, (s.vns w).ns ≠ none → idOf s w = (nsid, vnid) →
      LastSeen (s.vns w)
  | _ => True

instance (s : Layer) (e : Event) : Decidable (SeesLast s e) := by
  cases e <;> simp only [SeesLast] <;> infer_instance

/-- Fewer than `vnnum` vnodes are referenced. -/
def HasRoom (s : Layer) : Prop :=
  ((Finset.range s.vnnum).filter fun v => 0 < (s.vns v).rcnt).card < s.vnnum

/-- The calls that may need another vnode are made while there is room. -/
def Enabled (s : Layer) (e : Event) : Prop := Callable s e ∧ match e with
  | .new .. => HasRoom s
  | .get .. => HasRoom s
  | _ => True

instance (s : Layer) (e : Event) : Decidable (Enabled s e) := by
  cases e <;> simp only [Enabled, HasRoom] <;> infer_instance

def Returns (s : Layer) (e : Event) : Prop := ∃ s', exec s e = .ok s'

theorem HasRoom.not_exhausted (h : HasRoom s) : ¬ Exhausted s := by
  intro hex
  have hall : (Finset.range s.vnnum).filter (fun v => 0 < (s.vns v).rcnt) = Finset.range s.vnnum :=
    Finset.filter_true_of_mem fun v hv => hex v (Finset.mem_range.mp hv)
  unfold HasRoom at h
  rw [hall, Finset.card_range] at h
  exact lt_irrefl _ h

/-- Every call keeps the tables sound, and it only fails to return when there is no vnode
left to read another one in. -/
theorem exec_sound (h : Sound s) {e : Event} (he : Callable s e) (hlast : SeesLast s e) :
    (∃ s', exec s e = .ok s' ∧ Sound s') ∨
      (exec s e = .error .nullPointer ∧ Exhausted s ∧ ∃ nsid vnid err data random,
        e = .get nsid vnid err data random) := by
  cases e with
  | new nsid vnid data random =>
    obtain ⟨hu, hlive, hrand⟩ := he
    obtain ⟨p, hp⟩ := Option.ne_none_iff_exists'.mp hlive
    rcases newVnode_cases h hp (fun w hw => hu w hw.1 hw.2) data hrand with
      ⟨s', _, hnew, hs', _⟩ | hnew
    · exact Or.inl ⟨s', by rw [exec, hnew]; rfl, hs'⟩
    · exact Or.inl ⟨s, by rw [exec, hnew]; rfl, h⟩
  | get nsid vnid err data random =>
    rcases getVnode_cases h nsid vnid err data he with ⟨e, d, s', hget, hs'⟩ | ⟨hget, hex⟩
    · exact Or.inl ⟨s', by rw [exec, hget]; rfl, hs'⟩
    · exact Or.inr ⟨by rw [exec, hget]; rfl, hex, nsid, vnid, err, data, random, rfl⟩
  | put nsid vnid =>
    obtain ⟨w, hw, hns, hid, hpos⟩ := he
    obtain ⟨err, s', hput, hs'⟩ := putVnode_sound h fun vn hr hvn => by
      rw [h.registry.id_inj hr ⟨hw, hns⟩ (hvn.trans hid.symm)]
      exact ⟨hpos, hlast w hw hns hid⟩
    exact Or.inl ⟨s', by rw [exec, hput]; rfl, hs'⟩
  | remove nsid vnid => exact Or.inl ⟨_, rfl, markVnode_sound h true nsid vnid⟩
  | unremove nsid vnid => exact Or.inl ⟨_, rfl, markVnode_sound h false nsid vnid⟩
  | inc vn => exact Or.inl ⟨_, rfl, incVnode_sound h he.1 he.2⟩

theorem next_sound (h : Sound s) {e : Event} (he : Callable s e) (hlast : SeesLast s e) :
    Sound (next s e) := by
  unfold next
  rcases exec_sound h he hlast with ⟨s', hexec, hs'⟩ | ⟨hexec, _⟩
  · rw [hexec]
    exact hs'
  · rw [hexec]
    exact h

theorem enabled_returns (h : Sound s) {e : Event} (he : Enabled s e) (hlast : SeesLast s e) :
    Returns s e := by
  rcases exec_sound h he.1 hlast with ⟨s', hexec, _⟩ | ⟨_, hex, nsid, vnid, err, data, random, rfl⟩
  · exact ⟨s', hexec⟩
  · exact absurd hex (HasRoom.not_exhausted he.2)

theorem linked_range' {n : ℕ} (k a : ℕ) (hk : a + k = n) :
    Linked ⟨fun i => if i = n - 1 then none else some (i + 1),
      fun i => if i = 0 then none else some (i - 1)⟩
      (if a = 0 then none else some (a - 1)) (List.range' a k) none := by
  induction k generalizing a with
  | zero => trivial
  | succ k ih =>
    refine ⟨rfl, ?_, ?_⟩
    · cases k with
      | zero => simp [show a = n - 1 by omega]
      | succ k => simp [List.range'_succ, show a ≠ n - 1 by omega]
    · have hrest := ih (a + 1) (by omega)
      rwa [if_neg (by omega), show a + 1 - 1 = a by omega] at hrest

/-- The tables that `init_vnode_layer` sets up, with name spaces that have no vnodes yet. -/
theorem init_sound {memsize : ℕ} (hmem : 2 ^ 17 ≤ memsize) (nstab : ℕ → Option ℕ)
    {spaces : ℕ → Nspace} (hempty : ∀ p, (spaces p).vnodes = ⟨none, none⟩) :
    Sound (initVnodeLayer memsize nstab spaces) := by
  have hpos : 0 < memsize / 2 ^ 15 := Nat.div_pos (le_trans (by norm_num) hmem) (by norm_num)
  have hmembers : members (initVnodeLayer memsize nstab spaces).skiplist = [] :=
    (levels_newSL 0).members_eq
  have hnone : ∀ v, ¬ Registered (initVnodeLayer memsize nstab spaces) v := fun v hr => hr.2 rfl
  have hlists : Lists (initVnodeLayer memsize nstab spaces) := by
    refine ⟨fun | .free => List.range (memsize / 2 ^ 15) | _ => [], ⟨fun n => ?_, ?_⟩,
      fun n => ?_, fun n v => ?_⟩
    · cases n with
      | free =>
        refine ⟨List.nodup_range, ?_, ?_, ?_⟩
        · rw [List.head?_range, if_neg hpos.ne']
          rfl
        · rw [List.getLast?_range, if_neg hpos.ne']
          rfl
        · rw [List.range_eq_range']
          exact linked_range' _ 0 (zero_add _)
      | used => exact IsList.nil
      | locked => exact IsList.nil
    · rintro (_ | _ | _) (_ | _ | _) v hv hv' <;> first | rfl | cases hv | cases hv'
    · cases n with
      | free => simp [initVnodeLayer]
      | used => rfl
      | locked => rfl
    · cases n with
      | free => simp [initVnodeLayer, freshVnode]
      | used => simp [initVnodeLayer, freshVnode]
      | locked => simp [initVnodeLayer, freshVnode]
  refine ⟨⟨hlists, ⟨⟨_, levels_newSL 0⟩, ?_, ?_, ?_, ?_⟩, ?_, ?_⟩, ?_⟩
  · intro v
    rw [hmembers]
    simp [hnone v]
  · rw [hmembers]
    exact List.Pairwise.nil
  · exact fun v hv => absurd hv (hnone v)
  · refine ⟨fun _ => [], ⟨fun p => ?_, fun hv => by cases hv⟩, fun p v => ?_⟩
    · have hp : ((initVnodeLayer memsize nstab spaces).spaces p).vnodes = ⟨none, none⟩ := hempty p
      rw [hp]
      exact IsList.nil
    · simp [hnone v]
  · intro v _
    exact ⟨rfl, le_rfl, fun _ => ⟨rfl, rfl, rfl⟩, fun hns => absurd rfl hns,
      fun hns => absurd rfl hns⟩
  · exact fun key => ⟨.absent, rfl, fun v hv => absurd hv (hnone v)⟩
  · exact Int.natCast_nonneg _

/-- The invariant of the tables: three lists that share the vnodes out by registration and
references, a skip list and lists of the name spaces that hold the registered ones. -/
structure TableInvariant (s : Layer) : Prop where
  lists : ∃ xs : ListName → List ℕ,
    (∀ n, IsList s.list (s.lists n).ends (xs n) ∧ (s.lists n).num = (xs n).length) ∧
    (∀ n, ∀ v ∈ xs n, v < s.vnnum) ∧ (∀ v < s.vnnum, ∃! n, v ∈ xs n) ∧
    ∀ v < s.vnnum, (v ∈ xs .free ↔ ¬ Registered s v) ∧
      (v ∈ xs .used ↔ Registered s v ∧ (s.vns v).intRcnt = 0) ∧
      (v ∈ xs .locked ↔ 0 < (s.vns v).intRcnt)
  total : (s.lists .free).num + (s.lists .used).num + (s.lists .locked).num = s.vnnum
  members : ∀ v, v ∈ members s.skiplist ↔ Registered s v
  distinct : ∀ v w, Registered s v → Registered s w → idOf s v = idOf s w → v = w
  spaces : ∀ p, ∃ ys, IsList s.nspace (s.spaces p).vnodes ys ∧
    ∀ v, v ∈ ys ↔ Registered s v ∧ (s.vns v).ns = some p
  idle : ∀ v < s.vnnum, (s.vns v).busy = false
  cap : (s.lists .used).num ≤ s.usdvnnum

theorem Placed.inlist_iff {v : Vnode} (h : Placed v) :
    (v.inlist = .free ↔ v.ns = none) ∧ (v.inlist = .used ↔ v.ns ≠ none ∧ v.rcnt = 0) ∧
      (v.inlist = .locked ↔ 0 < v.rcnt) := by
  have hpos := h.rcnt
  by_cases hns : v.ns = none
  · obtain ⟨h₁, h₂, _⟩ := h.free hns
    simp [h₁, h₂, hns]
  · by_cases hz : v.rcnt = 0
    · simp [(h.used hns hz).1, hns, hz]
    · simp [h.locked hns hz, hns, hz]
      omega

/-- The reference counts fit the `int` that the code has for them. -/
def FitsInt (s : Layer) : Prop := ∀ v < s.vnnum, (s.vns v).rcnt < 2 ^ 31

theorem Sound.intRcnt_eq (h : Sound s) (hfit : FitsInt s) {v : ℕ} (hv : v < s.vnnum) :
    (s.vns v).intRcnt = (s.vns v).rcnt := toInt32_of_lt (h.placed v hv).rcnt (hfit v hv)

theorem Sound.invariant (h : Sound s) (hfit : FitsInt s) : TableInvariant s := by
  obtain ⟨xs, hxs⟩ := h.lists
  obtain ⟨ys, hys, hin⟩ := h.registry.spaces
  refine ⟨⟨xs, fun n => ⟨hxs.family.isList n, hxs.num n⟩, fun n v hv => ((hxs.mem n v).mp hv).1,
    fun v hv => ?_, fun v hv => ?_⟩, ?_, h.registry.mem, fun v w => h.registry.id_inj,
    fun p => ⟨ys p, hys.isList p, hin p⟩, fun v hv => (h.placed v hv).idle, h.cap⟩
  · refine ⟨(s.vns v).inlist, (hxs.mem _ v).mpr ⟨hv, rfl⟩, fun n hn => ?_⟩
    exact ((hxs.mem n v).mp hn).2.symm
  · obtain ⟨h₁, h₂, h₃⟩ := (h.placed v hv).inlist_iff
    rw [h.intRcnt_eq hfit hv]
    simp only [hxs.mem, hv, true_and, h₁, h₂, h₃, Registered, not_not]
  · rw [hxs.num, hxs.num, hxs.num]
    exact_mod_cast hxs.total

/-- One live name space with id 1, in a table of four vnodes. -/
def oneSpace : Layer := initVnodeLayer (2 ^ 17) (fun _ => some 0) fun _ => ⟨1, false, ⟨none, none⟩⟩

end Runs

section Refusals
variable {s : Layer} {vn nsid data random : ℕ} {vnid : ℤ}

theorem sortVnode_answers (random : ℕ) {p : ℕ} (hns : (s.vns vn).ns = some p) :
    ∃ s', sortVnode s vn random = .ok (0, s') := by
  have hok := insertSL_ne_zero s.skiplist vn
    (compareWith s (s.spaces p).nsid (s.vns vn).vnid) random
  unfold sortVnode
  rw [hns]
  dsimp only
  rw [if_neg hok]
  exact ⟨_, rfl⟩

/-- Whether the ids are taken plays no role. -/
theorem enterNew_live {p : ℕ} (hp : nsidtons s nsid = some p) :
    ∃ s', enterNew s vn nsid vnid data random = .ok (0, s') := by
  unfold enterNew
  rw [hp]
  dsimp only
  have hns : ((setVnode s vn fun v =>
      { v with ns := some p, vnid := vnid, data := data, rcnt := 1 }).vns vn).ns = some p := by simp
  obtain ⟨s', hs'⟩ := sortVnode_answers random hns
  rw [hs']
  exact ⟨_, rfl⟩

theorem clearVnode_answers {p : ℕ} (hns : (s.vns vn).ns = some p) :
    ∃ s', clearVnode s vn = .ok s' ∧ (s'.vns vn).inlist = (s.vns vn).inlist ∧
      ∀ nsid, nsidtons s' nsid = nsidtons s nsid := by
  unfold clearVnode
  rw [hns]
  refine ⟨_, rfl, ?_, fun nsid => ?_⟩
  · simp [setSpaceVnodes]
  · have hids := (setSpaceVnodes_same s p (unlink s.nspace (s.spaces p).vnodes vn).2).ids
    apply SameSpaces.nsidtons
    exact ⟨rfl, rfl, hids⟩

theorem flushVnode_answers {p : ℕ} (hns : (s.vns vn).ns = some p) (r : Bool) :
    ∃ s', flushVnode s vn r = .ok s' ∧ (s'.vns vn).inlist = (s.vns vn).inlist ∧
      ∀ nsid, nsidtons s' nsid = nsidtons s nsid := by
  unfold flushVnode
  rw [hns]
  dsimp only
  have hns' : ((setVnode (record (setVnode s vn fun v => { v with busy := true })
      (.releaseVnode (s.spaces p).nsid (s.vns vn).vnid (s.vns vn).data r)) vn
      fun v => { v with busy := false }).vns vn).ns = some p := by simpa [record] using hns
  obtain ⟨s', hclear, hlist, hsame⟩ := clearVnode_answers hns'
  refine ⟨s', ?_, by simpa [record] using hlist, hsame⟩
  rw [← hclear]
  simp [record, setVnode]

/-- Unless all are referenced, a vnode that was not locked is taken and put on the locked list
before anything is tested. -/
theorem newVnode_takes (nsid : ℕ) (vnid : ℤ) (data random : ℕ) (hl : Lists s)
    (hp : ∀ v < s.vnnum, Placed (s.vns v)) (hroom : ¬Exhausted s) :
    ∃ u t, newVnode s nsid vnid data random = enterNew t u nsid vnid data random ∧
      u < s.vnnum ∧ (s.vns u).inlist ≠ .locked ∧ (t.vns u).inlist = .locked ∧
      ∀ nsid, nsidtons t nsid = nsidtons s nsid := by
  unfold newVnode
  rcases hfree : (s.lists .free).ends.head with _ | u
  · rcases hused : (s.lists .used).ends.head with _ | u
    · refine absurd (fun v hv => ?_) hroom
      obtain ⟨hfree', hused', hlocked⟩ := (hp v hv).inlist_iff
      have h₁ := hl.head_none hfree hv
      have h₂ := hl.head_none hused hv
      rcases hin : (s.vns v).inlist with _ | _ | _
      · exact absurd hin h₁
      · exact absurd hin h₂
      · exact hlocked.mp hin
    · obtain ⟨hu, hin⟩ := hl.head_some hused
      obtain ⟨p, hns⟩ := Option.ne_none_iff_exists'.mp ((hp u hu).inlist_iff.2.1.mp hin).1
      obtain ⟨t, ht, hlist, hsame⟩ := flushVnode_answers
        (show ((moveVnode s u .locked).vns u).ns = some p by simpa using hns) true
      rw [stealVnode_none hfree]
      dsimp only
      rw [stealVnode_some hused]
      refine ⟨u, t, ?_, hu, by rw [hin]; decide, by simpa using hlist, hsame⟩
      dsimp only
      rw [ht]
      rfl
  · obtain ⟨hu, hin⟩ := hl.head_some hfree
    rw [stealVnode_some hfree]
    exact ⟨u, _, rfl, hu, by rw [hin]; decide, by simp, fun _ => rfl⟩

theorem newVnode_exhausted (hl : Lists s) (hp : ∀ v < s.vnnum, Placed (s.vns v))
    (h : Exhausted s) : newVnode s nsid vnid data random = .ok (ENOMEM, s) := by
  have hnone : ∀ n, n ≠ .locked → (s.lists n).ends.head = none := by
    intro n hn
    rcases hhead : (s.lists n).ends.head with _ | u
    · rfl
    · obtain ⟨hu, hin⟩ := hl.head_some hhead
      have hlocked := (hp u hu).inlist_iff.2.2.mpr (h u hu)
      exact absurd (hin.symm.trans hlocked) hn
  unfold newVnode
  rw [stealVnode_none (hnone .free (by decide))]
  dsimp only
  rw [stealVnode_none (hnone .used (by decide))]

/-- In a live name space the call succeeds, whoever has the ids already. -/
theorem newVnode_live (vnid : ℤ) (data random : ℕ) (hl : Lists s)
    (hp : ∀ v < s.vnnum, Placed (s.vns v)) (hroom : ¬Exhausted s) {p : ℕ}
    (hlive : nsidtons s nsid = some p) :
    ∃ s', newVnode s nsid vnid data random = .ok (0, s') := by
  obtain ⟨u, t, hsteal, -, -, -, hsame⟩ :=
    newVnode_takes nsid vnid data random hl hp hroom
  rw [hsteal]
  exact enterNew_live ((hsame nsid).trans hlive)

/-- Without the name space the vnode that was taken stays behind on the locked list. -/
theorem newVnode_dead (vnid : ℤ) (data random : ℕ) (hl : Lists s)
    (hp : ∀ v < s.vnnum, Placed (s.vns v)) (hroom : ¬Exhausted s) (hdead : nsidtons s nsid = none) :
    ∃ u s', newVnode s nsid vnid data random = .ok (ENOENT, s') ∧ u < s.vnnum ∧
      (s.vns u).inlist ≠ .locked ∧ (s'.vns u).inlist = .locked := by
  obtain ⟨u, t, hsteal, hu, hin, hlocked, hsame⟩ :=
    newVnode_takes nsid vnid data random hl hp hroom
  refine ⟨u, setVnode t u fun v => { v with ns := none }, ?_, hu, hin, by simpa using hlocked⟩
  rw [hsteal]
  unfold enterNew
  rw [(hsame nsid).trans hdead]

/-- The call fails, and every vnode keeps its list and its fields, except that one without
references may have been released to the free list. -/
def Refuses (s : Layer) (nsid : ℕ) (vnid : ℤ) (data random : ℕ) : Prop :=
  ∃ err s', newVnode s nsid vnid data random = .ok (err, s') ∧ err ≠ 0 ∧ Lists s' ∧
    ∃ u, ∀ v < s.vnnum, s'.vns v = s.vns v ∨
      v = u ∧ (s.vns v).rcnt = 0 ∧ (s'.vns v).inlist = .free

theorem Refuses.of_exhausted (hl : Lists s) (hp : ∀ v < s.vnnum, Placed (s.vns v))
    (h : Exhausted s) : Refuses s nsid vnid data random :=
  ⟨ENOMEM, s, newVnode_exhausted hl hp h, by decide, hl, 0, fun _ _ => .inl rfl⟩

theorem not_refuses (nsid : ℕ) (vnid : ℤ) (data random : ℕ) (hl : Lists s)
    (hp : ∀ v < s.vnnum, Placed (s.vns v)) (hroom : ¬Exhausted s) :
    ¬Refuses s nsid vnid data random := by
  rintro ⟨err, s', hnew, herr, -, x, hx⟩
  rcases hlive : nsidtons s nsid with _ | p
  · obtain ⟨u, t, hdead, hu, hin, hlocked⟩ :=
      newVnode_dead vnid data random hl hp hroom hlive
    rw [hdead] at hnew
    cases hnew
    rcases hx u hu with h | ⟨-, -, h⟩
    · exact hin (by rw [← h, hlocked])
    · rw [hlocked] at h
      cases h
  · obtain ⟨t, hok⟩ :=
      newVnode_live vnid data random hl hp hroom hlive
    rw [hok] at hnew
    cases hnew
    exact herr rfl

/-- The ids are taken already, or their name space is not live. -/
def NotToBeMade (s : Layer) (nsid : ℕ) (vnid : ℤ) : Prop :=
  (∃ w, Registered s w ∧ idOf s w = (nsid, vnid)) ∨ nsidtons s nsid = none

/-- A vnode that is not to be made is refused exactly if there is no vnode left to steal. -/
theorem newVnode_refuses_iff (hl : Lists s) (hp : ∀ v < s.vnnum, Placed (s.vns v))
    (_hbad : NotToBeMade s nsid vnid) :
    Refuses s nsid vnid data random ↔ Exhausted s := by
  refine ⟨fun h => ?_, Refuses.of_exhausted hl hp⟩
  by_contra hroom
  exact not_refuses nsid vnid data random hl hp hroom h

theorem oneSpace_sound : Sound oneSpace := init_sound (by decide) _ fun _ => rfl

theorem newVnode_refuses_oneSpace : Refuses oneSpace 2 5 10 0 ↔ Exhausted oneSpace :=
  newVnode_refuses_iff oneSpace_sound.lists oneSpace_sound.placed (.inr (by decide))

/-- The table after one vnode has been made. -/
def oneVnode : Layer := next oneSpace (.new 1 5 10 0)

theorem oneVnode_sound : Sound oneVnode := next_sound oneSpace_sound (by decide) trivial

theorem oneVnode_fitsInt : FitsInt oneVnode := by
  unfold FitsInt
  decide +kernel

/-- The ids of that vnode are given a second time, and a name space that is not there. -/
theorem newVnode_takes_duplicate : TableInvariant oneVnode ∧
    (Registered oneVnode 0 ∧ idOf oneVnode 0 = (1, 5) ∧ ¬Refuses oneVnode 1 5 20 0) ∧
    nsidtons oneVnode 2 = none ∧ ¬Refuses oneVnode 2 5 20 0 := by
  have hroom : ¬Exhausted oneVnode := fun h => absurd (h 1 (by decide)) (by decide)
  have hrefuses := fun nsid =>
    not_refuses nsid 5 20 0 oneVnode_sound.lists oneVnode_sound.placed hroom
  refine ⟨oneVnode_sound.invariant oneVnode_fitsInt,
    ⟨⟨by decide, by decide⟩, by decide, hrefuses 1⟩, by decide, hrefuses 2⟩

end Refusals

end VnodeTable
