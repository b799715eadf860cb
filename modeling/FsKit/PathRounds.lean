import Mathlib.Tactic
import FsKit.PathWalk

/-! The rounds of `parse_path` one by one (`kernel.c`), for any `walk` hook that keeps its
contract: what a round does to the references, how the links are counted, and that the rounds
come to an end. -/
namespace PathRounds

open FallibleRuns VnodeRegistry VnodeTable VnodeCounts PathWalk
open VnodeLayer hiding incVnode decVnode

/-- A `walk` hook: it gets a vnode and a component, and whether it may report a link. -/
abbrev Walker := Kernel → ℕ → Path → Bool → Except Stop (Walked × Kernel)

/-- What `parse_path` keeps from one round to the next. -/
structure Config where
  kernel : Kernel
  bvn : ℕ
  p : Path
  iter : ℕ

inductive Round where
  | done (r : Except ℤ ℕ) (k : Kernel) (iter : ℕ)
  | again (c : Config)

section Model
variable (walk : Walker) (realloc : ℕ → Bool) (eatsymlink : Bool)

/-- The rest of a round that has found a link. -/
def followLink (k : Kernel) (vn : ℕ) (newpath np : Path) (iter : ℕ) : Except Stop Round :=
  let iter := iter + 1
  if MAX_SYM_LINKS < iter then
    (decVnode k vn false).map fun k => .done (.error ELOOP) k iter
  else if realloc iter = false then
    (decVnode k vn false).map fun k => .done (.error ENOMEM) k iter
  else
    let p := catPaths newpath np
    if p.head? = some slash then
      (decVnode k vn false).bind fun k =>
      (incVnode k k.rootvn).map fun k => .again ⟨k, k.rootvn, p.dropWhile (· = slash), iter⟩
    else .ok (.again ⟨k, vn, p, iter⟩)

/-- The rest of a round once `walk` has answered. -/
def afterWalk (k : Kernel) (bvn : ℕ) (walked : Walked) (np : Path) (iter : ℕ) :
    Except Stop Round :=
  match walked with
  | .fails err => (decVnode k bvn false).map fun k => .done (.error err) k iter
  | .link newpath => followLink realloc k bvn newpath np iter
  | .found vnid => (enter k bvn vnid).map fun (bvn, k) => .again ⟨k, bvn, np, iter⟩

def round (c : Config) : Except Stop Round :=
  match c.p with
  | [] => .ok (.done (.ok c.bvn) c.kernel c.iter)
  | ch :: cs =>
    let component := ch :: cs.takeWhile (· ≠ slash)
    let np := (cs.dropWhile (· ≠ slash)).dropWhile (· = slash)
    (leaveRoot c.kernel c.bvn component).bind fun (bvn, k) =>
    (walk k bvn component (eatsymlink || np ≠ [])).bind fun (walked, k) =>
    afterWalk realloc k bvn walked np c.iter

/-- At most `n` rounds. -/
def rounds : ℕ → Config → Except Stop (Option (Except ℤ ℕ × Kernel × ℕ))
  | 0, _ => .ok none
  | n + 1, c => (round walk realloc eatsymlink c).bind fun r =>
    match r with
    | .done r k iter => .ok (some (r, k, iter))
    | .again c => rounds n c

def parsePath (n : ℕ) (k : Kernel) (bvn : ℕ) (path : Option Path) :
    Except Stop (Option (Except ℤ ℕ × Kernel × ℕ)) :=
  match path with
  | none => .ok (some (.ok bvn, k, 0))
  | some p => rounds walk realloc eatsymlink n ⟨k, bvn, p, 0⟩

end Model

/-- What a call of `walk` may report: an error or a link text, for which it takes no reference,
or the id of a vnode to which it has taken one. -/
def Reports (k : Kernel) (bvn : ℕ) (follow : Bool) (r : Walked × Kernel) : Prop :=
  r.2 = { k with layer := r.2.layer, walks := r.2.walks } ∧
    match r.1 with
    | .fails err => err ≠ 0 ∧ Change k.layer r.2.layer 0
    | .link text => follow = true ∧ text ≠ [] ∧ Change k.layer r.2.layer 0
    | .found vnid => ∃ vn < k.layer.vnnum,
        lookupVnode r.2.layer (nsidOf k.layer bvn) vnid = some vn ∧
          Change k.layer r.2.layer (Pi.single vn 1)

/-- The contract of a `walk` hook that is called with a vnode somebody refers to. -/
def WalkContract (walk : Walker) : Prop :=
  ∀ k bvn component follow, Sound k.layer → Live k.layer bvn →
    ∃ r, walk k bvn component follow = .ok r ∧ Reports k bvn follow r

section Steps
variable {walk : Walker} {realloc : ℕ → Bool} {eatsymlink : Bool} {k₀ k : Kernel} {held : List ℕ}
  {bvn : ℕ} {c : Config}

/-- Nothing stops the call. -/
abbrev Returns {α : Type*} (Q : α → Prop) (x : Except Stop α) : Prop := Ends (fun _ => False) Q x

/-- A vnode that stays referenced keeps its ids. -/
theorem idOf_kept {s s' : VnodeLayer.Layer} {d : ℕ → ℤ} {vn : ℕ} (hc : Change s s' d)
    (hvn : Live s vn) (hvn' : Live s' vn) : idOf s' vn = idOf s vn := by
  have hkept := hc.kept vn hvn.pos hvn'.pos
  unfold idOf nsidOf
  rw [hkept.1, hkept.2.1]
  cases (s.vns vn).ns with
  | none => rfl
  | some ns => rw [Option.map_some, Option.map_some, (hc.spaces.ids ns).1]

theorem Reports.outcome {follow : Bool} {r : Walked × Kernel} (hr : Reports k bvn follow r)
    (h : Holding k₀ k (bvn :: held)) : WalkOutcome k₀ bvn held r := by
  obtain ⟨walked, k'⟩ := r
  obtain ⟨hsame, hreport⟩ := hr
  have hchange : ∀ {s : VnodeLayer.Layer} {d : ℕ → ℤ} {held' : List ℕ}, s = k'.layer →
      Change k.layer s d → Refs k₀.layer s held' → Holding k₀ k' held' := by
    rintro s d held' rfl hc hr
    dsimp only at hsame
    rw [hsame]
    exact h.change hc hr k'.walks
  cases walked with
  | fails err => exact ⟨hreport.1, hchange rfl hreport.2 (h.refs.neutral hreport.2)⟩
  | link text => exact hchange rfl hreport.2.2 (h.refs.neutral hreport.2.2)
  | found vnid =>
    obtain ⟨vn, hin, hlookup, hc⟩ := hreport
    have h' := hchange rfl hc (h.refs.take (by rw [hc.vnnum]; exact hin) hc)
    refine ⟨vn, ?_, h'⟩
    -- the vnode that was walked from is still in its name space
    have hid := idOf_kept hc (h.refs.live_held List.mem_cons_self)
      (h'.refs.live_held (List.mem_cons_of_mem _ List.mem_cons_self))
    rw [show nsidOf k'.layer bvn = nsidOf k.layer bvn from congrArg Prod.fst hid]
    exact hlookup

theorem walk_ends (hw : WalkContract walk) (h : Holding k₀ k (bvn :: held)) (component : Path)
    (follow : Bool) : Returns (WalkOutcome k₀ bvn held) (walk k bvn component follow) := by
  obtain ⟨r, hwalk, hr⟩ := hw k bvn component follow h.refs.sound
    (h.refs.live_held List.mem_cons_self)
  rw [hwalk]
  exact hr.outcome h

/-- What a round leaves: the answer, or one reference for the next round, which has less of the
path before it or has followed one link more. -/
def RoundOutcome (k₀ : Kernel) (held : List ℕ) (c : Config) : Round → Prop
  | .done r k iter => Outcome k₀ held (r, k) ∧ (iter = c.iter ∨ iter = c.iter + 1 ∧
      (MAX_SYM_LINKS < iter → r = .error ELOOP))
  | .again c' => Holding k₀ c'.kernel (c'.bvn :: held) ∧
      (c'.iter = c.iter ∧ c'.p.length < c.p.length ∨
        c'.iter = c.iter + 1 ∧ c'.iter ≤ MAX_SYM_LINKS)

theorem followLink_ends (h₀ : Ready k₀) (hfew : Few k₀ held) {vn : ℕ}
    (h : Holding k₀ k (vn :: held))
    (newpath np : Path) :
    Returns (RoundOutcome k₀ held c) (followLink realloc k vn newpath np c.iter) := by
  unfold followLink
  dsimp only
  split
  · exact dec_then h h₀ hfew.lt fun k' h' => ⟨⟨by decide, h'⟩, .inr ⟨rfl, fun _ => rfl⟩⟩
  rename_i hiter
  split
  · refine dec_then h h₀ hfew.lt fun k' h' => ⟨⟨by decide, h'⟩, .inr ⟨rfl, fun hlt => ?_⟩⟩
    exact absurd hlt hiter
  split
  · refine dec_bind h h₀ hfew.lt fun k₁ h₁ => ?_
    obtain ⟨k₂, hinc, h₂⟩ := h₁.incVnode h₀ (h₁.usable h₀).rootvn
    have hroot : k₂.rootvn = k₁.rootvn := by rw [h₂.same, h₁.same]
    rw [hinc]
    refine ⟨?_, .inr ⟨rfl, not_lt.mp hiter⟩⟩
    dsimp only
    rw [hroot]
    exact h₂
  · exact ⟨h, .inr ⟨rfl, not_lt.mp hiter⟩⟩

theorem round_ends (hw : WalkContract walk) (h₀ : Ready k₀) (hfew : Few k₀ held)
    (h : Holding k₀ c.kernel (c.bvn :: held)) :
    Returns (RoundOutcome k₀ held c) (round walk realloc eatsymlink c) := by
  obtain ⟨k, bvn, p, iter⟩ := c
  unfold round
  cases p with
  | nil => exact ⟨h, .inl rfl⟩
  | cons ch cs =>
    dsimp only
    refine (leaveRoot_ends h h₀ hfew _).bind fun r hr => ?_
    obtain ⟨bvn₁, k₁⟩ := r
    refine (walk_ends hw hr _ _).bind fun r hr => ?_
    obtain ⟨walked, k₂⟩ := r
    cases walked with
    | fails err => exact dec_then hr.2 h₀ hfew.lt fun k' h' => ⟨⟨hr.1, h'⟩, .inl rfl⟩
    | link newpath =>
      exact followLink_ends (c := ⟨k, bvn, ch :: cs, iter⟩) h₀ hfew hr newpath _
    | found vnid =>
      obtain ⟨vn, hlookup, hheld⟩ := hr
      refine (enter_ends hheld h₀ hfew hlookup).map fun r hr => ⟨hr, .inl ⟨rfl, ?_⟩⟩
      have h₁ := (cs.dropWhile_suffix (· ≠ slash)).length_le
      have h₂ := ((cs.dropWhile (· ≠ slash)).dropWhile_suffix (· = slash)).length_le
      simp only [List.length_cons]
      omega

/-- More rounds than are needed change nothing. -/
theorem rounds_mono {n m : ℕ} {r : Except ℤ ℕ × Kernel × ℕ} (hnm : n ≤ m)
    (h : rounds walk realloc eatsymlink n c = .ok (some r)) :
    rounds walk realloc eatsymlink m c = .ok (some r) := by
  induction n generalizing m c with
  | zero => cases h
  | succ n ih =>
    obtain ⟨m, rfl⟩ := Nat.exists_eq_add_of_lt hnm
    rw [rounds] at h ⊢
    obtain ⟨o, hround, h⟩ := bind_ok h
    rw [hround]
    cases o with
    | done r k iter => exact h
    | again c' => exact ih (Nat.le_add_right n m) h

/-- How `parse_path` ends: balanced, and with at most so many links unless it gives up. -/
def PathOutcome (k₀ : Kernel) (held : List ℕ) (r : Except ℤ ℕ × Kernel × ℕ) : Prop :=
  Outcome k₀ held (r.1, r.2.1) ∧
    (r.2.2 ≤ MAX_SYM_LINKS ∨ r.2.2 = MAX_SYM_LINKS + 1 ∧ r.1 = .error ELOOP)

/-- The rounds come to an end: first by the links that may still be followed, then by what is
left of the path. -/
theorem rounds_ends (hw : WalkContract walk) (h₀ : Ready k₀) (hfew : Few k₀ held)
    (links len : ℕ) :
    ∀ c : Config, c.iter + links = MAX_SYM_LINKS → c.p.length = len →
      Holding k₀ c.kernel (c.bvn :: held) → ∃ n r,
        rounds walk realloc eatsymlink n c = .ok (some r) ∧ PathOutcome k₀ held r := by
  induction links using Nat.strong_induction_on generalizing len with
  | _ links ihlinks =>
  induction len using Nat.strong_induction_on with
  | _ len ihlen =>
    intro c hlinks hlen h
    have hround : Returns (RoundOutcome k₀ held c) (round walk realloc eatsymlink c) :=
      round_ends hw h₀ hfew h
    rcases heq : round walk realloc eatsymlink c with e | r
    · rw [heq] at hround
      exact hround.elim
    rw [heq] at hround
    have hagain : ∀ c', r = .again c' → (∃ n r',
        rounds walk realloc eatsymlink n c' = .ok (some r') ∧ PathOutcome k₀ held r') →
        ∃ n r', rounds walk realloc eatsymlink n c = .ok (some r') ∧ PathOutcome k₀ held r' := by
      rintro c' rfl ⟨n, r', hrest, hr'⟩
      refine ⟨n + 1, r', ?_, hr'⟩
      rw [rounds, heq]
      exact hrest
    cases r with
    | done r k iter =>
      obtain ⟨hout, hiter⟩ := hround
      refine ⟨1, (r, k, iter), ?_, hout, ?_⟩
      · rw [rounds, heq]
        rfl
      · change iter ≤ MAX_SYM_LINKS ∨ iter = MAX_SYM_LINKS + 1 ∧ r = .error ELOOP
        rcases hiter with hsame | ⟨hmore, heloop⟩
        · exact .inl (by omega)
        · rcases Nat.lt_or_ge MAX_SYM_LINKS iter with hlt | hge
          · exact .inr ⟨by omega, heloop hlt⟩
          · exact .inl hge
    | again c' =>
      obtain ⟨hhold, ⟨hsame, hless⟩ | ⟨hmore, hle⟩⟩ := hround
      · exact hagain c' rfl (ihlen c'.p.length (by omega) c' (by omega) rfl hhold)
      · exact hagain c' rfl (ihlinks (MAX_SYM_LINKS - c'.iter) (by omega) c'.p.length c' (by omega)
          rfl hhold)

end Steps

section Balance
variable {walk : Walker} {k₀ k : Kernel} {held : List ℕ} {bvn : ℕ}

/-- The reference to the base is gone, and the vnode that is returned has got one. -/
def Balanced (k : Kernel) (bvn : ℕ) (r : Except ℤ ℕ) (k' : Kernel) : Prop :=
  ∀ w, (k'.layer.vns w).rcnt = (k.layer.vns w).rcnt - (Pi.single bvn 1 : ℕ → ℤ) w +
    (match r with
      | .ok vn => (Pi.single vn 1 : ℕ → ℤ) w
      | .error _ => 0)

theorem balanced_of_outcome {r : Except ℤ ℕ} {k' : Kernel} (h : Holding k₀ k (bvn :: held))
    (ho : Outcome k₀ held (r, k')) : Balanced k bvn r k' := by
  intro w
  have hbefore := h.refs.rcnt w
  have hbase := count_cons_single held bvn w
  cases r with
  | ok vn =>
    have hafter : Holding k₀ k' (vn :: held) := ho
    have hvn := count_cons_single held vn w
    have hcount := hafter.refs.rcnt w
    dsimp only
    omega
  | error err =>
    have hafter : Holding k₀ k' held := ho.2
    have hcount := hafter.refs.rcnt w
    dsimp only
    omega

/-- `parse_path` returns, follows at most `MAX_SYM_LINKS` links, and changes the reference counts
by what it says: the reference that the call holds to the base is dropped, and the vnode that is
returned has one more. -/
theorem parsePath_balances (hw : WalkContract walk) (realloc : ℕ → Bool) (eatsymlink : Bool)
    (h₀ : Ready k₀) (h : Holding k₀ k (bvn :: held)) (hfit : FitsInt k.layer)
    (path : Option Path) :
    ∃ n r k' links, parsePath walk realloc eatsymlink n k bvn path = .ok (some (r, k', links)) ∧
      (links ≤ MAX_SYM_LINKS ∨ links = MAX_SYM_LINKS + 1 ∧ r = .error ELOOP) ∧
      (∀ err, r = .error err → err ≠ 0) ∧ Balanced k bvn r k' := by
  have hfew : Few k₀ held := by
    intro w hw
    have hless := hfit w (by rw [h.refs.vnnum]; exact hw)
    rw [h.refs.rcnt w] at hless
    have hcount : held.count w ≤ (bvn :: held).count w := List.count_le_count_cons
    omega
  have hout : ∃ n r, parsePath walk realloc eatsymlink n k bvn path = .ok (some r) ∧
      PathOutcome k₀ held r := by
    cases path with
    | none => exact ⟨0, _, rfl, h, .inl (Nat.zero_le _)⟩
    | some p =>
      exact rounds_ends hw h₀ hfew MAX_SYM_LINKS p.length ⟨k, bvn, p, 0⟩ (Nat.zero_add _) rfl h
  obtain ⟨n, ⟨r, k', links⟩, heq, ho, hlinks⟩ := hout
  refine ⟨n, r, k', links, heq, hlinks, ?_, balanced_of_outcome h ho⟩
  rintro err rfl
  exact ho.1

/-- Every name is a link to one and the same name. -/
def selfLink : Walker := fun k _ _ follow =>
  .ok (if follow then .link [97] else .fails ENOENT, k)

theorem selfLink_contract : WalkContract selfLink := by
  intro k bvn component follow hs _
  refine ⟨_, rfl, rfl, ?_⟩
  cases follow
  · exact ⟨by decide, .refl hs⟩
  · exact ⟨rfl, by simp, .refl hs⟩

/-- The kernel of the two name spaces, with a reference to the root held for a call. -/
def heldRoot : Kernel :=
  { mountedKernel [] with layer := VnodeLayer.incVnode (mountedKernel []).layer 0 }

theorem parsePath_balances_selfLink : ∃ n r k' links,
    parsePath selfLink (fun _ => true) true n heldRoot 0 (some [97]) = .ok (some (r, k', links)) ∧
      (links ≤ MAX_SYM_LINKS ∨ links = MAX_SYM_LINKS + 1 ∧ r = .error ELOOP) ∧
      (∀ err, r = .error err → err ≠ 0) ∧ Balanced heldRoot 0 r k' := by
  have h₀ := mountedKernel_ready []
  refine parsePath_balances selfLink_contract _ true h₀
    (h₀.holding.inc (mountedLayer_live (Nat.succ_pos 2))) ?_ _
  unfold FitsInt
  decide +kernel

end Balance

section Agreement
variable {eatsymlink : Bool} {k k' : Kernel} {bvn : ℕ} {r : Except ℤ ℕ}

/-- The hook of the kernel whose answers are kept in its state. -/
def scripted : Walker := fun k bvn _ follow => callWalk k bvn follow

/-- The rounds come to this answer. -/
def Answers (eatsymlink : Bool) (c : Config) (r : Except ℤ ℕ) (k' : Kernel) : Prop :=
  ∃ n iter, rounds scripted (fun _ => true) eatsymlink n c = .ok (some (r, k', iter))

theorem answers_of_done {c : Config} (iter : ℕ)
    (h : round scripted (fun _ => true) eatsymlink c = .ok (.done r k' iter)) :
    Answers eatsymlink c r k' := by
  refine ⟨1, iter, ?_⟩
  rw [rounds, h]
  rfl

theorem answers_of_again {c c' : Config}
    (h : round scripted (fun _ => true) eatsymlink c = .ok (.again c'))
    (hc' : Answers eatsymlink c' r k') : Answers eatsymlink c r k' := by
  obtain ⟨n, iter, hn⟩ := hc'
  refine ⟨n + 1, iter, ?_⟩
  rw [rounds, h]
  exact hn

theorem round_after {ch : UInt8} {cs : Path} {bvn₁ : ℕ} {k₁ k₂ : Kernel} {walked : Walked}
    (hleave : leaveRoot k bvn (ch :: cs.takeWhile (· ≠ slash)) = .ok (bvn₁, k₁))
    (hwalk : callWalk k₁ bvn₁
      (eatsymlink || (cs.dropWhile (· ≠ slash)).dropWhile (· = slash) ≠ []) = .ok (walked, k₂))
    (iter : ℕ) :
    round scripted (fun _ => true) eatsymlink ⟨k, bvn, ch :: cs, iter⟩ =
      afterWalk (fun _ => true) k₂ bvn₁ walked
        ((cs.dropWhile (· ≠ slash)).dropWhile (· = slash)) iter := by
  unfold round scripted
  dsimp only
  rw [hleave]
  dsimp only [Except.bind]
  rw [hwalk]

theorem parseLoop_answers {atLink : Kernel → ℕ → Path → Path → Resolved} {iter : ℕ}
    (hlink : ∀ k vn newpath np r k', atLink k vn newpath np = .ok (r, k') →
      (∃ i, followLink (fun _ => true) k vn newpath np iter = .ok (.done r k' i)) ∨
        ∃ c, followLink (fun _ => true) k vn newpath np iter = .ok (.again c) ∧
          Answers eatsymlink c r k')
    {fuel : ℕ} {p : Path} (h : parseLoop eatsymlink atLink fuel k bvn p = .ok (r, k')) :
    Answers eatsymlink ⟨k, bvn, p, iter⟩ r k' := by
  induction fuel generalizing k bvn p with
  | zero =>
    cases p with
    | nil =>
      cases h
      exact answers_of_done _ rfl
    | cons ch cs => cases h
  | succ fuel ih =>
    cases p with
    | nil =>
      cases h
      exact answers_of_done _ rfl
    | cons ch cs =>
      rw [parseLoop] at h
      dsimp only at h
      obtain ⟨⟨bvn₁, k₁⟩, hleave, h⟩ := bind_ok h
      obtain ⟨⟨walked, k₂⟩, hwalk, h⟩ := bind_ok h
      have hround := round_after hleave hwalk iter
      cases walked with
      | fails err =>
        obtain ⟨k₃, hdec, heq⟩ := map_ok h
        cases heq
        refine answers_of_done iter (hround.trans ?_)
        rw [afterWalk, hdec]
        rfl
      | link newpath =>
        rcases hlink k₂ bvn₁ newpath _ r k' h with ⟨i, hdone⟩ | ⟨c, hagain, hc⟩
        · exact answers_of_done i (hround.trans hdone)
        · exact answers_of_again (hround.trans hagain) hc
      | found vnid =>
        obtain ⟨⟨bvn₂, k₃⟩, henter, h⟩ := bind_ok h
        refine answers_of_again (hround.trans ?_) (ih h)
        rw [afterWalk, henter]
        rfl

/-- What `parse_path` returns with a budget of links, the rounds return. -/
theorem parsePath_answers {links iter : ℕ} (hlinks : iter + links = MAX_SYM_LINKS) {p : Path}
    (h : PathWalk.parsePath eatsymlink links k bvn p = .ok (r, k')) :
    Answers eatsymlink ⟨k, bvn, p, iter⟩ r k' := by
  induction links generalizing k bvn p iter r k' with
  | zero =>
    refine parseLoop_answers (fun k vn newpath np r k' hlink => .inl ?_) h
    obtain ⟨k₁, hdec, heq⟩ := map_ok hlink
    cases heq
    refine ⟨iter + 1, ?_⟩
    unfold followLink
    dsimp only
    rw [if_pos (by omega), hdec]
    rfl
  | succ links ih =>
    have hmore : iter + 1 + links = MAX_SYM_LINKS := by omega
    refine parseLoop_answers (fun k vn newpath np r k' hlink => .inr ?_) h
    unfold followLink
    dsimp only at hlink ⊢
    rw [if_neg (by omega), if_neg (by decide)]
    split at hlink
    · rename_i hroot
      obtain ⟨k₁, hdec, hlink⟩ := bind_ok hlink
      obtain ⟨k₂, hinc, hlink⟩ := bind_ok hlink
      rw [if_pos hroot, hdec]
      dsimp only [Except.bind]
      rw [hinc]
      exact ⟨_, rfl, ih hmore hlink⟩
    · rename_i hroot
      rw [if_neg hroot]
      exact ⟨_, rfl, ih hmore hlink⟩

end Agreement

end PathRounds
