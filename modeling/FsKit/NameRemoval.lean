import Mathlib.Tactic
import FsKit.DirectoryMap
import FsKit.FileHooks
import FsKit.VnodeCounts

/-! `myfs_unlink` (`file.c`) and `myfs_rmdir` (`dir.c`) with the references they take. The
directory is seen through its stream, as in `DirectoryMap`; the vnode layer is that of
`VnodeLayer`. Both calls look the name up, get the vnode, refuse it by its kind, and then
delete the name. -/
namespace NameRemoval

open DirectoryOps DirectoryEntries DirectoryMap VnodeCounts TransitionTrace
open InodeTable (Halt)
open VnodeLayer hiding Halt Event next exec
open VnodeRegistry (moveVnode_vns setVnode_vns idOf)
open VnodeTable (Sound Registered LastSeen FitsInt)
open FileHooks (EISDIR ENOTDIR ENOTEMPTY mkdirBufsize)

/-- A call that does not return stops on the disk or in the vnode layer. -/
abbrev Stop := Halt ⊕ VnodeLayer.Halt

def onDisk {α : Type} (r : Except Halt α) : Except Stop α := r.mapError .inl

def inLayer {α : Type} (r : Except VnodeLayer.Halt α) : Except Stop α := r.mapError .inr

/-- What the calls meet behind the data pointer of a vnode, and what `read_vnode` answers if
the vnode has to be read in. -/
structure Inodes (σ : Type) where
  nsid : ℕ
  isDir : ℕ → Bool
  inode : ℕ → σ
  err : ℤ
  data : ℕ
  random : ℕ

section Calls
variable {σ : Type} (S : DirStream σ) (ns : Inodes σ)

/-- The first half of both calls. -/
def getNamed (vl : Layer) (dir : σ) (name : Name)
    (act : Layer → σ → ℤ → ℕ → Except Stop (ℤ × σ × Layer)) : Except Stop (ℤ × σ × Layer) :=
  if S.size dir < 0 then .error (.inl .myfsDie)
  else (onDisk (S.dirLookup dir name)).bind fun (ret, vnid, dir) =>
    if ret ≠ 0 then .ok (ret, dir, vl)
    else (inLayer (getVnode vl ns.nsid vnid ns.err ns.data ns.random)).bind fun (ret, mi, vl) =>
      if ret ≠ 0 then .ok (ret, dir, vl) else act vl dir vnid mi

def refuse (code : ℤ) (vl : Layer) (dir : σ) (vnid : ℤ) : Except Stop (ℤ × σ × Layer) :=
  (inLayer (putVnode vl ns.nsid vnid)).map fun (_, vl) => (code, dir, vl)

/-- The second half: when `dir_delete` fails, its code is returned at once. -/
def deleteName (vl : Layer) (dir : σ) (vnid : ℤ) (name : Name) : Except Stop (ℤ × σ × Layer) :=
  (onDisk (S.dirDelete dir name)).bind fun (ret, dir) =>
    if ret ≠ 0 then .ok (ret, dir, vl)
    else
      let vl := (removeVnode vl ns.nsid vnid).2
      (inLayer (putVnode vl ns.nsid vnid)).map fun (_, vl) => (0, dir, vl)

def myfsUnlink (vl : Layer) (dir : σ) (name : Name) : Except Stop (ℤ × σ × Layer) :=
  getNamed S ns vl dir name fun vl dir vnid mi =>
    if ns.isDir mi then refuse ns EISDIR vl dir vnid else deleteName S ns vl dir vnid name

def myfsRmdir (vl : Layer) (dir : σ) (name : Name) : Except Stop (ℤ × σ × Layer) :=
  getNamed S ns vl dir name fun vl dir vnid mi =>
    if ¬ns.isDir mi then refuse ns ENOTDIR vl dir vnid
    else if mkdirBufsize < S.size (ns.inode mi) then refuse ns ENOTEMPTY vl dir vnid
    else deleteName S ns vl dir vnid name

end Calls

section Marks
variable {s s' s'' : Layer} {vn nsid random data : ℕ} {vnid err : ℤ}

/-- No vnode has been marked for removal. -/
def Unmarked (s s' : Layer) : Prop := ∀ w, (s'.vns w).remove = true → (s.vns w).remove = true

theorem Unmarked.refl (s : Layer) : Unmarked s s := fun _ h => h

theorem Unmarked.trans (h : Unmarked s s') (k : Unmarked s' s'') : Unmarked s s'' :=
  fun w hw => h w (k w hw)

theorem unmarked_of_update {v : Vnode} (h : s'.vns = Function.update s.vns vn v)
    (hv : v.remove = true → (s.vns vn).remove = true) : Unmarked s s' := by
  intro w hw
  rw [h] at hw
  by_cases heq : w = vn
  · rw [heq, Function.update_self] at hw
    rw [heq]
    exact hv hw
  · rwa [Function.update_of_ne heq] at hw

theorem unmarked_move (s : Layer) (vn : ℕ) (n : ListName) : Unmarked s (moveVnode s vn n) :=
  unmarked_of_update (moveVnode_vns s vn n) id

theorem unmarked_clear (h : clearVnode s vn = .ok s') : Unmarked s s' :=
  unmarked_of_update (clearVnode_vns h).1 fun hv => by cases hv

theorem unmarked_set (s : Layer) (vn : ℕ) (f : Vnode → Vnode)
    (hf : (f (s.vns vn)).remove = true → (s.vns vn).remove = true) : Unmarked s (setVnode s vn f) :=
  unmarked_of_update (setVnode_vns s vn f) hf

theorem unmarked_flush {r : Bool} (h : flushVnode s vn r = .ok s') : Unmarked s s' := by
  unfold flushVnode at h
  split at h
  · cases h
  · refine Unmarked.trans ?_ (unmarked_clear h)
    refine Unmarked.trans (unmarked_set s vn (fun v => { v with busy := true }) id) ?_
    exact unmarked_set _ vn _ id

theorem unmarked_steal {n : ListName} {o : Option ℕ} (h : stealVnode s n = (o, s')) :
    Unmarked s s' := by
  unfold stealVnode at h
  split at h
  · cases h
    exact .refl s
  · cases h
    exact unmarked_move s _ _

theorem unmarked_findOrSteal {r : Bool} {fuel : ℕ}
    (h : findOrSteal s nsid vnid r fuel = .ok (vn, s')) : Unmarked s s' := by
  induction fuel generalizing s with
  | zero => cases h
  | succ fuel ih =>
    rw [findOrSteal] at h
    split at h
    · split at h
      · cases h
      · cases h
        exact .refl _
    split at h
    · rename_i hs
      cases h
      exact unmarked_steal hs
    rename_i s₁ hs₁
    split at h
    · cases h
    rename_i w s₂ hs₂
    have hto₂ := (unmarked_steal hs₁).trans (unmarked_steal hs₂)
    generalize hflush : flushVnode s₂ w r = f at h
    cases f with
    | error e => cases h
    | ok s₃ =>
      have hto₃ := hto₂.trans (unmarked_flush hflush)
      exact hto₃.trans ((unmarked_move s₃ w .free).trans (ih h))

theorem unmarked_clearAndFree {e e' : ℤ}
    (h : (clearVnode s vn).map (fun s => (e, moveVnode s vn .free)) = .ok (e', s')) :
    Unmarked s s' := by
  generalize hclear : clearVnode s vn = r at h
  cases r with
  | error e => cases h
  | ok s₁ =>
    cases h
    exact (unmarked_clear hclear).trans (unmarked_move s₁ vn .free)

theorem unmarked_readIn {p : ℕ} {r : Bool} {e : ℤ}
    (h : readIn s vn p vnid r err data random = .ok (e, s')) : Unmarked s s' := by
  unfold readIn at h
  refine Unmarked.trans
    (unmarked_set s vn (fun v => { v with ns := some p, vnid := vnid, busy := true }) id) ?_
  generalize
    setVnode s vn (fun v => { v with ns := some p, vnid := vnid, busy := true }) = s₁ at h ⊢
  dsimp only at h
  generalize hsort : sortVnode s₁ vn random = t at h
  cases t with
  | error e => cases h
  | ok t =>
    obtain ⟨e₂, s₂⟩ := t
    dsimp only [Except.bind] at h
    have hto₂ : Unmarked s₁ s₂ := by
      intro w hw
      rwa [(sortVnode_vns hsort).1] at hw
    refine hto₂.trans ?_
    split at h
    · exact unmarked_clearAndFree h
    generalize hs₃ : setVnode (record (moveVnode s₂ vn .locked) _) vn _ = s₃ at h
    have hto₃ : Unmarked s₂ s₃ := by
      rw [← hs₃]
      exact (unmarked_move s₂ vn .locked).trans (unmarked_set _ vn _ id)
    refine hto₃.trans ?_
    split at h
    · exact unmarked_clearAndFree h
    · cases h
      exact unmarked_set s₃ vn _ id

theorem unmarked_load {r : Bool} {e : ℤ}
    (h : loadVnode s nsid vnid r err data random = .ok (e, vn, s')) : Unmarked s s' := by
  unfold loadVnode at h
  generalize hfind : findOrSteal s nsid vnid r 2 = t at h
  cases t with
  | error e => cases h
  | ok t =>
    obtain ⟨w, s₁⟩ := t
    dsimp only [Except.bind] at h
    refine (unmarked_findOrSteal hfind).trans ?_
    split at h
    · split at h
      · cases h
        exact unmarked_move s₁ _ .free
      · rename_i p _
        generalize hread : readIn s₁ w p vnid r err data random = u at h
        cases u with
        | error e => cases h
        | ok u =>
          cases h
          exact unmarked_readIn hread
    · cases h
      have hset : Unmarked s₁ (setVnode s₁ vn fun v => { v with rcnt := v.rcnt + 1 }) :=
        unmarked_set s₁ vn _ id
      split
      · exact hset.trans (unmarked_move _ vn .locked)
      · exact hset

theorem unmarked_get {e : ℤ} {d : ℕ}
    (h : getVnode s nsid vnid err data random = .ok (e, d, s')) : Unmarked s s' := by
  unfold getVnode at h
  generalize hload : loadVnode s nsid vnid true err data random = t at h
  cases t with
  | error e => cases h
  | ok t =>
    obtain ⟨e₁, w, s₁⟩ := t
    dsimp only [Except.map] at h
    refine (unmarked_load hload).trans ?_
    split at h
    · cases h
      exact .refl _
    · cases h
      exact fun _ hw => hw

theorem unmarked_dispose {r : Bool} (h : disposeRemoved s vn r = .ok s') : Unmarked s s' := by
  unfold disposeRemoved at h
  split at h
  · cases h
  refine Unmarked.trans (unmarked_set s vn (fun v => { v with busy := true }) id) ?_
  generalize setVnode s vn (fun v => { v with busy := true }) = s₁ at h ⊢
  dsimp only at h
  refine Unmarked.trans (unmarked_move s₁ vn .locked) ?_
  generalize hclear : clearVnode _ vn = t at h
  cases t with
  | error e => cases h
  | ok s₂ =>
    cases h
    exact (unmarked_clear hclear).trans (unmarked_move s₂ vn .free)

theorem unmarked_keepUsed {r : Bool} (h : keepUsed s vn r = .ok s') : Unmarked s s' := by
  unfold keepUsed at h
  refine Unmarked.trans (unmarked_move s vn .used) ?_
  dsimp only at h
  split at h
  · split at h
    · cases h
    rename_i w s₁ hsteal
    generalize hflush : flushVnode s₁ w r = t at h
    cases t with
    | error e => cases h
    | ok s₂ =>
      cases h
      exact ((unmarked_steal hsteal).trans (unmarked_flush hflush)).trans (unmarked_move s₂ w .free)
  · cases h
    exact .refl _

theorem unmarked_put {e : ℤ} (h : putVnode s nsid vnid = .ok (e, s')) : Unmarked s s' := by
  unfold putVnode at h
  split at h
  · cases h
    exact .refl _
  rename_i vn _
  generalize hdec : decVnode (record s (.putting nsid vnid)) vn true = t at h
  cases t with
  | error e => cases h
  | ok s₁ =>
    cases h
    unfold decVnode at hdec
    refine Unmarked.trans
      (unmarked_set (record s (.putting nsid vnid)) vn (fun v => { v with rcnt := v.rcnt - 1 })
        id) ?_
    dsimp only at hdec
    split at hdec
    · split at hdec
      · exact unmarked_dispose hdec
      · exact unmarked_keepUsed hdec
    · cases hdec
      exact .refl _

end Marks

section References
variable {s s' s'' : Layer} {nsid random data mi : ℕ} {vnid err : ℤ}

/-- A reference that `get_vnode` took is the one that `put_vnode` gives back. -/
theorem put_after_get (h : Sound s) (hfit : FitsInt s) (hrand : random ≤ SkipListSet.maxLevel)
    (hget : getVnode s nsid vnid err data random = .ok (0, mi, s')) :
    (∃ w, (s'.vns w).rcnt = (s.vns w).rcnt + 1) ∧
    ∃ s'', putVnode s' nsid vnid = .ok (0, s'') ∧ Sound s'' ∧
      ∀ w, (s''.vns w).rcnt = (s.vns w).rcnt := by
  rcases getVnode_change h nsid vnid err data hrand with
    ⟨d, s₁, vn, hg, hin, hlook, hc⟩ | ⟨e, d, s₁, he, hg, _⟩ | ⟨hg, _⟩
  · rw [hget] at hg
    cases hg
    have hrcnt := hc.rcnt vn
    rw [Pi.single_eq_same] at hrcnt
    rw [hc.vnnum] at hin
    have hnonneg := (h.placed vn hin).rcnt
    have hless := hfit vn hin
    refine ⟨⟨vn, hrcnt⟩, ?_⟩
    obtain ⟨_, hid⟩ := hc.sound.registry.lookup_some hlook
    obtain ⟨s'', hdec, hc'⟩ := decVnode_change hc.sound (by rw [hc.vnnum]; exact hin) (by omega)
      (VnodeTable.lastSeen_of_le (by omega) (by omega)) (o := .putting nsid vnid)
      (by rw [hid]; rfl) true
    refine ⟨s'', ?_, hc'.sound, fun w => ?_⟩
    · rw [putVnode, hlook]
      dsimp only
      rw [hdec]
      rfl
    · rw [hc'.rcnt, hc.rcnt]
      by_cases hw : w = vn
      · rw [hw, Pi.single_eq_same, Pi.single_eq_same]
        omega
      · rw [Pi.single_eq_of_ne hw, Pi.single_eq_of_ne hw]
        omega
  · rw [hget] at hg
    cases hg
    exact absurd rfl he
  · rw [hget] at hg
    cases hg

/-- Whoever got a vnode holds a reference to it. -/
theorem got_held (h : Sound s) (hfit : FitsInt s) (hrand : random ≤ SkipListSet.maxLevel)
    (hget : getVnode s nsid vnid err data random = .ok (0, mi, s')) :
    Sound s' ∧ ∀ w, Registered s' w → idOf s' w = (nsid, vnid) →
      0 < (s'.vns w).rcnt ∧ LastSeen (s'.vns w) := by
  rcases getVnode_change h nsid vnid err data hrand with
    ⟨d, s₁, vn, hg, hin, hlook, hc⟩ | ⟨e, d, s₁, he, hg, _⟩ | ⟨hg, _⟩
  · rw [hget] at hg
    cases hg
    refine ⟨hc.sound, fun w hw hid => ?_⟩
    have hsame := VnodeCounts.Sound.lookup hc.sound hw hid
    rw [hlook] at hsame
    cases hsame
    have hrcnt := hc.rcnt vn
    rw [Pi.single_eq_same] at hrcnt
    rw [hc.vnnum] at hin
    have hnonneg := (h.placed vn hin).rcnt
    have hless := hfit vn hin
    exact ⟨by omega, VnodeTable.lastSeen_of_le (by omega) (by omega)⟩
  · rw [hget] at hg
    cases hg
    exact absurd rfl he
  · rw [hget] at hg
    cases hg

/-- A mark does not keep the holder from giving his reference back. -/
theorem put_after_mark (h : Sound s)
    (hheld : ∀ w, Registered s w → idOf s w = (nsid, vnid) →
      0 < (s.vns w).rcnt ∧ LastSeen (s.vns w)) :
    ∃ e s', putVnode (removeVnode s nsid vnid).2 nsid vnid = .ok (e, s') := by
  have hsound := VnodeTable.markVnode_sound h true nsid vnid
  have hsame : ∀ w, ((removeVnode s nsid vnid).2.vns w).rcnt = (s.vns w).rcnt ∧
      ((removeVnode s nsid vnid).2.vns w).ns = (s.vns w).ns ∧
      idOf (removeVnode s nsid vnid).2 w = idOf s w := by
    intro w
    unfold removeVnode markVnode
    split
    · exact ⟨rfl, rfl, rfl⟩
    split
    · exact ⟨rfl, rfl, rfl⟩
    rename_i vn _ _
    by_cases hw : w = vn
    · subst hw
      simp [record, setVnode, idOf, nsidOf]
    · simp [record, setVnode, idOf, nsidOf, Function.update_of_ne hw]
  have hnum : (removeVnode s nsid vnid).2.vnnum = s.vnnum := by
    unfold removeVnode markVnode
    split
    · rfl
    · split <;> rfl
  have hpos : ∀ w, Registered (removeVnode s nsid vnid).2 w →
      idOf (removeVnode s nsid vnid).2 w = (nsid, vnid) →
      0 < ((removeVnode s nsid vnid).2.vns w).rcnt ∧
        LastSeen ((removeVnode s nsid vnid).2.vns w) := by
    intro w hw hid
    obtain ⟨hrcnt, hns, hids⟩ := hsame w
    rw [LastSeen, hrcnt]
    rw [hids] at hid
    refine hheld w ⟨?_, ?_⟩ hid
    · rw [← hnum]
      exact hw.1
    · rw [← hns]
      exact hw.2
  obtain ⟨e, s', hput, _⟩ := VnodeTable.putVnode_sound hsound hpos
  exact ⟨e, s', hput⟩

theorem failed_get (h : Sound s) (hrand : random ≤ SkipListSet.maxLevel) {e : ℤ} (he : e ≠ 0)
    (hget : getVnode s nsid vnid err data random = .ok (e, mi, s')) :
    ∀ w, (s'.vns w).rcnt = (s.vns w).rcnt := by
  rcases getVnode_change h nsid vnid err data hrand with
    ⟨d, s₁, vn, hg, _⟩ | ⟨e, d, s₁, _, hg, hc⟩ | ⟨hg, _⟩
  · rw [hget] at hg
    cases hg
    exact absurd rfl he
  · rw [hget] at hg
    cases hg
    intro w
    rw [hc.rcnt w, Pi.zero_apply, Int.add_zero]
  · rw [hget] at hg
    cases hg

end References

section Refusals
variable {σ : Type} {S : DirStream σ} {ns : Inodes σ} {vl vl' : Layer} {dir dir' : σ}
  {name : Name} {ret : ℤ}

theorem onDisk_ok {α : Type} {r : Except Halt α} {a : α} (h : onDisk r = .ok a) : r = .ok a := by
  cases r with
  | error e => cases h
  | ok b => cases h; rfl

theorem inLayer_ok {α : Type} {r : Except VnodeLayer.Halt α} {a : α} (h : inLayer r = .ok a) :
    r = .ok a := by
  cases r with
  | error e => cases h
  | ok b => cases h; rfl

theorem loadContents_unchanged {c : Buffer} (h : S.loadContents dir = .ok (ret, c, dir')) :
    Unchanged S dir dir' := by
  unfold DirStream.loadContents at h
  split at h
  · cases h
    exact .inl rfl
  · rename_i hnone
    generalize S.read dir (S.size dir).toNat = r at h
    cases r with
    | error e => cases h
    | ok r =>
      obtain ⟨ret', sz, buf⟩ := r
      dsimp only [Except.bind] at h
      split at h
      · split at h
        · cases h
          exact .inl rfl
        · cases h
      · cases h
        exact .inr ⟨hnone, _, rfl⟩

theorem dirLookup_unchanged {vnid : ℤ} (h : S.dirLookup dir name = .ok (ret, vnid, dir')) :
    Unchanged S dir dir' := by
  unfold DirStream.dirLookup at h
  generalize hload : S.loadContents dir = r at h
  cases r with
  | error e => cases h
  | ok r =>
    obtain ⟨ret', c, s⟩ := r
    have hsame := loadContents_unchanged hload
    dsimp only [Except.map] at h
    split at h
    · cases h
      exact hsame
    · split at h <;> cases h <;> exact hsame

/-- The three ways through the first half. -/
theorem getNamed_cases {act : Layer → σ → ℤ → ℕ → Except Stop (ℤ × σ × Layer)}
    (h : getNamed S ns vl dir name act = .ok (ret, dir', vl')) :
    (ret ≠ 0 ∧ vl' = vl ∧ ∃ vnid, S.dirLookup dir name = .ok (ret, vnid, dir')) ∨
    ∃ vnid dir₁, S.dirLookup dir name = .ok (0, vnid, dir₁) ∧
      ((ret ≠ 0 ∧ dir' = dir₁ ∧
          ∃ mi, getVnode vl ns.nsid vnid ns.err ns.data ns.random = .ok (ret, mi, vl')) ∨
        ∃ mi vl₁, getVnode vl ns.nsid vnid ns.err ns.data ns.random = .ok (0, mi, vl₁) ∧
          act vl₁ dir₁ vnid mi = .ok (ret, dir', vl')) := by
  unfold getNamed at h
  split at h
  · cases h
  generalize hlook : onDisk (S.dirLookup dir name) = r at h
  cases r with
  | error e => cases h
  | ok r =>
    obtain ⟨ret₁, vnid, dir₁⟩ := r
    have hlook := onDisk_ok hlook
    dsimp only [Except.bind] at h
    by_cases hret₁ : ret₁ = 0
    · subst hret₁
      rw [if_neg (by simp)] at h
      refine .inr ⟨vnid, dir₁, hlook, ?_⟩
      generalize hget : inLayer (getVnode vl ns.nsid vnid ns.err ns.data ns.random) = g at h
      cases g with
      | error e => cases h
      | ok g =>
        obtain ⟨ret₂, mi, vl₁⟩ := g
        have hget := inLayer_ok hget
        dsimp only at h
        by_cases hret₂ : ret₂ = 0
        · subst hret₂
          rw [if_neg (by simp)] at h
          exact .inr ⟨mi, vl₁, hget, h⟩
        · rw [if_pos hret₂] at h
          cases h
          exact .inl ⟨hret₂, rfl, mi, hget⟩
    · rw [if_pos hret₁] at h
      cases h
      exact .inl ⟨hret₁, rfl, vnid, hlook⟩

inductive Removal where
  | unlink | rmdir
  deriving DecidableEq, Repr

def Removal.run (call : Removal) (S : DirStream σ) (ns : Inodes σ) (vl : Layer) (dir : σ)
    (name : Name) : Except Stop (ℤ × σ × Layer) :=
  match call with
  | .unlink => myfsUnlink S ns vl dir name
  | .rmdir => myfsRmdir S ns vl dir name

/-- The kind and the size of the inode behind `mi` are what the call takes. -/
def Removal.Takes (call : Removal) (S : DirStream σ) (ns : Inodes σ) (mi : ℕ) : Prop :=
  match call with
  | .unlink => ns.isDir mi = false
  | .rmdir => ns.isDir mi = true ∧ S.size (ns.inode mi) ≤ mkdirBufsize

/-- The name is there, its vnode can be had, and the call takes it: what is left is `dir_delete`. -/
def Removal.ReachesDelete (call : Removal) (S : DirStream σ) (ns : Inodes σ) (vl : Layer) (dir : σ)
    (name : Name) : Prop :=
  ∃ vnid dir₁ mi vl₁, S.dirLookup dir name = .ok (0, vnid, dir₁) ∧
    getVnode vl ns.nsid vnid ns.err ns.data ns.random = .ok (0, mi, vl₁) ∧ call.Takes S ns mi

/-- The listing is as before, no vnode is newly marked, and all reference counts are the same. -/
structure Untouched (S : DirStream σ) (dir dir' : σ) (vl vl' : Layer) : Prop where
  listing : Unchanged S dir dir'
  marks : Unmarked vl vl'
  counts : ∀ w, (vl'.vns w).rcnt = (vl.vns w).rcnt

/-- How a call that returns got there. -/
theorem removal_cases {call : Removal} (h : call.run S ns vl dir name = .ok (ret, dir', vl')) :
    (ret ≠ 0 ∧ vl' = vl ∧ ∃ vnid, S.dirLookup dir name = .ok (ret, vnid, dir')) ∨
    ∃ vnid dir₁, S.dirLookup dir name = .ok (0, vnid, dir₁) ∧
      ((ret ≠ 0 ∧ dir' = dir₁ ∧
          ∃ mi, getVnode vl ns.nsid vnid ns.err ns.data ns.random = .ok (ret, mi, vl')) ∨
        ∃ mi vl₁, getVnode vl ns.nsid vnid ns.err ns.data ns.random = .ok (0, mi, vl₁) ∧
          ((call.Takes S ns mi ∧ deleteName S ns vl₁ dir₁ vnid name = .ok (ret, dir', vl')) ∨
            (¬call.Takes S ns mi ∧
              ∃ code, refuse ns code vl₁ dir₁ vnid = .ok (ret, dir', vl')))) := by
  cases call with
  | unlink =>
    change myfsUnlink S ns vl dir name = _ at h
    unfold myfsUnlink at h
    rcases getNamed_cases h with hlook | ⟨vnid, dir₁, hlook, hget | ⟨mi, vl₁, hget, hact⟩⟩
    · exact .inl hlook
    · exact .inr ⟨vnid, dir₁, hlook, .inl hget⟩
    · refine .inr ⟨vnid, dir₁, hlook, .inr ⟨mi, vl₁, hget, ?_⟩⟩
      by_cases hkind : ns.isDir mi = true
      · rw [if_pos hkind] at hact
        refine .inr ⟨fun ht => ?_, EISDIR, hact⟩
        change ns.isDir mi = false at ht
        rw [hkind] at ht
        cases ht
      · rw [if_neg hkind] at hact
        exact .inl ⟨Bool.eq_false_of_not_eq_true hkind, hact⟩
  | rmdir =>
    change myfsRmdir S ns vl dir name = _ at h
    unfold myfsRmdir at h
    rcases getNamed_cases h with hlook | ⟨vnid, dir₁, hlook, hget | ⟨mi, vl₁, hget, hact⟩⟩
    · exact .inl hlook
    · exact .inr ⟨vnid, dir₁, hlook, .inl hget⟩
    · refine .inr ⟨vnid, dir₁, hlook, .inr ⟨mi, vl₁, hget, ?_⟩⟩
      by_cases hkind : ns.isDir mi = true
      · rw [if_neg (not_not.2 hkind)] at hact
        by_cases hsize : mkdirBufsize < S.size (ns.inode mi)
        · rw [if_pos hsize] at hact
          exact .inr ⟨fun ht => absurd ht.2 (not_le.2 hsize), ENOTEMPTY, hact⟩
        · rw [if_neg hsize] at hact
          exact .inl ⟨⟨hkind, not_lt.1 hsize⟩, hact⟩
      · rw [if_pos hkind] at hact
        exact .inr ⟨fun ht => hkind ht.1, ENOTDIR, hact⟩

theorem refuse_ok {code vnid : ℤ} (h : refuse ns code vl dir vnid = .ok (ret, dir', vl')) :
    dir' = dir ∧ ∃ e, putVnode vl ns.nsid vnid = .ok (e, vl') := by
  unfold refuse at h
  generalize hput : inLayer (putVnode vl ns.nsid vnid) = r at h
  cases r with
  | error e => cases h
  | ok r =>
    obtain ⟨e, vl₁⟩ := r
    cases h
    exact ⟨rfl, e, inLayer_ok hput⟩

/-- `dir_delete` failed, and the reference is still there. -/
theorem deleteName_failed {vnid : ℤ} (h : deleteName S ns vl dir vnid name = .ok (ret, dir', vl'))
    (hret : ret ≠ 0) : vl' = vl := by
  unfold deleteName at h
  generalize onDisk (S.dirDelete dir name) = r at h
  cases r with
  | error e => cases h
  | ok r =>
    obtain ⟨ret₁, dir₁⟩ := r
    dsimp only [Except.bind] at h
    split at h
    · cases h
      rfl
    · generalize inLayer (putVnode _ ns.nsid vnid) = t at h
      cases t with
      | error e => cases h
      | ok t =>
        cases h
        exact absurd rfl hret

/-- A call that returns an error has left everything as it was, unless it had come as far as
`dir_delete`. -/
theorem refused_removal_iff (call : Removal) (hvl : Sound vl) (hfit : FitsInt vl)
    (hrand : ns.random ≤ SkipListSet.maxLevel)
    (h : call.run S ns vl dir name = .ok (ret, dir', vl')) (hret : ret ≠ 0) :
    Untouched S dir dir' vl vl' ↔ ¬call.ReachesDelete S ns vl dir name := by
  rcases removal_cases h with ⟨_, rfl, vnid, hlook⟩ | ⟨vnid, dir₁, hlook, hcases⟩
  · refine iff_of_true ⟨dirLookup_unchanged hlook, .refl _, fun _ => rfl⟩ ?_
    rintro ⟨vnid', dir₂, mi, vl₁, hlook', _⟩
    rw [hlook] at hlook'
    cases hlook'
    exact hret rfl
  have hsame := dirLookup_unchanged hlook
  have hunique : call.ReachesDelete S ns vl dir name ↔ ∃ mi vl₁,
      getVnode vl ns.nsid vnid ns.err ns.data ns.random = .ok (0, mi, vl₁) ∧
        call.Takes S ns mi := by
    constructor
    · rintro ⟨vnid', dir₂, mi, vl₁, hlook', hget, htakes⟩
      rw [hlook] at hlook'
      cases hlook'
      exact ⟨mi, vl₁, hget, htakes⟩
    · rintro ⟨mi, vl₁, hget, htakes⟩
      exact ⟨vnid, dir₁, mi, vl₁, hlook, hget, htakes⟩
  rw [hunique]
  rcases hcases with ⟨_, rfl, mi, hget⟩ | ⟨mi, vl₁, hget, ⟨htakes, hdel⟩ | ⟨hno, code, href⟩⟩
  · refine iff_of_true ⟨hsame, unmarked_get hget, failed_get hvl hrand hret hget⟩ ?_
    rintro ⟨mi', vl₁, hget', _⟩
    rw [hget] at hget'
    cases hget'
    exact hret rfl
  · refine iff_of_false (fun hun => ?_) (not_not.2 ⟨mi, vl₁, hget, htakes⟩)
    obtain ⟨⟨w, hw⟩, _⟩ := put_after_get hvl hfit hrand hget
    have hcount := hun.counts w
    rw [deleteName_failed hdel hret, hw] at hcount
    omega
  · obtain ⟨rfl, e, hput⟩ := refuse_ok href
    obtain ⟨_, vl₂, hput', _, hcounts⟩ := put_after_get hvl hfit hrand hget
    rw [hput] at hput'
    cases hput'
    refine iff_of_true ⟨hsame, (unmarked_get hget).trans (unmarked_put hput), hcounts⟩ ?_
    rintro ⟨mi', vl₃, hget', htakes⟩
    rw [hget] at hget'
    cases hget'
    exact hno htakes

/-- One directory, made with number 3 in a name space whose vnodes are not loaded yet. -/
def oneDirectory : Inodes ByteDir := ⟨1, fun _ => true, fun _ => madeDir, 0, 7, 0⟩

theorem oneSpace_sound : Sound VnodeTable.oneSpace :=
  VnodeTable.init_sound (by decide) _ fun _ => rfl

theorem oneSpace_fitsInt : FitsInt VnodeTable.oneSpace :=
  fun _ _ => show (0 : ℤ) < 2 ^ 31 by norm_num

/-- `rmdir(".")` in an empty directory is refused, and keeps a reference. -/
theorem rmdir_dot_leaks : ∃ ret dir' vl',
    Removal.rmdir.run byteStream oneDirectory VnodeTable.oneSpace madeDir [46] =
      .ok (ret, dir', vl') ∧ ret ≠ 0 ∧
      ¬Untouched byteStream madeDir dir' VnodeTable.oneSpace vl' := by
  have hrun : (Removal.rmdir.run byteStream oneDirectory VnodeTable.oneSpace madeDir [46]).map
      (fun r => (r.1, (r.2.2.vns 0).rcnt)) = .ok (22, 1) := by decide +kernel
  cases h : Removal.rmdir.run byteStream oneDirectory VnodeTable.oneSpace madeDir [46] with
  | error e =>
    rw [h] at hrun
    cases hrun
  | ok r =>
    obtain ⟨ret, dir', vl'⟩ := r
    rw [h] at hrun
    simp only [Except.map, Except.ok.injEq, Prod.mk.injEq] at hrun
    refine ⟨ret, dir', vl', rfl, by omega, fun hun => ?_⟩
    have hcount := hun.counts 0
    rw [hrun.2] at hcount
    cases hcount

theorem refused_removal_iff_unlink : ∃ ret dir' vl',
    Removal.unlink.run byteStream oneDirectory VnodeTable.oneSpace madeDir [46] =
      .ok (ret, dir', vl') ∧ ret ≠ 0 ∧
    (Untouched byteStream madeDir dir' VnodeTable.oneSpace vl' ↔
      ¬Removal.unlink.ReachesDelete byteStream oneDirectory VnodeTable.oneSpace madeDir [46]) := by
  have hrun : (Removal.unlink.run byteStream oneDirectory VnodeTable.oneSpace madeDir [46]).map
      Prod.fst = .ok 21 := by decide +kernel
  cases h : Removal.unlink.run byteStream oneDirectory VnodeTable.oneSpace madeDir [46] with
  | error e =>
    rw [h] at hrun
    cases hrun
  | ok r =>
    obtain ⟨ret, dir', vl'⟩ := r
    rw [h] at hrun
    simp only [Except.map, Except.ok.injEq] at hrun
    subst hrun
    exact ⟨21, dir', vl', rfl, by decide,
      refused_removal_iff .unlink oneSpace_sound oneSpace_fitsInt (by decide) h (by decide)⟩

end Refusals

section Emptiness
variable {σ : Type} {S : DirStream σ} {Holds : σ → ℕ → Buffer → Prop}

/-- The listing of a directory that has nothing but itself and its parent. -/
def JustDots (entries : List Entry) : Prop := ∃ self up, entries = [⟨self, [46]⟩, ⟨up, [46, 46]⟩]

/-- One more entry, with a name of at most six letters. -/
def OneShortName (entries : List Entry) : Prop :=
  ∃ self up e, entries = [⟨self, [46]⟩, ⟨up, [46, 46]⟩, e] ∧ e.name.length ≤ 6

theorem sum_sizes_ge (es : List Entry) (h : ∀ e ∈ es, 1 ≤ e.name.length) :
    16 * es.length ≤ (es.map Entry.size).sum := by
  induction es with
  | nil => simp
  | cons e es ih =>
    have hrest := ih fun x hx => h x (List.mem_cons_of_mem _ hx)
    have hone := h e List.mem_cons_self
    have hsize : 16 ≤ e.size := by
      unfold Entry.size nextMde
      omega
    simp only [List.map_cons, List.sum_cons, List.length_cons]
    omega

/-- What the comparison with `MKDIR_BUFSIZE` lets pass. -/
theorem size_le_iff (hS : ActsAsBytes S Holds) {s : σ} {es : List Entry} (h : Lists S Holds s es) :
    S.size s ≤ mkdirBufsize ↔ JustDots es ∨ OneShortName es := by
  obtain ⟨n, c, hholds, hpacked, _⟩ := h.stream
  obtain ⟨self, up, rest, rfl⟩ := h.dots
  rw [hS.size hholds, hpacked.sum_sizes]
  have hdots : ((⟨self, [46]⟩ : Entry) :: ⟨up, [46, 46]⟩ :: rest).map Entry.size =
      16 :: 16 :: rest.map Entry.size := by
    simp [Entry.size, nextMde]
  have hbuf : mkdirBufsize = 48 := rfl
  rw [hdots, hbuf]
  simp only [List.sum_cons]
  have hnames : ∀ e ∈ rest, 1 ≤ e.name.length := fun e he =>
    (h.storable e (List.mem_cons_of_mem _ (List.mem_cons_of_mem _ he))).nonempty
  constructor
  · intro hle
    have hmin := sum_sizes_ge rest hnames
    rcases rest with _ | ⟨e, _ | ⟨e', rest⟩⟩
    · exact .inl ⟨self, up, rfl⟩
    · refine .inr ⟨self, up, e, rfl, ?_⟩
      simp only [List.map_cons, List.map_nil, List.sum_cons, List.sum_nil, Entry.size,
        nextMde] at hle
      omega
    · simp only [List.length_cons] at hmin
      omega
  · rintro (⟨_, _, heq⟩ | ⟨_, _, e, heq, hlen⟩)
    · simp only [List.cons.injEq] at heq
      rw [heq.2.2]
      decide
    · simp only [List.cons.injEq] at heq
      rw [heq.2.2]
      simp only [List.map_cons, List.map_nil, List.sum_cons, List.sum_nil, Entry.size, nextMde]
      omega

/-- The call on the name of a directory in its parent. -/
theorem rmdir_found (hS : ActsAsBytes S Holds) {ns : Inodes σ} {vl vl₁ : Layer} {parent : σ}
    {ps : List Entry} (hp : Lists S Holds parent ps) {e : Entry} (he : e ∈ ps) {mi : ℕ}
    (hget : getVnode vl ns.nsid e.inum ns.err ns.data ns.random = .ok (0, mi, vl₁))
    (hdir : ns.isDir mi = true) :
    ∃ p', Unchanged S parent p' ∧ Lists S Holds p' ps ∧ myfsRmdir S ns vl parent e.name =
      if mkdirBufsize < S.size (ns.inode mi) then refuse ns ENOTEMPTY vl₁ p' e.inum
      else deleteName S ns vl₁ p' e.inum e.name := by
  have hstring := (hp.storable e he).string
  obtain ⟨p', hlook, hsame, hlists⟩ := (lookup_meets hS hstring ps hp).1 e he rfl
  refine ⟨p', hsame, hlists, ?_⟩
  obtain ⟨n, c, hholds, _⟩ := hp.stream
  have hsize := hS.size hholds
  rw [myfsRmdir, getNamed, if_neg (by omega), hlook]
  dsimp only [onDisk, Except.mapError, Except.bind]
  rw [if_neg (by simp), hget]
  dsimp only [inLayer, Except.mapError]
  rw [if_neg (by simp), if_neg (not_not.2 hdir)]

/-- A name that gets to `dir_delete` is deleted, or refused because it is one of the dots. -/
theorem deleteName_ends (hS : ActsAsBytes S Holds) {ns : Inodes σ} {vl : Layer} {parent : σ}
    {ps : List Entry} (hp : Lists S Holds parent ps) {e : Entry} (he : e ∈ ps) (hvl : Sound vl)
    (hheld : ∀ w, Registered vl w → idOf vl w = (ns.nsid, e.inum) →
      0 < (vl.vns w).rcnt ∧ LastSeen (vl.vns w)) :
    ∃ ret p' vl', deleteName S ns vl parent e.inum e.name = .ok (ret, p', vl') ∧
      ret ≠ ENOTEMPTY := by
  have hstring := (hp.storable e he).string
  obtain ⟨hdots, _, hthere⟩ := delete_meets hS hstring ps hp
  by_cases hname : e.name = [46] ∨ e.name = [46, 46]
  · refine ⟨BlockBitmap.EINVAL, parent, vl, ?_, by decide⟩
    rw [deleteName, hdots hname]
    rfl
  · obtain ⟨p', hdel, _⟩ := hthere e he rfl (fun h => hname (.inl h)) fun h => hname (.inr h)
    obtain ⟨err, vl', hput⟩ := put_after_mark hvl hheld
    refine ⟨0, p', vl', ?_, by decide⟩
    rw [deleteName, hdel]
    dsimp only [onDisk, Except.mapError, Except.bind]
    rw [if_neg (by simp), hput]
    rfl

/-- Only empty directories get past the check, and the others are refused with nothing
changed. -/
structure OnlyEmpty (S : DirStream σ) (ns : Inodes σ) (vl : Layer) (parent : σ) (name : Name)
    (entries : List Entry) : Prop where
  passes : (∃ ret p' vl', myfsRmdir S ns vl parent name = .ok (ret, p', vl') ∧ ret ≠ ENOTEMPTY) ↔
    JustDots entries
  kept : ¬JustDots entries → ∃ p' vl', myfsRmdir S ns vl parent name = .ok (ENOTEMPTY, p', vl') ∧
    Unchanged S parent p'

theorem oneShortName_not_dots {entries : List Entry} (h : OneShortName entries) :
    ¬JustDots entries := by
  obtain ⟨_, _, e, rfl, _⟩ := h
  rintro ⟨_, _, heq⟩
  simp at heq

/-- A directory built by `make_dir` and any insertions and deletions, under any name in its
parent: the check does what it should unless the directory has just one more entry, whose
name has at most six letters. -/
theorem rmdir_only_empty_iff (ns : Inodes σ) (hS : ActsAsBytes S Holds) {s₀ s : σ} {c : Buffer}
    {inum parentInum : ℤ} {stack : Buffer} (hnew : Holds s₀ 0 c) (hcont : S.contents s₀ = none)
    (h₁ : -2 ^ 63 ≤ inum ∧ inum < 2 ^ 63) (h₂ : -2 ^ 63 ≤ parentInum ∧ parentInum < 2 ^ 63)
    (hmake : S.makeDir s₀ inum parentInum stack = .ok (0, s)) (events : List Event)
    (hrun : EveryStep (next S) (Enabled S) s events)
    {vl vl₁ : Layer} {parent : σ} {ps : List Entry} (hp : Lists S Holds parent ps)
    {e : Entry} (he : e ∈ ps) (hvl : Sound vl) (hfit : FitsInt vl)
    (hrand : ns.random ≤ SkipListSet.maxLevel) {mi : ℕ}
    (hget : getVnode vl ns.nsid e.inum ns.err ns.data ns.random = .ok (0, mi, vl₁))
    (hdir : ns.isDir mi = true) (hinode : ns.inode mi = runTrace (next S) s events) :
    (∃ entries, Lists S Holds (runTrace (next S) s events) entries) ∧
    ∀ entries, Lists S Holds (runTrace (next S) s events) entries →
      (OnlyEmpty S ns vl parent e.name entries ↔ ¬OneShortName entries) := by
  have hstart := makeDir_lists hS hnew hcont h₁ h₂ hmake
  have hevery : EveryState (next S) (fun s => ∃ entries, Lists S Holds s entries) s events := by
    refine everyState_of_step ?_ ⟨_, hstart⟩ hrun
    exact fun s e hs he => next_lists hS he hs
  have hlast : ∃ entries, Lists S Holds (runTrace (next S) s events) entries := hevery.last
  refine ⟨hlast, fun entries hlists => ?_⟩
  have hsize := size_le_iff hS hlists
  obtain ⟨p', hsame, hlists', hcall⟩ := rmdir_found hS hp he hget hdir
  rw [hinode] at hcall
  obtain ⟨hsound, hheld⟩ := got_held hvl hfit hrand hget
  obtain ⟨_, vl₂, hput, _⟩ := put_after_get hvl hfit hrand hget
  have hrefused : refuse ns ENOTEMPTY vl₁ p' e.inum = .ok (ENOTEMPTY, p', vl₂) := by
    rw [refuse, hput]
    rfl
  have hpast : (∃ ret p' vl', myfsRmdir S ns vl parent e.name = .ok (ret, p', vl') ∧
      ret ≠ ENOTEMPTY) ↔ JustDots entries ∨ OneShortName entries := by
    rw [← hsize, hcall]
    constructor
    · rintro ⟨ret, p₂, vl', hret, hne⟩
      by_contra hlarge
      rw [if_pos (by omega), hrefused] at hret
      cases hret
      exact hne rfl
    · intro hsmall
      rw [if_neg (by omega)]
      exact deleteName_ends hS hlists' he hsound hheld
  constructor
  · intro h hshort
    exact oneShortName_not_dots hshort (h.passes.1 (hpast.2 (.inr hshort)))
  · intro hno
    refine ⟨hpast.trans (or_iff_left hno), fun hdots => ⟨p', vl₂, ?_, hsame⟩⟩
    have hlarge : ¬(S.size (runTrace (next S) s events) ≤ mkdirBufsize) := fun h =>
      (hsize.1 h).elim hdots hno
    rw [hcall, if_pos (by omega), hrefused]

section Example

abbrev BytesHold (s : ByteDir) (n : ℕ) (c : Buffer) : Prop := s.size = n ∧ s.bytes = c

/-- Directory 3 with the file `b` in it. -/
def withFile : ByteDir := next byteStream madeDir (.insert [98] 5 (fun _ => 9))

/-- Directory 2, the root. -/
def madeRoot : ByteDir :=
  ⟨32, fun i => if i < 32 then newDirBytes 2 2 (fun _ => 7) i else 0, none, 0⟩

/-- The root with directory 3 in it, under the name `a`. -/
def parentDir : ByteDir := next byteStream madeRoot (.insert [97] 3 (fun _ => 9))

/-- The vnodes are read in, and directory 3 is what is behind them. -/
def directoryThree : Inodes ByteDir := ⟨1, fun _ => true, fun _ => withFile, 0, 7, 0⟩

theorem madeDir_made : byteStream.makeDir emptyDir 3 2 (fun _ => 7) = .ok (0, madeDir) := rfl

theorem madeDir_lists : Lists byteStream BytesHold madeDir [⟨3, [46]⟩, ⟨2, [46, 46]⟩] :=
  makeDir_lists byteStream_acts (c := fun _ => 0) ⟨rfl, rfl⟩ rfl (by decide) (by decide)
    madeDir_made

theorem madeRoot_lists : Lists byteStream BytesHold madeRoot [⟨2, [46]⟩, ⟨2, [46, 46]⟩] :=
  makeDir_lists byteStream_acts (c := fun _ => 0) ⟨rfl, rfl⟩ rfl (by decide) (by decide)
    (show byteStream.makeDir emptyDir 2 2 (fun _ => 7) = .ok (0, madeRoot) from rfl)

theorem inserted_lists {s : ByteDir} {es : List Entry} {name : Name} {inum : ℤ}
    (hs : Lists byteStream BytesHold s es)
    (h : Enabled byteStream s (.insert name inum (fun _ => 9))) :
    Lists byteStream BytesHold (next byteStream s (.insert name inum (fun _ => 9)))
      (es ++ [⟨inum, name⟩]) := by
  obtain ⟨s', hins, hlists⟩ := insert_meets byteStream_acts h _ hs
  rw [DirectoryMap.next, hins]
  exact hlists

theorem withFile_enabled : Enabled byteStream madeDir (.insert [98] 5 (fun _ => 9)) :=
  ⟨by decide +kernel, 0, _, rfl⟩

theorem parentDir_enabled : Enabled byteStream madeRoot (.insert [97] 3 (fun _ => 9)) :=
  ⟨by decide +kernel, 0, _, rfl⟩

/-- `rmdir` removes a directory with a file in it. -/
theorem rmdir_takes_file : ∃ entries, Lists byteStream BytesHold withFile entries ∧
    ¬OnlyEmpty byteStream directoryThree VnodeTable.oneSpace parentDir [97] entries := by
  refine ⟨_, inserted_lists madeDir_lists withFile_enabled, fun h => ?_⟩
  have hrun : (myfsRmdir byteStream directoryThree VnodeTable.oneSpace parentDir [97]).map
      Prod.fst = .ok 0 := by decide +kernel
  cases hcall : myfsRmdir byteStream directoryThree VnodeTable.oneSpace parentDir [97] with
  | error e =>
    rw [hcall] at hrun
    cases hrun
  | ok r =>
    obtain ⟨ret, p', vl'⟩ := r
    rw [hcall] at hrun
    simp only [Except.map, Except.ok.injEq] at hrun
    obtain ⟨_, _, heq⟩ := h.passes.1 ⟨ret, p', vl', hcall, by rw [hrun]; decide⟩
    simp at heq

theorem rmdir_only_empty_iff_withFile :
    OnlyEmpty byteStream directoryThree VnodeTable.oneSpace parentDir [97]
        [⟨3, [46]⟩, ⟨2, [46, 46]⟩, ⟨5, [98]⟩] ↔
      ¬OneShortName [⟨3, [46]⟩, ⟨2, [46, 46]⟩, ⟨5, [98]⟩] := by
  have hgot : (getVnode VnodeTable.oneSpace 1 3 0 7 0).map (fun r => (r.1, r.2.1)) =
      .ok (0, 7) := by
    decide +kernel
  cases hget : getVnode VnodeTable.oneSpace 1 3 0 7 0 with
  | error e =>
    rw [hget] at hgot
    cases hgot
  | ok r =>
    obtain ⟨err, mi, vl₁⟩ := r
    rw [hget] at hgot
    simp only [Except.map, Except.ok.injEq, Prod.mk.injEq] at hgot
    obtain ⟨rfl, rfl⟩ := hgot
    have hparent : Lists byteStream BytesHold parentDir [⟨2, [46]⟩, ⟨2, [46, 46]⟩, ⟨3, [97]⟩] :=
      inserted_lists madeRoot_lists parentDir_enabled
    have hmem : (⟨3, [97]⟩ : Entry) ∈ [⟨2, [46]⟩, ⟨2, [46, 46]⟩, ⟨3, [97]⟩] := by simp
    exact (rmdir_only_empty_iff directoryThree byteStream_acts (c := fun _ => 0) ⟨rfl, rfl⟩
      rfl (by decide) (by decide) madeDir_made [.insert [98] 5 (fun _ => 9)]
        ⟨withFile_enabled, trivial⟩
      hparent hmem oneSpace_sound oneSpace_fitsInt (by decide) hget rfl rfl).2 _
      (inserted_lists madeDir_lists withFile_enabled)

end Example

end Emptiness

end NameRemoval
