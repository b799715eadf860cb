import Mathlib.Tactic
import FsKit.PathWalk

/-! The system calls on paths (`kernel.c`). What a call passes on to a hook and gets from it,
beside the error, is left out. -/
namespace PathCalls

open FallibleRuns VnodeLayer VnodeTable VnodeCounts PathWalk

abbrev Returned := Except Stop (ℤ × Kernel)

/-- The calls on one file resolve the path, call a hook and drop the vnode. -/
def fileCall (op : Op) (eatsymlink : Bool) (value : ℤ) (k : Kernel) (kernel : Bool) (fd : ℤ)
    (path : Option Path) (reply : Reply) : Returned :=
  (getFileFd k kernel fd path eatsymlink).bind fun (res, k) =>
    match res with
    | .error err => .ok (err, k)
    | .ok vn =>
      (callOp k vn op reply).bind fun (err, k) =>
        (PathWalk.decVnode k vn false).map fun k => (if err ≠ 0 then err else value, k)

def sysAccess : Kernel → Bool → ℤ → Option Path → Reply → Returned := fileCall .access true 0

/-- A success returns the length that the hook has set. -/
def sysReadlink (sz : ℕ) : Kernel → Bool → ℤ → Option Path → Reply → Returned :=
  fileCall .readlink false sz

def sysRstat (eatlink : Bool) : Kernel → Bool → ℤ → Option Path → Reply → Returned :=
  fileCall .rstat eatlink 0

def sysWstat (eatlink : Bool) : Kernel → Bool → ℤ → Option Path → Reply → Returned :=
  fileCall .wstat eatlink 0

/-- The calls on a name in a directory. -/
def dirCall (op : Op) (k : Kernel) (kernel : Bool) (fd : ℤ) (path : Option Path) (reply : Reply) :
    Returned :=
  (getDirFd k kernel fd path).bind fun (res, k) =>
    match res with
    | .error err => .ok (err, k)
    | .ok dvn =>
      (callOp k dvn op reply).bind fun (err, k) =>
        (PathWalk.decVnode k dvn false).map fun k => (err, k)

def sysMkdir : Kernel → Bool → ℤ → Option Path → Reply → Returned := dirCall .mkdir

def sysUnlink : Kernel → Bool → ℤ → Option Path → Reply → Returned := dirCall .unlink

def sysRmdir : Kernel → Bool → ℤ → Option Path → Reply → Returned := dirCall .rmdir

def sysSymlink (k : Kernel) (kernel : Bool) (oldpath : Option Path) (nfd : ℤ)
    (newpath : Option Path) (reply : Reply) : Returned :=
  (getDirFd k kernel nfd newpath).bind fun (res, k) =>
    match res with
    | .error err => .ok (err, k)
    | .ok dvn =>
      match newPath oldpath with
      | .error err => (PathWalk.decVnode k dvn false).map fun k => (err, k)
      | .ok _ =>
        (callOp k dvn .symlink reply).bind fun (err, k) =>
          (PathWalk.decVnode k dvn false).map fun k => (err, k)

def sysLink (k : Kernel) (kernel : Bool) (ofd : ℤ) (oldpath : Option Path) (nfd : ℤ)
    (newpath : Option Path) (reply : Reply) : Returned :=
  (getFileFd k kernel ofd oldpath true).bind fun (res, k) =>
    match res with
    | .error err => .ok (err, k)
    | .ok vn =>
      (getDirFd k kernel nfd newpath).bind fun (res, k) =>
        match res with
        | .error err => (PathWalk.decVnode k vn false).map fun k => (err, k)
        | .ok dvn =>
          let result : Returned :=
            if (k.layer.vns vn).ns ≠ (k.layer.vns dvn).ns then .ok (EXDEV, k)
            else callOp k dvn .link reply
          result.bind fun (err, k) =>
            (PathWalk.decVnode k dvn false).bind fun k =>
              (PathWalk.decVnode k vn false).map fun k => (err, k)

/-- Between different name spaces the call leaves through `error2`. -/
def sysRename (k : Kernel) (kernel : Bool) (ofd : ℤ) (oldpath : Option Path) (nfd : ℤ)
    (newpath : Option Path) (reply : Reply) : Returned :=
  (getDirFd k kernel ofd oldpath).bind fun (res, k) =>
    match res with
    | .error err => .ok (err, k)
    | .ok odvn =>
      (getDirFd k kernel nfd newpath).bind fun (res, k) =>
        match res with
        | .error err => (PathWalk.decVnode k odvn false).map fun k => (err, k)
        | .ok ndvn =>
          if (k.layer.vns odvn).ns ≠ (k.layer.vns ndvn).ns then
            (PathWalk.decVnode k odvn false).map fun k => (EXDEV, k)
          else
            (callOp k odvn .rename reply).bind fun (err, k) =>
              if err ≠ 0 then
                (PathWalk.decVnode k ndvn false).bind fun k =>
                  (PathWalk.decVnode k odvn false).map fun k => (err, k)
              else
                (PathWalk.decVnode k odvn false).bind fun k =>
                  (PathWalk.decVnode k ndvn false).map fun k => (0, k)

inductive PathCall where
  | access (kernel : Bool) (fd : ℤ) (path : Option Path)
  | symlink (kernel : Bool) (oldpath : Option Path) (nfd : ℤ) (newpath : Option Path)
  | readlink (kernel : Bool) (fd : ℤ) (path : Option Path) (sz : ℕ)
  | mkdir (kernel : Bool) (fd : ℤ) (path : Option Path)
  | link (kernel : Bool) (ofd : ℤ) (oldpath : Option Path) (nfd : ℤ) (newpath : Option Path)
  | unlink (kernel : Bool) (fd : ℤ) (path : Option Path)
  | rmdir (kernel : Bool) (fd : ℤ) (path : Option Path)
  | rename (kernel : Bool) (ofd : ℤ) (oldpath : Option Path) (nfd : ℤ) (newpath : Option Path)
  | rstat (kernel : Bool) (fd : ℤ) (path : Option Path) (eatlink : Bool)
  | wstat (kernel : Bool) (fd : ℤ) (path : Option Path) (eatlink : Bool)

def exec (k : Kernel) (reply : Reply) : PathCall → Returned
  | .access kernel fd path => sysAccess k kernel fd path reply
  | .symlink kernel oldpath nfd newpath => sysSymlink k kernel oldpath nfd newpath reply
  | .readlink kernel fd path sz => sysReadlink sz k kernel fd path reply
  | .mkdir kernel fd path => sysMkdir k kernel fd path reply
  | .link kernel ofd oldpath nfd newpath => sysLink k kernel ofd oldpath nfd newpath reply
  | .unlink kernel fd path => sysUnlink k kernel fd path reply
  | .rmdir kernel fd path => sysRmdir k kernel fd path reply
  | .rename kernel ofd oldpath nfd newpath => sysRename k kernel ofd oldpath nfd newpath reply
  | .rstat kernel fd path eatlink => sysRstat eatlink k kernel fd path reply
  | .wstat kernel fd path eatlink => sysWstat eatlink k kernel fd path reply

/-- The path whose directory is looked up is a null pointer. -/
def PathCall.nullDir : PathCall → Bool
  | .symlink _ _ _ newpath => newpath.isNone
  | .mkdir _ _ path => path.isNone
  | .link _ _ _ _ newpath => newpath.isNone
  | .unlink _ _ path => path.isNone
  | .rmdir _ _ path => path.isNone
  | .rename _ _ oldpath _ newpath => oldpath.isNone || newpath.isNone
  | _ => false

/-- What keeps a call from returning: a table without a vnode left, or a null pointer where a
directory is looked up. -/
def Crash (c : PathCall) (e : Stop) : Prop :=
  e = .outOfVnodes ∨ e = .nullPointer ∧ c.nullDir = true

section Calls
variable {S : Stop → Prop} {k₀ k : Kernel} {held : List ℕ}

theorem fileCall_ends (hS : S .outOfVnodes) (h : Holding k₀ k held) (h₀ : Ready k₀)
    (hfew : Few k₀ held) (op : Op) (eatsymlink : Bool) (value : ℤ) (kernel : Bool) (fd : ℤ)
    (path : Option Path) (reply : Reply) :
    Ends S (fun r => Holding k₀ r.2 held)
      (fileCall op eatsymlink value k kernel fd path reply) := by
  unfold fileCall
  refine (getFileFd_ends hS h h₀ hfew kernel fd path eatsymlink).bind fun r hr => ?_
  obtain ⟨_ | vn, k₁⟩ := r
  · exact hr.2
  · refine (callOp_ends hr List.mem_cons_self op reply).bind fun r hr => ?_
    exact dec_then hr h₀ hfew.lt fun k' h' => h'

theorem dirCall_ends (hS : S .outOfVnodes) {path : Option Path}
    (hnull : path = none → S .nullPointer) (h : Holding k₀ k held) (h₀ : Ready k₀)
    (hfew : Few k₀ held) (op : Op) (kernel : Bool) (fd : ℤ) (reply : Reply) :
    Ends S (fun r => Holding k₀ r.2 held) (dirCall op k kernel fd path reply) := by
  unfold dirCall
  refine (getDirFd_ends hS hnull h h₀ hfew kernel fd).bind fun r hr => ?_
  obtain ⟨_ | dvn, k₁⟩ := r
  · exact hr.2
  · refine (callOp_ends hr List.mem_cons_self op reply).bind fun r hr => ?_
    exact dec_then hr h₀ hfew.lt fun k' h' => h'

theorem sysSymlink_ends (hS : S .outOfVnodes) {newpath : Option Path}
    (hnull : newpath = none → S .nullPointer) (h : Holding k₀ k held) (h₀ : Ready k₀)
    (hfew : Few k₀ held) (kernel : Bool) (oldpath : Option Path) (nfd : ℤ) (reply : Reply) :
    Ends S (fun r => Holding k₀ r.2 held) (sysSymlink k kernel oldpath nfd newpath reply) := by
  unfold sysSymlink
  refine (getDirFd_ends hS hnull h h₀ hfew kernel nfd).bind fun r hr => ?_
  obtain ⟨_ | dvn, k₁⟩ := r
  · exact hr.2
  dsimp only
  split
  · exact dec_then hr h₀ hfew.lt fun k' h' => h'
  · refine (callOp_ends hr List.mem_cons_self .symlink reply).bind fun r hr => ?_
    exact dec_then hr h₀ hfew.lt fun k' h' => h'

theorem sysLink_ends (hS : S .outOfVnodes) {newpath : Option Path}
    (hnull : newpath = none → S .nullPointer) (h₀ : Ready k)
    (kernel : Bool) (ofd : ℤ) (oldpath : Option Path) (nfd : ℤ) (reply : Reply) :
    Ends S (fun r => Holding k r.2 [])
      (sysLink k kernel ofd oldpath nfd newpath reply) := by
  unfold sysLink
  refine (getFileFd_ends hS h₀.holding h₀ h₀.few_nil kernel ofd oldpath true).bind fun r hr => ?_
  obtain ⟨_ | vn, k₁⟩ := r
  · exact hr.2
  refine (getDirFd_ends hS hnull hr h₀ (h₀.few_one vn) kernel nfd).bind fun r hr => ?_
  obtain ⟨_ | dvn, k₂⟩ := r
  · exact dec_then hr.2 h₀ h₀.few_nil.lt fun k' h' => h'
  have hresult : Ends S (fun r => Holding k r.2 [dvn, vn])
      (if (k₂.layer.vns vn).ns ≠ (k₂.layer.vns dvn).ns then .ok (EXDEV, k₂)
        else callOp k₂ dvn .link reply) := by
    split
    · exact hr
    · exact callOp_ends hr List.mem_cons_self .link reply
  refine hresult.bind fun r hr => ?_
  exact dec_bind hr h₀ (h₀.few_one vn).lt fun k' h' => dec_then h' h₀ h₀.few_nil.lt fun k' h' => h'

end Calls

/-- The two directories of a rename are found, in different name spaces. -/
def CrossesSpaces (k : Kernel) : PathCall → Prop
  | .rename kernel ofd oldpath nfd newpath => ∃ odvn k₁ ndvn k₂,
      getDirFd k kernel ofd oldpath = .ok (.ok odvn, k₁) ∧
      getDirFd k₁ kernel nfd newpath = .ok (.ok ndvn, k₂) ∧
      (k₂.layer.vns odvn).ns ≠ (k₂.layer.vns ndvn).ns
  | _ => False

section Rename
variable {S : Stop → Prop} {k : Kernel} {kernel : Bool} {ofd nfd : ℤ}
  {oldpath newpath : Option Path}

theorem sysRename_ends (hS : S .outOfVnodes) (h₀ : Ready k)
    (hnull : oldpath = none ∨ newpath = none → S .nullPointer)
    (hno : ¬ CrossesSpaces k (.rename kernel ofd oldpath nfd newpath)) (reply : Reply) :
    Ends S (fun r => Holding k r.2 []) (sysRename k kernel ofd oldpath nfd newpath reply) := by
  unfold sysRename
  have hfirst := getDirFd_ends hS (fun h => hnull (.inl h)) h₀.holding h₀ h₀.few_nil kernel ofd
  rcases hold : getDirFd k kernel ofd oldpath with e | ⟨_ | odvn, k₁⟩ <;> rw [hold] at hfirst
  · exact hfirst
  · exact hfirst.2
  dsimp only [Except.bind]
  have hsecond := getDirFd_ends hS (fun h => hnull (.inr h)) hfirst h₀ (h₀.few_one odvn) kernel nfd
  rcases hnew : getDirFd k₁ kernel nfd newpath with e | ⟨_ | ndvn, k₂⟩ <;> rw [hnew] at hsecond
  · exact hsecond
  · exact dec_then hsecond.2 h₀ h₀.few_nil.lt fun k' h' => h'
  dsimp only
  rw [if_neg fun hne => hno ⟨odvn, k₁, ndvn, k₂, hold, hnew, hne⟩]
  refine (callOp_ends hsecond (by simp) .rename reply).bind fun r hr => ?_
  obtain ⟨err, k₃⟩ := r
  dsimp only
  split
  · exact dec_bind hr h₀ (h₀.few_one odvn).lt fun k' h' =>
      dec_then h' h₀ h₀.few_nil.lt fun k' h' => h'
  · refine dec_bind (hr.perm (List.Perm.swap odvn ndvn [])) h₀ (h₀.few_one ndvn).lt fun k' h' => ?_
    exact dec_then h' h₀ h₀.few_nil.lt fun k' h' => h'

/-- A rename across name spaces keeps its reference to the new directory. -/
theorem sysRename_leaks (h₀ : Ready k)
    (h : CrossesSpaces k (.rename kernel ofd oldpath nfd newpath)) (reply : Reply) :
    ∃ ndvn k', sysRename k kernel ofd oldpath nfd newpath reply = .ok (EXDEV, k') ∧
      Holding k k' [ndvn] := by
  obtain ⟨odvn, k₁, ndvn, k₂, hold, hnew, hne⟩ := h
  have hany : ∀ p : Option Path, p = none → (fun _ => True) Stop.nullPointer := fun _ _ => trivial
  have h₁ : Holding k k₁ [odvn] :=
    (getDirFd_ends (S := fun _ => True) trivial (hany _) h₀.holding h₀ h₀.few_nil kernel
      ofd).of_ok hold
  have h₂ : Holding k k₂ [ndvn, odvn] :=
    (getDirFd_ends (S := fun _ => True) trivial (hany _) h₁ h₀ (h₀.few_one odvn) kernel
      nfd).of_ok hnew
  obtain ⟨k₃, hdec, h₃⟩ :=
    (h₂.perm (List.Perm.swap odvn ndvn [])).decVnode h₀ (h₀.few_one ndvn).lt false
  refine ⟨ndvn, k₃, ?_, h₃⟩
  unfold sysRename
  rw [hold]
  dsimp only [Except.bind]
  rw [hnew]
  dsimp only
  rw [if_pos hne, hdec]
  rfl

end Rename

/-- The call returns with the counts of all vnodes as they were, or it crashes. -/
def KeepsCounts (k : Kernel) (reply : Reply) (c : PathCall) : Prop :=
  Ends (Crash c) (fun r => ∀ w, (r.2.layer.vns w).rcnt = (k.layer.vns w).rcnt) (exec k reply c)

theorem exec_ends {k : Kernel} (h₀ : Ready k) {c : PathCall} (hno : ¬ CrossesSpaces k c)
    (reply : Reply) : Ends (Crash c) (fun r => Holding k r.2 []) (exec k reply c) := by
  have hS : Crash c .outOfVnodes := .inl rfl
  cases c with
  | access kernel fd path => exact fileCall_ends hS h₀.holding h₀ h₀.few_nil _ _ _ _ _ _ _
  | symlink kernel oldpath nfd newpath =>
    refine sysSymlink_ends hS (fun h => .inr ⟨rfl, ?_⟩) h₀.holding h₀ h₀.few_nil _ _ _ _
    rw [h]
    rfl
  | readlink kernel fd path sz => exact fileCall_ends hS h₀.holding h₀ h₀.few_nil _ _ _ _ _ _ _
  | mkdir kernel fd path =>
    refine dirCall_ends hS (fun h => .inr ⟨rfl, ?_⟩) h₀.holding h₀ h₀.few_nil _ _ _ _
    rw [h]
    rfl
  | link kernel ofd oldpath nfd newpath =>
    refine sysLink_ends hS (fun h => .inr ⟨rfl, ?_⟩) h₀ _ _ _ _ _
    rw [h]
    rfl
  | unlink kernel fd path =>
    refine dirCall_ends hS (fun h => .inr ⟨rfl, ?_⟩) h₀.holding h₀ h₀.few_nil _ _ _ _
    rw [h]
    rfl
  | rmdir kernel fd path =>
    refine dirCall_ends hS (fun h => .inr ⟨rfl, ?_⟩) h₀.holding h₀ h₀.few_nil _ _ _ _
    rw [h]
    rfl
  | rename kernel ofd oldpath nfd newpath =>
    refine sysRename_ends hS h₀ (fun h => .inr ⟨rfl, ?_⟩) hno reply
    rcases h with h | h <;> simp [PathCall.nullDir, h]
  | rstat kernel fd path eatlink => exact fileCall_ends hS h₀.holding h₀ h₀.few_nil _ _ _ _ _ _ _
  | wstat kernel fd path eatlink => exact fileCall_ends hS h₀.holding h₀ h₀.few_nil _ _ _ _ _ _ _

/-- The calls keep the counts, whatever the hooks answer, but for a rename between two
directories of different name spaces. -/
theorem path_calls_keep_counts_iff {k : Kernel} (h₀ : Ready k) (reply : Reply) (c : PathCall) :
    KeepsCounts k reply c ↔ ¬ CrossesSpaces k c := by
  constructor
  · intro hkeep hcross
    cases c with
    | rename kernel ofd oldpath nfd newpath =>
      obtain ⟨ndvn, k', hexec, h'⟩ := sysRename_leaks h₀ hcross reply
      have hsame := hkeep.of_ok hexec ndvn
      rw [h'.refs.rcnt ndvn] at hsame
      simp at hsame
    | _ => exact hcross
  · exact fun hno => (exec_ends h₀ hno reply).mono fun r hr => hr.refs.rcnt_eq

/-- Every component is the root of the file system. -/
def selfAnswers : List Answer := [.found 1 0 0 0]

/-- `access("/.")` in a kernel with two name spaces. -/
theorem path_calls_keep_counts_access :
    KeepsCounts (mountedKernel selfAnswers) ⟨idle, 0⟩ (.access true (-1) (some [47, 46])) :=
  (path_calls_keep_counts_iff (mountedKernel_ready _) _ _).mpr id

/-- What the hooks answer for the paths `/a` and `/m/b`, where `m` is the mount point. -/
def crossAnswers : List Answer := [.found 1 0 0 0, .found 2 0 0 0, .found 1 0 0 0]

/-- `rename("/a", "/m/b")` returns `EXDEV` and leaves a reference to the root of what is
mounted on `m`. -/
theorem rename_across_spaces_leaks :
    Ready (mountedKernel crossAnswers) ∧
      ((exec (mountedKernel crossAnswers) ⟨idle, 0⟩
        (.rename true (-1) (some [47, 97]) (-1) (some [47, 109, 47, 98]))).toOption.map fun r =>
        (r.1, (r.2.layer.vns 2).rcnt)) = some (EXDEV, 2) ∧
      ((mountedKernel crossAnswers).layer.vns 2).rcnt = 1 ∧
      ¬ KeepsCounts (mountedKernel crossAnswers) ⟨idle, 0⟩
        (.rename true (-1) (some [47, 97]) (-1) (some [47, 109, 47, 98])) := by
  have hrun : ((exec (mountedKernel crossAnswers) ⟨idle, 0⟩
      (.rename true (-1) (some [47, 97]) (-1) (some [47, 109, 47, 98]))).toOption.map fun r =>
      (r.1, (r.2.layer.vns 2).rcnt)) = some (EXDEV, 2) := by
    decide +kernel
  have hone : ((mountedKernel crossAnswers).layer.vns 2).rcnt = 1 := by decide +kernel
  refine ⟨mountedKernel_ready _, hrun, hone, fun hkeep => ?_⟩
  unfold KeepsCounts at hkeep
  rcases hr : exec (mountedKernel crossAnswers) ⟨idle, 0⟩
    (.rename true (-1) (some [47, 97]) (-1) (some [47, 109, 47, 98])) with e | ⟨err, k'⟩
  · rw [hr] at hrun
    cases hrun
  · rw [hr] at hrun hkeep
    have hsame : (k'.layer.vns 2).rcnt = 1 := (hkeep 2).trans hone
    simp only [Except.toOption, Option.map_some, Option.some.injEq, Prod.mk.injEq] at hrun
    omega

end PathCalls
