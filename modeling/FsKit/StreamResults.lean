import Mathlib.Tactic
import FsKit.MakeAndMount

/-! What the calls on a data stream leave of an inode (`dstream.c`), whatever the disk: they
touch neither the cached contents nor the change counter, and a call that returns 0 leaves the
size that was asked for. -/
namespace StreamResults

open BlockBitmap InodeTable DataStreamBlocks MakeAndMount
open FailedCreate (writeBytes_frame)

/-- The part of an inode that only the directory code uses. -/
def etc (mi : Inode) : Option (ℕ → UInt8) × ℤ := (mi.contents, mi.counter)

section Growing

theorem growDirect_etc (needed : ℤ) (left : ℕ) (fs : Myfs) (mi : Inode) (i : ℤ) :
    etc (growDirect needed left fs mi i).2.2.1 = etc mi := by
  induction left generalizing fs mi i with
  | zero => rfl
  | succ left ih =>
    rw [growDirect]
    split
    · rfl
    dsimp only
    split
    · rfl
    · exact ih _ _ _

theorem growIndirect_etc (needed : ℤ) (left : ℕ) (fs : Myfs) (mi : Inode) (i : ℤ) :
    etc (growIndirect needed left fs mi i).2.1 = etc mi := by
  induction left generalizing fs mi i with
  | zero => rfl
  | succ left ih =>
    rw [growIndirect]
    split
    · rfl
    dsimp only
    split
    · rfl
    · exact ih _ _ _

theorem openIndirect_etc (fs : Myfs) (mi : Inode) : etc (openIndirect fs mi).2.1 = etc mi := by
  unfold openIndirect
  split
  · dsimp only
    split <;> rfl
  · rfl

theorem growEnd_spec (fs : Myfs) (mi : Inode) :
    (growEnd fs mi).1 ≠ 0 ∧ etc (growEnd fs mi).2.1 = etc mi := by
  unfold growEnd
  split
  · exact ⟨show E2BIG ≠ 0 by decide, rfl⟩
  · exact ⟨show (-1 : ℤ) ≠ 0 by decide, rfl⟩

theorem growIndirectRange_spec (fs : Myfs) (mi : Inode) (newSize needed i : ℤ) :
    etc (growIndirectRange fs mi newSize needed i).2.1 = etc mi ∧
    ((growIndirectRange fs mi newSize needed i).1 = 0 →
      (growIndirectRange fs mi newSize needed i).2.1.data.size = newSize) := by
  have hend : ∀ fs mi', etc mi' = etc mi → etc (growEnd fs mi').2.1 = etc mi ∧
      ((growEnd fs mi').1 = 0 → (growEnd fs mi').2.1.data.size = newSize) := by
    intro fs mi' h
    obtain ⟨hne, hetc⟩ := growEnd_spec fs mi'
    exact ⟨hetc.trans h, fun h₀ => absurd h₀ hne⟩
  unfold growIndirectRange
  dsimp only
  split
  · have hopen := openIndirect_etc fs mi
    split
    · rename_i herr
      exact ⟨hopen, fun h₀ => absurd h₀ herr⟩
    have hgrown := fun left => (growIndirect_etc needed left (openIndirect fs mi).2.2
      (openIndirect fs mi).2.1 i).trans hopen
    split
    · rename_i herr
      exact ⟨hgrown _, fun h₀ => absurd h₀ herr⟩
    split
    · exact ⟨hgrown _, fun _ => rfl⟩
    · exact hend _ _ (hgrown _)
  · exact hend _ _ rfl

theorem growDstream_spec {fs fs' : Myfs} {mi mi' : Inode} {newSize err : ℤ}
    (h : growDstream fs mi newSize = .ok (err, mi', fs')) :
    etc mi' = etc mi ∧ (err = 0 → mi'.data.size = newSize ∧ 0 ≤ newSize ∧
      newSize ≤ maxDoubleIndirectRange fs.dsb.blockSize) := by
  unfold growDstream at h
  dsimp only at h
  split at h
  · cases h
    exact ⟨rfl, fun h₀ => absurd h₀ (by decide)⟩
  rename_i hguard
  have hbounds : 0 ≤ newSize ∧ newSize ≤ maxDoubleIndirectRange fs.dsb.blockSize := by omega
  split at h
  · cases h
    exact ⟨rfl, fun _ => ⟨rfl, hbounds⟩⟩
  split at h
  · split at h
    · cases h
    generalize hd : growDirect _ _ fs _ 0 = r at h
    have hetc : etc r.2.2.1 = etc mi := by
      rw [← hd]
      exact growDirect_etc _ _ _ _ _
    split at h
    · rename_i herr
      cases h
      exact ⟨hetc, fun h₀ => absurd h₀ herr⟩
    split at h
    · cases h
      exact ⟨hetc, fun _ => ⟨rfl, hbounds⟩⟩
    · have hrange := growIndirectRange_spec r.2.2.2 r.2.2.1 newSize
        ((roundUp newSize fs.dsb.blockSize - roundUp mi.data.size fs.dsb.blockSize) /
          fs.dsb.blockSize) r.2.1
      rw [Except.ok.inj h] at hrange
      exact ⟨hrange.1.trans hetc, fun h₀ => ⟨hrange.2 h₀, hbounds⟩⟩
  · have hrange := growIndirectRange_spec fs (setSize mi (roundUp mi.data.size fs.dsb.blockSize))
      newSize ((roundUp newSize fs.dsb.blockSize - roundUp mi.data.size fs.dsb.blockSize) /
        fs.dsb.blockSize) 0
    rw [Except.ok.inj h] at hrange
    exact ⟨hrange.1, fun h₀ => ⟨hrange.2 h₀, hbounds⟩⟩

end Growing

section Shrinking

/-- The block size and the part of the inode that stay. -/
def Same (s t : Inode × Myfs) : Prop :=
  etc t.1 = etc s.1 ∧ t.2.dsb.blockSize = s.2.dsb.blockSize

theorem Same.trans {s t u : Inode × Myfs} (h : Same s t) (k : Same t u) : Same s u :=
  ⟨k.1.trans h.1, k.2.trans h.2⟩

theorem Same.ite {s t u : Inode × Myfs} {p : Prop} [Decidable p] (h : Same s t) (k : Same s u) :
    Same s (if p then t else u) := by
  split
  · exact h
  · exact k

theorem freeBlocks_blockSize (fs : Myfs) (start n : ℤ) :
    (myfsFreeBlocks fs start n).2.dsb.blockSize = fs.dsb.blockSize := by
  obtain ⟨_, dsb, h, hsize⟩ := myfsFreeBlocks_any fs start n
  rw [h]
  exact hsize

theorem freeEntries_blockSize (block : Block) (maxIdx left : ℕ) (fs : Myfs) :
    (freeEntries block maxIdx left fs).dsb.blockSize = fs.dsb.blockSize := by
  induction left generalizing fs with
  | zero => rfl
  | succ left ih =>
    rw [freeEntries]
    split
    · rfl
    · exact (ih _).trans (freeBlocks_blockSize fs _ 1)

theorem freeAllEntries_blockSize (block : Block) (maxIdx left : ℕ) (fs : Myfs) :
    (freeAllEntries block maxIdx left fs).dsb.blockSize = fs.dsb.blockSize := by
  induction left generalizing fs with
  | zero => rfl
  | succ left ih =>
    rw [freeAllEntries]
    exact (ih _).trans (freeBlocks_blockSize fs _ 1)

theorem freeDoubleEntries_blockSize (block : Block) (maxIdx left j : ℕ) (free : Bool) (fs : Myfs) :
    (freeDoubleEntries block maxIdx left j free fs).dsb.blockSize = fs.dsb.blockSize := by
  induction left generalizing fs j free with
  | zero => rfl
  | succ left ih =>
    rw [freeDoubleEntries]
    dsimp only
    split
    · rfl
    refine (ih _ _ _).trans ?_
    split
    · exact (freeBlocks_blockSize _ _ 1).trans (freeAllEntries_blockSize _ _ _ _)
    · exact freeAllEntries_blockSize _ _ _ _

theorem freeDirect_same (left : ℕ) (fs : Myfs) (mi : Inode) :
    Same (mi, fs) (freeDirect left fs mi) := by
  induction left generalizing fs mi with
  | zero => exact ⟨rfl, rfl⟩
  | succ left ih =>
    rw [freeDirect]
    split
    · exact ⟨rfl, rfl⟩
    · obtain ⟨hetc, hsize⟩ :=
        ih (myfsFreeBlocks fs (mi.data.direct (numDirectBlocks - (left + 1))) 1).2
        (setDirect mi (numDirectBlocks - (left + 1)) 0)
      exact ⟨hetc, hsize.trans (freeBlocks_blockSize fs _ 1)⟩

theorem shrinkIndirect_same (fs : Myfs) (mi : Inode) (n : ℤ) :
    Same (mi, fs) (shrinkIndirect fs mi n) := by
  have hentries := fun left =>
    freeEntries_blockSize (fs.dataArea mi.data.indirect) (maxIndex fs) left fs
  exact Same.ite ⟨rfl, (freeBlocks_blockSize _ _ 1).trans (hentries _)⟩ ⟨rfl, hentries _⟩

theorem shrinkDoubleIndirect_same (fs : Myfs) (mi : Inode) (n : ℤ) :
    Same (mi, fs) (shrinkDoubleIndirect fs mi n) := by
  have hentries := fun left j free => freeDoubleEntries_blockSize
    (fs.dataArea mi.data.doubleIndirect) (maxIndex fs) left j free fs
  exact Same.ite ⟨rfl, (freeBlocks_blockSize _ _ 1).trans (hentries _ _ _)⟩ ⟨rfl, hentries _ _ _⟩

theorem shrinkDstream_results (fs : Myfs) (mi : Inode) {n : ℤ} (h₀ : 0 ≤ n)
    (hn : n ≤ maxDoubleIndirectRange fs.dsb.blockSize) :
    Same (mi, fs) (shrinkDstream fs mi n).2 ∧ (shrinkDstream fs mi n).1 = 0 ∧
      (shrinkDstream fs mi n).2.1.data.size = n := by
  unfold shrinkDstream
  dsimp only
  rw [if_neg (by omega)]
  split
  · exact ⟨⟨rfl, rfl⟩, rfl, rfl⟩
  refine ⟨?_, rfl, rfl⟩
  -- the three ranges, the last one first
  generalize hdouble : (if roundUp (n - 1) fs.dsb.blockSize <
    maxDoubleIndirectRange fs.dsb.blockSize ∧ mi.data.doubleIndirect ≠ 0 then
    shrinkDoubleIndirect fs mi (roundUp (n - 1) fs.dsb.blockSize) else (mi, fs)) = r
  have hr : Same (mi, fs) r := by
    rw [← hdouble]
    exact Same.ite (shrinkDoubleIndirect_same _ _ _) ⟨rfl, rfl⟩
  generalize hsingle : (if roundUp (n - 1) fs.dsb.blockSize <
    maxIndirectRange fs.dsb.blockSize ∧ r.1.data.indirect ≠ 0 then
    shrinkIndirect r.2 r.1 (roundUp (n - 1) fs.dsb.blockSize) else (r.1, r.2)) = u
  have hu : Same (mi, fs) u := by
    rw [← hsingle]
    exact Same.ite (hr.trans (shrinkIndirect_same _ _ _)) hr
  generalize hdirect : (if roundUp (n - 1) fs.dsb.blockSize < directSize fs.dsb.blockSize then
    freeDirect (numDirectBlocks - (roundUp (n - 1) fs.dsb.blockSize / fs.dsb.blockSize).toNat)
      u.2 u.1 else (u.1, u.2)) = w
  have hw : Same (mi, fs) w := by
    rw [← hdirect]
    exact Same.ite (hu.trans (freeDirect_same _ _ _)) hu
  exact hw

end Shrinking

section Calls
variable {fs fs' : Myfs} {mi mi' : Inode}

theorem updateInode_blockSize (h : updateInode fs mi = .ok fs') :
    fs'.dsb.blockSize = fs.dsb.blockSize :=
  congrArg Prod.fst (updateInode_keeps fs mi fs' h)

/-- The loop ends early only with an error. -/
theorem writeLoop_count {buf : ℕ → UInt8} {len fuel done count : ℕ} {pos : ℤ}
    (hb : 0 < fs.dsb.blockSize) (hdone : done ≤ len) (hfuel : len ≤ done + fuel)
    (h : writeLoop mi buf len fuel fs pos done = .ok (0, count, fs')) : count = len := by
  induction fuel generalizing fs pos done with
  | zero =>
    cases h
    omega
  | succ fuel ih =>
    rw [writeLoop] at h
    split at h
    · cases h
      omega
    rename_i hmore
    dsimp only at h
    unfold writeChunk at h
    generalize filePosToDiskAddr fs mi pos = r at h
    cases r with
    | error e => cases h
    | ok addr =>
      by_cases hneg : addr < 0
      · simp only [bind, Except.bind, hneg, if_true, pure, Except.pure] at h
        cases h
      · simp only [bind, Except.bind, hneg, if_false, pure, Except.pure] at h
        refine ih ?_ ?_ ?_ h
        · exact hb
        · split <;> omega
        · split <;> omega

theorem writeBytes_count {buf : ℕ → UInt8} {len count : ℕ} {pos : ℤ} (hb : 0 < fs.dsb.blockSize)
    (h : writeBytes fs mi pos buf len = .ok (0, count, fs')) : count = len := by
  unfold writeBytes at h
  dsimp only at h
  generalize filePosToDiskAddr fs mi pos = r at h
  cases r with
  | error e => cases h
  | ok addr =>
    dsimp only [Except.bind] at h
    split at h
    · cases h
    split at h
    · refine writeLoop_count ?_ ?_ ?_ h
      · exact hb
      · split <;> omega
      · omega
    · exact writeLoop_count hb (Nat.zero_le len) (by omega) h

theorem growForWrite_results {n : ℤ} (h : growForWrite fs mi n = .ok (0, mi', fs')) :
    etc mi' = etc mi ∧ fs'.dsb.blockSize = fs.dsb.blockSize ∧ mi'.data.size = max mi.data.size n ∧
      (mi.data.size ≤ maxDoubleIndirectRange fs.dsb.blockSize →
        mi'.data.size ≤ maxDoubleIndirectRange fs.dsb.blockSize) := by
  have hsize : fs'.dsb.blockSize = fs.dsb.blockSize := by
    have hkeeps := growForWrite_keeps fs mi n _ h
    exact congrArg Prod.fst hkeeps
  unfold growForWrite at h
  split at h
  · rename_i hlt
    generalize hg : growDstream fs mi n = r at h
    cases r with
    | error e => cases h
    | ok r =>
      obtain ⟨err, mi₁, fs₁⟩ := r
      obtain ⟨hetc, hok⟩ := growDstream_spec hg
      dsimp only [Except.bind] at h
      split at h
      · rename_i herr
        cases h
        exact absurd rfl herr
      rename_i herr
      obtain ⟨hn, _, hmax⟩ := hok (not_not.1 herr)
      generalize updateInode fs₁ _ = u at h
      cases u with
      | error e => cases h
      | ok fs₂ =>
        cases h
        refine ⟨hetc, hsize, ?_, fun _ => ?_⟩
        · rw [max_eq_right (by omega)]
          exact hn
        · change mi₁.data.size ≤ _
          omega
  · cases h
    exact ⟨rfl, hsize, by omega, id⟩

/-- A write that returns 0 has written everything. -/
theorem write_results {buf : ℕ → UInt8} {len count : ℕ} (hb : 0 < fs.dsb.blockSize)
    (h₀ : 0 ≤ mi.data.size) (h : myfsWriteDataStream fs mi 0 buf len = .ok (0, count, mi', fs')) :
    etc mi' = etc mi ∧ fs'.dsb.blockSize = fs.dsb.blockSize ∧ count = len ∧
      mi'.data.size = max mi.data.size len ∧
      (mi.data.size ≤ maxDoubleIndirectRange fs.dsb.blockSize →
        mi'.data.size ≤ maxDoubleIndirectRange fs.dsb.blockSize) := by
  have hsize : fs'.dsb.blockSize = fs.dsb.blockSize := by
    have hkeeps := myfsWriteDataStream_keeps fs mi 0 buf len _ h
    exact congrArg Prod.fst hkeeps
  unfold myfsWriteDataStream at h
  split at h
  · rename_i hlen
    cases h
    exact ⟨rfl, rfl, rfl, by omega, id⟩
  dsimp only at h
  rw [if_neg (by omega), zero_add] at h
  generalize hg : growForWrite fs mi len = r at h
  cases r with
  | error e => cases h
  | ok r =>
    obtain ⟨err, mi₁, fs₁⟩ := r
    dsimp only [Except.bind] at h
    split at h
    · rename_i herr
      cases h
      exact absurd rfl herr
    rename_i herr
    obtain rfl : err = 0 := not_not.1 herr
    obtain ⟨hetc, hbs, hmax, hbound⟩ := growForWrite_results hg
    generalize hw : writeBytes fs₁ mi₁ 0 buf len = w at h
    cases w with
    | error e => cases h
    | ok w =>
      obtain ⟨err, done, fs₂⟩ := w
      dsimp only at h
      split at h
      · rename_i herr
        cases h
        exact absurd rfl herr
      rename_i herr
      obtain rfl : err = 0 := not_not.1 herr
      have hdone := writeBytes_count (by omega) hw
      generalize updateInode fs₂ _ = u at h
      cases u with
      | error e => cases h
      | ok fs₃ =>
        cases h
        exact ⟨hetc, hsize, hdone, hmax, hbound⟩

/-- A stream can always be made shorter. -/
theorem truncate_results {n err : ℤ} (h₀ : 0 ≤ n) (hn : n ≤ mi.data.size)
    (hmax : mi.data.size ≤ maxDoubleIndirectRange fs.dsb.blockSize)
    (h : myfsSetFileSize fs mi n = .ok (err, mi', fs')) :
    etc mi' = etc mi ∧ fs'.dsb.blockSize = fs.dsb.blockSize ∧ mi'.data.size = n := by
  unfold myfsSetFileSize at h
  split at h
  · rename_i heq
    cases h
    exact ⟨rfl, rfl, heq.symm⟩
  rw [if_pos (by omega)] at h
  obtain ⟨⟨hetc, hbs⟩, hzero, hsize⟩ := shrinkDstream_results fs mi h₀ (by omega)
  generalize shrinkDstream fs mi n = r at h hetc hbs hzero hsize
  obtain ⟨err₁, mi₁, fs₁⟩ := r
  obtain rfl : err₁ = 0 := hzero
  dsimp only [Except.bind] at h
  rw [if_neg (not_not_intro rfl)] at h
  generalize hu : updateInode fs₁ _ = u at h
  cases u with
  | error e => cases h
  | ok fs₂ =>
    cases h
    exact ⟨hetc, (updateInode_blockSize hu).trans hbs, hsize⟩

end Calls

end StreamResults
