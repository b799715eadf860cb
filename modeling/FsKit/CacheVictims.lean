import Mathlib.Tactic
import FsKit.CacheStructure

/-! The victims of a cache miss (`get_ents` and the set-up in `cache_block_io` of `cache.c`):
which entries they are, and the cache while they are in hand. -/
namespace CacheVictims

open LinkedList HashTable BlockCache CacheStructure
open FlushFailures (Distinct)
open FlushTermination (setBusy_all)

variable {β : Type}

def freshEnt (junk : β) : CacheEnt β := ⟨-1, -1, 0, false, false, junk, none, 0, none, 0, 0⟩

section Allocation
variable {s : Cache β} {xs : Members} {hand : List ℕ}

/-- How many of the needed entries are made anew. -/
def newEnts (s : Cache β) (needed : ℕ) : ℕ := min needed (s.maxBlocks - s.curBlocks)

theorem newCacheEnt_lists (h : Lists s xs hand) :
    Lists { (newCacheEnt s).2 with curBlocks := s.curBlocks + 1 } xs (s.made :: hand) := by
  have hold : ∀ ce, Listed xs ce ∨ ce ∈ hand → ce ≠ s.made := fun ce hce =>
    (h.made ce hce).ne
  have hlinks : ∀ ce, Listed xs ce ∨ ce ∈ hand →
      ((newCacheEnt s).2.links.next ce = s.links.next ce ∧
        (newCacheEnt s).2.links.prev ce = s.links.prev ce) ∧
      (newCacheEnt s).2.ents ce = s.ents ce := by
    intro ce hce
    simp [newCacheEnt, Links.setNext_next, Links.setPrev_prev, hold ce hce]
  refine ⟨⟨fun cel => ?_, h.family.apart⟩, ?_, ?_, ?_, ?_, ?_⟩
  · exact (h.family.isList cel).congr fun ce hce => (hlinks ce (.inl ⟨cel, hce⟩)).1
  · intro ce hce
    change ce < s.made + 1
    rcases hce with hce | hce
    · exact Nat.lt_succ_of_lt (h.made ce (.inl hce))
    · rcases List.mem_cons.mp hce with rfl | hce
      · exact Nat.lt_succ_self _
      · exact Nat.lt_succ_of_lt (h.made ce (.inr hce))
  · intro cel ce hce
    dsimp only
    rw [(hlinks ce (.inl ⟨cel, hce⟩)).2]
    exact h.lock cel ce hce
  · exact List.nodup_cons.mpr ⟨fun hin => hold _ (.inr hin) rfl, h.nodup⟩
  · intro ce hce
    rcases List.mem_cons.mp hce with rfl | hce
    · refine ⟨fun hl => hold _ (.inl hl) rfl, ?_⟩
      simp [newCacheEnt, Links.setNext_next, Links.setPrev_prev]
    · dsimp only
      rw [(hlinks ce (.inr hce)).1.1, (hlinks ce (.inr hce)).1.2]
      exact h.loose ce hce
  · have hcount := h.count
    rw [List.length_cons]
    dsimp only
    omega

/-- The entries that are made are numbered on from those there are. -/
theorem allocEnts_spec (n : ℕ) (h : Lists s xs hand) :
    ∃ s', allocEnts n s = (List.range' s.made (newEnts s n), s') ∧
      Lists s' xs (List.range' s.made (newEnts s n) ++ hand) ∧
      (∀ ce, s'.ents ce = if ce ∈ List.range' s.made (newEnts s n) then freshEnt s.junk
        else s.ents ce) ∧
      s' = { s with
        ents := s'.ents
        links := s'.links
        made := s.made + newEnts s n
        curBlocks := s.curBlocks + newEnts s n } := by
  induction n generalizing s hand with
  | zero =>
    have hzero : newEnts s 0 = 0 := Nat.zero_min _
    rw [hzero]
    exact ⟨s, rfl, h, fun ce => by simp, rfl⟩
  | succ n ih =>
    by_cases hroom : s.curBlocks < s.maxBlocks
    · obtain ⟨s', halloc, hl, hents, hsame⟩ := ih (newCacheEnt_lists h)
      have hnew : newEnts s (n + 1) =
          newEnts { (newCacheEnt s).2 with curBlocks := s.curBlocks + 1 } n + 1 := by
        unfold newEnts
        change min (n + 1) (s.maxBlocks - s.curBlocks) = min n (s.maxBlocks - (s.curBlocks + 1)) + 1
        omega
      have hmade : ({ (newCacheEnt s).2 with curBlocks := s.curBlocks + 1 } : Cache β).made =
          s.made + 1 := rfl
      rw [hmade] at halloc hl hents hsame
      rw [hnew, List.range'_succ]
      generalize newEnts { (newCacheEnt s).2 with curBlocks := s.curBlocks + 1 } n = k
        at halloc hl hents hsame
      refine ⟨s', ?_, ?_, fun ce => ?_, ?_⟩
      · rw [allocEnts, if_pos hroom]
        dsimp only
        rw [show (newCacheEnt s).2.curBlocks = s.curBlocks from rfl, halloc]
        rfl
      · exact hl.perm List.perm_middle
      · rw [hents ce]
        by_cases hce : ce = s.made
        · subst hce
          simp [newCacheEnt, freshEnt]
        · simp [newCacheEnt, hce]
      · rw [hsame]
        dsimp only
        rw [show s.made + 1 + k = s.made + (k + 1) by omega,
          show s.curBlocks + 1 + k = s.curBlocks + (k + 1) by omega]
        rfl
    · have hzero : newEnts s (n + 1) = 0 := by
        unfold newEnts
        omega
      rw [hzero]
      refine ⟨s, ?_, h, fun ce => by simp, rfl⟩
      rw [allocEnts, if_neg hroom]
      rfl

end Allocation

section Plucking
variable {s : Cache β} {xs : Members} {hand list : List ℕ}

theorem setBusy_other {s : Cache β} {busy : Bool} {ce ce' : ℕ} (h : ce' ≠ ce) :
    (setBusy busy s ce).ents ce' = s.ents ce' :=
  Function.update_of_ne h _ _

/-- From a list of which nothing is busy the first entries are taken. -/
theorem pluckEnts_idle (n : ℕ) (hnodup : list.Nodup) (hlock : ∀ ce ∈ list, (s.ents ce).lock = 0)
    (hidle : ∀ ce ∈ list, (s.ents ce).busy = false) :
    pluckEnts n list s = .ok (list.take n, (list.take n).foldl (setBusy true) s) := by
  induction list generalizing n s with
  | nil => cases n <;> rfl
  | cons ce list ih =>
    cases n with
    | zero => rfl
    | succ n =>
      have hrest := List.nodup_cons.mp hnodup
      have hsame : ∀ ce' ∈ list, (setBusy true s ce).ents ce' = s.ents ce' := fun ce' hce' =>
        setBusy_other fun heq => hrest.1 (heq ▸ hce')
      rw [pluckEnts, if_neg (by simp [hlock ce List.mem_cons_self]),
        if_neg (by simp [hidle ce List.mem_cons_self]), ih n hrest.2]
      · rfl
      · intro ce' hce'
        rw [hsame ce' hce']
        exact hlock ce' (List.mem_cons_of_mem _ hce')
      · intro ce' hce'
        rw [hsame ce' hce']
        exact hidle ce' (List.mem_cons_of_mem _ hce')

theorem pluckEnts_busy (n : ℕ) (hlock : ∀ ce ∈ list, (s.ents ce).lock = 0)
    (hbusy : ∀ ce ∈ list, (s.ents ce).busy = true) : pluckEnts n list s = .ok ([], s) := by
  induction list with
  | nil => cases n <;> rfl
  | cons ce list ih =>
    cases n with
    | zero => rfl
    | succ n =>
      rw [pluckEnts, if_neg (by simp [hlock ce List.mem_cons_self]),
        if_pos (hbusy ce List.mem_cons_self)]
      exact ih (fun ce' hce' => hlock ce' (List.mem_cons_of_mem _ hce'))
        fun ce' hce' => hbusy ce' (List.mem_cons_of_mem _ hce')

theorem setBusy_lock (s : Cache β) (busy : Bool) (ce ce' : ℕ) :
    ((setBusy busy s ce).ents ce').lock = (s.ents ce').lock := by
  by_cases hce : ce' = ce
  · subst hce
    simp [setBusy, setEnt]
  · rw [setBusy_other hce]

/-- The two searches ask for the lock and for busy entries in different orders. -/
theorem pluckMore_eq (n : ℕ) (hlock : ∀ ce ∈ list, (s.ents ce).lock = 0) :
    pluckMore n list s = pluckEnts n list s := by
  induction list generalizing n s with
  | nil => cases n <;> rfl
  | cons ce list ih =>
    cases n with
    | zero => rfl
    | succ n =>
      have hrest : ∀ ce ∈ list, (s.ents ce).lock = 0 := fun ce' hce' =>
        hlock ce' (List.mem_cons_of_mem _ hce')
      have hce : ¬(s.ents ce).lock ≠ 0 := not_not.mpr (hlock ce List.mem_cons_self)
      rw [pluckMore, pluckEnts, if_neg hce, if_neg hce, ih _ hrest, ih]
      intro ce' hce'
      rw [setBusy_lock]
      exact hrest ce' hce'

theorem setBusy_lists (h : Lists s xs hand) (busy : Bool) (ents : List ℕ) :
    Lists (ents.foldl (setBusy busy) s) xs hand := by
  rw [setBusy_all]
  refine h.congr rfl rfl rfl rfl fun ce _ => ?_
  dsimp only
  split <;> rfl

/-- Once the whole list is busy, going through it again gives nothing. -/
theorem pluckLoop_busy (h : Lists s xs hand) (needed retries : ℕ) (ents : List ℕ)
    (hbusy : ∀ ce ∈ xs .normal, (s.ents ce).busy = true) :
    pluckLoop needed retries ents s = .ok (ents, s) := by
  induction retries with
  | zero => rfl
  | succ retries ih =>
    unfold pluckLoop
    split
    · rfl
    · rw [h.listNodes_eq, pluckEnts_busy _ h.normal_unlocked hbusy]
      change pluckLoop needed retries (ents ++ []) s = _
      rw [List.append_nil, ih]

theorem pluckLoop_spec (h : Lists s xs hand) (needed retries : ℕ) (ents : List ℕ)
    (hidle : ∀ ce ∈ xs .normal, (s.ents ce).busy = false) :
    pluckLoop needed (retries + 1) ents s =
      .ok (ents ++ (xs .normal).take (needed - ents.length),
        ((xs .normal).take (needed - ents.length)).foldl (setBusy true) s) := by
  unfold pluckLoop
  split
  · rename_i hle
    rw [Nat.sub_eq_zero_of_le hle, List.take_zero, List.append_nil]
    rfl
  rename_i hlt
  rw [h.listNodes_eq, pluckEnts_idle _ (h.family.isList _).nodup h.normal_unlocked hidle]
  dsimp only [bind, Except.bind]
  have hl := setBusy_lists h true ((xs .normal).take (needed - ents.length))
  by_cases hshort : (xs .normal).length ≤ needed - ents.length
  · rw [List.take_of_length_le hshort] at hl ⊢
    refine pluckLoop_busy hl needed retries _ fun ce hce => ?_
    rw [setBusy_all]
    dsimp only
    rw [if_pos hce]
  · cases retries with
    | zero => rfl
    | succ retries =>
      unfold pluckLoop
      rw [if_pos]
      rw [List.length_append, List.length_take]
      omega

/-- Where the search for more entries goes on. -/
theorem nodes_after (h : Lists s xs hand) {n : ℕ} {last : ℕ} (hpos : 0 < n)
    (hlast : ((xs .normal).take n).getLast? = some last) :
    nodes s.links s.made (s.links.next last) = (xs .normal).drop n := by
  have hlist := h.family.isList .normal
  have hle := h.length_le .normal
  obtain ⟨as, has⟩ := List.getLast?_eq_some_iff.mp hlast
  have hsplit : xs .normal = as ++ last :: (xs .normal).drop n := by
    conv_lhs => rw [← List.take_append_drop n (xs .normal), has]
    simp
  rw [hsplit] at hlist
  rw [hlist.neighbours.2]
  have hlinked := (linked_append.mp hlist.linked).2
  refine nodes_of_linked hlinked.2.2 ?_
  rw [List.length_drop]
  omega

end Plucking

section Getting
variable {s s₁ : Cache β} {xs : Members} {ents : List ℕ} {needed max : ℕ}

/-- How many entries are taken from the lru end: more than are needed if the last of those has to
be written. -/
def plucked (s : Cache β) (xs : Members) (needed max : ℕ) : ℕ :=
  let n := needed - newEnts s needed
  if ((xs .normal).take n).getLast?.any fun ce => (s.ents ce).unwritten then n + (max - needed)
  else n

/-- What `get_ents` leaves: new entries as long as there may be more, and the first ones of the
normal list, which it marks as busy. -/
structure Obtained (s : Cache β) (xs : Members) (needed max : ℕ) (ents : List ℕ)
    (s₁ : Cache β) : Prop where
  lists : Lists s₁ xs (List.range' s.made (newEnts s needed))
  ents_eq : ents = List.range' s.made (newEnts s needed) ++
    (xs .normal).take (plucked s xs needed max)
  enough : needed ≤ ents.length
  entries : ∀ ce, s₁.ents ce = if ce ∈ List.range' s.made (newEnts s needed) then freshEnt s.junk
    else { s.ents ce with busy := (s.ents ce).busy || ce ∈ ents }
  same : s₁ = { s with
    ents := s₁.ents
    links := s₁.links
    made := s.made + newEnts s needed
    curBlocks := s.curBlocks + newEnts s needed }

theorem mem_fresh {s : Cache β} {n ce : ℕ} (h : ce ∈ List.range' s.made n) : s.made ≤ ce :=
  (List.mem_range'_1.mp h).1

/-- The entries that `get_ents` has in the end are marked as busy. -/
theorem obtained_of_plucked (max : ℕ) (list : List ℕ) (h : Lists s xs []) {sa : Cache β}
    (hla : Lists sa xs (List.range' s.made (newEnts s needed)))
    (hents : ∀ ce, sa.ents ce = if ce ∈ List.range' s.made (newEnts s needed)
      then freshEnt s.junk else s.ents ce)
    (hsame : sa = { s with
      ents := sa.ents
      links := sa.links
      made := s.made + newEnts s needed
      curBlocks := s.curBlocks + newEnts s needed })
    (hlist : list = (xs .normal).take (plucked s xs needed max))
    (henough : needed ≤ (List.range' s.made (newEnts s needed) ++ list).length) :
    Obtained s xs needed max (List.range' s.made (newEnts s needed) ++ list)
      (list.foldl (setBusy true) sa) where
  lists := setBusy_lists hla true list
  ents_eq := by rw [hlist]
  enough := henough
  entries ce := by
    rw [setBusy_all]
    dsimp only
    rw [hents ce]
    by_cases hfresh : ce ∈ List.range' s.made (newEnts s needed)
    · have hnot : ce ∉ list := by
        intro hin
        rw [hlist] at hin
        have hlt := h.made ce (.inl ⟨_, List.mem_of_mem_take hin⟩)
        exact absurd hlt (not_lt.mpr (mem_fresh hfresh))
      rw [if_pos hfresh, if_neg hnot, if_pos hfresh]
    · by_cases hin : ce ∈ list
      · simp [hfresh, hin]
      · simp [hfresh, hin]
  same := by
    rw [setBusy_all, hsame]

theorem getEnts_spec (h : Lists s xs []) (hidle : ∀ ce ∈ xs .normal, (s.ents ce).busy = false)
    (hpos : 0 < needed) (hget : getEnts s needed max = .ok (ents, s₁)) :
    Obtained s xs needed max ents s₁ := by
  obtain ⟨sa, halloc, hla, hentsa, hsamea⟩ := allocEnts_spec needed h
  rw [List.append_nil] at hla
  have hobtained := fun list => obtained_of_plucked max list h hla hentsa hsamea
  have hsa : ∀ ce ∈ xs .normal, sa.ents ce = s.ents ce := by
    intro ce hce
    rw [hentsa, if_neg]
    intro hin
    exact absurd (h.made ce (.inl ⟨_, hce⟩)) (not_lt.mpr (mem_fresh hin))
  have hidlea : ∀ ce ∈ xs .normal, (sa.ents ce).busy = false := by
    intro ce hce
    rw [hsa ce hce]
    exact hidle ce hce
  unfold getEnts at hget
  split at hget
  · cases hget
  rename_i hmax
  dsimp only at hget
  rw [halloc] at hget
  dsimp only at hget
  obtain ⟨m, hm⟩ : ∃ m, needed * 256 = m + 1 := ⟨needed * 256 - 1, by omega⟩
  rw [hm, pluckLoop_spec hla needed m _ hidlea, List.length_range'] at hget
  dsimp only [bind, Except.bind] at hget
  split at hget
  · cases hget
  rename_i henough
  have hb := setBusy_lists hla true ((xs .normal).take (needed - newEnts s needed))
  -- the last entry is a new one, or the last of those that have been plucked
  rcases hlast : ((xs .normal).take (needed - newEnts s needed)).getLast? with _ | last
  · have hnil := List.getLast?_eq_none_iff.mp hlast
    have hzero : plucked s xs needed max = needed - newEnts s needed := by
      unfold plucked
      dsimp only
      rw [hlast]
      rfl
    have hdone := hobtained ((xs .normal).take (needed - newEnts s needed)) (by rw [hzero])
      (not_lt.mp henough)
    rw [hnil, List.append_nil] at hget henough hdone
    rcases hf : (List.range' s.made (newEnts s needed)).getLast? with _ | last
    · rw [hf] at hget
      cases hget
      exact hdone
    · have hclean : (sa.ents last).unwritten = false := by
        rw [hentsa, if_pos (List.mem_of_getLast? hf)]
        rfl
      rw [hf] at hget
      dsimp only [List.foldl_nil] at hget
      simp only [hclean, Bool.false_eq_true, and_false, if_false] at hget
      cases hget
      exact hdone
  · have hmem : last ∈ xs .normal := List.mem_of_mem_take (List.mem_of_getLast? hlast)
    have hn : 0 < needed - newEnts s needed := by
      rcases Nat.eq_zero_or_pos (needed - newEnts s needed) with hzero | hn
      · rw [hzero, List.take_zero] at hlast
        cases hlast
      · exact hn
    have hwritten : ((((xs .normal).take (needed - newEnts s needed)).foldl (setBusy true)
        sa).ents last).unwritten = (s.ents last).unwritten := by
      rw [setBusy_all, ← hsa last hmem]
      dsimp only
      split <;> rfl
    have hafter := nodes_after hb hn hlast
    rw [List.getLast?_append, hlast, Option.some_or] at hget
    dsimp only at hget
    rw [hwritten, hafter] at hget
    have hlen : (List.range' s.made (newEnts s needed) ++
        (xs .normal).take (needed - newEnts s needed)).length = needed := by
      have hle := List.length_take_le (needed - newEnts s needed) (xs .normal)
      rw [List.length_append, List.length_range'] at henough ⊢
      omega
    rw [hlen] at hget henough
    have hchoice : plucked s xs needed max = if (s.ents last).unwritten
        then needed - newEnts s needed + (max - needed) else needed - newEnts s needed := by
      unfold plucked
      dsimp only
      rw [hlast, Option.any_some]
    split at hget
    · rename_i hmore
      have hbusy : ∀ ce ∈ (xs .normal).drop (needed - newEnts s needed),
          ((((xs .normal).take (needed - newEnts s needed)).foldl (setBusy true) sa).ents
            ce).busy = false := by
        intro ce hce
        have hnot : ce ∉ (xs .normal).take (needed - newEnts s needed) := fun hin =>
          List.disjoint_take_drop (h.family.isList .normal).nodup le_rfl hin hce
        rw [setBusy_all]
        dsimp only
        rw [if_neg hnot]
        exact hidlea ce (List.mem_of_mem_drop hce)
      have hunlocked : ∀ ce ∈ (xs .normal).drop (needed - newEnts s needed),
          ((((xs .normal).take (needed - newEnts s needed)).foldl (setBusy true) sa).ents
            ce).lock = 0 := fun ce hce =>
        hb.normal_unlocked ce (List.mem_of_mem_drop hce)
      rw [pluckMore_eq _ hunlocked, pluckEnts_idle _
        ((h.family.isList .normal).nodup.sublist (List.drop_sublist _ _)) hunlocked hbusy] at hget
      cases hget
      rw [hmore.2, if_pos rfl] at hchoice
      rw [List.append_assoc, ← List.take_add, ← List.foldl_append, ← List.take_add]
      refine hobtained _ (by rw [hchoice]) ?_
      rw [List.take_add, ← List.append_assoc, List.length_append, hlen]
      exact Nat.le_add_right _ _
    · rename_i hno
      cases hget
      refine hobtained _ ?_ (not_lt.mp (by rw [hlen]; exact henough))
      rw [hchoice]
      split
      · rename_i hdirty
        have hfull : max - needed = 0 := by
          rw [not_and] at hno
          have hle : ¬needed < max := fun hlt => hno hlt hdirty
          omega
        rw [hfull, Nat.add_zero]
      · rfl

end Getting

/-- The keys under which the entries are entered for the blocks from `bnum` on. -/
def NewKeys (dev bnum : ℤ) (cur : ℕ) (ents : List ℕ) (b : Block) (ce : ℕ) : Prop :=
  ∃ i, ents[i]? = some ce ∧ b = ⟨dev, bnum + (cur + i : ℕ)⟩

section Claiming
variable {s : Cache β} {xs : Members} {hand : List ℕ} {K : Block → ℕ → Prop} {dev bnum : ℤ}
  {needed : ℕ}

theorem newKeys_cons (cur ce : ℕ) (ents : List ℕ) (b : Block) (ce' : ℕ) :
    NewKeys dev bnum cur (ce :: ents) b ce' ↔
      b = ⟨dev, bnum + cur⟩ ∧ ce' = ce ∨ NewKeys dev bnum (cur + 1) ents b ce' := by
  constructor
  · rintro ⟨i, hi, rfl⟩
    cases i with
    | zero =>
      rw [List.getElem?_cons_zero] at hi
      exact .inl ⟨by simp, (Option.some.inj hi).symm⟩
    | succ i =>
      rw [List.getElem?_cons_succ] at hi
      exact .inr ⟨i, hi, by rw [Nat.add_right_comm, Nat.add_assoc]⟩
  · rintro (⟨rfl, rfl⟩ | ⟨i, hi, rfl⟩)
    · exact ⟨0, rfl, by simp⟩
    · exact ⟨i + 1, by rwa [List.getElem?_cons_succ], by rw [Nat.add_right_comm, Nat.add_assoc]⟩

theorem not_newKeys_nil (cur : ℕ) (b : Block) (ce : ℕ) : ¬NewKeys dev bnum cur [] b ce := by
  rintro ⟨i, hi, -⟩
  cases hi

/-- One victim is marked and gets the key of its new block, if it is needed. -/
theorem claimEnts_cons (ce : ℕ) (ents : List ℕ) (hk : Keys s.ht K) {cur : ℕ}
    (hnew : cur < needed → ∀ ce, ¬K ⟨dev, bnum + cur⟩ ce) :
    ∃ ht', (Keys ht' fun b ce' => (cur < needed ∧ b = ⟨dev, bnum + cur⟩ ∧ ce' = ce) ∨ K b ce') ∧
      claimEnts dev bnum needed cur (ce :: ents) s =
        if (s.ents ce).dev = -1 then
          claimEnts dev bnum needed (cur + 1) ents { setBusy true s ce with ht := ht' }
        else if (s.ents ce).lock ≠ 0 then
          .error (.lockedVictim, { setBusy true s ce with ht := ht' })
        else
          (claimEnts dev bnum needed (cur + 1) ents
            (deleteFromList { setBusy true s ce with ht := ht' } .normal ce)).bind fun r =>
              .ok (if (s.ents ce).unwritten then r.1 + 1 else r.1, r.2) := by
  have hself : (setBusy true s ce).ents ce = { s.ents ce with busy := true } :=
    Function.update_self ..
  by_cases hcur : cur < needed
  · obtain ⟨ht', hins, hk'⟩ := hk.insert (hnew hcur) ce
    have hins' : hashInsert (setBusy true s ce).ht ⟨dev, bnum + cur⟩ ce = (0, ht') := hins
    refine ⟨ht', hk'.congr fun b ce' => by simp [hcur], ?_⟩
    rw [claimEnts]
    simp only [hcur, if_true, hins', ne_eq, not_true_eq_false, if_false, bind, Except.bind, hself]
    rfl
  · refine ⟨s.ht, hk.congr fun b ce' => by simp [hcur], ?_⟩
    rw [claimEnts]
    simp only [hcur, if_false, bind, Except.bind, hself]
    rfl

/-- The keys of the needed ones among the entries from the first on. -/
theorem newKeys_take (cur ce : ℕ) (ents : List ℕ) (b : Block) (ce' : ℕ) :
    NewKeys dev bnum cur ((ce :: ents).take (needed - cur)) b ce' ↔
      (cur < needed ∧ b = ⟨dev, bnum + cur⟩ ∧ ce' = ce) ∨
        NewKeys dev bnum (cur + 1) (ents.take (needed - (cur + 1))) b ce' := by
  by_cases hcur : cur < needed
  · obtain ⟨m, hm⟩ : ∃ m, needed - cur = m + 1 := ⟨needed - cur - 1, by omega⟩
    have hm' : needed - (cur + 1) = m := by omega
    rw [hm, hm', List.take_succ_cons, newKeys_cons]
    simp only [hcur, true_and]
  · have hzero : needed - cur = 0 := by omega
    have hzero' : needed - (cur + 1) = 0 := by omega
    rw [hzero, hzero', List.take_zero, List.take_zero]
    simp only [hcur, false_and, false_or, not_newKeys_nil]

/-- What claiming the victims `ents` makes of a cache. -/
structure Claimed (dev bnum : ℤ) (needed cur : ℕ) (ents : List ℕ) (xs : Members) (hand : List ℕ)
    (K : Block → ℕ → Prop) (s s' : Cache β) (xs' : Members) (hand' : List ℕ) : Prop where
  lists : Lists s' xs' hand'
  listed : ∀ cel ce, ce ∈ xs' cel ↔ ce ∈ xs cel ∧ ce ∉ ents
  inHand : ∀ ce, ce ∈ hand' ↔ ce ∈ hand ∨ ce ∈ ents
  keys : Keys s'.ht fun b ce => NewKeys dev bnum cur (ents.take (needed - cur)) b ce ∨ K b ce
  entries : ∀ ce, s'.ents ce = { s.ents ce with busy := (s.ents ce).busy || ce ∈ ents }
  same : s' = { s with ents := s'.ents, links := s'.links, lists := s'.lists, ht := s'.ht }

/-- The first victim, and then the others. -/
theorem Claimed.cons {cur ce : ℕ} {ents hand₁ hand' : List ℕ} {xs₁ xs' : Members}
    {K₁ : Block → ℕ → Prop} {s₁ s' : Cache β}
    (h : Claimed dev bnum needed (cur + 1) ents xs₁ hand₁ K₁ s₁ s' xs' hand')
    (hlisted : ∀ cel ce', ce' ∈ xs₁ cel ↔ ce' ∈ xs cel ∧ ce' ≠ ce)
    (hhand : ∀ ce', ce' ∈ hand₁ ↔ ce' ∈ hand ∨ ce' = ce)
    (hkeys : ∀ b ce', K₁ b ce' ↔ (cur < needed ∧ b = ⟨dev, bnum + cur⟩ ∧ ce' = ce) ∨ K b ce')
    (hents : s₁.ents = (setBusy true s ce).ents)
    (hsame : s₁ = { s with ents := s₁.ents, links := s₁.links, lists := s₁.lists, ht := s₁.ht }) :
    Claimed dev bnum needed cur (ce :: ents) xs hand K s s' xs' hand' where
  lists := h.lists
  listed cel ce' := by
    rw [h.listed, hlisted, List.mem_cons, not_or, and_assoc]
  inHand ce' := by
    rw [h.inHand, hhand, List.mem_cons, or_assoc]
  keys := by
    refine h.keys.congr fun b ce' => ?_
    rw [newKeys_take, hkeys, or_left_comm, or_assoc]
  entries ce' := by
    rw [h.entries, hents]
    by_cases hce : ce' = ce
    · subst hce
      simp [setBusy, setEnt]
    · rw [setBusy_other hce]
      simp [hce]
  same := by
    rw [h.same, hsame]

theorem claimEnts_spec (dev bnum : ℤ) (needed : ℕ) (ents : List ℕ) :
    ∀ (cur : ℕ) (s : Cache β) (xs : Members) (hand : List ℕ) (K : Block → ℕ → Prop),
      Lists s xs hand → Keys s.ht K → ents.Nodup →
      (∀ ce ∈ ents, (s.ents ce).dev = -1 ∧ ce ∈ hand ∨ (s.ents ce).dev ≠ -1 ∧ ce ∈ xs .normal) →
      (∀ j, cur ≤ j → j < needed → ∀ ce, ¬K ⟨dev, bnum + j⟩ ce) →
      ∃ n s' xs' hand', claimEnts dev bnum needed cur ents s = .ok (n, s') ∧
        Claimed dev bnum needed cur ents xs hand K s s' xs' hand' := by
  induction ents with
  | nil =>
    intro cur s xs hand K hl hk _ _ _
    refine ⟨0, s, xs, hand, rfl, hl, fun cel ce => by simp, fun ce => by simp, ?_,
      fun ce => by simp, rfl⟩
    exact hk.congr fun b ce => by simp [not_newKeys_nil]
  | cons ce ents ih =>
    intro cur s xs hand K hl hk hnodup hents hnew
    have hrest := List.nodup_cons.mp hnodup
    obtain ⟨ht', hk', hstep⟩ := claimEnts_cons ce ents hk (hnew cur le_rfl)
    have hnew' : ∀ j, cur + 1 ≤ j → j < needed → ∀ ce', ¬((cur < needed ∧
        (⟨dev, bnum + j⟩ : Block) = ⟨dev, bnum + cur⟩ ∧ ce' = ce) ∨ K ⟨dev, bnum + j⟩ ce') := by
      rintro j hj hneed ce' (⟨-, heq, -⟩ | hk)
      · have hbnum := congrArg Block.bnum heq
        dsimp only at hbnum
        omega
      · exact hnew j (by omega) hneed ce' hk
    rw [hstep]
    have hl₁ := setBusy_lists hl true [ce]
    have hsame : ∀ ce' ∈ ents, (setBusy true s ce).ents ce' = s.ents ce' := fun ce' hce' =>
      setBusy_other fun heq => hrest.1 (heq ▸ hce')
    rcases hents ce List.mem_cons_self with ⟨hdev, hin⟩ | ⟨hdev, hin⟩
    · rw [if_pos hdev]
      obtain ⟨n, s', xs', hand', hrun, h⟩ :=
        ih (cur + 1) { setBusy true s ce with ht := ht' } xs hand
        _ (hl₁.congr rfl rfl rfl rfl fun _ _ => rfl) hk' hrest.2 (fun ce' hce' => by
          dsimp only
          rw [hsame ce' hce']
          exact hents ce' (List.mem_cons_of_mem _ hce')) hnew'
      refine ⟨n, s', xs', hand', hrun, h.cons (fun cel ce' => ?_) (fun ce' => ?_)
        (fun _ _ => Iff.rfl) rfl rfl⟩
      · refine ⟨fun hce' => ⟨hce', ?_⟩, And.left⟩
        rintro rfl
        exact (hl.loose ce' hin).1 ⟨cel, hce'⟩
      · refine ⟨.inl, ?_⟩
        rintro (hce' | rfl)
        · exact hce'
        · exact hin
    · have hlock := hl.normal_unlocked ce hin
      rw [if_neg hdev, if_neg (not_not.mpr hlock)]
      have htaken := hl₁.takeOut hin
      obtain ⟨n, s', xs', hand', hrun, h⟩ := ih (cur + 1)
        (deleteFromList { setBusy true s ce with ht := ht' } .normal ce) _ _ _
        (htaken.congr rfl rfl rfl rfl fun _ _ => rfl) hk' hrest.2 (fun ce' hce' => by
          change ((setBusy true s ce).ents ce').dev = -1 ∧ _ ∨
            ((setBusy true s ce).ents ce').dev ≠ -1 ∧ _
          rw [hsame ce' hce', Function.update_self,
            (hl.family.isList .normal).nodup.mem_erase_iff]
          refine (hents ce' (List.mem_cons_of_mem _ hce')).imp
            (fun h => ⟨h.1, List.mem_cons_of_mem _ h.2⟩) fun h => ⟨h.1, ?_, h.2⟩
          rintro rfl
          exact hrest.1 hce') hnew'
      rw [hrun]
      refine ⟨_, s', xs', hand', rfl, h.cons (fun cel ce' => ?_) (fun ce' => ?_)
        (fun _ _ => Iff.rfl) rfl rfl⟩
      · by_cases hcel : cel = .normal
        · subst hcel
          rw [Function.update_self, (hl.family.isList .normal).nodup.mem_erase_iff, and_comm]
        · rw [Function.update_of_ne hcel]
          refine ⟨fun hce' => ⟨hce', ?_⟩, And.left⟩
          rintro rfl
          exact hcel (hl.family.apart hce' hin)
      · rw [List.mem_cons, or_comm]

end Claiming

section Sorting
variable {s : Cache β} {ents : List ℕ}

theorem qsort_perm (s : Cache β) (ents : List ℕ) : (qsort s ents).Perm ents :=
  List.perm_insertionSort _ _

/-- An entry that was made for this miss. -/
def Fresh (s : Cache β) (ce : ℕ) : Prop := (s.ents ce).block = ⟨-1, -1⟩

theorem fresh_before {a b : ℕ} (ha : Fresh s a) (hb : Fresh s b ∨ 0 ≤ (s.ents b).dev) :
    cacheEntCmp (s.ents a) (s.ents b) ≤ 0 := by
  obtain ⟨hdev, hbnum⟩ := Block.mk.inj ha
  unfold cacheEntCmp
  rcases hb with hb | hb
  · obtain ⟨hdev', hbnum'⟩ := Block.mk.inj hb
    rw [hdev, hdev', if_pos rfl, hbnum, hbnum', sub_self]
    decide
  · rw [if_neg (by omega)]
    omega

theorem not_before_fresh {a b : ℕ} (ha : 0 ≤ (s.ents a).dev) (hb : Fresh s b) :
    ¬cacheEntCmp (s.ents a) (s.ents b) ≤ 0 := by
  have hdev := (Block.mk.inj hb).1
  unfold cacheEntCmp
  rw [if_neg (by omega)]
  omega

theorem insert_behind_fresh {a : ℕ} (ha : 0 ≤ (s.ents a).dev) {fs os : List ℕ}
    (hfs : ∀ ce ∈ fs, Fresh s ce) :
    (fs ++ os).orderedInsert (fun a b => cacheEntCmp (s.ents a) (s.ents b) ≤ 0) a =
      fs ++ os.orderedInsert (fun a b => cacheEntCmp (s.ents a) (s.ents b) ≤ 0) a := by
  induction fs with
  | nil => rfl
  | cons f fs ih =>
    refine (List.orderedInsert_of_not_le _ (fs ++ os)
      (not_before_fresh ha (hfs f List.mem_cons_self))).trans ?_
    exact congrArg (f :: ·) (ih fun ce hce => hfs ce (List.mem_cons_of_mem _ hce))

/-- The entries that are new come first. -/
theorem qsort_split (hall : ∀ ce ∈ ents, Fresh s ce ∨ 0 ≤ (s.ents ce).dev) :
    ∃ fs os, qsort s ents = fs ++ os ∧ (∀ ce ∈ fs, Fresh s ce) ∧
      ∀ ce ∈ os, 0 ≤ (s.ents ce).dev := by
  unfold qsort
  induction ents with
  | nil => exact ⟨[], [], rfl, fun _ h => absurd h List.not_mem_nil, fun _ h =>
      absurd h List.not_mem_nil⟩
  | cons a ents ih =>
    obtain ⟨fs, os, hsort, hfs, hos⟩ := ih fun ce hce => hall ce (List.mem_cons_of_mem _ hce)
    rw [List.insertionSort_cons, hsort]
    rcases hall a List.mem_cons_self with ha | ha
    · refine ⟨a :: fs, os, ?_, List.forall_mem_cons.mpr ⟨ha, hfs⟩, hos⟩
      rcases hl : fs ++ os with _ | ⟨b, l⟩
      · rw [List.cons_append, hl]
        rfl
      · have hb : Fresh s b ∨ 0 ≤ (s.ents b).dev := by
          have hmem : b ∈ fs ++ os := hl ▸ List.mem_cons_self
          exact (List.mem_append.mp hmem).imp (hfs b) (hos b)
        have hins : (b :: l).orderedInsert (fun a b => cacheEntCmp (s.ents a) (s.ents b) ≤ 0) a =
            a :: b :: l := List.orderedInsert_cons_of_le _ l (fresh_before ha hb)
        rw [hins, List.cons_append, hl]
    · refine ⟨fs, os.orderedInsert (fun a b => cacheEntCmp (s.ents a) (s.ents b) ≤ 0) a, ?_, hfs,
        fun ce hce => ?_⟩
      · exact insert_behind_fresh ha hfs
      · rcases (List.mem_orderedInsert _).mp hce with rfl | hce
        · exact ha
        · exact hos ce hce

end Sorting

section Hands
variable {s s₁ t : Cache β} {xs xs' : Members} {ents got : List ℕ} {dev bnum : ℤ}
  {needed max n : ℕ}

/-- The miss has its victims `ents` in hand, and is about to write them. -/
structure InHand (s : Cache β) (xs : Members) (dev bnum : ℤ) (needed : ℕ) (ents : List ℕ)
    (t : Cache β) (xs' : Members) : Prop where
  lists : Lists t xs' ents
  listed : ∀ ce, Listed xs' ce ↔ Listed xs ce ∧ ce ∉ ents
  keys : Keys t.ht fun b ce => NewKeys dev bnum 0 (ents.take needed) b ce ∨
    (Listed xs ce ∧ (s.ents ce).block = b)
  entries : ∀ ce, Listed xs ce → t.ents ce = { s.ents ce with busy := ce ∈ ents }
  enough : needed ≤ ents.length
  sorted : ∃ fs os, ents = fs ++ os ∧ fs.length = newEnts s needed ∧
    (∀ ce ∈ fs, Fresh t ce ∧ (t.ents ce).lock = 0) ∧ ∀ ce ∈ os, ce ∈ xs .normal
  log : t.log = s.log
  curBlocks : t.curBlocks = s.curBlocks + newEnts s needed
  maxBlocks : t.maxBlocks = s.maxBlocks

theorem inHand_of_miss (h : Intact s xs) (hpos : 0 < needed)
    (hfree : ∀ j < needed, hashLookup s.ht ⟨dev, bnum + j⟩ = none)
    (hget : getEnts s needed max = .ok (got, s₁))
    (hclaim : claimEnts dev bnum needed 0 (qsort s₁ got) s₁ = .ok (n, t)) :
    ∃ xs', InHand s xs dev bnum needed (qsort s₁ got) t xs' := by
  have hob := getEnts_spec h.lists (fun ce hce => h.idle ce ⟨_, hce⟩) hpos hget
  have hmem : ∀ ce, ce ∈ qsort s₁ got ↔
      ce ∈ List.range' s.made (newEnts s needed) ∨
        ce ∈ (xs .normal).take (plucked s xs needed max) :=
    fun ce => by rw [(qsort_perm s₁ got).mem_iff, hob.ents_eq, List.mem_append]
  have hold : ∀ ce, Listed xs ce → ce ∉ List.range' s.made (newEnts s needed) := fun ce hce hin =>
    absurd (h.lists.made ce (.inl hce)) (not_lt.mpr (mem_fresh hin))
  have hnodup : (qsort s₁ got).Nodup := by
    rw [(qsort_perm s₁ got).nodup_iff, hob.ents_eq]
    refine List.nodup_append.mpr ⟨List.nodup_range', ?_, ?_⟩
    · exact (h.lists.family.isList .normal).nodup.sublist (List.take_sublist _ _)
    · rintro a ha b hb rfl
      exact hold a ⟨_, List.mem_of_mem_take hb⟩ ha
  have hents₁ : ∀ ce, Listed xs ce →
      s₁.ents ce = { s.ents ce with busy := decide (ce ∈ qsort s₁ got) } := by
    intro ce hce
    rw [hob.entries, if_neg (hold ce hce), h.idle ce hce, Bool.false_or]
    simp only [(qsort_perm s₁ got).mem_iff]
  have hfresh₁ : ∀ ce ∈ List.range' s.made (newEnts s needed),
      s₁.ents ce = freshEnt s.junk := fun ce hce => by
    rw [hob.entries, if_pos hce]
  have hk : Keys s₁.ht fun b ce => Listed xs ce ∧ (s.ents ce).block = b := by
    rw [hob.same]
    exact h.keys
  obtain ⟨n', t', xs', hand', hrun, hc⟩ := claimEnts_spec dev bnum needed (qsort s₁ got) 0 s₁ xs
    (List.range' s.made (newEnts s needed)) _ hob.lists hk hnodup (fun ce hce => by
      rcases (hmem ce).mp hce with hin | hin
      · exact .inl ⟨by rw [hfresh₁ ce hin]; rfl, hin⟩
      · have hlisted : Listed xs ce := ⟨_, List.mem_of_mem_take hin⟩
        have hdev := h.dev ce hlisted
        refine .inr ⟨?_, List.mem_of_mem_take hin⟩
        rw [hents₁ ce hlisted]
        dsimp only
        omega) (fun j _ hj => h.keys.absent.mp (hfree j hj))
  obtain ⟨rfl, rfl⟩ := Prod.mk.inj (Except.ok.inj (hclaim.symm.trans hrun))
  have hents : ∀ ce, Listed xs ce →
      t.ents ce = { s.ents ce with busy := decide (ce ∈ qsort s₁ got) } := by
    intro ce hce
    rw [hc.entries, hents₁ ce hce, Bool.or_self]
  refine ⟨xs', ?_, ?_, ?_, hents, ?_, ?_, ?_, ?_, ?_⟩
  · refine hc.lists.perm ((List.perm_ext_iff_of_nodup hc.lists.nodup hnodup).mpr fun ce => ?_)
    rw [hc.inHand]
    exact ⟨fun hin => hin.elim (fun hin => (hmem ce).mpr (.inl hin)) id, .inr⟩
  · intro ce
    exact ⟨fun ⟨cel, hce⟩ => ⟨⟨cel, ((hc.listed cel ce).mp hce).1⟩, ((hc.listed cel ce).mp hce).2⟩,
      fun ⟨⟨cel, hce⟩, hnot⟩ => ⟨cel, (hc.listed cel ce).mpr ⟨hce, hnot⟩⟩⟩
  · exact hc.keys
  · rw [(qsort_perm s₁ got).length_eq]
    exact hob.enough
  · have hkinds : ∀ ce ∈ got, Fresh s₁ ce ∨ 0 ≤ (s₁.ents ce).dev := by
      intro ce hce
      rcases (hmem ce).mp ((qsort_perm s₁ got).mem_iff.mpr hce) with hin | hin
      · refine .inl ?_
        rw [Fresh, hfresh₁ ce hin]
        rfl
      · have hlisted : Listed xs ce := ⟨_, List.mem_of_mem_take hin⟩
        refine .inr ?_
        rw [hents₁ ce hlisted]
        exact h.dev ce hlisted
    obtain ⟨fs, os, hsort, hfs, hos⟩ := qsort_split hkinds
    have hkind : ∀ ce, ce ∈ fs ↔ ce ∈ List.range' s.made (newEnts s needed) := by
      intro ce
      constructor
      · intro hce
        refine ((hmem ce).mp (hsort ▸ List.mem_append_left _ hce)).resolve_right fun hin => ?_
        have hlisted : Listed xs ce := ⟨_, List.mem_of_mem_take hin⟩
        have hdev := (Block.mk.inj (hfs ce hce)).1
        have hpos := h.dev ce hlisted
        rw [hents₁ ce hlisted] at hdev
        dsimp only at hdev
        omega
      · intro hin
        have hce := (hmem ce).mpr (.inl hin)
        rw [hsort] at hce
        refine (List.mem_append.mp hce).resolve_right fun hold => ?_
        have hdev := hos ce hold
        rw [hfresh₁ ce hin] at hdev
        change (0 : ℤ) ≤ -1 at hdev
        omega
    have hnodup' := hsort ▸ hnodup
    refine ⟨fs, os, hsort, ?_, fun ce hce => ?_, fun ce hce => ?_⟩
    · have hperm := (List.perm_ext_iff_of_nodup (List.nodup_append.mp hnodup').1
        List.nodup_range').mpr hkind
      rw [hperm.length_eq, List.length_range']
    · rw [Fresh, hc.entries, hfresh₁ ce ((hkind ce).mp hce)]
      exact ⟨rfl, rfl⟩
    · refine List.mem_of_mem_take (((hmem ce).mp (hsort ▸ List.mem_append_right _ hce)).resolve_left
        fun hin => ?_)
      exact (List.nodup_append.mp hnodup').2.2 ce ((hkind ce).mpr hin) ce hce rfl
  · rw [hc.same, hob.same]
  · rw [hc.same, hob.same]
  · rw [hc.same, hob.same]

/-- With a new entry among the victims the first one is new. -/
theorem InHand.fresh (hin : InHand s xs dev bnum needed ents t xs') (hnew : newEnts s needed ≠ 0) :
    ∃ ce rest, ents = ce :: rest ∧ Fresh t ce := by
  obtain ⟨fs, os, hents, hlen, hfs, -⟩ := hin.sorted
  cases fs with
  | nil => exact absurd hlen.symm hnew
  | cons ce fs => exact ⟨ce, fs ++ os, hents, (hfs ce List.mem_cons_self).1⟩

theorem InHand.old (hin : InHand s xs dev bnum needed ents t xs') (hfull : newEnts s needed = 0) :
    ∀ ce ∈ ents, ce ∈ xs .normal := by
  obtain ⟨fs, os, hents, hlen, -, hos⟩ := hin.sorted
  rw [hfull, List.length_eq_zero_iff] at hlen
  rw [hents, hlen, List.nil_append]
  exact hos

/-- The victims are entries for different blocks. -/
theorem InHand.distinct (hin : InHand s xs dev bnum needed ents t xs') (h : Intact s xs)
    (hfull : newEnts s needed = 0) : Distinct t.ents ents := by
  refine List.Nodup.map_on ?_ hin.lists.nodup
  intro a ha b hb heq
  have hlisted : ∀ ce ∈ ents, Listed xs ce := fun ce hce => ⟨_, hin.old hfull ce hce⟩
  rw [hin.entries a (hlisted a ha), hin.entries b (hlisted b hb)] at heq
  exact h.keys.unique ⟨hlisted a ha, heq⟩ ⟨hlisted b hb, rfl⟩

theorem countBlocks_spec (stop : ℕ → Bool) (limit : ℕ) : ∀ n, n ≤ countBlocks stop n limit ∧
    ∀ j, n ≤ j → j < countBlocks stop n limit → stop j = false := by
  induction limit with
  | zero => exact fun n => ⟨le_rfl, fun j hle hlt => absurd hlt (not_lt.mpr hle)⟩
  | succ limit ih =>
    intro n
    unfold countBlocks
    by_cases hstop : stop n = true
    · rw [if_pos hstop]
      exact ⟨le_rfl, fun j hle hlt => absurd hlt (not_lt.mpr hle)⟩
    · rw [if_neg hstop]
      obtain ⟨hle, hfree⟩ := ih (n + 1)
      refine ⟨Nat.le_of_succ_le hle, fun j hj hlt => ?_⟩
      rcases Nat.eq_or_lt_of_le hj with rfl | hj
      · exact Bool.eq_false_iff.mpr hstop
      · exact hfree j hj hlt

/-- None of the blocks for which a miss gets entries is in the cache. -/
theorem chooseBlocks_free (numBlocks bsize : ℕ) (op : Op)
    (hmiss : hashLookup s.ht ⟨dev, bnum⟩ = none) :
    0 < (chooseBlocks s dev bnum numBlocks bsize op).2 ∧
      ∀ j < (chooseBlocks s dev bnum numBlocks bsize op).2,
        hashLookup s.ht ⟨dev, bnum + j⟩ = none := by
  obtain ⟨hone, hcur⟩ := countBlocks_spec (fun n => (hashLookup s.ht ⟨dev, bnum + n⟩).isSome)
    (min numBlocks numFlushBlocks - 1) 1
  have hcur' : ∀ j < countBlocks (fun n => (hashLookup s.ht ⟨dev, bnum + n⟩).isSome) 1
      (min numBlocks numFlushBlocks - 1), hashLookup s.ht ⟨dev, bnum + j⟩ = none := by
    intro j hj
    rcases Nat.eq_zero_or_pos j with rfl | hpos
    · rwa [Nat.cast_zero, add_zero]
    · exact Option.not_isSome_iff_eq_none.mp (Bool.eq_false_iff.mp (hcur j hpos hj))
  unfold chooseBlocks
  dsimp only
  generalize countBlocks (fun n => (hashLookup s.ht ⟨dev, bnum + n⟩).isSome) 1
    (min numBlocks numFlushBlocks - 1) = cur at hone hcur' ⊢
  split
  · obtain ⟨hle, hmore⟩ := countBlocks_spec (fun n => decide (s.maxDeviceBlocks dev ≤ bnum + n ∨
      (hashLookup s.ht ⟨dev, bnum + n⟩).isSome = true)) (readAheadSize / bsize - cur) cur
    refine ⟨lt_of_lt_of_le hone hle, fun j hj => ?_⟩
    rcases Nat.lt_or_ge j cur with hlt | hge
    · exact hcur' j hlt
    · have hstop := not_or.mp (of_decide_eq_false (hmore j hge hj))
      exact Option.not_isSome_iff_eq_none.mp hstop.2
  · exact ⟨hone, hcur'⟩

end Hands

end CacheVictims
