import Mathlib.Tactic
import FsKit.FlushTermination

/-! The structure of the block cache (`cache.c`): its two lists, its hash table and its count of
entries, in a cache at rest and while a call has entries in hand that are on no list. -/
namespace CacheStructure

open LinkedList HashTable BlockCache
open FlushTermination (setBusy_all)

variable {β : Type}

section Links
variable {l : Links ℕ} {e : Ends ℕ} {ce : ℕ} {xs ys : List ℕ}

/-- An entry is at an end of its list if it has no neighbour there, and it is not its own
neighbour. -/
theorem ends_neighbours (h : IsList l e (xs ++ ce :: ys)) :
    (e.head = some ce ↔ l.prev ce = none) ∧ (e.tail = some ce ↔ l.next ce = none) ∧
      (∀ n, l.next ce = some n → ce ≠ n) ∧ ∀ p, l.prev ce = some p → ce ≠ p := by
  obtain ⟨hprev, hnext⟩ := h.neighbours
  refine ⟨?_, ?_, ?_, ?_⟩
  · rw [h.head, hprev]
    cases xs with
    | nil => simp
    | cons x xs =>
      have hne : x ≠ ce := by
        rintro rfl
        exact (List.nodup_cons.mp h.nodup).1 (List.mem_append_right _ List.mem_cons_self)
      simp [hne]
  · rw [h.tail, hnext]
    cases ys with
    | nil => simp
    | cons y ys =>
      have hne : (y :: ys).getLast? ≠ some ce := by
        intro heq
        have hmem := List.mem_of_getLast? heq
        exact (List.nodup_cons.mp (List.nodup_append.mp h.nodup).2.1).1 hmem
      have hlast : (xs ++ ce :: y :: ys).getLast? = (y :: ys).getLast? := by
        rw [List.append_cons, List.getLast?_append, List.getLast?_eq_some_getLast]
        · rfl
        · exact List.cons_ne_nil y ys
      rw [hlast]
      simp [hne]
  · rintro n hn rfl
    rw [hnext] at hn
    exact (List.nodup_cons.mp (List.nodup_append.mp h.nodup).2.1).1 (List.mem_of_mem_head? hn)
  · rintro p hp rfl
    rw [hprev] at hp
    have hmem := List.mem_of_getLast? hp
    exact (List.nodup_append.mp h.nodup).2.2 _ hmem _ List.mem_cons_self rfl

/-- An entry that is detached leaves its list as with `unlink`, and its own links are cleared. -/
theorem detach_eq_unlink (h : IsList l e (xs ++ ce :: ys)) :
    detach l e ce = (((unlink l e ce).1.setNext ce none).setPrev ce none, (unlink l e ce).2) := by
  obtain ⟨hhead, htail, hne, hpe⟩ := ends_neighbours h
  unfold detach unlink joinNext joinPrev
  rcases hn : l.next ce with _ | n <;> rcases hp : l.prev ce with _ | p
  · simp [hn, hp, hhead.mpr hp, htail.mpr hn]
  · have hhead' : e.head ≠ some ce := fun heq => by rw [hhead.mp heq] at hp; cases hp
    simp [hn, hp, hhead', htail.mpr hn, Links.setNext_next, hpe p hp]
  · have htail' : e.tail ≠ some ce := fun heq => by rw [htail.mp heq] at hn; cases hn
    simp [hn, hp, hhead.mpr hp, htail', Links.setPrev_prev, hne n hn]
  · have hhead' : e.head ≠ some ce := fun heq => by rw [hhead.mp heq] at hp; cases hp
    have htail' : e.tail ≠ some ce := fun heq => by rw [htail.mp heq] at hn; cases hn
    simp [hn, hp, hhead', htail', Links.setPrev_prev, Links.setNext_next, hne n hn, hpe p hp]
    rfl

theorem ends_none_iff (h : IsList l e xs) : e.head = none ↔ e.tail = none := by
  rw [h.head, h.tail, List.head?_eq_none_iff, List.getLast?_eq_none_iff]

theorem attachHead_eq_pushBack (h : IsList l e xs) (ce : ℕ) :
    attachHead l e ce = pushBack l e ce := by
  unfold attachHead pushBack joinNext
  rcases htail : e.tail with _ | m
  · have hhead : e.head = none := (ends_none_iff h).mpr htail
    simp [hhead]
  · have hhead : e.head ≠ none := fun hnone => by
      rw [(ends_none_iff h).mp hnone] at htail
      cases htail
    simp [hhead]

theorem attachTail_eq_pushFront (h : IsList l e xs) (ce : ℕ) :
    attachTail l e ce = pushFront l e ce := by
  unfold attachTail pushFront joinPrev
  rcases hhead : e.head with _ | m
  · have htail : e.tail = none := (ends_none_iff h).mp hhead
    simp [htail]
  · have htail : e.tail ≠ none := fun hnone => by
      rw [(ends_none_iff h).mpr hnone] at hhead
      cases hhead
    simp [htail]

/-- The walk along the links goes through the list. -/
theorem nodes_of_linked {p : Option ℕ} {n : ℕ} (h : Linked l p xs none) (hn : xs.length ≤ n) :
    nodes l n xs.head? = xs := by
  induction xs generalizing p n with
  | nil => cases n <;> rfl
  | cons x xs ih =>
    obtain ⟨n, rfl⟩ := Nat.exists_eq_add_one.mpr (lt_of_lt_of_le (Nat.succ_pos _) hn)
    obtain ⟨-, hnext, hrest⟩ := h
    rw [Option.or_none] at hnext
    rw [List.head?_cons, nodes, hnext, ih hrest (Nat.le_of_succ_le_succ hn)]

end Links

/-- The entries of the two lists, from the lru end on. -/
abbrev Members := ListName → List ℕ

def Listed (xs : Members) (ce : ℕ) : Prop := ∃ cel, ce ∈ xs cel

/-- The lists are well formed and have the entries `xs`; the entries in hand are on no list, and
every entry is on a list or in hand. -/
structure Lists (s : Cache β) (xs : Members) (hand : List ℕ) : Prop where
  family : Family s.links s.lists xs
  made : ∀ ce, Listed xs ce ∨ ce ∈ hand → ce < s.made
  lock : ∀ cel, ∀ ce ∈ xs cel, lockedName (s.ents ce).lock = cel
  nodup : hand.Nodup
  loose : ∀ ce ∈ hand, ¬Listed xs ce ∧ s.links.next ce = none ∧ s.links.prev ce = none
  count : s.curBlocks = (xs .normal).length + (xs .locked).length + hand.length

section ListSteps
variable {s s' : Cache β} {xs : Members} {hand : List ℕ} {ce : ℕ} {cel : ListName}

theorem Lists.length_le (h : Lists s xs hand) (cel : ListName) : (xs cel).length ≤ s.made := by
  have hsub : xs cel ⊆ List.range s.made := by
    intro ce hce
    exact List.mem_range.mpr (h.made ce (.inl ⟨cel, hce⟩))
  have hlen := ((h.family.isList cel).nodup.subperm hsub).length_le
  rwa [List.length_range] at hlen

theorem Lists.listNodes_eq (h : Lists s xs hand) (cel : ListName) : listNodes s cel = xs cel := by
  unfold listNodes
  rw [(h.family.isList cel).head]
  exact nodes_of_linked (h.family.isList cel).linked (h.length_le cel)

theorem Lists.normal_unlocked (h : Lists s xs hand) :
    ∀ ce ∈ xs .normal, (s.ents ce).lock = 0 := by
  intro ce hce
  have hname := h.lock .normal ce hce
  unfold lockedName at hname
  split at hname
  · assumption
  · cases hname

/-- Other fields of the entries play no role for the lists, nor does anything beside them. -/
theorem Lists.congr (h : Lists s xs hand) (hlinks : s'.links = s.links)
    (hlists : s'.lists = s.lists)
    (hmade : s'.made = s.made) (hcur : s'.curBlocks = s.curBlocks)
    (hlock : ∀ ce, Listed xs ce → (s'.ents ce).lock = (s.ents ce).lock) :
    Lists s' xs hand where
  family := by
    rw [hlinks, hlists]
    exact h.family
  made ce hce := by
    rw [hmade]
    exact h.made ce hce
  lock cel ce hce := by
    rw [hlock ce ⟨cel, hce⟩]
    exact h.lock cel ce hce
  nodup := h.nodup
  loose ce hce := by
    rw [hlinks]
    exact h.loose ce hce
  count := hcur.trans h.count

theorem Lists.perm {hand' : List ℕ} (h : Lists s xs hand) (hp : hand.Perm hand') :
    Lists s xs hand' where
  family := h.family
  made ce hce := h.made ce (hce.imp id hp.mem_iff.mpr)
  lock := h.lock
  nodup := hp.nodup_iff.mp h.nodup
  loose ce hce := h.loose ce (hp.mem_iff.mpr hce)
  count := by rw [h.count, hp.length_eq]

theorem listed_update (xs : Members) (cel : ListName) (ys : List ℕ) (ce : ℕ) :
    Listed (Function.update xs cel ys) ce ↔ ce ∈ ys ∨ ∃ cel', cel' ≠ cel ∧ ce ∈ xs cel' := by
  constructor
  · rintro ⟨cel', hce⟩
    by_cases hcel : cel' = cel
    · subst hcel
      rw [Function.update_self] at hce
      exact .inl hce
    · rw [Function.update_of_ne hcel] at hce
      exact .inr ⟨cel', hcel, hce⟩
  · rintro (hce | ⟨cel', hcel, hce⟩)
    · exact ⟨cel, by rwa [Function.update_self]⟩
    · exact ⟨cel', by rwa [Function.update_of_ne hcel]⟩

theorem length_update (xs : Members) (cel : ListName) (ys : List ℕ) :
    (Function.update xs cel ys .normal).length + (Function.update xs cel ys .locked).length +
        (xs cel).length =
      (xs .normal).length + (xs .locked).length + ys.length := by
  cases cel <;> simp [Function.update] <;> omega

/-- An entry is taken off its list. -/
theorem Lists.takeOut (h : Lists s xs hand) (hce : ce ∈ xs cel) :
    Lists (deleteFromList s cel ce) (Function.update xs cel ((xs cel).erase ce)) (ce :: hand) := by
  obtain ⟨as, bs, hsplit⟩ := List.append_of_mem hce
  have hlist := h.family.isList cel
  rw [hsplit] at hlist
  have hdet := detach_eq_unlink hlist
  have hfam := h.family.unlink hce
  have hlisted : ∀ ce', Listed (Function.update xs cel ((xs cel).erase ce)) ce' →
      Listed xs ce' ∧ ce' ≠ ce := by
    intro ce' h'
    rcases (listed_update _ _ _ _).mp h' with hmem | ⟨cel', hcel, hmem⟩
    · exact ⟨⟨cel, List.mem_of_mem_erase hmem⟩,
        ((h.family.isList cel).nodup.mem_erase_iff.mp hmem).1⟩
    · refine ⟨⟨cel', hmem⟩, ?_⟩
      rintro rfl
      exact hcel (h.family.apart hmem hce)
  have hlinks : ∀ ce', Listed (Function.update xs cel ((xs cel).erase ce)) ce' →
      (detach s.links (s.lists cel) ce).1.next ce' = (unlink s.links (s.lists cel) ce).1.next ce' ∧
      (detach s.links (s.lists cel) ce).1.prev ce' =
        (unlink s.links (s.lists cel) ce).1.prev ce' := by
    intro ce' h'
    have hne := (hlisted ce' h').2
    rw [hdet]
    simp [Links.setNext_next, Links.setPrev_prev, hne]
  refine ⟨?_, ?_, ?_, ?_, ?_, ?_⟩
  · change Family (detach s.links (s.lists cel) ce).1
      (Function.update s.lists cel (detach s.links (s.lists cel) ce).2) _
    refine ⟨fun cel' => ?_, hfam.apart⟩
    have hends : (detach s.links (s.lists cel) ce).2 = (unlink s.links (s.lists cel) ce).2 := by
      rw [hdet]
    rw [hends]
    exact (hfam.isList cel').congr fun ce' hce' => hlinks ce' ⟨cel', hce'⟩
  · rintro ce' (h' | h')
    · exact h.made ce' (.inl (hlisted ce' h').1)
    · rcases List.mem_cons.mp h' with rfl | h'
      · exact h.made ce' (.inl ⟨cel, hce⟩)
      · exact h.made ce' (.inr h')
  · intro cel' ce' hce'
    refine h.lock cel' ce' ?_
    by_cases hcel : cel' = cel
    · subst hcel
      rw [Function.update_self] at hce'
      exact List.mem_of_mem_erase hce'
    · rwa [Function.update_of_ne hcel] at hce'
  · refine List.nodup_cons.mpr ⟨fun hhand => ?_, h.nodup⟩
    exact (h.loose ce hhand).1 ⟨cel, hce⟩
  · intro ce' hce'
    refine ⟨fun h' => ?_, ?_⟩
    · obtain ⟨hl, hne⟩ := hlisted ce' h'
      rcases List.mem_cons.mp hce' with rfl | hce'
      · exact hne rfl
      · exact (h.loose ce' hce').1 hl
    · change (detach s.links (s.lists cel) ce).1.next ce' = none ∧
        (detach s.links (s.lists cel) ce).1.prev ce' = none
      rw [hdet]
      by_cases hne : ce' = ce
      · simp [Links.setNext_next, Links.setPrev_prev, hne]
      · have hin := (List.mem_cons.mp hce').resolve_left hne
        have hout := unlink_other hlist fun hmem => (h.loose ce' hin).1 ⟨cel, hsplit ▸ hmem⟩
        simp only [Links.setNext_next, Links.setPrev_prev, Links.setNext_prev, Links.setPrev_next,
          hne, if_false, hout]
        exact (h.loose ce' hin).2
  · have hlen := length_update xs cel ((xs cel).erase ce)
    have herase := List.length_erase_of_mem hce
    have hpos := List.length_pos_of_mem hce
    have hcount := h.count
    change s.curBlocks = _
    rw [List.length_cons]
    omega

/-- An entry in hand is put at an end of the list that its lock asks for. -/
theorem Lists.putIn (h : Lists s xs (ce :: hand)) {l' : Links ℕ} {e' : Ends ℕ} {ys : List ℕ}
    (hlist : IsList l' e' ys) (hperm : ys.Perm (ce :: xs (lockedName (s.ents ce).lock)))
    (hother : ∀ v, v ∉ xs (lockedName (s.ents ce).lock) → v ≠ ce →
      l'.next v = s.links.next v ∧ l'.prev v = s.links.prev v) :
    Lists { s with
        links := l'
        lists := Function.update s.lists (lockedName (s.ents ce).lock) e' }
      (Function.update xs (lockedName (s.ents ce).lock) ys) hand := by
  have hloose := h.loose ce List.mem_cons_self
  have hmem : ∀ v, v ∈ ys ↔ v = ce ∨ v ∈ xs (lockedName (s.ents ce).lock) := by
    intro v
    rw [hperm.mem_iff, List.mem_cons]
  have hlisted : ∀ ce', Listed (Function.update xs (lockedName (s.ents ce).lock) ys) ce' →
      ce' = ce ∨ Listed xs ce' := by
    intro ce' h'
    rcases (listed_update _ _ _ _).mp h' with h' | ⟨cel', -, h'⟩
    · exact ((hmem ce').mp h').imp id fun h' => ⟨_, h'⟩
    · exact .inr ⟨cel', h'⟩
  have hnodup := List.nodup_cons.mp h.nodup
  refine ⟨h.family.push (fun j hj => hloose.1 ⟨j, hj⟩) hlist hmem hother, ?_, ?_, hnodup.2, ?_, ?_⟩
  · rintro ce' (h' | h')
    · rcases hlisted ce' h' with rfl | h'
      · exact h.made ce' (.inr List.mem_cons_self)
      · exact h.made ce' (.inl h')
    · exact h.made ce' (.inr (List.mem_cons_of_mem _ h'))
  · intro cel' ce' hce'
    by_cases hcel : cel' = lockedName (s.ents ce).lock
    · subst hcel
      rw [Function.update_self, hmem] at hce'
      rcases hce' with rfl | hce'
      · rfl
      · exact h.lock _ ce' hce'
    · rw [Function.update_of_ne hcel] at hce'
      exact h.lock cel' ce' hce'
  · intro ce' hce'
    have hne : ce' ≠ ce := by
      rintro rfl
      exact hnodup.1 hce'
    obtain ⟨hl, hlinks⟩ := h.loose ce' (List.mem_cons_of_mem _ hce')
    refine ⟨fun h' => (hlisted ce' h').elim hne hl, ?_⟩
    have hsame := hother ce' (fun hin => hl ⟨_, hin⟩) hne
    dsimp only
    rw [hsame.1, hsame.2]
    exact hlinks
  · have hlen := length_update xs (lockedName (s.ents ce).lock) ys
    have hys := hperm.length_eq
    have hcount := h.count
    rw [List.length_cons] at hys hcount
    change s.curBlocks = _
    omega

theorem Lists.addToHead (h : Lists s xs (ce :: hand)) :
    ∃ l' e', BlockCache.addToHead s (lockedName (s.ents ce).lock) ce = .ok { s with
        links := l'
        lists := Function.update s.lists (lockedName (s.ents ce).lock) e' } ∧
      Lists { s with
          links := l'
          lists := Function.update s.lists (lockedName (s.ents ce).lock) e' }
        (Function.update xs (lockedName (s.ents ce).lock)
          (xs (lockedName (s.ents ce).lock) ++ [ce])) hand := by
  have hloose := h.loose ce List.mem_cons_self
  have hlist := h.family.isList (lockedName (s.ents ce).lock)
  have hnot : ce ∉ xs (lockedName (s.ents ce).lock) := fun hin => hloose.1 ⟨_, hin⟩
  refine ⟨_, _, ?_, h.putIn (pushBack_isList hlist hnot) ?_ ?_⟩
  · unfold BlockCache.addToHead
    rw [if_neg (by simp [hloose.2]), attachHead_eq_pushBack hlist]
  · exact List.perm_append_comm
  · intro v hv hne
    exact pushBack_other hlist hv hne

theorem Lists.addToTail (h : Lists s xs (ce :: hand)) :
    ∃ l' e', BlockCache.addToTail s (lockedName (s.ents ce).lock) ce = .ok { s with
        links := l'
        lists := Function.update s.lists (lockedName (s.ents ce).lock) e' } ∧
      Lists { s with
          links := l'
          lists := Function.update s.lists (lockedName (s.ents ce).lock) e' }
        (Function.update xs (lockedName (s.ents ce).lock)
          (ce :: xs (lockedName (s.ents ce).lock))) hand := by
  have hloose := h.loose ce List.mem_cons_self
  have hlist := h.family.isList (lockedName (s.ents ce).lock)
  have hnot : ce ∉ xs (lockedName (s.ents ce).lock) := fun hin => hloose.1 ⟨_, hin⟩
  refine ⟨_, _, ?_, h.putIn (pushFront_isList hlist hnot) (List.Perm.refl _) ?_⟩
  · unfold BlockCache.addToTail
    rw [if_neg (by simp [hloose.2]), attachTail_eq_pushFront hlist]
  · intro v hv hne
    exact pushFront_other hlist hv hne

/-- An entry in hand is freed. -/
theorem Lists.free (h : Lists s xs (ce :: hand)) :
    Lists { s with curBlocks := s.curBlocks - 1 } xs hand := by
  have hcount := h.count
  rw [List.length_cons] at hcount
  refine ⟨h.family, fun ce' hce' => h.made ce' (hce'.imp id (List.mem_cons_of_mem _)), h.lock,
    (List.nodup_cons.mp h.nodup).2, fun ce' hce' => h.loose ce' (List.mem_cons_of_mem _ hce'), ?_⟩
  dsimp only
  omega

theorem Lists.freeAll (ents : List ℕ) (h : Lists s xs (ents ++ hand)) :
    Lists { s with curBlocks := s.curBlocks - ents.length } xs hand := by
  induction ents generalizing s with
  | nil => exact h
  | cons ce ents ih =>
    have hrest := ih h.free
    rw [List.length_cons, Nat.add_comm, ← Nat.sub_sub]
    exact hrest

end ListSteps

/-- The keys of the hash table and the entries they lead to. -/
structure Keys (ht : Table Block ℕ) (K : Block → ℕ → Prop) : Prop where
  wf : Wf HASH ht
  iff : ∀ b ce, hashLookup ht b = some ce ↔ K b ce

section KeySteps
variable {ht : Table Block ℕ} {K K' : Block → ℕ → Prop} {b : Block} {ce ce' : ℕ}

theorem Keys.unique (h : Keys ht K) (hk : K b ce) (hk' : K b ce') : ce = ce' := by
  have heq := ((h.iff b ce).mpr hk).symm.trans ((h.iff b ce').mpr hk')
  exact Option.some.inj heq

theorem Keys.congr (h : Keys ht K) (hK : ∀ b ce, K b ce ↔ K' b ce) : Keys ht K' :=
  ⟨h.wf, fun b ce => (h.iff b ce).trans (hK b ce)⟩

theorem Keys.absent (h : Keys ht K) : hashLookup ht b = none ↔ ∀ ce, ¬K b ce := by
  rw [Option.eq_none_iff_forall_ne_some]
  exact forall_congr' fun ce => not_congr (h.iff b ce)

theorem Keys.insert (h : Keys ht K) (hnew : ∀ ce, ¬K b ce) (ce : ℕ) :
    ∃ ht', hashInsert ht b ce = (0, ht') ∧
      Keys ht' fun b' ce' => b' = b ∧ ce' = ce ∨ K b' ce' := by
  obtain ⟨ht', hins, hwf, hlookup⟩ := insert_spec h.wf (h.absent.mpr hnew) ce
  refine ⟨ht', ?_, hwf, fun b' ce' => ?_⟩
  · unfold hashInsert
    rw [hins]
  · have hold := h.iff b' ce'
    unfold hashLookup at hold ⊢
    rw [hlookup, Function.update_apply]
    split
    · rename_i heq
      subst heq
      refine ⟨fun hsome => .inl ⟨rfl, (Option.some.inj hsome).symm⟩, ?_⟩
      rintro (⟨-, rfl⟩ | hk)
      · rfl
      · exact absurd hk (hnew ce')
    · rename_i hne
      rw [hold]
      exact ⟨.inr, fun hor => hor.resolve_left fun hk => hne hk.1⟩

theorem Keys.delete (h : Keys ht K) (hk : K b ce) :
    ∃ ht', hashDelete ht b = (some ce, ht') ∧ Keys ht' fun b' ce' => b' ≠ b ∧ K b' ce' := by
  obtain ⟨ht', hdel, hwf, hlookup⟩ := delete_spec h.wf ((h.iff b ce).mpr hk)
  refine ⟨ht', hdel, hwf, fun b' ce' => ?_⟩
  have hold := h.iff b' ce'
  unfold hashLookup at hold ⊢
  rw [hlookup, Function.update_apply]
  split
  · rename_i heq
    exact iff_of_false (Option.some_ne_none ce').symm fun hor => hor.1 heq
  · rename_i hne
    rw [hold]
    exact ⟨fun hk => ⟨hne, hk⟩, And.right⟩

/-- A key that is not there is not deleted. -/
theorem Keys.delete_absent (h : Keys ht K) (hnone : ∀ ce, ¬K b ce) :
    (hashDelete ht b).1 = none := by
  have hfind : findEnt HASH ht b = none := lookup_eq_none_iff.mp (h.absent.mpr hnone)
  unfold hashDelete HashTable.delete
  rw [hfind]

end KeySteps

/-- A cache at rest: every entry is on the list of its lock, the hash table has exactly the
blocks of the entries, nothing is busy and there are no more entries than there may be. -/
structure Intact (s : Cache β) (xs : Members) : Prop where
  lists : Lists s xs []
  idle : ∀ ce, Listed xs ce → (s.ents ce).busy = false
  dev : ∀ ce, Listed xs ce → 0 ≤ (s.ents ce).dev
  keys : Keys s.ht fun b ce => Listed xs ce ∧ (s.ents ce).block = b
  cap : s.curBlocks ≤ s.maxBlocks

def Structured (s : Cache β) : Prop := ∃ xs, Intact s xs

end CacheStructure
