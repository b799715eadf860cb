import FsKit.BitVectorSearch
import FsKit.RunScan

/-! Which part of the vector a search that fails has looked at, the longest free range it
reports and the set bits it counts. The loop over the chunks makes two passes: from the
chunk of `next_free` to the end, and from the start of the vector on. -/
namespace SearchCoverage
open BitVectorSearch RunScan

section OneChunk
variable {bv : BitVector} {len i begin a i' n p : ℕ} {m m' : ℤ} {z z' : ℕ}

/-- The scan from position `a` in chunk `begin` came to the last bit of chunk `n`. -/
structure ToChunk (bv : BitVector) (len i begin a i' n : ℕ) (m m' : ℤ) (z z' : ℕ) : Prop where
  le : begin ≤ n
  lt : n < chunkCount bv.numbits
  index : i' = i + (n - begin)
  last : bv.bit (n * 32 + 31) = true
  crossed : ∀ x, begin < x → x ≤ n → bv.bit (x * 32 - 1) = false
  scanned : Scanned bv.bit len a (n * 32 + 32) m m' z z'

/-- The scan from position `a` in chunk `begin` came to the end of the vector, in the run
of clear bits that starts at `p`. -/
structure ToEnd (bv : BitVector) (len i begin a i' p : ℕ) (m m' : ℤ) (z z' : ℕ) : Prop where
  le : a ≤ p
  inside : p ≤ bv.numbits
  chunk : p < 32 * chunkCount bv.numbits
  clear : ClearRun bv.bit p (bv.numbits - p)
  start : p = a ∨ bv.bit (p - 1) = true
  index : i' = i + if p / 32 < bv.numbits / 32 then bv.numbits / 32 - begin else p / 32 - begin + 1
  crossed : ∀ x, begin < x → x * 32 ≤ bv.numbits → bv.bit (x * 32 - 1) = false
  scanned : Scanned bv.bit len a bv.numbits m m' z z'

/-- One round of the loop over the bits: it goes over `[a, a₁)` and leaves chunk `begin`
for `begin₁` only inside a run. -/
structure Round (bv : BitVector) (len i begin a i₁ begin₁ a₁ : ℕ) (m m₁ : ℤ) (z z₁ : ℕ) :
    Prop where
  le : begin ≤ begin₁
  chunk : begin₁ * 32 ≤ a₁
  index : i₁ = i + (begin₁ - begin)
  crossed : ∀ x, begin < x → x ≤ begin₁ → bv.bit (x * 32 - 1) = false
  last : bv.bit (a₁ - 1) = true
  scanned : Scanned bv.bit len a a₁ m m₁ z z₁

variable {i₁ begin₁ a₁ : ℕ} {m₁ : ℤ} {z₁ : ℕ}

theorem Round.toChunk (hr : Round bv len i begin a i₁ begin₁ a₁ m m₁ z z₁)
    (h : ToChunk bv len i₁ begin₁ a₁ i' n m₁ m' z₁ z') :
    ToChunk bv len i begin a i' n m m' z z' := by
  refine ⟨hr.le.trans h.le, h.lt, ?_, h.last, fun x hx hn => ?_,
    hr.scanned.trans h.scanned (.inr hr.last)⟩
  · have hle := h.le
    have hle' := hr.le
    rw [h.index, hr.index]
    omega
  · by_cases hx' : x ≤ begin₁
    · exact hr.crossed x hx hx'
    · exact h.crossed x (by omega) hn

theorem Round.toEnd (hr : Round bv len i begin a i₁ begin₁ a₁ m m₁ z z₁)
    (h : ToEnd bv len i₁ begin₁ a₁ i' p m₁ m' z₁ z') :
    ToEnd bv len i begin a i' p m m' z z' := by
  refine ⟨hr.scanned.le.trans h.le, h.inside, h.chunk, h.clear, ?_, ?_, fun x hx hn => ?_,
    hr.scanned.trans h.scanned (.inr hr.last)⟩
  · rcases h.start with rfl | hset
    · exact .inr hr.last
    · exact .inr hset
  · have hle := hr.le
    have hchunk := hr.chunk
    have hp := h.le
    rw [h.index, hr.index]
    split <;> omega
  · by_cases hx' : x ≤ begin₁
    · exact hr.crossed x hx hx'
    · exact h.crossed x (by omega) hn

theorem lt_of_set (ht : TailClear bv) (h : bv.bit p = true) (hp : p < 32 * chunkCount bv.numbits) :
    p < bv.numbits := by
  by_contra hge
  rw [ht p (by omega) hp] at h
  cases h

/-- The loop over the bits from chunk `begin`, bit `j` on. -/
theorem scanBits_scanned (ht : TailClear bv) (len fuel i begin j : ℕ) (m : ℤ) (z : ℕ)
    (hbegin : begin < chunkCount bv.numbits) (hj : j ≤ 32) (hin : begin * 32 + j ≤ bv.numbits)
    (hclose : j = 32 → bv.bit (begin * 32 + 31) = true)
    (hfuel : 32 * chunkCount bv.numbits < fuel + (begin * 32 + j)) :
    (∃ b c, scanBits bv len fuel i begin j m z = .found b c ∧ begin ≤ b) ∨
    ∃ i' m' z', scanBits bv len fuel i begin j m z = .next i' m' z' ∧
      ((∃ n, ToChunk bv len i begin (begin * 32 + j) i' n m m' z z') ∨
        ∃ p, ToEnd bv len i begin (begin * 32 + j) i' p m m' z z') := by
  induction fuel generalizing i begin j m z with
  | zero =>
    have := (chunkCount_bounds bv.numbits).1
    omega
  | succ fuel ih =>
    rw [scanBits]
    by_cases hend : 32 ≤ j
    · obtain rfl : j = 32 := by omega
      rw [if_pos hend]
      exact .inr ⟨i, m, z, rfl, .inl ⟨begin, le_rfl, hbegin, by omega, hclose rfl,
        fun x _ _ => by omega, Scanned.refl _ _ _ _⟩⟩
    rw [if_neg hend]
    have hbit := test_eq_bit bv (i := begin) (show j < 32 by omega)
    by_cases hset : bv.test begin j = true
    · rw [if_pos hset]
      rw [hbit] at hset
      have hlt := lt_of_set ht hset (by omega)
      have hround :
          Round bv len i begin (begin * 32 + j) i begin (begin * 32 + (j + 1)) m m z (z + 1) := by
        refine ⟨le_rfl, by omega, by omega, fun x _ _ => by omega, hset, ?_⟩
        refine Scanned.ones (n := 1) fun p hp hp' => ?_
        rwa [show p = begin * 32 + j by omega]
      rcases ih i begin (j + 1) m (z + 1) hbegin (by omega) (by omega)
        (fun h => by rwa [show begin * 32 + 31 = begin * 32 + j by omega]) (by omega) with
        hfound | ⟨i', m', z', hs, ⟨n, h⟩ | ⟨p, h⟩⟩
      · exact .inl hfound
      · exact .inr ⟨i', m', z', hs, .inl ⟨n, hround.toChunk h⟩⟩
      · exact .inr ⟨i', m', z', hs, .inr ⟨p, hround.toEnd h⟩⟩
    rw [if_neg hset]
    rw [hbit, Bool.not_eq_true] at hset
    obtain ⟨d, hk, hd, hpos, hb32, hle, hclear, hstop⟩ := probe_spec bv len 0 begin j (by omega)
    generalize probe bv len 0 begin j = r at hk hpos hb32 hle ⊢
    obtain ⟨k, n, bit⟩ := r
    dsimp only at hk hpos hb32 hle ⊢
    obtain rfl : k = d := by omega
    have hrun : ClearRun bv.bit (begin * 32 + j) k := fun p hp hp' => (hclear p hp hp').1
    by_cases hover : bv.numbits ≤ n * 32 + bit ∧ k < len
    · -- the run reaches the end of the vector
      rw [if_pos hover]
      have hnum : bv.numbits = begin * 32 + j + k := by
        rcases Nat.eq_zero_or_pos k with rfl | hk0
        · omega
        · have := (hclear (begin * 32 + j + k - 1) (by omega) (by omega)).2
          omega
      refine .inr ⟨_, _, _, rfl, .inr ⟨begin * 32 + j, le_rfl, hin, by omega, ?_, .inl rfl, ?_,
        fun x hx hxn => ?_, ?_⟩⟩
      · rwa [hnum, Nat.add_sub_cancel_left]
      · have hn : bv.numbits / 32 = n := by omega
        have hb : (begin * 32 + j) / 32 = begin := by omega
        rw [hn, hb]
        split <;> omega
      · exact hrun _ (by omega) (by omega)
      · exact Scanned.run hrun hover.2 (.inl hnum)
    rw [if_neg hover]
    by_cases hshort : k < len
    · -- a set bit ends the run: the scan goes on behind it
      rw [if_pos hshort]
      have hstopped : bv.bit (begin * 32 + j + k) = true := (hstop hshort).resolve_left (by omega)
      have hk0 : 0 < k := by
        rcases Nat.eq_zero_or_pos k with rfl | hk0
        · rw [Nat.add_zero, hset] at hstopped
          cases hstopped
        · exact hk0
      have hround : Round bv len i begin (begin * 32 + j) (i + (n - begin)) n (n * 32 + (bit + 1)) m
          (if m < k then (k : ℤ) else m) z z := by
        refine ⟨hle, by omega, rfl, fun x hx hxn => hrun _ (by omega) (by omega), ?_, ?_⟩
        · rwa [show n * 32 + (bit + 1) - 1 = begin * 32 + j + k by omega]
        · exact Scanned.run hrun hshort (.inr ⟨by omega, hstopped, hk0⟩)
      have hlt : n * 32 + bit < bv.numbits := by omega
      rcases ih (i + (n - begin)) n (bit + 1) (if m < k then (k : ℤ) else m) z (chunk_lt_of_bit hlt)
        (by omega) (by omega)
        (fun h => by rwa [show n * 32 + 31 = begin * 32 + j + k by omega]) (by omega) with
        ⟨b, c, hs, hb⟩ | ⟨i', m', z', hs, ⟨n', h⟩ | ⟨p, h⟩⟩
      · exact .inl ⟨b, c, hs, hle.trans hb⟩
      · exact .inr ⟨i', m', z', hs, .inl ⟨n', hround.toChunk h⟩⟩
      · exact .inr ⟨i', m', z', hs, .inr ⟨p, hround.toEnd h⟩⟩
    · rw [if_neg hshort]
      have hfit : ¬bv.numbits < begin * 32 + j + len := by
        rcases Nat.eq_zero_or_pos k with hk0 | hk0
        · omega
        · have := (hclear (begin * 32 + j + k - 1) (by omega) (by omega)).2
          omega
      rw [if_neg hfit]
      exact .inl ⟨begin, j, rfl, le_rfl⟩

end OneChunk

section OnePass
variable {bv : BitVector} {len limit c c₁ c' i' p : ℕ} {m m₁ m' : ℤ} {z z₁ z' : ℕ}

/-- A pass over the chunks from `c` on stops in front of chunk `c'`: the first one from
`limit` on that no run leads into, or the end. -/
structure PassToChunk (bv : BitVector) (len limit c i' c' : ℕ) (m m' : ℤ) (z z' : ℕ) : Prop where
  le : c ≤ c'
  stop : limit ≤ c' ∨ c' = chunkCount bv.numbits
  first : limit ≤ c → c' = c
  inside : c' ≤ chunkCount bv.numbits
  index : i' + limit = c' + chunkCount bv.numbits
  last : c < c' → bv.bit (c' * 32 - 1) = true
  crossed : ∀ x, c < x → limit ≤ x → x < c' → bv.bit (x * 32 - 1) = false
  scanned : Scanned bv.bit len (c * 32) (c' * 32) m m' z z'

/-- A pass that reaches the end of the vector in the run of clear bits from `p` on. -/
structure PassToEnd (bv : BitVector) (len limit c i' p : ℕ) (m m' : ℤ) (z z' : ℕ) : Prop where
  before : c < limit
  le : c * 32 ≤ p
  inside : p ≤ bv.numbits
  chunk : p < 32 * chunkCount bv.numbits
  clear : ClearRun bv.bit p (bv.numbits - p)
  start : p = c * 32 ∨ bv.bit (p - 1) = true
  index : i' + limit = chunkCount bv.numbits +
    if p / 32 < bv.numbits / 32 then bv.numbits / 32 + 1 else p / 32 + 2
  crossed : ∀ x, c < x → limit ≤ x → x * 32 ≤ bv.numbits → bv.bit (x * 32 - 1) = false
  scanned : Scanned bv.bit len (c * 32) bv.numbits m m' z z'

/-- The part of a pass up to chunk `c₁`, to which no run leads. -/
structure Part (bv : BitVector) (len limit c c₁ : ℕ) (m m₁ : ℤ) (z z₁ : ℕ) : Prop where
  before : c < limit
  lt : c < c₁
  last : bv.bit (c₁ * 32 - 1) = true
  crossed : ∀ x, c < x → x < c₁ → bv.bit (x * 32 - 1) = false
  scanned : Scanned bv.bit len (c * 32) (c₁ * 32) m m₁ z z₁

theorem Part.toChunk (hp : Part bv len limit c c₁ m m₁ z z₁)
    (h : PassToChunk bv len limit c₁ i' c' m₁ m' z₁ z') :
    PassToChunk bv len limit c i' c' m m' z z' := by
  have hlt := hp.lt
  have hle := h.le
  have hbefore := hp.before
  refine ⟨by omega, h.stop, fun h => by omega, h.inside, h.index, fun _ => ?_,
    fun x hx hl hx' => ?_, hp.scanned.trans h.scanned (.inr hp.last)⟩
  · by_cases heq : c₁ < c'
    · exact h.last heq
    · rw [show c' = c₁ by omega]
      exact hp.last
  · rcases Nat.lt_trichotomy x c₁ with hlt | rfl | hgt
    · exact hp.crossed x hx hlt
    · have := h.first hl
      omega
    · exact h.crossed x hgt hl hx'

theorem Part.toEnd (hp : Part bv len limit c c₁ m m₁ z z₁)
    (h : PassToEnd bv len limit c₁ i' p m₁ m' z₁ z') :
    PassToEnd bv len limit c i' p m m' z z' := by
  have hlt := hp.lt
  have hle := h.le
  refine ⟨hp.before, by omega, h.inside, h.chunk, h.clear, ?_, h.index, fun x hx hl hx' => ?_,
    hp.scanned.trans h.scanned (.inr hp.last)⟩
  · rcases h.start with rfl | hset
    · exact .inr hp.last
    · exact .inr hset
  · have hbefore := h.before
    exact h.crossed x (by omega) hl hx'

/-- One pass: a range is found, or the loop goes on with the next index behind the pass. -/
theorem scanChunks_pass (ht : TailClear bv) (len limit : ℕ) {base : ℕ}
    (hlimit : limit = base ∨ limit = base + chunkCount bv.numbits) (fuel i c : ℕ) (m : ℤ) (z : ℕ)
    (hc : c ≤ chunkCount bv.numbits)
    (hi : i + limit = c + chunkCount bv.numbits) (hfuel : chunkCount bv.numbits ≤ fuel + i) :
    (∃ b d, scanChunks bv len (chunkCount bv.numbits) base fuel i m z = .found b d ∧ c ≤ b) ∨
    ∃ fuel' i' m' z', scanChunks bv len (chunkCount bv.numbits) base fuel i m z =
        scanChunks bv len (chunkCount bv.numbits) base fuel' i' m' z' ∧
      chunkCount bv.numbits ≤ fuel' + i' ∧
      ((∃ c', PassToChunk bv len limit c i' c' m m' z z') ∨
        ∃ p, PassToEnd bv len limit c i' p m m' z z') := by
  obtain ⟨hcap, hup, _⟩ := chunkCount_bounds bv.numbits
  induction fuel generalizing i c m z with
  | zero =>
    exact .inr ⟨0, i, m, z, rfl, hfuel, .inl ⟨c, le_rfl, .inl (by omega), fun _ => rfl, hc, hi,
      fun h => by omega, fun x _ _ _ => by omega, Scanned.refl _ _ _ _⟩⟩
  | succ fuel ih =>
    by_cases hstop : limit ≤ c ∨ c = chunkCount bv.numbits
    · exact .inr ⟨fuel + 1, i, m, z, rfl, hfuel, .inl ⟨c, le_rfl, hstop, fun _ => rfl, hc, hi,
        fun h => by omega, fun x _ _ _ => by omega, Scanned.refl _ _ _ _⟩⟩
    have hmod : (base + i) % chunkCount bv.numbits = c := by
      rcases hlimit with rfl | rfl
      · rw [show limit + i = c + chunkCount bv.numbits by omega, Nat.add_mod_right,
          Nat.mod_eq_of_lt (by omega)]
      · rw [show base + i = c by omega, Nat.mod_eq_of_lt (by omega)]
    rw [scanChunks, if_neg (by omega)]
    dsimp only
    rw [hmod]
    -- the part of the pass behind chunk `c₁`, put behind the part in front of it
    have hrest : ∀ c₁ m₁ z₁, Part bv len limit c c₁ m m₁ z z₁ → c₁ ≤ chunkCount bv.numbits →
        (∃ b d, scanChunks bv len (chunkCount bv.numbits) base fuel (i + (c₁ - c)) m₁ z₁ =
          .found b d ∧ c ≤ b) ∨
        ∃ fuel' i' m' z', scanChunks bv len (chunkCount bv.numbits) base fuel (i + (c₁ - c)) m₁ z₁ =
            scanChunks bv len (chunkCount bv.numbits) base fuel' i' m' z' ∧
          chunkCount bv.numbits ≤ fuel' + i' ∧
          ((∃ c', PassToChunk bv len limit c i' c' m m' z z') ∨
            ∃ p, PassToEnd bv len limit c i' p m m' z z') := by
      intro c₁ m₁ z₁ hp hc₁
      have hlt := hp.lt
      rcases ih (i + (c₁ - c)) c₁ m₁ z₁ hc₁ (by omega) (by omega) with
        ⟨b, d, hs, hb⟩ | ⟨fuel', i', m', z', hs, hf, ⟨c', h⟩ | ⟨p, h⟩⟩
      · exact .inl ⟨b, d, hs, by omega⟩
      · exact .inr ⟨fuel', i', m', z', hs, hf, .inl ⟨c', hp.toChunk h⟩⟩
      · exact .inr ⟨fuel', i', m', z', hs, hf, .inr ⟨p, hp.toEnd h⟩⟩
    by_cases hones : bv.bits c = BitVec.allOnes 32
    · rw [if_pos hones]
      have hset : ∀ q, c * 32 ≤ q → q < c * 32 + 32 → bv.bit q = true := by
        intro q hq hq'
        rw [show q = c * 32 + (q - c * 32) by omega, ← test_eq_bit bv (by omega)]
        exact test_of_allOnes hones (by omega)
      have hp : Part bv len limit c (c + 1) m m z (z + 32) := by
        refine ⟨by omega, by omega, hset _ (by omega) (by omega), fun x _ _ => by omega, ?_⟩
        rw [show (c + 1) * 32 = c * 32 + 32 by omega]
        exact Scanned.ones hset
      have := hrest (c + 1) m (z + 32) hp (by omega)
      rwa [Nat.add_sub_cancel_left] at this
    rw [if_neg hones]
    rcases scanBits_scanned ht len (32 * chunkCount bv.numbits + 1) i c 0 m z (by omega) (by omega)
      (by omega) (fun h => by omega) (by omega) with ⟨b, d, hs, hb⟩ |
        ⟨i', m', z', hs, ⟨n, h⟩ | ⟨p, h⟩⟩
    · rw [hs]
      exact .inl ⟨b, d, rfl, hb⟩
    · rw [hs]
      have hle := h.le
      have hp : Part bv len limit c (n + 1) m m' z z' := by
        refine ⟨by omega, by omega, ?_, fun x hx hx' => h.crossed x hx (by omega), ?_⟩
        · rw [show (n + 1) * 32 - 1 = n * 32 + 31 by omega]
          exact h.last
        · rw [show (n + 1) * 32 = n * 32 + 32 by omega]
          exact h.scanned
      have := hrest (n + 1) m' z' hp h.lt
      rwa [show i + (n + 1 - c) = i' + 1 by rw [h.index]; omega] at this
    · rw [hs]
      have hp := h.le
      refine .inr ⟨fuel, i' + 1, m', z', rfl, ?_,
        .inr ⟨p, by omega, hp, h.inside, h.chunk, h.clear, h.start, ?_,
        fun x hx _ hx' => h.crossed x hx hx', h.scanned⟩⟩
      · have := h.index
        omega
      · rw [h.index]
        split <;> omega

end OnePass

section TwoPasses
variable {bv : BitVector} {len : ℕ}

/-- The chunk where the search starts. -/
def startChunk (bv : BitVector) : ℕ := bv.nextFree / 32 % chunkCount bv.numbits

/-- The first pass does not start at chunk 0, and it reaches the end of the vector in a way
that makes the chunk index jump over chunk 0: across the end of a last chunk that is full
size, or from inside a last chunk that is not. -/
def SkipsFirst (bv : BitVector) : Prop :=
  1 ≤ startChunk bv ∧
    if bv.numbits % 32 = 0 then bv.bit (bv.numbits - 1) = false
    else startChunk bv + 1 = chunkCount bv.numbits ∨
      ∃ q < bv.numbits, bv.numbits / 32 * 32 ≤ q + 1 ∧ bv.bit q = true

instance (bv : BitVector) : Decidable (SkipsFirst bv) := by
  unfold SkipsFirst
  infer_instance

/-- The first bit that any pass looks at. -/
def searchedFrom (bv : BitVector) : ℕ := if SkipsFirst bv then 32 else 0

/-- The first chunk boundary from chunk `x` on that is not inside a free range. -/
def boundaryFrom (bv : BitVector) : ℕ → ℕ → ℕ
  | 0, _ => bv.numbits
  | k + 1, x => if bv.bit (x * 32 - 1) = true then x * 32 else boundaryFrom bv k (x + 1)

/-- Where the second pass stops. -/
def secondEnd (bv : BitVector) : ℕ :=
  boundaryFrom bv (bv.numbits / 32 + 1 - startChunk bv) (startChunk bv)

theorem boundaryFrom_found {k x c : ℕ} (hx : x ≤ c) (hk : c < x + k)
    (hset : bv.bit (c * 32 - 1) = true)
    (hclear : ∀ y, x ≤ y → y < c → bv.bit (y * 32 - 1) = false) :
    boundaryFrom bv k x = c * 32 := by
  induction k generalizing x with
  | zero => omega
  | succ k ih =>
    rw [boundaryFrom]
    by_cases heq : x = c
    · rw [heq, if_pos hset]
    · rw [hclear x le_rfl (by omega), if_neg Bool.false_ne_true]
      exact ih (by omega) (by omega) fun y hy hy' => hclear y (by omega) hy'

theorem boundaryFrom_none {k x : ℕ}
    (hclear : ∀ y, x ≤ y → y < x + k → bv.bit (y * 32 - 1) = false) :
    boundaryFrom bv k x = bv.numbits := by
  induction k generalizing x with
  | zero => rfl
  | succ k ih =>
    rw [boundaryFrom, hclear x le_rfl (by omega), if_neg Bool.false_ne_true]
    exact ih fun y hy hy' => hclear y (by omega) (by omega)

theorem scanChunks_base (count base fuel i : ℕ) (m : ℤ) (z : ℕ) :
    scanChunks bv len count base fuel i m z =
      scanChunks bv len count (base % count) fuel i m z := by
  induction fuel generalizing i m z with
  | zero => rfl
  | succ fuel ih =>
    rw [scanChunks, scanChunks, Nat.mod_add_mod]
    simp only [ih]

theorem scanChunks_done {count base fuel i : ℕ} {m : ℤ} {z : ℕ} (h : count ≤ i) :
    scanChunks bv len count base fuel i m z = .missing m z := by
  cases fuel with
  | zero => rfl
  | succ fuel => rw [scanChunks, if_pos h]

theorem startChunk_lt (hn : 1 ≤ bv.numbits) : startChunk bv < chunkCount bv.numbits := by
  have := (chunkCount_bounds bv.numbits).1
  exact Nat.mod_lt _ (by omega)

theorem searchedFrom_le (h : 1 ≤ startChunk bv) : searchedFrom bv ≤ startChunk bv * 32 := by
  unfold searchedFrom
  split <;> omega

theorem searchedFrom_chunk (bv : BitVector) : searchedFrom bv / 32 * 32 = searchedFrom bv := by
  unfold searchedFrom
  split <;> rfl

theorem searchedFrom_zero (h : startChunk bv = 0) : searchedFrom bv = 0 :=
  if_neg fun hs => by have := hs.1; omega

section FirstPass
variable {i' : ℕ} {m m' : ℤ} {z z' : ℕ}

theorem PassToChunk.full {limit c c' : ℕ} (ht : TailClear bv)
    (h : PassToChunk bv len limit c i' c' m m' z z') (hc : c < c')
    (hend : c' = chunkCount bv.numbits) : c' * 32 = bv.numbits := by
  have hset := lt_of_set ht (h.last hc) (by omega)
  have := (chunkCount_bounds bv.numbits).1
  omega

/-- The first pass ends at the end of the vector. -/
theorem firstPass_scanned (ht : TailClear bv) (hn : 1 ≤ bv.numbits)
    (h : (∃ c', PassToChunk bv len (startChunk bv + chunkCount bv.numbits) (startChunk bv) i' c'
        m m' z z') ∨
      ∃ p, PassToEnd bv len (startChunk bv + chunkCount bv.numbits) (startChunk bv) i' p
        m m' z z') :
    chunkCount bv.numbits ≤ i' + startChunk bv ∧
      Scanned bv.bit len (startChunk bv * 32) bv.numbits m m' z z' := by
  have hlt := startChunk_lt hn
  have hup := (chunkCount_bounds bv.numbits).2.1
  rcases h with ⟨c', h⟩ | ⟨p, h⟩
  · have hin := h.inside
    have hend : c' = chunkCount bv.numbits := by
      rcases h.stop with hs | hs <;> omega
    have hindex := h.index
    have hscan := h.scanned
    rw [h.full ht (by omega) hend] at hscan
    exact ⟨by omega, hscan⟩
  · have hindex := h.index
    refine ⟨?_, h.scanned⟩
    split at hindex <;> omega

/-- The index that the first pass leaves is that of the first chunk of the second pass. -/
theorem firstPass_index (ht : TailClear bv) (hn : 1 ≤ bv.numbits) (hb : 1 ≤ startChunk bv)
    (h : (∃ c', PassToChunk bv len (startChunk bv + chunkCount bv.numbits) (startChunk bv) i' c'
        m m' z z') ∨
      ∃ p, PassToEnd bv len (startChunk bv + chunkCount bv.numbits) (startChunk bv) i' p
        m m' z z') :
    i' + startChunk bv = searchedFrom bv / 32 + chunkCount bv.numbits := by
  have hlt := startChunk_lt hn
  obtain ⟨hcap, hup, hround⟩ := chunkCount_bounds bv.numbits
  rcases h with ⟨c', h⟩ | ⟨p, h⟩
  · have hin := h.inside
    have hend : c' = chunkCount bv.numbits := by
      rcases h.stop with hs | hs <;> omega
    have hnum := h.full ht (by omega) hend
    have hlast := h.last (by omega)
    have hno : ¬SkipsFirst bv := by
      rintro ⟨_, hs⟩
      rw [if_pos (by omega), ← hnum, hlast] at hs
      cases hs
    have hindex := h.index
    rw [searchedFrom, if_neg hno]
    omega
  · have hindex := h.index
    have hin := h.inside
    have hchunk := h.chunk
    have hp := h.le
    by_cases hzero : bv.numbits % 32 = 0
    · have hround := hround hzero
      have hs : SkipsFirst bv := by
        refine ⟨hb, ?_⟩
        rw [if_pos hzero]
        exact h.clear _ (by omega) (by omega)
      rw [if_pos (by omega)] at hindex
      rw [searchedFrom, if_pos hs]
      omega
    · by_cases hearly : p / 32 < bv.numbits / 32
      · have hno : ¬SkipsFirst bv := by
          rintro ⟨_, hs⟩
          rw [if_neg hzero] at hs
          rcases hs with hs | ⟨q, hq, hle, hset⟩
          · omega
          · rw [h.clear q (by omega) (by omega)] at hset
            cases hset
        rw [if_pos hearly] at hindex
        rw [searchedFrom, if_neg hno]
        omega
      · have hs : SkipsFirst bv := by
          refine ⟨hb, ?_⟩
          rw [if_neg hzero]
          rcases h.start with hstart | hstart
          · exact .inl (by omega)
          · exact .inr ⟨p - 1, by omega, by omega, hstart⟩
        rw [if_neg hearly] at hindex
        rw [searchedFrom, if_pos hs]
        omega

end FirstPass

/-- What the second pass counts. -/
def recounted (bv : BitVector) : ℕ :=
  if searchedFrom bv < startChunk bv * 32 then counted bv.bit (searchedFrom bv) (secondEnd bv)
    else 0

/-- What a search that found nothing has established. -/
structure Missed (bv : BitVector) (len : ℕ) (m : ℤ) (z : ℕ) : Prop where
  noRun : ¬HasRun bv.bit (searchedFrom bv) bv.numbits len
  longest : Longest bv.bit (searchedFrom bv) bv.numbits m
  count : z = counted bv.bit (startChunk bv * 32) bv.numbits + recounted bv

/-- The second pass stops behind the chunks that the first one began with. -/
theorem secondPass {i' : ℕ} {m m' : ℤ} {z z' : ℕ} (ht : TailClear bv) (hn : 1 ≤ bv.numbits)
    (hlen : 0 < len) (hb : 1 ≤ startChunk bv)
    (hfirst : Scanned bv.bit len (startChunk bv * 32) bv.numbits (-1) m 0 z)
    (h : (∃ c', PassToChunk bv len (startChunk bv) (searchedFrom bv / 32) i' c' m m' z z') ∨
      ∃ p, PassToEnd bv len (startChunk bv) (searchedFrom bv / 32) i' p m m' z z') :
    chunkCount bv.numbits ≤ i' ∧ Missed bv len m' z' := by
  have hlt := startChunk_lt hn
  obtain ⟨hcap, hup, _⟩ := chunkCount_bounds bv.numbits
  have hfrom := searchedFrom_le hb
  have hdiv := searchedFrom_chunk bv
  rcases h with ⟨c', h⟩ | ⟨p, h⟩
  · have hindex := h.index
    have hscan := h.scanned
    rw [hdiv] at hscan
    have hstop : startChunk bv ≤ c' := by
      rcases h.stop with hs | hs <;> omega
    refine ⟨by omega, ?_⟩
    by_cases hmore : searchedFrom bv < startChunk bv * 32
    · have hlast := h.last (by omega)
      have hin := lt_of_set ht hlast (by have := h.inside; omega)
      have hend : secondEnd bv = c' * 32 :=
        boundaryFrom_found hstop (by omega) hlast fun y hy hy' => h.crossed y (by omega) hy hy'
      have hboth := hfirst.rescanned hscan (by omega) (by omega) (by omega) (.inr (.inl hlast)) hlen
      refine ⟨hboth.noRun, hboth.longest, ?_⟩
      rw [recounted, if_pos hmore, hend]
      exact hboth.count
    · -- the second pass has no chunk left
      have hc := h.first (by omega)
      rw [hc, hdiv] at hscan
      have hboth := hfirst.rescanned hscan (by omega) (by omega) (by omega) (.inl le_rfl) hlen
      refine ⟨hboth.noRun, hboth.longest, ?_⟩
      rw [recounted, if_neg hmore]
      have hcount := hboth.count
      rwa [counted_self] at hcount
  · have hindex := h.index
    have hscan := h.scanned
    rw [hdiv] at hscan
    have hbefore := h.before
    have hin := h.inside
    refine ⟨by split at hindex <;> omega, ?_⟩
    have hend : secondEnd bv = bv.numbits :=
      boundaryFrom_none fun y hy hy' => h.crossed y (by omega) hy (by omega)
    have hboth := hfirst.rescanned hscan (by omega) (by omega) le_rfl (.inr (.inr le_rfl)) hlen
    refine ⟨hboth.noRun, hboth.longest, ?_⟩
    rw [recounted, if_pos (by omega), hend]
    exact hboth.count

/-- The two passes together. -/
theorem scanChunks_covers (ht : TailClear bv) (hn : 1 ≤ bv.numbits) (hlen : 0 < len) :
    (∃ b d, scanChunks bv len (chunkCount bv.numbits) (bv.nextFree / 32) (chunkCount bv.numbits) 0
        (-1) 0 = .found b d ∧ searchedFrom bv ≤ b * 32) ∨
    ∃ m z, scanChunks bv len (chunkCount bv.numbits) (bv.nextFree / 32) (chunkCount bv.numbits) 0
        (-1) 0 = .missing m z ∧ Missed bv len m z := by
  have hlt := startChunk_lt hn
  obtain ⟨hcap, hup, _⟩ := chunkCount_bounds bv.numbits
  rw [scanChunks_base, ← startChunk]
  rcases scanChunks_pass ht len (startChunk bv + chunkCount bv.numbits) (.inr rfl)
    (chunkCount bv.numbits) 0 (startChunk bv) (-1) 0 hlt.le (by omega) (by omega) with
    ⟨b, d, hs, hle⟩ | ⟨fuel', i', m', z', hs, hf, h⟩
  · refine .inl ⟨b, d, hs, ?_⟩
    rcases Nat.eq_zero_or_pos (startChunk bv) with hzero | hb
    · rw [searchedFrom_zero hzero]
      omega
    · have := searchedFrom_le hb
      omega
  obtain ⟨hdone, hfirst⟩ := firstPass_scanned ht hn h
  rw [hs]
  rcases Nat.eq_zero_or_pos (startChunk bv) with hzero | hb
  · have hfrom := searchedFrom_zero hzero
    rw [scanChunks_done (by omega)]
    refine .inr ⟨m', z', rfl, ?_, ?_, ?_⟩
    · rw [hfrom, ← Nat.zero_mul 32, ← hzero]
      exact hfirst.noRun hlen
    · rw [hfrom, ← Nat.zero_mul 32, ← hzero]
      exact hfirst.longest
    · rw [recounted, if_neg (by omega), hfirst.count, Nat.zero_add, Nat.add_zero]
  · have hi' := firstPass_index ht hn hb h
    have hfrom := searchedFrom_le hb
    rcases scanChunks_pass ht len (startChunk bv) (.inl rfl) fuel' i' (searchedFrom bv / 32) m' z'
      (by omega) hi' hf with ⟨b, d, hs', hle⟩ | ⟨fuel₂, i₂, m₂, z₂, hs', hf', h'⟩
    · refine .inl ⟨b, d, hs', ?_⟩
      have := searchedFrom_chunk bv
      omega
    · obtain ⟨hdone', hmissed⟩ := secondPass ht hn hlen hb hfirst h'
      rw [hs', scanChunks_done hdone']
      exact .inr ⟨m₂, z₂, rfl, hmissed⟩

/-- A call in the range of lengths that the search accepts. -/
theorem getFreeRangeOfBits_covers (ht : TailClear bv) (hn : 1 ≤ bv.numbits)
    (hfull : bv.isFull = false) {len : ℤ} (hpos : 1 ≤ len) (hle : len ≤ bv.numbits) :
    (0 ≤ (getFreeRangeOfBits bv len).1 ∧ (getFreeRangeOfBits bv len).2.2.isFull = false ∧
      HasRun bv.bit (searchedFrom bv) bv.numbits len.toNat) ∨
    ∃ m z, getFreeRangeOfBits bv len =
        (-1, m, if bv.numbits ≤ z then { bv with isFull := true } else bv) ∧
      Missed bv len.toNat m z := by
  have hguard : ¬(len ≤ 0 ∨ (bv.numbits : ℤ) < len ∨ bv.isFull = true) := by
    rw [hfull]
    rintro (h | h | h)
    · omega
    · omega
    · cases h
  rw [getFreeRangeOfBits, if_neg hguard]
  dsimp only
  rcases scanChunks_covers ht hn (show 0 < len.toNat by omega) with ⟨b, d, hs, hfrom⟩ |
    ⟨m, z, hs, hmissed⟩
  · rw [hs]
    obtain ⟨_, hin, hclear⟩ := scanChunks_found hs
    exact .inl ⟨by positivity, hfull, b * 32 + d, by omega, hin, hclear⟩
  · rw [hs]
    exact .inr ⟨m, z, rfl, hmissed⟩

end TwoPasses

section Completeness
variable {bv : BitVector} {len : ℤ}

/-- The search finds a range whenever there is one, and otherwise reports the longest. -/
structure Complete (bv : BitVector) (len : ℤ) : Prop where
  finds : HasRun bv.bit 0 bv.numbits len.toNat → (getFreeRangeOfBits bv len).1 ≠ -1
  reports : (getFreeRangeOfBits bv len).1 = -1 →
    Longest bv.bit 0 bv.numbits (getFreeRangeOfBits bv len).2.1

/-- Chunk 0 has no free range that is longer than all ranges behind it. -/
def FirstChunkNoBetter (bv : BitVector) : Prop :=
  ∀ l, 0 < l → HasRun bv.bit 0 bv.numbits l → HasRun bv.bit 32 bv.numbits l

theorem Longest.of_noBetter {m : ℤ} (h : Longest bv.bit 32 bv.numbits m)
    (hsame : FirstChunkNoBetter bv) : Longest bv.bit 0 bv.numbits m := by
  refine ⟨fun l hl hrun => h.bound l hl (hsame l hl hrun), ?_⟩
  rcases h.attained with hm | ⟨l, hl, hrun, hm⟩
  · exact .inl hm
  · exact .inr ⟨l, hl, hrun.mono (by omega) le_rfl, hm⟩

theorem noBetter_of_longest {m : ℤ} (h : Longest bv.bit 32 bv.numbits m)
    (hall : Longest bv.bit 0 bv.numbits m) : FirstChunkNoBetter bv := by
  intro l hl hrun
  have hle := hall.bound l hl hrun
  rcases h.attained with (hm | hm) | ⟨k, _, hk, hm⟩
  · omega
  · omega
  · exact hk.shorter (by omega)

/-- A search is complete but when it skips chunk 0 with a range in it that is better than
everything behind, and nothing behind is long enough. -/
theorem complete_iff (ht : TailClear bv) (hn : 1 ≤ bv.numbits) (hfull : bv.isFull = false)
    (hpos : 1 ≤ len) (hle : len ≤ bv.numbits) :
    Complete bv len ↔ ¬SkipsFirst bv ∨ HasRun bv.bit 32 bv.numbits len.toNat ∨
      FirstChunkNoBetter bv := by
  rcases getFreeRangeOfBits_covers ht hn hfull hpos hle with ⟨hfound, _, hrun⟩ | ⟨m, z, hs, hmissed⟩
  · constructor
    · intro _
      by_cases hskip : SkipsFirst bv
      · rw [searchedFrom, if_pos hskip] at hrun
        exact .inr (.inl hrun)
      · exact .inl hskip
    · intro _
      exact ⟨fun _ h => by omega, fun h => by omega⟩
  · have hnone := hmissed.noRun
    have hlong := hmissed.longest
    by_cases hskip : SkipsFirst bv
    · rw [searchedFrom, if_pos hskip] at hnone hlong
      constructor
      · intro h
        have hreport := h.reports (by rw [hs])
        rw [hs] at hreport
        exact .inr (.inr (noBetter_of_longest hlong hreport))
      · rintro (h | h | h)
        · exact absurd hskip h
        · exact absurd h hnone
        · refine ⟨fun hrun => absurd (h _ (by omega) hrun) hnone, fun _ => ?_⟩
          rw [hs]
          exact Longest.of_noBetter hlong h
    · rw [searchedFrom, if_neg hskip] at hnone hlong
      constructor
      · intro _
        exact .inl hskip
      · intro _
        refine ⟨fun hrun => absurd hrun hnone, fun _ => ?_⟩
        rw [hs]
        exact hlong

/-- Chunk 0 is free, chunk 1 has its last bit free, and the search starts in chunk 1. -/
def firstChunkFree : BitVector := ⟨64, 32, false, fun i => if i = 1 then 0x7FFFFFFF#32 else 0#32⟩

theorem firstChunkFree_tail : TailClear firstChunkFree := by
  intro p hp hp'
  change p < 64 at hp'
  change 64 ≤ p at hp
  omega

theorem firstChunkFree_missed : ¬Complete firstChunkFree 2 := by
  intro h
  refine h.finds ⟨0, le_rfl, by decide, fun p _ hp => ?_⟩ (by decide +kernel)
  have hcases : p = 0 ∨ p = 1 := by
    change p < 0 + 2 at hp
    omega
  rcases hcases with rfl | rfl <;> rfl

theorem complete_iff_firstChunkFree : Complete firstChunkFree 1 ↔ ¬SkipsFirst firstChunkFree ∨
    HasRun firstChunkFree.bit 32 firstChunkFree.numbits (1 : ℤ).toNat ∨
      FirstChunkNoBetter firstChunkFree :=
  complete_iff firstChunkFree_tail (by decide) rfl (by decide) (by decide)

end Completeness

section FullMark
variable {bv : BitVector} {len : ℤ}

def Truthful (bv : BitVector) (len : ℤ) : Prop :=
  (getFreeRangeOfBits bv len).2.2.isFull = true → AllSet bv

/-- The bits that the second pass counts although the first one has: set bits from
the start chunk on, up to where the second pass stops. -/
def doubled (bv : BitVector) : ℕ :=
  if searchedFrom bv < startChunk bv * 32 then
    ((Finset.Ico (startChunk bv * 32) (secondEnd bv)).filter fun p =>
      bv.bit p = true ∧ bv.bit (p - 1) = true).card
  else 0

/-- The bits that no pass counts: those in front of both passes, the free ones, and the bit
behind a free one unless a pass starts with it. -/
def uncounted (bv : BitVector) : ℕ :=
  ((Finset.range bv.numbits).filter fun p =>
    p < searchedFrom bv ∨ bv.bit p = false ∨
      (p ≠ searchedFrom bv ∧ p ≠ startChunk bv * 32 ∧ bv.bit (p - 1) = false)).card

theorem le_boundaryFrom {k x : ℕ} (h : x * 32 ≤ bv.numbits) : x * 32 ≤ boundaryFrom bv k x := by
  suffices ∀ y, x ≤ y → x * 32 ≤ boundaryFrom bv k y from this x le_rfl
  induction k with
  | zero => exact fun _ _ => h
  | succ k ih =>
    intro y hy
    rw [boundaryFrom]
    split
    · omega
    · exact ih (y + 1) (by omega)

theorem recounted_eq (h : searchedFrom bv ≤ startChunk bv * 32)
    (hin : startChunk bv * 32 ≤ bv.numbits) :
    recounted bv = counted bv.bit (searchedFrom bv) (startChunk bv * 32) + doubled bv := by
  unfold recounted doubled
  split
  · rename_i hlt
    have hend : startChunk bv * 32 ≤ secondEnd bv := le_boundaryFrom hin
    unfold counted
    rw [← Finset.Ico_union_Ico_eq_Ico h hend, Finset.filter_union, Finset.card_union_of_disjoint]
    · congr 2
      refine Finset.filter_congr fun p hp => ?_
      rw [Finset.mem_Ico] at hp
      have hne : p ≠ searchedFrom bv := by omega
      rw [or_iff_right hne]
    · exact Finset.disjoint_filter_filter (Finset.Ico_disjoint_Ico_consecutive _ _ _)
  · rename_i hge
    rw [show searchedFrom bv = startChunk bv * 32 by omega, counted_self]

theorem uncounted_eq (h : searchedFrom bv ≤ startChunk bv * 32)
    (hin : startChunk bv * 32 ≤ bv.numbits) :
    uncounted bv + (counted bv.bit (searchedFrom bv) (startChunk bv * 32) +
      counted bv.bit (startChunk bv * 32) bv.numbits) = bv.numbits := by
  have hsplit := Finset.card_filter_add_card_filter_not (s := Finset.range bv.numbits) fun p =>
    p < searchedFrom bv ∨ bv.bit p = false ∨
      (p ≠ searchedFrom bv ∧ p ≠ startChunk bv * 32 ∧ bv.bit (p - 1) = false)
  rw [Finset.card_range] at hsplit
  refine Eq.trans ?_ hsplit
  unfold uncounted counted
  congr 1
  rw [← Finset.card_union_of_disjoint]
  · congr 1
    ext p
    simp only [Finset.mem_union, Finset.mem_filter, Finset.mem_Ico, Finset.mem_range, not_or,
      not_and, Bool.not_eq_false, not_lt]
    constructor
    · rintro (⟨⟨hlo, hhi⟩, hset, hbefore⟩ | ⟨⟨hlo, hhi⟩, hset, hbefore⟩)
      · exact ⟨by omega, hlo, hset, fun h₁ _ => hbefore.resolve_left h₁⟩
      · exact ⟨hhi, by omega, hset, fun _ h₂ => hbefore.resolve_left h₂⟩
    · rintro ⟨hhi, hlo, hset, hbefore⟩
      by_cases hfirst : p < startChunk bv * 32
      · refine .inl ⟨⟨hlo, hfirst⟩, hset, ?_⟩
        by_cases heq : p = searchedFrom bv
        · exact .inl heq
        · exact .inr (hbefore heq (by omega))
      · refine .inr ⟨⟨by omega, hhi⟩, hset, ?_⟩
        by_cases heq : p = startChunk bv * 32
        · exact .inl heq
        · exact .inr (hbefore (by omega) heq)
  · exact Finset.disjoint_filter_filter (Finset.Ico_disjoint_Ico_consecutive _ _ _)

/-- Only bit 31 is free, and the search for two bits starts behind it. -/
def lastOfFirstFree : BitVector :=
  ⟨64, 32, false, fun i => if i = 0 then 0x7FFFFFFF#32 else 0xFFFFFFFF#32⟩

theorem lastOfFirstFree_tail : TailClear lastOfFirstFree := by
  intro p hp hp'
  change p < 64 at hp'
  change 64 ≤ p at hp
  omega

end FullMark

end SearchCoverage
