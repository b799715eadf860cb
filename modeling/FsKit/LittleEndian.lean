import Mathlib.Tactic

/-! Integers as little-endian bytes in a buffer. -/
namespace LittleEndian

/-- Byte `k` of a little-endian integer. -/
def leByte (v : ℤ) (k : ℕ) : UInt8 := UInt8.ofNat ((v / 2 ^ (8 * k)) % 256).toNat

/-- The signed 64-bit integer in the eight bytes from `p` on. -/
@[irreducible] def word64 (buf : ℕ → UInt8) (p : ℕ) : ℤ :=
  Int.bmod (∑ k ∈ Finset.range 8, (buf (p + k)).toNat * 256 ^ k : ℕ) (2 ^ 64)

def putWord64 (buf : ℕ → UInt8) (p : ℕ) (v : ℤ) : ℕ → UInt8 := fun i =>
  if p ≤ i ∧ i < p + 8 then leByte v (i - p) else buf i

theorem leByte_toNat (v : ℤ) (k : ℕ) : ((leByte v k).toNat : ℤ) = v / 2 ^ (8 * k) % 256 := by
  have h₀ := Int.emod_nonneg (v / 2 ^ (8 * k)) (show (256 : ℤ) ≠ 0 by decide)
  have h₁ := Int.emod_lt_of_pos (v / 2 ^ (8 * k)) (show (0 : ℤ) < 256 by decide)
  unfold leByte
  rw [UInt8.toNat_ofNat', Nat.mod_eq_of_lt (by omega), Int.toNat_of_nonneg h₀]

theorem word64_congr {f g : ℕ → UInt8} {p : ℕ} (h : ∀ k < 8, f (p + k) = g (p + k)) :
    word64 f p = word64 g p := by
  unfold word64
  congr 2
  apply Finset.sum_congr rfl
  intro k hk
  rw [h k (Finset.mem_range.mp hk)]

theorem word64_putWord64 (buf : ℕ → UInt8) (p : ℕ) {v : ℤ} (h₀ : -2 ^ 63 ≤ v) (h₁ : v < 2 ^ 63) :
    word64 (putWord64 buf p v) p = v := by
  have hsum : ((∑ k ∈ Finset.range 8, (putWord64 buf p v (p + k)).toNat * 256 ^ k : ℕ) : ℤ) =
      v % 2 ^ 64 := by
    have hb : ∀ k < 8, ((putWord64 buf p v (p + k)).toNat : ℤ) = v / 2 ^ (8 * k) % 256 := by
      intro k hk
      unfold putWord64
      rw [if_pos (by omega), Nat.add_sub_cancel_left, leByte_toNat]
    push_cast
    simp only [Finset.sum_range_succ, Finset.sum_range_zero]
    rw [hb 0 (by decide), hb 1 (by decide), hb 2 (by decide), hb 3 (by decide), hb 4 (by decide),
      hb 5 (by decide), hb 6 (by decide), hb 7 (by decide)]
    omega
  unfold word64
  rw [hsum, Int.bmod_def]
  split <;> omega

theorem word64_putWord64_of_disjoint (buf : ℕ → UInt8) {p q : ℕ} (v : ℤ)
    (h : q + 8 ≤ p ∨ p + 8 ≤ q) : word64 (putWord64 buf p v) q = word64 buf q := by
  have hsame : ∀ k < 8, putWord64 buf p v (q + k) = buf (q + k) := by
    intro k hk
    exact if_neg (by omega)
  exact word64_congr hsame

@[simp] theorem word64_zero (p : ℕ) : word64 (fun _ => 0) p = 0 := by
  have hsum : ∑ k ∈ Finset.range 8, (0 : UInt8).toNat * 256 ^ k = 0 :=
    Finset.sum_eq_zero fun k _ => Nat.zero_mul _
  unfold word64
  rw [hsum]
  exact Int.zero_bmod

end LittleEndian
