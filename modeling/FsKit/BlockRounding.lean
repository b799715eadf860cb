import Mathlib.Tactic
import Mathlib.Data.Int.Bitwise

/-! Rounding with masks. For a power of two `b` the C expression `x & ~(b - 1)` rounds a
non-negative `x` down to a multiple of `b`; with `b - 1` added first it rounds up. -/
namespace BlockRounding

/-- `x & ~(b - 1)` on sign-extended two's complement integers. -/
def maskDown (x b : ℤ) : ℤ := Int.land x (Int.lnot (b - 1))

theorem ldiff_two_pow (x k : ℕ) : Nat.ldiff x (2 ^ k - 1) = x / 2 ^ k * 2 ^ k := by
  apply Nat.eq_of_testBit_eq
  intro i
  rw [Nat.testBit_ldiff, Nat.testBit_two_pow_sub_one, mul_comm, Nat.testBit_two_pow_mul]
  by_cases hi : k ≤ i
  · have hd : (x / 2 ^ k).testBit (i - k) = x.testBit i := by
      rw [Nat.testBit_div_two_pow, Nat.sub_add_cancel hi]
    simp [hi, hd]
  · simp [hi, Nat.lt_of_not_le hi]

theorem maskDown_two_pow (x k : ℕ) :
    maskDown (x : ℤ) ((2 : ℤ) ^ k) = ((x / 2 ^ k * 2 ^ k : ℕ) : ℤ) := by
  have hpos : 1 ≤ 2 ^ k := Nat.one_le_two_pow
  have hb : ((2 : ℤ) ^ k - 1) = ((2 ^ k - 1 : ℕ) : ℤ) := by push_cast [hpos]; ring
  rw [maskDown, hb, ← ldiff_two_pow x k]
  rfl

end BlockRounding
