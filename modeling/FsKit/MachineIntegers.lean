import Mathlib.Tactic

/-! The values that fixed-width integers take for the results of exact arithmetic. A count may
be kept exactly and read through its width: what is read depends on the count modulo the width
only. -/
namespace MachineIntegers

/-- The value of a 32-bit `int`. -/
def toInt32 (x : ℤ) : ℤ := Int.bmod x (2 ^ 32)

/-- The value of a signed 64-bit integer. -/
def toInt64 (x : ℤ) : ℤ := Int.bmod x (2 ^ 64)

/-- The value of a 32-bit unsigned integer. -/
def toUint32 (x : ℕ) : ℕ := x % 2 ^ 32

theorem toInt32_of_lt {x : ℤ} (h₀ : 0 ≤ x) (h₁ : x < 2 ^ 31) : toInt32 x = x := by
  unfold toInt32
  rw [Int.bmod_eq_of_le] <;> omega

theorem toInt64_of_lt {x : ℤ} (h₀ : 0 ≤ x) (h₁ : x < 2 ^ 63) : toInt64 x = x := by
  unfold toInt64
  rw [Int.bmod_eq_of_le] <;> omega

theorem toUint32_lt (x : ℕ) : toUint32 x < 2 ^ 32 := Nat.mod_lt x (by norm_num)

theorem toUint32_of_lt {x : ℕ} (h : x < 2 ^ 32) : toUint32 x = x := Nat.mod_eq_of_lt h

theorem toInt32_lt (x : ℤ) : toInt32 x < 2 ^ 31 := by
  have := Int.bmod_lt (x := x) (m := 2 ^ 32) (by decide)
  unfold toInt32
  omega

theorem le_toInt32 (x : ℤ) : -2 ^ 31 ≤ toInt32 x := by
  have := Int.le_bmod (x := x) (m := 2 ^ 32) (by decide)
  unfold toInt32
  omega

theorem toInt32_emod (x : ℤ) : toInt32 x % 2 ^ 32 = x % 2 ^ 32 :=
  Int.bmod_emod

theorem toInt32_le {x : ℤ} (h : 0 ≤ x) : toInt32 x ≤ x ∧ toInt32 x < 2 ^ 31 := by
  have hlow := le_toInt32 x
  have hhigh := toInt32_lt x
  have hmod := toInt32_emod x
  omega

/-- Two values that agree modulo the width and are both in the range are the same. -/
theorem toInt32_eq_iff {x y : ℤ} (hlow : -2 ^ 31 ≤ y) (hhigh : y < 2 ^ 31) :
    toInt32 x = y ↔ x % 2 ^ 32 = y % 2 ^ 32 := by
  have h₁ := le_toInt32 x
  have h₂ := toInt32_lt x
  have hmod := toInt32_emod x
  omega

theorem toInt32_eq_zero (x : ℤ) : toInt32 x = 0 ↔ x % 2 ^ 32 = 0 := by
  rw [toInt32_eq_iff (by norm_num) (by norm_num)]
  norm_num

theorem toInt32_eq_one (x : ℤ) : toInt32 x = 1 ↔ x % 2 ^ 32 = 1 := by
  rw [toInt32_eq_iff (by norm_num) (by norm_num)]
  norm_num

/-- A count below the width is seen as zero only when it is zero. -/
theorem toInt32_eq_zero_of_lt {x : ℤ} (h₀ : 0 ≤ x) (h₁ : x < 2 ^ 32) : toInt32 x = 0 ↔ x = 0 := by
  rw [toInt32_eq_zero]
  omega

theorem toInt64_eq_self_iff {x : ℤ} (h₀ : 0 ≤ x) : toInt64 x = x ↔ x < 2 ^ 63 := by
  refine ⟨fun heq => ?_, toInt64_of_lt h₀⟩
  have hlt := Int.bmod_lt (x := x) (m := 2 ^ 64) (by norm_num)
  unfold toInt64 at heq
  rw [heq] at hlt
  norm_num at hlt
  exact hlt

/-- A count that has passed the largest `int` is seen below zero. -/
theorem toInt32_of_ge {x : ℤ} (h₀ : 2 ^ 31 ≤ x) (h₁ : x < 2 ^ 32) : toInt32 x = x - 2 ^ 32 := by
  rw [toInt32_eq_iff] <;> omega

@[simp] theorem toInt32_add (x y : ℤ) : toInt32 (toInt32 x + y) = toInt32 (x + y) := by
  simp [toInt32]

@[simp] theorem toInt64_add (x y : ℤ) : toInt64 (toInt64 x + y) = toInt64 (x + y) := by
  simp [toInt64]

end MachineIntegers
