import Mathlib.Algebra.Group.Int.Defs
import Mathlib.Algebra.Group.Nat.Defs

/-!
# Conversions between C integer types

On the target `int` has 32 bits and `size_t` has 64. A conversion keeps the value modulo the
width of the new type, which is the value itself wherever the new type has it.
-/

namespace Csci4061.Lib

/-- Conversion to `int`: the representative modulo `2 ^ 32` in `[-2 ^ 31, 2 ^ 31)`. -/
def toInt (n : ℤ) : ℤ := n.bmod (2 ^ 32)

/-- Conversion to `size_t`: the representative modulo `2 ^ 64`, which is not negative. -/
def toSizeT (n : ℤ) : ℕ := (n % 2 ^ 64).toNat

/-- Conversion to `long`: the representative modulo `2 ^ 64` in `[-2 ^ 63, 2 ^ 63)`. -/
def toLong (n : ℤ) : ℤ := n.bmod (2 ^ 64)

/-- One more than an `int` which is not negative. Past the largest one it is not defined. -/
def intSucc (n : ℕ) : Option ℕ := if n + 1 < 2 ^ 31 then some (n + 1) else none

/-- An `int` keeps its value. -/
theorem toInt_of_lt {n : ℤ} (h₀ : 0 ≤ n) (h : n < 2 ^ 31) : toInt n = n := by
  rw [toInt, Int.bmod_eq_of_le] <;> omega

/-- The `int` for a number is its place in the interval of `2 ^ 32` numbers from `-2 ^ 31` on, or in
one of the intervals before and behind it. -/
theorem toInt_eq_emod_sub (n : ℤ) : toInt n = (n + 2 ^ 31) % 2 ^ 32 - 2 ^ 31 := by
  rw [toInt, Int.bmod_def]
  split <;> omega

/-- A size below `2 ^ 64` keeps its value. -/
theorem toSizeT_natCast {n : ℕ} (h : n < 2 ^ 64) : toSizeT n = n := by
  rw [toSizeT, Int.emod_eq_of_lt (by omega) (by exact_mod_cast h), Int.toNat_natCast]

/-- Every `int` is below `2 ^ 31`. -/
theorem toInt_lt (n : ℤ) : toInt n < 2 ^ 31 := by
  have hlt := Int.bmod_lt (x := n) (m := 2 ^ 32) (by decide)
  rw [toInt]
  omega

/-- Every `int` is at least `-2 ^ 31`. -/
theorem le_toInt (n : ℤ) : -2 ^ 31 ≤ toInt n := by
  have hle := Int.le_bmod (x := n) (m := 2 ^ 32) (by decide)
  rw [toInt]
  omega

/-- One more than an `int` below the largest one. -/
theorem intSucc_of_lt {n : ℕ} (h : n + 1 < 2 ^ 31) : intSucc n = some (n + 1) := if_pos h

/-- There is no `int` behind the largest one. -/
theorem intSucc_of_le {n : ℕ} (h : 2 ^ 31 ≤ n + 1) : intSucc n = none := if_neg (Nat.not_lt.mpr h)

/-- Every `long` has at most 19 digits. -/
theorem natAbs_toLong_lt (n : ℤ) : (toLong n).natAbs < 10 ^ 19 := by
  have hlt := Int.bmod_lt (x := n) (m := 2 ^ 64) (by decide)
  have hle := Int.le_bmod (x := n) (m := 2 ^ 64) (by decide)
  rw [toLong]
  omega

/-- A number which is not negative and below `2 ^ 64` keeps its value. -/
theorem toSizeT_of_lt {n : ℤ} (h₀ : 0 ≤ n) (h : n < 2 ^ 64) : (toSizeT n : ℤ) = n := by
  rw [toSizeT, Int.emod_eq_of_lt h₀ h, Int.toNat_of_nonneg h₀]

/-- An `int` survives the conversion to `size_t` if and only if it is not negative: a negative one
becomes huge. -/
theorem toSizeT_toInt_lt_iff (n : ℤ) : toSizeT (toInt n) < 2 ^ 63 ↔ 0 ≤ toInt n := by
  have hlt := toInt_lt n
  have hle := le_toInt n
  rw [toSizeT]
  constructor
  · intro hsize
    apply Int.not_lt.mp
    intro hneg
    have hmod : toInt n % 2 ^ 64 = toInt n + 2 ^ 64 := by omega
    omega
  · intro hnonneg
    rw [Int.emod_eq_of_lt hnonneg (by omega)]
    omega

end Csci4061.Lib
