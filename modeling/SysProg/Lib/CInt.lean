import Mathlib.Data.Int.ModEq
import Mathlib.Tactic

/-!
# Conversions between the integer types of C

Values of `uint` and `size_t` are natural numbers, values of `int` are integers.

* `toInt`: the value passed for an `int` parameter (two's complement, 32 bits);
* `toUInt`, `toSize`: the value of an `int` where a `uint` or a `size_t` is wanted;
* `sizeAdd`, `sizeSub`: arithmetic of `size_t`, modulo `2^64`.
-/

namespace CInt

/-- The `int` with the low 32 bits of an unsigned value. -/
def toInt (n : ℕ) : ℤ := Int.bmod n (2 ^ 32)

/-- An `int` converted to `uint`. -/
def toUInt (v : ℤ) : ℕ := (v % 2 ^ 32).toNat

/-- An `int` converted to `size_t`. -/
def toSize (v : ℤ) : ℕ := (v % 2 ^ 64).toNat

/-- Addition of `size_t`. -/
def sizeAdd (a b : ℕ) : ℕ := (a + b) % 2 ^ 64

/-- Subtraction of `size_t`: it wraps around when `a < b`. -/
def sizeSub (a b : ℕ) : ℕ := (a + (2 ^ 64 - b % 2 ^ 64)) % 2 ^ 64

theorem toInt_of_lt {n : ℕ} (h : n < 2 ^ 31) : toInt n = n :=
  Int.bmod_eq_of_le (by omega) (by omega)

theorem toInt_lt (n : ℕ) : toInt n < 2 ^ 31 := by
  have := Int.bmod_lt (x := (n : ℤ)) (m := 2 ^ 32) (by norm_num)
  unfold toInt
  omega

theorem toSize_of_nonneg {v : ℤ} (h : 0 ≤ v) (hv : v < 2 ^ 64) : toSize v = v.toNat := by
  rw [toSize, Int.emod_eq_of_lt h hv]

/-- A `size_t` that is not the value of a negative `int`. -/
theorem toSize_bmod_of_lt {v : ℤ} (h : toSize (Int.bmod v (2 ^ 32)) < 2 ^ 31) :
    (toSize (Int.bmod v (2 ^ 32)) : ℤ) = v % 2 ^ 32 := by
  rw [toSize, Int.bmod_def] at *
  push_cast at *
  split_ifs at * <;> omega

theorem toSize_lt (v : ℤ) : toSize v < 2 ^ 64 := by
  rw [toSize]
  omega

/-- Arithmetic of `int` does not depend on where the values have wrapped around. -/
theorem bmod_toInt_add (n : ℕ) (v : ℤ) :
    Int.bmod (toInt n + v) (2 ^ 32) = Int.bmod (n + v) (2 ^ 32) := by
  unfold toInt
  exact Int.bmod_add_bmod

theorem bmod_toInt_sub (m n : ℕ) :
    Int.bmod (toInt m - toInt n) (2 ^ 32) = Int.bmod ((m : ℤ) - n) (2 ^ 32) := by
  unfold toInt
  rw [Int.bmod_sub_bmod, Int.sub_bmod_bmod]

/-- A positive `int` is a positive `size_t`. -/
theorem toSize_pos {v : ℤ} (h : 0 < v) (hv : v < 2 ^ 64) : 0 < toSize v := by
  rw [toSize_of_nonneg h.le hv]
  omega

theorem sizeSub_of_le {a b : ℕ} (h : b ≤ a) (ha : a < 2 ^ 64) : sizeSub a b = a - b := by
  rw [sizeSub, Nat.mod_eq_of_lt (h.trans_lt ha)]
  omega

/-- A difference of sizes is zero only if they are equal. -/
theorem sizeSub_eq_zero_iff {a b : ℕ} (ha : a < 2 ^ 64) (hb : b < 2 ^ 64) :
    sizeSub a b = 0 ↔ a = b := by
  rw [sizeSub, Nat.mod_eq_of_lt hb]
  omega

end CInt
