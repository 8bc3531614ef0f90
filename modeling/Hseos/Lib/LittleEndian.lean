import Mathlib.Data.Nat.ModEq

/-! # Numbers in memory

A number in `width` bytes, the least one first, and the number a list of bytes holds.
-/

namespace Hseos

/-- The bytes of a number, as many as the width has. -/
def numberBytes : ℕ → ℕ → List (BitVec 8)
  | 0, _ => []
  | width + 1, n => BitVec.ofNat 8 n :: numberBytes width (n / 256)

/-- The number in a list of bytes. -/
def bytesNumber : List (BitVec 8) → ℕ
  | [] => 0
  | byte :: rest => byte.toNat + 256 * bytesNumber rest

@[simp] theorem length_numberBytes (width n : ℕ) : (numberBytes width n).length = width := by
  induction width generalizing n with
  | zero => rfl
  | succ width ih => rw [numberBytes, List.length_cons, ih]

/-- A number that fits is read back. -/
theorem bytesNumber_numberBytes {width n : ℕ} (fits : n < 256 ^ width) :
    bytesNumber (numberBytes width n) = n := by
  induction width generalizing n with
  | zero =>
    rw [Nat.pow_zero] at fits
    rw [numberBytes, bytesNumber]
    omega
  | succ width ih =>
    have rest : n / 256 < 256 ^ width := by
      rw [Nat.pow_succ] at fits
      exact Nat.div_lt_of_lt_mul (by rwa [Nat.mul_comm] at fits)
    rw [numberBytes, bytesNumber, ih rest, BitVec.toNat_ofNat]
    exact Nat.mod_add_div n 256

end Hseos
