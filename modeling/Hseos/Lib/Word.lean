import Mathlib.Data.Nat.ModEq

/-! # Partial operations and machine words

C expressions that have no value (a reduction modulo zero, an access outside its object, a shift by
an impossible amount, an `int` that overflows) are the failures of `Except Fault`, so that a
definedness property of a function is that it never ends in a failure. Unsigned words of `w` bits are natural numbers below
`2 ^ w`; the operations wrap around explicitly.
-/

namespace Hseos

/-- Why the evaluation of a C expression or call has no result. -/
inductive Fault where
  | divisionByZero
  | outOfBounds
  | nullPointer
  | invalidShift
  | signedOverflow
  | outOfFuel
deriving DecidableEq, Repr

@[simp] theorem ok_bind.{u, v} {ε : Type u} {α β : Type v} (a : α) (next : α → Except ε β) :
    ((Except.ok a : Except ε α) >>= next) = next a := rfl

/-- The first part of a computation that succeeds succeeds. -/
theorem ok_of_bind.{u, v} {ε : Type u} {α β : Type v} {first : Except ε α} {next : α → Except ε β} {b : β}
    (ran : first >>= next = .ok b) : ∃ a, first = .ok a ∧ next a = .ok b := by
  cases first with
  | error => cases ran
  | ok a => exact ⟨a, rfl, ran⟩

theorem map_eq_ok.{u, v} {ε : Type u} {α β : Type v} {f : α → β} {first : Except ε α} {b : β} :
    first.map f = .ok b ↔ ∃ a, first = .ok a ∧ f a = b := by
  cases first <;> simp [Except.map]

theorem toOption_eq_some {ε α : Type*} {result : Except ε α} {a : α} :
    result.toOption = some a ↔ result = .ok a := by
  cases result <;> simp [Except.toOption]

/-- `a + b` on unsigned words of `w` bits. -/
def wordAdd (w a b : ℕ) : ℕ := (a + b) % 2 ^ w

/-- `a - b` on unsigned words of `w` bits. -/
def wordSub (w a b : ℕ) : ℕ := (a + 2 ^ w - b) % 2 ^ w

/-- `a * b` on unsigned words of `w` bits. -/
def wordMul (w a b : ℕ) : ℕ := (a * b) % 2 ^ w

/-- `a % b`, which C leaves undefined for a zero divisor. -/
def wordMod (a b : ℕ) : Except Fault ℕ :=
  if b = 0 then .error .divisionByZero else .ok (a % b)

/-- `a + b` on `int`. -/
def intAdd (a b : ℤ) : Except Fault ℤ :=
  if -2 ^ 31 ≤ a + b ∧ a + b < 2 ^ 31 then .ok (a + b) else .error .signedOverflow

/-- `a << amount` on words of `w` bits. -/
def shiftLeft {w : ℕ} (a : BitVec w) (amount : ℤ) : Except Fault (BitVec w) :=
  if 0 ≤ amount ∧ amount < w then .ok (a <<< amount.toNat) else .error .invalidShift

theorem wordAdd_of_lt {w a b : ℕ} (bound : a + b < 2 ^ w) : wordAdd w a b = a + b :=
  Nat.mod_eq_of_lt bound

theorem wordSub_of_le {w a b : ℕ} (bound : a < 2 ^ w) (ordered : b ≤ a) : wordSub w a b = a - b := by
  rw [wordSub, show a + 2 ^ w - b = a - b + 2 ^ w by omega, Nat.add_mod_right,
    Nat.mod_eq_of_lt (by omega)]

/-- A difference of a number that has wrapped around before. -/
theorem wordSub_mod {w a b : ℕ} (word : b ≤ 2 ^ w) (ordered : b ≤ a) :
    wordSub w (a % 2 ^ w) b = (a - b) % 2 ^ w := by
  have parts := Nat.div_add_mod a (2 ^ w)
  have sum : a - b + 2 ^ w = a % 2 ^ w + 2 ^ w - b + 2 ^ w * (a / 2 ^ w) := by omega
  rw [wordSub, ← Nat.add_mul_mod_self_left _ _ (a / 2 ^ w), ← sum, Nat.add_mod_right]

theorem wordMul_of_lt {w a b : ℕ} (bound : a * b < 2 ^ w) : wordMul w a b = a * b :=
  Nat.mod_eq_of_lt bound

/-- `2 * a`, and what becomes of it when it wraps around. -/
theorem wordMul_two {w a : ℕ} (bound : 2 * a < 2 ^ w) : wordMul w a 2 = 2 * a := by
  rw [wordMul_of_lt (by omega), Nat.mul_comm]

theorem wordMul_two_wraps {w a : ℕ} (word : a < 2 ^ w) (wraps : 2 ^ w ≤ 2 * a) :
    wordMul w a 2 = 2 * a - 2 ^ w := by
  rw [wordMul, Nat.mul_comm, Nat.mod_eq_sub_mod wraps]
  exact Nat.mod_eq_of_lt (by omega)

/-- The greater one of a number and one. -/
theorem ite_lt_one (n : ℕ) : (if n < 1 then 1 else n) = max n 1 := by
  split_ifs <;> omega

theorem wordMod_of_pos {a b : ℕ} (positive : 0 < b) : wordMod a b = .ok (a % b) :=
  if_neg (by omega)

theorem intAdd_ok {a b : ℤ} (low : -2 ^ 31 ≤ a + b) (high : a + b < 2 ^ 31) :
    intAdd a b = .ok (a + b) :=
  if_pos ⟨low, high⟩

theorem shiftLeft_ok {w amount : ℕ} (a : BitVec w) (bound : amount < w) :
    shiftLeft a amount = .ok (a <<< amount) :=
  if_pos ⟨Int.natCast_nonneg amount, Int.ofNat_lt.mpr bound⟩

end Hseos
