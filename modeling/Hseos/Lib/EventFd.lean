import Mathlib.Algebra.Group.Nat.Defs
import Mathlib.Tactic.Common

/-! # Event counters

The counter behind an `eventfd` descriptor, as processes that use it without `O_NONBLOCK` and
without `EFD_SEMAPHORE` see it: a write adds to the counter, a read takes all of it. Calls that would
block have no result.
-/

namespace Hseos

/-- A read returns the counter and leaves zero; it blocks at zero. -/
def eventRead (counter : ℕ) : Option (ℕ × ℕ) :=
  if counter = 0 then none else some (counter, 0)

/-- Whether a write succeeds, and the counter after it. `2 ^ 64 - 1` is refused with `EINVAL`, and a
sum above `2 ^ 64 - 2` blocks. -/
def eventWrite (counter value : ℕ) : Option (Bool × ℕ) :=
  if value = 2 ^ 64 - 1 then some (false, counter)
  else if counter + value ≤ 2 ^ 64 - 2 then some (true, counter + value)
  else none

theorem eventRead_zero : eventRead 0 = none := rfl

theorem eventRead_pos {counter : ℕ} (pending : counter ≠ 0) : eventRead counter = some (counter, 0) :=
  if_neg pending

/-- A read that returns has found all of the counter. -/
theorem eventRead_some {counter value rest : ℕ} (read : eventRead counter = some (value, rest)) :
    counter ≠ 0 ∧ value = counter ∧ rest = 0 := by
  rw [eventRead] at read
  split_ifs at read with empty
  cases read
  exact ⟨empty, rfl, rfl⟩

/-- A write to an empty counter does not block. -/
theorem eventWrite_empty {value : ℕ} (small : value < 2 ^ 64 - 1) :
    eventWrite 0 value = some (true, value) := by
  rw [eventWrite, if_neg (by omega), if_pos (by omega), Nat.zero_add]

end Hseos
