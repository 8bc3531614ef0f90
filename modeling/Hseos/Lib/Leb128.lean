import Mathlib.Data.Int.Basic
import Mathlib.Tactic.Ring
import Mathlib.Tactic.Linarith

/-! # Signed LEB128

A group of bytes stands for a number in base 128, the lowest digit first; the top bit of a byte says
that another byte follows. Read as signed, the number is sign-extended from the top bit of its last
digit. Every integer has a shortest group, and padding a group does not change its value.
-/

namespace Hseos.Leb128

/-- The seven low bits. -/
def payload (b : BitVec 8) : ℕ := b.toNat % 128

/-- The top bit is set on all bytes but the last. -/
def IsGroup : List (BitVec 8) → Prop
  | [] => False
  | [b] => b.toNat < 128
  | b :: next :: rest => 128 ≤ b.toNat ∧ IsGroup (next :: rest)

/-- The sum of `payload b * 2 ^ (7 * i)` over the bytes `b`, at index `i`, of a group. -/
def unsigned : List (BitVec 8) → ℕ
  | [] => 0
  | b :: rest => payload b + 128 * unsigned rest

/-- The number sign-extended from its bit `7 * k - 1`, where `k` is the length of the group. -/
def signed (group : List (BitVec 8)) : ℤ :=
  if 2 * unsigned group < 2 ^ (7 * group.length) then unsigned group
  else unsigned group - 2 ^ (7 * group.length)

/-- The shortest group of an integer. -/
def encode (v : ℤ) : List (BitVec 8) :=
  if -64 ≤ v ∧ v < 64 then [BitVec.ofInt 8 (v % 128)]
  else BitVec.ofInt 8 (v % 128 + 128) :: encode (v / 128)
termination_by v.natAbs
decreasing_by omega

variable {group rest : List (BitVec 8)} {b : BitVec 8}

theorem payload_lt (b : BitVec 8) : payload b < 128 := Nat.mod_lt _ (by decide)

theorem two_pow_length (bytes : List (BitVec 8)) :
    2 ^ (7 * (b :: bytes).length) = 128 * 2 ^ (7 * bytes.length) := by
  rw [List.length_cons, Nat.mul_succ, Nat.pow_add, Nat.mul_comm]

theorem IsGroup.ne_nil (group_ : IsGroup group) : group ≠ [] := by
  rintro rfl
  exact group_

/-- Only the last byte of a group bears the sign. -/
theorem signed_cons (nonempty : rest ≠ []) : signed (b :: rest) = payload b + 128 * signed rest := by
  obtain ⟨c, more, rfl⟩ := List.exists_cons_of_ne_nil nonempty
  have digit := payload_lt b
  have size : (2 : ℤ) ^ (7 * (b :: c :: more).length) = 128 * 2 ^ (7 * (c :: more).length) := by
    exact_mod_cast two_pow_length (b := b) (c :: more)
  have even : 2 ^ (7 * (c :: more).length) = 2 * (64 * 2 ^ (7 * more.length)) := by
    rw [two_pow_length]
    ring
  rw [signed, signed, unsigned, size]
  rw [two_pow_length, even]
  split <;> split <;> push_cast <;> omega

theorem toNat_digit {v : ℤ} (low : 0 ≤ v) (high : v < 256) : ((BitVec.ofInt 8 v).toNat : ℤ) = v := by
  rw [BitVec.toNat_ofInt]
  omega

theorem isGroup_encode (v : ℤ) : IsGroup (encode v) := by
  induction v using encode.induct with
  | case1 v short =>
    have digit := toNat_digit (v := v % 128) (by omega) (by omega)
    rw [encode, if_pos short, IsGroup]
    omega
  | case2 v long ih =>
    have digit := toNat_digit (v := v % 128 + 128) (by omega) (by omega)
    obtain ⟨c, more, rest⟩ := List.exists_cons_of_ne_nil ih.ne_nil
    rw [encode, if_neg long, rest, IsGroup, ← rest]
    exact ⟨by omega, ih⟩

/-- The group of an integer stands for it. -/
theorem signed_encode (v : ℤ) : signed (encode v) = v := by
  induction v using encode.induct with
  | case1 v short =>
    have digit := toNat_digit (v := v % 128) (by omega) (by omega)
    rw [encode, if_pos short]
    rw [signed, unsigned, unsigned, payload, List.length_singleton]
    split <;> omega
  | case2 v long ih =>
    have digit := toNat_digit (v := v % 128 + 128) (by omega) (by omega)
    rw [encode, if_neg long, signed_cons (isGroup_encode _).ne_nil, ih, payload]
    omega

/-- `k` bytes are enough for the integers of `7 * k` bits. -/
theorem length_encode_le {k : ℕ} {v : ℤ} (low : -(64 * 128 ^ k) ≤ v) (high : v < 64 * 128 ^ k) :
    (encode v).length ≤ k + 1 := by
  induction k generalizing v with
  | zero =>
    rw [encode, if_pos (by omega), List.length_singleton]
  | succ k ih =>
    rw [pow_succ] at low high
    rw [encode]
    split
    · rw [List.length_singleton]
      omega
    · rw [List.length_cons]
      have rest := ih (v := v / 128) (by omega) (by omega)
      omega

end Hseos.Leb128
