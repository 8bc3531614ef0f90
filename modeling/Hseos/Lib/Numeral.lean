import Hseos.Lib.Word
import Mathlib.Data.Nat.Digits.Lemmas
import Mathlib.Data.List.TakeWhile

/-! # Numbers as text

Text is a list of bytes. `numeral` is what the formats for unsigned integers print in bases up to
sixteen; the scanners of the C library skip white space, take a sign and the digits that follow, and
clamp the number to their type. Printed numbers are read back, and their length is bounded by the
powers of the base.
-/

namespace Hseos.Numeral

def minus : BitVec 8 := 0x2d

def plus : BitVec 8 := 0x2b

/-- `isdigit`. -/
def isDigit (c : BitVec 8) : Bool := 48 ≤ c.toNat && c.toNat ≤ 57

/-- `isspace` in the C locale. -/
def isSpace (c : BitVec 8) : Bool := c.toNat == 32 || 9 ≤ c.toNat && c.toNat ≤ 13

/-- The character of a digit, with small letters from ten on. -/
def digit (d : ℕ) : BitVec 8 := BitVec.ofNat 8 (if d < 10 then 48 + d else 87 + d)

def digitValue (c : BitVec 8) : ℕ := if isDigit c then c.toNat - 48 else c.toNat - 87

/-- The number a string of digits stands for. -/
def value (base : ℕ) (digits : List (BitVec 8)) : ℕ :=
  digits.foldl (fun number c => base * number + digitValue c) 0

/-- What `%u` prints for base ten, and `%x` for sixteen. -/
def numeral (base n : ℕ) : List (BitVec 8) :=
  if n = 0 then [digit 0] else (Nat.digits base n).reverse.map digit

/-- Whether a text begins with a minus, and what follows its sign. -/
def scanSign : List (BitVec 8) → Bool × List (BitVec 8)
  | [] => (false, [])
  | c :: rest =>
      if c = minus then (true, rest) else if c = plus then (false, rest) else (false, c :: rest)

/-- White space, a sign and decimal digits: whether the sign is a minus, and the number. -/
def scanNumeral (text : List (BitVec 8)) : Option (Bool × ℕ) :=
  let (negative, rest) := scanSign (text.dropWhile isSpace)
  let digits := rest.takeWhile isDigit
  if digits = [] then none else some (negative, value 10 digits)

/-- `strtoul` in base ten; nothing when no number is found. -/
def strtoul (text : List (BitVec 8)) : Option ℕ :=
  (scanNumeral text).map fun (negative, n) =>
    if 2 ^ 64 ≤ n then 2 ^ 64 - 1 else if negative then wordSub 64 0 n else n

/-- `atoi`: the `long` that `strtol` finds, or zero, taken as an `int`. -/
def atoi (text : List (BitVec 8)) : ℤ :=
  match scanNumeral text with
  | none => 0
  | some (negative, n) =>
      let number : ℤ := if negative then -n else n
      (max (-2 ^ 63) (min number (2 ^ 63 - 1))).bmod (2 ^ 32)

variable {base n d : ℕ}

section Digits

theorem toNat_digit (bound : d < 16) : (digit d).toNat = if d < 10 then 48 + d else 87 + d := by
  rw [digit, BitVec.toNat_ofNat]
  split <;> omega

theorem isDigit_digit (bound : d < 10) : isDigit (digit d) = true := by
  rw [isDigit, toNat_digit (by omega), if_pos bound, Bool.and_eq_true, decide_eq_true_eq,
    decide_eq_true_eq]
  omega

theorem digitValue_digit (bound : d < 16) : digitValue (digit d) = d := by
  rw [digitValue, isDigit, toNat_digit bound]
  split <;> split at * <;> simp only [Bool.and_eq_true, decide_eq_true_eq] at * <;> omega

theorem value_append (digits : List (BitVec 8)) (c : BitVec 8) :
    value base (digits ++ [c]) = base * value base digits + digitValue c := by
  rw [value, List.foldl_append]
  rfl

theorem value_map {digits : List ℕ} (small : ∀ d ∈ digits, d < 16) :
    value base (digits.reverse.map digit) = Nat.ofDigits base digits := by
  induction digits with
  | nil => rfl
  | cons d rest ih =>
    have below : ∀ d ∈ rest, d < 16 := fun d member => small d (List.mem_cons_of_mem _ member)
    rw [List.reverse_cons, List.map_append, List.map_singleton, value_append, ih below,
      digitValue_digit (small d List.mem_cons_self), Nat.ofDigits_cons, Nat.add_comm]

end Digits

section Printed

/-- Every character of a printed number is a digit of its base. -/
theorem mem_numeral {c : BitVec 8} (least : 1 < base) (member : c ∈ numeral base n) :
    ∃ d < base, c = digit d := by
  rw [numeral] at member
  split at member
  · exact ⟨0, by omega, List.mem_singleton.mp member⟩
  · obtain ⟨d, inside, rfl⟩ := List.mem_map.mp member
    exact ⟨d, Nat.digits_lt_base least (List.mem_reverse.mp inside), rfl⟩

/-- Printed digits stand for the number. -/
theorem value_numeral (least : 1 < base) (most : base ≤ 16) (n : ℕ) :
    value base (numeral base n) = n := by
  rw [numeral]
  split
  · next zero =>
    rw [zero, value, List.foldl_cons, digitValue_digit (by decide)]
    rfl
  · have small : ∀ d ∈ Nat.digits base n, d < 16 := fun d member =>
      Nat.lt_of_lt_of_le (Nat.digits_lt_base least member) most
    rw [value_map small, Nat.ofDigits_digits]

/-- `k` characters are enough exactly for the numbers below `base ^ k`. -/
theorem length_numeral_le_iff {k : ℕ} (least : 1 < base) (positive : 0 < k) :
    (numeral base n).length ≤ k ↔ n < base ^ k := by
  rw [numeral]
  split
  · next zero =>
    rw [zero, List.length_singleton]
    exact iff_of_true positive (Nat.pow_pos (by omega))
  · rw [List.length_map, List.length_reverse]
    exact Nat.digits_length_le_iff least n

theorem numeral_ne_nil (base n : ℕ) : numeral base n ≠ [] := by
  rw [numeral]
  split
  · exact List.cons_ne_nil _ _
  · next nonzero => simpa using Nat.digits_ne_nil_iff_ne_zero.mpr nonzero

theorem isDigit_of_mem {c : BitVec 8} (member : c ∈ numeral 10 n) : isDigit c = true := by
  obtain ⟨d, bound, rfl⟩ := mem_numeral (by decide) member
  exact isDigit_digit bound

end Printed

section Scanned

theorem scanSign_digit {c : BitVec 8} (is_digit : isDigit c = true) (rest : List (BitVec 8)) :
    scanSign (c :: rest) = (false, c :: rest) := by
  have notMinus : c ≠ minus := by rintro rfl; cases is_digit
  have notPlus : c ≠ plus := by rintro rfl; cases is_digit
  rw [scanSign, if_neg notMinus, if_neg notPlus]

theorem isSpace_digit {c : BitVec 8} (is_digit : isDigit c = true) : isSpace c = false := by
  revert c
  decide

/-- Digits are found in front of a text that does not go on with one. -/
theorem scanNumeral_digits {digits rest : List (BitVec 8)} (nonempty : digits ≠ [])
    (all : ∀ c ∈ digits, isDigit c = true) (ends : rest.takeWhile isDigit = []) :
    scanNumeral (digits ++ rest) = some (false, value 10 digits) := by
  have found : (digits ++ rest).takeWhile isDigit = digits := by
    rw [List.takeWhile_append_of_pos all, ends, List.append_nil]
  obtain ⟨c, more, rfl⟩ := List.exists_cons_of_ne_nil nonempty
  have first : isDigit c = true := all c List.mem_cons_self
  have start : scanSign ((c :: more ++ rest).dropWhile isSpace) = (false, c :: more ++ rest) := by
    rw [List.cons_append, List.dropWhile_cons_of_neg (by simp [isSpace_digit first])]
    exact scanSign_digit first _
  simp only [scanNumeral, start, found, if_neg nonempty]

/-- A printed number is found in front of a text that does not go on with a digit. -/
theorem scanNumeral_numeral {rest : List (BitVec 8)} (ends : rest.takeWhile isDigit = []) :
    scanNumeral (numeral 10 n ++ rest) = some (false, n) := by
  rw [scanNumeral_digits (numeral_ne_nil 10 n) (fun c member => isDigit_of_mem member) ends,
    value_numeral (by decide) (by decide)]

theorem strtoul_numeral {rest : List (BitVec 8)} (ends : rest.takeWhile isDigit = [])
    (bound : n < 2 ^ 64) : strtoul (numeral 10 n ++ rest) = some n := by
  simp only [strtoul, scanNumeral_numeral ends, Option.map_some, if_neg (Nat.not_le.mpr bound),
    Bool.false_eq_true, if_false]

theorem atoi_digits {digits : List (BitVec 8)} (nonempty : digits ≠ [])
    (all : ∀ c ∈ digits, isDigit c = true) (bound : value 10 digits < 2 ^ 31) :
    atoi digits = value 10 digits := by
  have scan : scanNumeral (digits ++ []) = some (false, value 10 digits) :=
    scanNumeral_digits nonempty all rfl
  rw [List.append_nil] at scan
  simp only [atoi, scan, Bool.false_eq_true, if_false]
  rw [min_eq_left (by omega), max_eq_right (by omega)]
  exact Int.bmod_eq_of_le (by omega) (by omega)

theorem atoi_numeral (bound : n < 2 ^ 31) : atoi (numeral 10 n) = n := by
  have number : value 10 (numeral 10 n) = n := value_numeral (by decide) (by decide) n
  rw [atoi_digits (numeral_ne_nil 10 n) (fun c member => isDigit_of_mem member) (by omega), number]

end Scanned

end Hseos.Numeral
