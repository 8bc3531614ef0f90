import Hseos.Lib.Numeral
import Mathlib.Algebra.Group.Nat.Even

/-! # Running code given in hex

`main` decodes its argument into a mapping of half its length and calls it. `from_hex_char` marks other
characters with `0xFF`, but nobody looks for the mark, and nobody looks whether the length is even. So all
arguments from two characters on are taken for code; those without a byte fail in `mmap`.
-/

namespace Hseos.Mmap

open Numeral

/-- `from_hex_char`; a `char` is compared with its sign. -/
def fromHexChar (c : BitVec 8) : BitVec 8 :=
  if c.toInt ≥ 48 ∧ c.toInt ≤ 57 then BitVec.ofInt 8 (c.toInt - 48)
  else if c.toInt ≥ 65 ∧ c.toInt ≤ 70 then BitVec.ofInt 8 (10 + c.toInt - 65)
  else if c.toInt ≥ 97 ∧ c.toInt ≤ 102 then BitVec.ofInt 8 (10 + c.toInt - 97)
  else 0xFF

/-- The value that is stored for two characters; the digits are promoted to `int`. -/
def hexByte (high low : BitVec 8) : BitVec 8 :=
  ((fromHexChar high).zeroExtend 32 <<< 4 ||| (fromHexChar low).zeroExtend 32).truncate 8

/-- `code[i]`, where a NUL follows the characters. -/
def codeAt (code : List (BitVec 8)) (i : ℕ) : Except Fault (BitVec 8) :=
  match (code ++ [0])[i]? with
  | some c => .ok c
  | none => .error .outOfBounds

/-- `ptr[i] = v`, which must be inside of the mapping. -/
def storeAt (ptr : List (BitVec 8)) (i : ℕ) (v : BitVec 8) : Except Fault (List (BitVec 8)) :=
  if i < ptr.length then .ok (ptr.set i v) else .error .outOfBounds

/-- The decoding loop from index `i` on. -/
def decodeLoop (code : List (BitVec 8)) : ℕ → ℕ → List (BitVec 8) → Except Fault (List (BitVec 8))
  | 0, _, _ => .error .outOfFuel
  | fuel + 1, i, ptr =>
      if i < code.length then do
        let high ← codeAt code i
        let low ← codeAt code (i + 1)
        let ptr ← storeAt ptr (i >>> 1) (hexByte high low)
        decodeLoop code fuel (i + 2) ptr
      else .ok ptr

/-- How the program goes on after its argument: it returns `-1`, or runs the contents of the mapping. -/
inductive Outcome where
  | refused
  | runs (ptr : List (BitVec 8))
deriving DecidableEq

/-- `main` up to the calls of the code. `mmap` gives zeros, and fails for the length zero. -/
def runHex (code : List (BitVec 8)) : Except Fault Outcome :=
  let size := code.length
  if size >>> 1 = 0 then .ok .refused
  else do
    let ptr ← decodeLoop code (size + 1) 0 (List.replicate (size >>> 1) 0)
    return .runs ptr

/-- The character of a hex digit, in small or in capital letters. -/
def IsHexDigit (d : ℕ) (c : BitVec 8) : Prop :=
  d < 16 ∧ (c = digit d ∨ 10 ≤ d ∧ c = BitVec.ofNat 8 (55 + d))

/-- A text is the hex code of these bytes, in any mix of cases. -/
inductive HexOf : List (BitVec 8) → List (BitVec 8) → Prop
  | nil : HexOf [] []
  | cons {high low : ℕ} {c d : BitVec 8} {text bytes : List (BitVec 8)} (first : IsHexDigit high c)
      (second : IsHexDigit low d) (rest : HexOf text bytes) :
      HexOf (c :: d :: text) (BitVec.ofNat 8 (16 * high + low) :: bytes)

/-- An even number of hex digits. -/
def HexText (code : List (BitVec 8)) : Prop := Even code.length ∧ ∀ c ∈ code, ∃ d, IsHexDigit d c

/-- The program runs the bytes of a text of hex digits, refuses all other texts, and never stores outside of
its mapping. -/
def RunsHexOnly (code : List (BitVec 8)) : Prop :=
  (HexText code → ∃ bytes, HexOf code bytes ∧ runHex code = .ok (.runs bytes)) ∧
  (∀ bytes, HexOf code bytes → runHex code = .ok (.runs bytes)) ∧
  (¬HexText code → runHex code = .ok .refused) ∧
  runHex code ≠ .error .outOfBounds

section Digits

theorem fromHexChar_digit {d : ℕ} {c : BitVec 8} (is_digit : IsHexDigit d c) :
    fromHexChar c = BitVec.ofNat 8 d := by
  obtain ⟨bound, rfl | ⟨large, rfl⟩⟩ := is_digit
  · interval_cases d <;> rfl
  · interval_cases d <;> rfl

theorem hexByte_digits {high low : ℕ} {c d : BitVec 8} (first : IsHexDigit high c) (second : IsHexDigit low d) :
    hexByte c d = BitVec.ofNat 8 (16 * high + low) := by
  rw [hexByte, fromHexChar_digit first, fromHexChar_digit second]
  obtain ⟨high_lt, -⟩ := first
  obtain ⟨low_lt, -⟩ := second
  have pairs : ∀ high < 16, ∀ low < 16, ((BitVec.ofNat 8 high).zeroExtend 32 <<< 4 |||
      (BitVec.ofNat 8 low).zeroExtend 32).truncate 8 = BitVec.ofNat 8 (16 * high + low) := by
    decide
  exact pairs high high_lt low low_lt

end Digits

/-- The bytes that are stored for a text, pair by pair. -/
def hexBytes : List (BitVec 8) → List (BitVec 8)
  | c :: d :: text => hexByte c d :: hexBytes text
  | _ => []

variable {code text bytes before ptr : List (BitVec 8)} {fuel : ℕ}

theorem HexOf.hexBytes (hex_of : HexOf text bytes) : Mmap.hexBytes text = bytes := by
  induction hex_of with
  | nil => rfl
  | cons first second _ ih => rw [Mmap.hexBytes, ih, hexByte_digits first second]

theorem HexOf.hexText (hex_of : HexOf text bytes) : HexText text := by
  induction hex_of with
  | nil => exact ⟨Even.zero, fun _ member => absurd member List.not_mem_nil⟩
  | @cons high low c d text bytes first second _ ih =>
    obtain ⟨even, digits⟩ := ih
    refine ⟨even.add (show Even 2 by decide), ?_⟩
    rintro e member
    rcases List.mem_cons.mp member with rfl | member
    · exact ⟨high, first⟩
    · rcases List.mem_cons.mp member with rfl | member
      · exact ⟨low, second⟩
      · exact digits e member

/-- A text of hex digits is the code of some bytes. -/
theorem HexText.exists_hexOf (hex : HexText text) : ∃ bytes, HexOf text bytes := by
  induction text using Mmap.hexBytes.induct with
  | case1 c d text ih =>
    obtain ⟨even, digits⟩ := hex
    obtain ⟨high, first⟩ := digits c List.mem_cons_self
    obtain ⟨low, second⟩ := digits d (List.mem_cons_of_mem c List.mem_cons_self)
    rw [List.length_cons, List.length_cons, Nat.add_assoc, Nat.even_add] at even
    obtain ⟨bytes, rest⟩ := ih ⟨even.mpr (by decide), fun e member =>
      digits e (List.mem_cons_of_mem c (List.mem_cons_of_mem d member))⟩
    exact ⟨_, .cons first second rest⟩
  | case2 text short =>
    cases text with
    | nil => exact ⟨[], .nil⟩
    | cons c text =>
      cases text with
      | nil => exact absurd hex.1 Nat.not_even_one
      | cons d text => exact absurd rfl (short c d text)

theorem codeAt_append (before text : List (BitVec 8)) (i : ℕ) {c : BitVec 8}
    (found : (text ++ [0])[i]? = some c) : codeAt (before ++ text) (before.length + i) = .ok c := by
  have found' : (before ++ text ++ [0])[before.length + i]? = some c := by
    rw [List.append_assoc, List.getElem?_append_right (Nat.le_add_right ..), Nat.add_sub_cancel_left, found]
  rw [codeAt, found']

/-- A pass of the loop that finds two characters and room. -/
theorem decodeLoop_pair {c d : BitVec 8} {m : ℕ} (half : before.length = 2 * m) (room : m < ptr.length) :
    decodeLoop (before ++ c :: d :: text) (fuel + 1) before.length ptr =
      decodeLoop ((before ++ [c, d]) ++ text) fuel (before ++ [c, d]).length (ptr.set m (hexByte c d)) := by
  have inside : before.length < (before ++ c :: d :: text).length := by simp
  have first : codeAt (before ++ c :: d :: text) before.length = .ok c :=
    codeAt_append before (c :: d :: text) 0 rfl
  have second : codeAt (before ++ c :: d :: text) (before.length + 1) = .ok d :=
    codeAt_append before (c :: d :: text) 1 rfl
  have place : before.length >>> 1 = m := by
    rw [Nat.shiftRight_eq_div_pow]
    omega
  have stored : storeAt ptr m (hexByte c d) = .ok (ptr.set m (hexByte c d)) := if_pos room
  rw [decodeLoop, if_pos inside, first, second, place, ok_bind, ok_bind, stored, ok_bind]
  simp

/-- A pass of the loop that finds one character only. -/
theorem decodeLoop_single {c : BitVec 8} {m : ℕ} (half : before.length = 2 * m) (full : ptr.length ≤ m) :
    decodeLoop (before ++ [c]) (fuel + 1) before.length ptr = .error .outOfBounds := by
  have inside : before.length < (before ++ [c]).length := by simp
  have first : codeAt (before ++ [c]) before.length = .ok c := codeAt_append before [c] 0 rfl
  have second : codeAt (before ++ [c]) (before.length + 1) = .ok 0 := codeAt_append before [c] 1 rfl
  have place : before.length >>> 1 = m := by
    rw [Nat.shiftRight_eq_div_pow]
    omega
  have outside : storeAt ptr m (hexByte c 0) = .error .outOfBounds := if_neg (by omega)
  rw [decodeLoop, if_pos inside, first, second, place, ok_bind, ok_bind, outside]
  rfl

/-- From the middle of a text on, the loop stores the bytes of the rest, or fails at the last character of an
odd number of them. -/
theorem decodeLoop_rest {m : ℕ} (half : before.length = 2 * m)
    (mapped : ptr.length = (before.length + text.length) / 2) (enough : text.length < fuel) :
    decodeLoop (before ++ text) fuel before.length ptr =
      if Even text.length then .ok (ptr.take m ++ hexBytes text) else .error .outOfBounds := by
  obtain ⟨fuel, rfl⟩ : ∃ rest, fuel = rest + 1 := ⟨fuel - 1, by omega⟩
  induction text using hexBytes.induct generalizing before ptr fuel m with
  | case1 c d text ih =>
    rw [List.length_cons, List.length_cons] at enough mapped
    obtain ⟨fuel, rfl⟩ : ∃ rest, fuel = rest + 1 := ⟨fuel - 1, by omega⟩
    have length : (before ++ [c, d]).length = before.length + 2 := by simp
    have taken : (ptr.set m (hexByte c d)).take (m + 1) = ptr.take m ++ [hexByte c d] := by
      have room : m < (ptr.set m (hexByte c d)).length := by
        rw [List.length_set]
        omega
      rw [List.take_succ_eq_append_getElem room, List.take_set_of_le le_rfl, List.getElem_set_self]
    have even : Even (text.length + 1 + 1) ↔ Even text.length := by
      rw [Nat.add_assoc, Nat.even_add]
      exact iff_true_right (by decide)
    rw [decodeLoop_pair half (by omega), ih (m := m + 1) (by omega) (by rw [List.length_set]; omega) fuel
      (by omega), taken, hexBytes, List.append_assoc, List.length_cons, List.length_cons]
    simp only [even, List.singleton_append]
  | case2 text short =>
    cases text with
    | nil =>
      rw [List.length_nil, Nat.add_zero] at mapped
      have ends : ¬before.length < (before ++ []).length := by simp
      have all : ptr.take m = ptr := List.take_of_length_le (by omega)
      rw [decodeLoop, if_neg ends, all, hexBytes, List.append_nil]
      · exact (if_pos Even.zero).symm
      · exact short
    | cons c text =>
      cases text with
      | nil =>
        rw [List.length_singleton] at mapped
        rw [decodeLoop_single half (by omega)]
        exact (if_neg Nat.not_even_one).symm
      | cons d text => exact absurd rfl (short c d text)

/-- What becomes of an argument depends on its length only, apart from the bytes. -/
theorem runHex_eq (code : List (BitVec 8)) :
    runHex code =
      if code.length < 2 then .ok .refused
      else if Even code.length then .ok (.runs (hexBytes code)) else .error .outOfBounds := by
  have half : code.length >>> 1 = code.length / 2 := by rw [Nat.shiftRight_eq_div_pow]
  rw [runHex]
  by_cases short : code.length < 2
  · rw [if_pos short, half, if_pos (by omega)]
  · have decoded : decodeLoop code (code.length + 1) 0 (List.replicate (code.length / 2) 0) =
        if Even code.length then .ok (hexBytes code) else .error .outOfBounds :=
      @decodeLoop_rest code [] _ _ 0 rfl (by simp) (Nat.lt_succ_self _)
    simp only [half, if_neg short, decoded]
    rw [if_neg (by omega)]
    split_ifs <;> rfl

theorem runsHexOnly_of_single (single : code.length = 1) : RunsHexOnly code := by
  have not_hex : ¬HexText code := by
    rintro ⟨even, -⟩
    rw [single] at even
    exact Nat.not_even_one even
  have refused : runHex code = .ok .refused := by
    rw [runHex_eq, if_pos (by omega)]
  rw [RunsHexOnly, refused]
  refine ⟨fun hex => absurd hex not_hex, fun bytes hex_of => absurd hex_of.hexText not_hex, fun _ => rfl, ?_⟩
  rintro ⟨⟩

theorem HexText.runsHexOnly (hex : HexText code) (nonempty : code ≠ []) : RunsHexOnly code := by
  have long : ¬code.length < 2 := by
    obtain ⟨k, length⟩ := hex.1
    have positive : 0 < code.length := List.length_pos_iff.mpr nonempty
    omega
  have run : runHex code = .ok (.runs (Mmap.hexBytes code)) := by
    rw [runHex_eq, if_neg long, if_pos hex.1]
  have exact_bytes (bytes : List (BitVec 8)) (hex_of : HexOf code bytes) : runHex code = .ok (.runs bytes) := by
    rw [run, hex_of.hexBytes]
  refine ⟨fun _ => ?_, exact_bytes, fun not_hex => absurd hex not_hex, ?_⟩
  · obtain ⟨bytes, hex_of⟩ := hex.exists_hexOf
    exact ⟨bytes, hex_of, exact_bytes bytes hex_of⟩
  · rw [run]
    rintro ⟨⟩

/-- A text that is refused as it should be has one character. -/
theorem length_of_refused (not_hex : ¬HexText code) (refused : runHex code = .ok .refused) :
    code.length = 1 := by
  rw [runHex_eq] at refused
  by_contra other
  split_ifs at refused with short even
  · have empty : code = [] := List.eq_nil_of_length_eq_zero (by omega)
    rw [empty] at not_hex
    exact not_hex ⟨Even.zero, fun _ member => absurd member List.not_mem_nil⟩
  all_goals cases refused

/-- Exactly the texts of an even positive number of hex digits, and those of one character, are treated as
they should be. -/
theorem runs_hex_only_iff (code : List (BitVec 8)) :
    RunsHexOnly code ↔ code.length = 1 ∨ code ≠ [] ∧ HexText code := by
  constructor
  · rintro ⟨runs, -, refuses, -⟩
    by_cases hex : HexText code
    · refine .inr ⟨?_, hex⟩
      rintro rfl
      obtain ⟨bytes, -, run⟩ := runs hex
      cases run
    · exact .inl (length_of_refused hex (refuses hex))
  · rintro (single | ⟨nonempty, hex⟩)
    · exact runsHexOnly_of_single single
    · exact hex.runsHexOnly nonempty

/-- `zz` is not refused, but run as the byte `0xFF`; of three digits the last is stored behind the mapping. -/
theorem not_runs_hex_only : ¬RunsHexOnly [122, 122] ∧ ¬RunsHexOnly [49, 50, 51] := by
  have letters : ¬HexText [122, 122] := by
    rintro ⟨-, digits⟩
    obtain ⟨d, bound, is_digit | ⟨-, is_digit⟩⟩ := digits 122 List.mem_cons_self
    · revert is_digit
      interval_cases d <;> decide
    · revert is_digit
      interval_cases d <;> decide
  constructor
  · rintro ⟨-, -, refuses, -⟩
    have run : runHex [122, 122] = .ok (.runs [0xFF]) := rfl
    cases (refuses letters).symm.trans run
  · rintro ⟨-, -, -, inside⟩
    exact inside rfl

end Hseos.Mmap
