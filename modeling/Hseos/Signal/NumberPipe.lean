import Hseos.Lib.Numeral

/-! # Numbers in records of sixteen bytes

`write_number` prints a number and a newline into a buffer it does not initialise and writes all of
it; `read_number` reads as much and scans it. On a pipe both are atomic, so a record is the contents of
a buffer. A text that does not fit, or a record without a NUL, is an access out of bounds.
-/

namespace Hseos.Signal

open Numeral

/-- The contents of `char s[16]`. -/
abbrev Buffer := Fin 16 → BitVec 8

def newline : BitVec 8 := 0x0a

namespace Buffer

/-- `sprintf` of a text that fits: the text and its NUL over what was there. -/
def print (text : List (BitVec 8)) (s : Buffer) : Buffer := fun i => (text ++ [0])[i.val]?.getD (s i)

/-- The bytes before the first NUL, if there is one. -/
def string (s : Buffer) : Option (List (BitVec 8)) :=
  if 0 ∈ List.ofFn s then some ((List.ofFn s).takeWhile (· ≠ 0)) else none

end Buffer

/-- `write_number`: the value returned and the record written, with `s` in the buffer before. -/
def writeNumber (s : Buffer) (v : ℕ) : Except Fault (ℤ × Buffer) :=
  let text := numeral 10 v ++ [newline]
  if text.length < 16 then .ok (0, s.print text) else .error .outOfBounds

/-- `read_number`: the value returned and `*res`. -/
def readNumber (record : Buffer) (res : ℕ) : Except Fault (ℤ × ℕ) :=
  match record.string with
  | none => .error .outOfBounds
  | some text =>
      match strtoul text with
      | some v => .ok (0, v)
      | none => .ok (-1, res)

/-- Reading the record succeeds with this number. -/
def Carries (record : Buffer) (v : ℕ) : Prop := ∀ res, readNumber record res = .ok (0, v)

theorem Buffer.ofFn_print {text : List (BitVec 8)} (fits : text.length < 16) (s : Buffer) :
    List.ofFn (s.print text) = text ++ 0 :: (List.ofFn s).drop (text.length + 1) := by
  apply List.ext_getElem
  · simp only [List.length_ofFn, List.length_append, List.length_cons, List.length_drop]
    omega
  · intro i inside _
    rw [List.length_ofFn] at inside
    rw [List.getElem_ofFn, Buffer.print]
    rcases Nat.lt_trichotomy i text.length with low | rfl | high
    · rw [List.getElem?_append_left low, List.getElem?_eq_getElem low, List.getElem_append_left low,
        Option.getD_some]
    · rw [List.getElem?_append_right (Nat.le_refl _), List.getElem_append_right (Nat.le_refl _)]
      simp only [Nat.sub_self, List.getElem?_cons_zero, Option.getD_some, List.getElem_cons_zero]
    · obtain ⟨k, rfl⟩ := Nat.exists_eq_add_of_lt high
      rw [List.getElem?_eq_none (by simp only [List.length_append, List.length_singleton]; omega),
        List.getElem_append_right (by omega), Option.getD_none]
      simp only [Nat.add_assoc, Nat.add_sub_cancel_left, List.getElem_cons_succ, List.getElem_drop,
        List.getElem_ofFn, Nat.add_comm 1 k]

/-- The string printed is the string found. -/
theorem Buffer.string_print {text : List (BitVec 8)} (fits : text.length < 16) (plain : 0 ∉ text)
    (s : Buffer) : (s.print text).string = some text := by
  have nonzero : ∀ c ∈ text, decide (c ≠ 0) = true := by
    intro c member
    exact decide_eq_true fun zero => plain (zero ▸ member)
  rw [Buffer.string, Buffer.ofFn_print fits, if_pos (by simp),
    List.takeWhile_append_of_pos nonzero, List.takeWhile_cons_of_neg (by simp), List.append_nil]

/-- Fourteen digits fit a record. -/
theorem writeNumber_ok {v : ℕ} (bound : v < 10 ^ 14) (s : Buffer) :
    ∃ record, writeNumber s v = .ok (0, record) ∧ Carries record v := by
  have digits : (numeral 10 v).length ≤ 14 :=
    (length_numeral_le_iff (by decide) (by decide)).mpr bound
  have fits : (numeral 10 v ++ [newline]).length < 16 := by
    rw [List.length_append, List.length_singleton]
    omega
  have plain : 0 ∉ numeral 10 v ++ [newline] := by
    rw [List.mem_append, List.mem_singleton]
    rintro (member | same)
    · exact absurd (isDigit_of_mem member) (by decide)
    · cases same
  refine ⟨_, if_pos fits, fun res => ?_⟩
  have scan : strtoul (numeral 10 v ++ [newline]) = some v := strtoul_numeral rfl (by omega)
  simp only [readNumber, Buffer.string_print fits plain, scan]

end Hseos.Signal
