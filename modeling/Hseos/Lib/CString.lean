import Hseos.Lib.Word
import Mathlib.Data.List.Infix

/-! # Strings in a character array

An array is the list of its bytes, and a string is a list of bytes without a NUL. The functions of the C library
read and write the array byte by byte; an access outside of it is a failure.
-/

namespace Hseos.CString

/-- `a[i]`. -/
def load (a : List (BitVec 8)) (i : ℕ) : Except Fault (BitVec 8) :=
  match a[i]? with
  | some c => .ok c
  | none => .error .outOfBounds

/-- `a[i] = c`. -/
def store (a : List (BitVec 8)) (i : ℕ) (c : BitVec 8) : Except Fault (List (BitVec 8)) :=
  if i < a.length then .ok (a.set i c) else .error .outOfBounds

/-- `strlen(a)`. -/
def strlen : List (BitVec 8) → Except Fault ℕ
  | [] => .error .outOfBounds
  | c :: rest => if c = 0 then .ok 0 else (strlen rest).map (· + 1)

/-- `memcpy(a + i, s, n)`, for the bytes of `s`. -/
def write (a : List (BitVec 8)) (i : ℕ) : List (BitVec 8) → Except Fault (List (BitVec 8))
  | [] => .ok a
  | c :: rest => do
      let a ← store a i c
      write a (i + 1) rest

/-- `strcpy(a + i, s)`. -/
def strcpy (a : List (BitVec 8)) (i : ℕ) (s : List (BitVec 8)) : Except Fault (List (BitVec 8)) :=
  write a i (s ++ [0])

/-- The bytes that `%s` prints. -/
def string (a : List (BitVec 8)) : Except Fault (List (BitVec 8)) := (strlen a).map a.take

variable {a s before after : List (BitVec 8)} {i : ℕ}

/-- The string at the start of an array. -/
theorem strlen_of_string (clean : 0 ∉ s) (after : List (BitVec 8)) : strlen (s ++ 0 :: after) = .ok s.length := by
  induction s with
  | nil => rfl
  | cons c rest ih =>
    rw [List.mem_cons, not_or] at clean
    rw [List.cons_append, strlen, if_neg (Ne.symm clean.1), ih clean.2]
    rfl

theorem string_of_string (clean : 0 ∉ s) (after : List (BitVec 8)) : string (s ++ 0 :: after) = .ok s := by
  rw [string, strlen_of_string clean]
  exact congrArg _ (List.take_left' rfl)

/-- Bytes with a NUL behind them start with a string. -/
theorem exists_string (s after : List (BitVec 8)) :
    ∃ rest, s ++ 0 :: after = s.takeWhile (· ≠ 0) ++ 0 :: rest := by
  induction s with
  | nil => exact ⟨after, rfl⟩
  | cons c s ih =>
    by_cases nul : c = 0
    · refine ⟨s ++ 0 :: after, ?_⟩
      rw [nul, List.takeWhile_cons_of_neg (by simp)]
      rfl
    · obtain ⟨rest, same⟩ := ih
      refine ⟨rest, ?_⟩
      rw [List.takeWhile_cons_of_pos (by simpa using nul), List.cons_append, same, List.cons_append]

theorem clean_takeWhile (s : List (BitVec 8)) : 0 ∉ s.takeWhile (· ≠ 0) := by
  intro member
  have other := List.all_eq_true.mp List.all_takeWhile 0 member
  exact absurd other (by decide)

theorem load_middle (before after : List (BitVec 8)) (c : BitVec 8) :
    load (before ++ c :: after) before.length = .ok c := by
  rw [load, List.getElem?_append_right le_rfl, Nat.sub_self, List.getElem?_cons_zero]

/-- Bytes are written over as many others. -/
theorem write_middle (before after : List (BitVec 8)) {middle : List (BitVec 8)}
    (same : middle.length = s.length) :
    write (before ++ middle ++ after) before.length s = .ok (before ++ s ++ after) := by
  induction s generalizing before middle with
  | nil =>
    rw [List.length_eq_zero_iff.mp same]
    rfl
  | cons c rest ih =>
    cases middle with
    | nil => cases same
    | cons d others =>
      have inside : before.length < (before ++ d :: others ++ after).length := by simp
      have stored : (before ++ d :: others ++ after).set before.length c = before ++ [c] ++ others ++ after := by
        simp
      have next := ih (before ++ [c]) (Nat.succ.inj same)
      rw [List.length_append, List.length_singleton] at next
      rw [write, store, if_pos inside, ok_bind, stored, next]
      simp

/-- Bytes beyond the end of an array cannot be written. -/
theorem write_beyond (inside : i ≤ a.length) (beyond : a.length < i + s.length) :
    write a i s = .error .outOfBounds := by
  induction s generalizing a i with
  | nil =>
    rw [List.length_nil] at beyond
    omega
  | cons c rest ih =>
    rw [List.length_cons] at beyond
    rw [write, store]
    split_ifs with below
    · exact ih (by rw [List.length_set]; omega) (by rw [List.length_set]; omega)
    · rfl

/-- A string that fits is written behind the bytes before it. -/
theorem strcpy_fits (fits : before.length + s.length < (before ++ after).length) :
    strcpy (before ++ after) before.length s = .ok (before ++ s ++ 0 :: after.drop (s.length + 1)) := by
  rw [List.length_append] at fits
  have same : (after.take (s.length + 1)).length = (s ++ [0]).length := by
    rw [List.length_take, List.length_append, List.length_singleton]
    omega
  have written := write_middle before (after.drop (s.length + 1)) same
  rw [List.append_assoc before, List.take_append_drop] at written
  rw [strcpy, written]
  simp

theorem strcpy_start (fits : s.length < a.length) : strcpy a 0 s = .ok (s ++ 0 :: a.drop (s.length + 1)) := by
  have inside : ([] : List (BitVec 8)).length + s.length < ([] ++ a).length := (Nat.zero_add _).trans_lt fits
  exact strcpy_fits inside

theorem strcpy_beyond (inside : i ≤ a.length) (beyond : a.length ≤ i + s.length) :
    strcpy a i s = .error .outOfBounds := by
  apply write_beyond inside
  rw [List.length_append, List.length_singleton]
  omega

section Append

variable {t : List (BitVec 8)}

/-- A string at the start of an array is extended if there is room for it. -/
theorem append_fits (clean : 0 ∉ s) (fits : s.length + t.length < (s ++ 0 :: after).length) :
    (strlen (s ++ 0 :: after) >>= fun length => strcpy (s ++ 0 :: after) length t) =
      .ok (s ++ t ++ 0 :: (0 :: after).drop (t.length + 1)) := by
  rw [strlen_of_string clean, ok_bind, strcpy_fits fits]

theorem append_beyond (clean : 0 ∉ s) (beyond : (s ++ 0 :: after).length ≤ s.length + t.length) :
    (strlen (s ++ 0 :: after) >>= fun length => strcpy (s ++ 0 :: after) length t) = .error .outOfBounds := by
  rw [strlen_of_string clean, ok_bind, strcpy_beyond (by simp) beyond]

end Append

end Hseos.CString
