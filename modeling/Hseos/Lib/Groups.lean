import Hseos.Lib.Numeral

/-! # Numbers written in groups

A number of a fixed number of digits in a large base is written digit by digit, highest first, with a
separator between them and each digit as a numeral of a small base: four groups below 256 in decimal
with dots, eight groups below 65536 in hexadecimal with colons. Reading undoes writing.
-/

namespace Hseos.Groups

open Numeral

/-- The `count` lowest digits of a number in base `size`, highest first. -/
def groups (size : ℕ) : ℕ → ℕ → List ℕ
  | 0, _ => []
  | count + 1, a => groups size count (a / size) ++ [a % size]

/-- The number of which these are the digits. -/
def ungroup (size : ℕ) (digits : List ℕ) : ℕ := digits.foldl (fun number d => size * number + d) 0

def write (base : ℕ) (separator : BitVec 8) (size count a : ℕ) : List (BitVec 8) :=
  [separator].intercalate ((groups size count a).map (numeral base))

/-- A group without leading zeros. -/
def readGroup (base size : ℕ) (text : List (BitVec 8)) : Option ℕ :=
  let d := value base text
  if numeral base d = text ∧ d < size then some d else none

def read (base : ℕ) (separator : BitVec 8) (size count : ℕ) (text : List (BitVec 8)) : Option ℕ := do
  let digits ← (text.splitOn separator).mapM (readGroup base size)
  if digits.length = count then some (ungroup size digits) else none

variable {base size count a : ℕ} {separator : BitVec 8}

theorem length_groups (size count a : ℕ) : (groups size count a).length = count := by
  induction count generalizing a with
  | zero => rfl
  | succ count ih => rw [groups, List.length_append, ih, List.length_singleton]

theorem lt_of_mem_groups {d : ℕ} (positive : 0 < size) (member : d ∈ groups size count a) :
    d < size := by
  induction count generalizing a with
  | zero => cases member
  | succ count ih =>
    rw [groups, List.mem_append, List.mem_singleton] at member
    rcases member with high | rfl
    · exact ih high
    · exact Nat.mod_lt _ positive

theorem ungroup_groups (bound : a < size ^ count) : ungroup size (groups size count a) = a := by
  induction count generalizing a with
  | zero => rw [Nat.lt_one_iff.mp bound]; rfl
  | succ count ih =>
    have above : a / size < size ^ count := Nat.div_lt_of_lt_mul (by rwa [← Nat.pow_succ'])
    rw [groups, ungroup, List.foldl_append]
    exact (congrArg (size * · + a % size) (ih above)).trans (Nat.div_add_mod a size)

theorem readGroup_numeral {d : ℕ} (least : 1 < base) (most : base ≤ 16) (bound : d < size) :
    readGroup base size (numeral base d) = some d := by
  simp only [readGroup, value_numeral least most d]
  exact if_pos ⟨trivial, bound⟩

theorem mapM_readGroup (digits : List ℕ) (least : 1 < base) (most : base ≤ 16)
    (small : ∀ d ∈ digits, d < size) :
    (digits.map (numeral base)).mapM (readGroup base size) = some digits := by
  induction digits with
  | nil => rfl
  | cons d rest ih =>
    have rest_ := ih fun d member => small d (List.mem_cons_of_mem _ member)
    rw [List.map_cons, List.mapM_cons, readGroup_numeral least most (small d List.mem_cons_self), rest_]
    rfl

/-- What was written is read back. -/
theorem read_write (separator : BitVec 8) (least : 1 < base) (most : base ≤ 16) (apart : ∀ d < base, separator ≠ digit d)
    (nonempty : 0 < count) (bound : a < size ^ count) :
    read base separator size count (write base separator size count a) = some a := by
  have positive : 0 < size := by
    rcases Nat.eq_zero_or_pos size with zero | positive
    · rw [zero, Nat.zero_pow nonempty] at bound
      exact absurd bound (Nat.not_lt_zero a)
    · exact positive
  have pure : ∀ text ∈ (groups size count a).map (numeral base), separator ∉ text := by
    rintro _ member inside
    obtain ⟨n, _, rfl⟩ := List.mem_map.mp member
    obtain ⟨d, small, same⟩ := mem_numeral least inside
    exact apart d small same
  have some_ : (groups size count a).map (numeral base) ≠ [] := by
    apply List.ne_nil_of_length_pos
    rwa [List.length_map, length_groups]
  have digits := mapM_readGroup (groups size count a) least most
    fun d member => lt_of_mem_groups positive member
  rw [read, write, List.splitOn_intercalate separator pure some_, digits]
  simp only [Option.bind_eq_bind, Option.bind_some, if_pos (length_groups size count a),
    ungroup_groups bound]

/-- A text without the separator is a single group. -/
theorem read_of_not_mem {text : List (BitVec 8)} (several : 1 < count) (absent : separator ∉ text) :
    read base separator size count text = none := by
  have single : text.splitOn separator = [text] := by
    have whole : ∀ l ∈ [text], separator ∉ l := fun l member => List.mem_singleton.mp member ▸ absent
    have split := List.splitOn_intercalate separator whole (List.cons_ne_nil _ _)
    rwa [List.intercalate_singleton] at split
  rw [read, single]
  simp only [List.mapM_cons, List.mapM_nil, Option.bind_eq_bind]
  cases readGroup base size text with
  | none => rfl
  | some d => exact if_neg (by simp; omega)

theorem length_intercalate (separator : BitVec 8) {texts : List (List (BitVec 8))} {k : ℕ}
    (short : ∀ text ∈ texts, text.length ≤ k) :
    ([separator].intercalate texts).length ≤ texts.length * (k + 1) - 1 := by
  induction texts with
  | nil => exact Nat.zero_le _
  | cons text rest ih =>
    have head := short text List.mem_cons_self
    have tail := ih fun text member => short text (List.mem_cons_of_mem _ member)
    cases rest with
    | nil =>
      rw [List.intercalate_singleton, List.length_singleton]
      omega
    | cons next rest =>
      rw [List.intercalate_cons_cons, List.length_append, List.length_append, List.length_singleton]
      simp only [List.length_cons, Nat.add_mul] at tail ⊢
      omega

theorem length_write {k : ℕ} (separator : BitVec 8) (count a : ℕ) (least : 1 < base)
    (positive : 0 < k) (fits : size ≤ base ^ k) (digits : 0 < size) :
    (write base separator size count a).length ≤ count * (k + 1) - 1 := by
  have short : ∀ text ∈ (groups size count a).map (numeral base), text.length ≤ k := by
    intro text member
    obtain ⟨d, inside, rfl⟩ := List.mem_map.mp member
    exact (length_numeral_le_iff least positive).mpr
      (Nat.lt_of_lt_of_le (lt_of_mem_groups digits inside) fits)
  have bound := length_intercalate separator short
  rwa [List.length_map, length_groups] at bound

theorem mem_intercalate {texts : List (List (BitVec 8))} {c : BitVec 8}
    (member : c ∈ [separator].intercalate texts) : c = separator ∨ ∃ text ∈ texts, c ∈ text := by
  induction texts with
  | nil => cases member
  | cons text rest ih =>
    cases rest with
    | nil =>
      rw [List.intercalate_singleton] at member
      exact .inr ⟨text, List.mem_cons_self, member⟩
    | cons next rest =>
      rw [List.intercalate_cons_cons, List.mem_append, List.mem_append, List.mem_singleton] at member
      rcases member with (inside | same) | later
      · exact .inr ⟨text, List.mem_cons_self, inside⟩
      · exact .inl same
      · exact (ih later).imp id fun ⟨text, among, inside⟩ => ⟨text, List.mem_cons_of_mem _ among, inside⟩

/-- Nothing but separators and digits is written. -/
theorem not_mem_write {c : BitVec 8} (least : 1 < base) (other : c ≠ separator)
    (letter : ∀ d < base, c ≠ digit d) : c ∉ write base separator size count a := by
  intro member
  rcases mem_intercalate member with same | ⟨text, among, inside⟩
  · exact other same
  · obtain ⟨n, _, rfl⟩ := List.mem_map.mp among
    obtain ⟨d, small, same⟩ := mem_numeral least inside
    exact letter d small same

end Hseos.Groups
