import Hseos.Mmap.PutChar

/-! # The shifts of the decoder

Each byte of a group adds seven to the shift, whether the group is longer than the five bytes of a number or
not. The sign is extended only if the shift is below 32; the digit of a byte is shifted without such a test.
-/

namespace Hseos.Mmap

open Leb128

variable {parser : Parser} {n i : ℕ} {c : BitVec 8} {before bytes : List (BitVec 8)}

/-- Whether `put_char` has a defined result on each byte of a stream: no shift by less than zero or by more
than 31, and no `int` that overflows. -/
def ShiftsInRange (bytes : List (BitVec 8)) : Prop := ∀ res, ∃ last, feed .zero res bytes = .ok last

/-- The byte at an index has its top bit set. -/
def Continues (bytes : List (BitVec 8)) (i : ℕ) : Prop := ∃ c, bytes[i]? = some c ∧ 128 ≤ c.toNat

/-- Five bytes in a row have their top bit set, and another byte follows them. -/
def LongGroup (bytes : List (BitVec 8)) : Prop :=
  ∃ i, i + 5 < bytes.length ∧ ∀ j, i ≤ j → j < i + 5 → Continues bytes j

theorem continues_append_right : Continues (before ++ bytes) (before.length + i) ↔ Continues bytes i := by
  rw [Continues, List.getElem?_append_right (Nat.le_add_right ..), Nat.add_sub_cancel_left]
  rfl

theorem not_continues_last (last : c.toNat < 128) :
    ¬Continues (before ++ c :: bytes) before.length := by
  rintro ⟨d, found, more⟩
  rw [List.getElem?_append_right (Nat.le_refl _), Nat.sub_self, List.getElem?_cons_zero] at found
  obtain rfl := Option.some.inj found
  omega

/-- What goes before the last byte of a group of at most five bytes does not matter. -/
theorem longGroup_last (few : before.length < 5) (last : c.toNat < 128) :
    LongGroup (before ++ c :: bytes) ↔ LongGroup bytes := by
  have split : before ++ c :: bytes = (before ++ [c]) ++ bytes := List.append_cons ..
  have length : (before ++ [c]).length = before.length + 1 := by
    rw [List.length_append, List.length_singleton]
  constructor
  · rintro ⟨i, inside, run⟩
    have behind : before.length < i := by
      by_contra front
      exact not_continues_last last (run before.length (by omega) (by omega))
    obtain ⟨k, rfl⟩ := Nat.exists_eq_add_of_lt behind
    rw [split, List.length_append, length] at inside
    refine ⟨k, by omega, fun j low high => ?_⟩
    have continues := run (before.length + 1 + j) (by omega) (by omega)
    rwa [split, ← length, continues_append_right] at continues
  · rintro ⟨i, inside, run⟩
    refine ⟨before.length + 1 + i, ?_, fun j low high => ?_⟩
    · rw [split, List.length_append, length]
      omega
    · obtain ⟨k, rfl⟩ := Nat.exists_eq_add_of_le (show before.length + 1 ≤ j by omega)
      rw [split, ← length, continues_append_right]
      exact run k (by omega) (by omega)

/-- After five bytes of a group the next digit is shifted too far. -/
theorem putChar_beyond {u : ℕ} (holds : Holds parser u 5) (c : BitVec 8) (res : ℤ) :
    putChar parser c res = .error .invalidShift := by
  have beyond : shiftLeft (c.signExtend 32 &&& 0x7f#32) ((7 * 5 : ℕ) : ℤ) = .error .invalidShift :=
    if_neg (by omega)
  simp only [putChar, holds.shift, beyond]
  rfl

/-- A stream is read exactly if what follows its first byte is. -/
theorem feed_cons_ok_iff {parser' : Parser} {res res' ret : ℤ}
    (called : putChar parser c res = .ok (ret, parser', res')) :
    (∃ last, feed parser res (c :: bytes) = .ok last) ↔ ∃ last, feed parser' res' bytes = .ok last := by
  simp only [feed, called, ok_bind]
  constructor
  · rintro ⟨_, fed⟩
    obtain ⟨last, fed, -⟩ := ok_of_bind fed
    exact ⟨last, fed⟩
  · rintro ⟨last, fed⟩
    rw [fed]
    exact ⟨_, rfl⟩

/-- In the middle of a group the rest of a stream is read exactly if neither this group nor a later one is
too long. -/
theorem feed_ok_iff {u : ℕ} (holds : Holds parser u before.length) (few : before.length ≤ 5)
    (continued : ∀ c ∈ before, 128 ≤ c.toNat) (res : ℤ) :
    (∃ last, feed parser res bytes = .ok last) ↔ ¬LongGroup (before ++ bytes) := by
  induction bytes generalizing parser u before res with
  | nil =>
    apply iff_of_true ⟨_, rfl⟩
    rintro ⟨i, inside, -⟩
    rw [List.append_nil] at inside
    omega
  | cons c rest ih =>
    rcases Nat.lt_or_eq_of_le few with short | full
    · rcases Nat.lt_or_ge c.toNat 128 with last | more
      · obtain ⟨parser', called, finished⟩ := putChar_last holds short last res
        rw [longGroup_last short last, feed_cons_ok_iff called, ← List.nil_append rest]
        exact ih (.fresh finished) (by decide) (fun _ member => absurd member List.not_mem_nil) _
      · obtain ⟨parser', called, holds'⟩ := putChar_more holds short more res
        rw [feed_cons_ok_iff called, List.append_cons]
        apply ih (u := u + payload c * 2 ^ (7 * before.length))
        · rwa [List.length_append, List.length_singleton]
        · rwa [List.length_append, List.length_singleton]
        · intro d member
          rcases List.mem_append.mp member with old | new
          · exact continued d old
          · rwa [List.mem_singleton.mp new]
    · rw [full] at holds
      apply iff_of_false
      · rintro ⟨last, fed⟩
        rw [feed, putChar_beyond holds] at fed
        cases fed
      · refine not_not_intro ⟨0, ?_, fun j _ high => ?_⟩
        · rw [List.length_append, List.length_cons]
          omega
        · have inside : j < before.length := by omega
          refine ⟨before[j], ?_, continued _ (List.getElem_mem inside)⟩
          rw [List.getElem?_append_left inside, List.getElem?_eq_getElem inside]

/-- All shifts of a stream are in range exactly if no six bytes in a row begin with five that have their top
bit set. -/
theorem shifts_in_range_iff (bytes : List (BitVec 8)) : ShiftsInRange bytes ↔ ¬LongGroup bytes := by
  have fresh : Holds .zero 0 0 := ⟨rfl, rfl, Nat.one_pos⟩
  have safe (res : ℤ) : (∃ last, feed .zero res bytes = .ok last) ↔ ¬LongGroup bytes :=
    feed_ok_iff fresh (by decide) (fun _ member => absurd member List.not_mem_nil) res
  constructor
  · intro inRange
    exact (safe 0).mp (inRange 0)
  · intro short res
    exact (safe res).mpr short

/-- The sixth byte of a group is shifted by 35. -/
theorem shift_out_of_range : ¬ShiftsInRange [0x80, 0x80, 0x80, 0x80, 0x80, 0x00] ∧
    feed .zero 0 [0x80, 0x80, 0x80, 0x80, 0x80, 0x00] = .error .invalidShift := by
  have fails : feed .zero 0 [0x80, 0x80, 0x80, 0x80, 0x80, 0x00] = .error .invalidShift := rfl
  refine ⟨fun inRange => ?_, fails⟩
  obtain ⟨last, fed⟩ := inRange 0
  rw [fails] at fed
  cases fed

end Hseos.Mmap
