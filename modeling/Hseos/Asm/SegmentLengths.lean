import Hseos.Asm.SegmentCalls

/-! # The lengths that are printed

The program prints one line for each quadruple. The ends of the segments are compared as numbers without a sign, so
the line has the length if the ends that are compared have the same sign. Otherwise it has a greater number, or
`0` if that is too great for a positive one.
-/

namespace Hseos.Segments

open X86
open X86.Program (Steps)

namespace Quadruple

variable (q : Quadruple)

/-- The left ends are not right of the right ones. -/
def Ordered : Prop := q.a.toInt ≤ q.b.toInt ∧ q.c.toInt ≤ q.d.toInt

instance : Decidable q.Ordered := instDecidableAnd

/-- The length of what the segments have in common. -/
def length : ℤ := max 0 (min q.b.toInt q.d.toInt - max q.a.toInt q.c.toInt)

/-- The left end that is chosen: of ends that differ in sign, the lesser one. -/
def chosenLeft : ℤ :=
  if q.a.toInt < 0 ↔ q.c.toInt < 0 then max q.a.toInt q.c.toInt else min q.a.toInt q.c.toInt

/-- The right end that is chosen: of ends that differ in sign, the greater one. -/
def chosenRight : ℤ :=
  if q.b.toInt < 0 ↔ q.d.toInt < 0 then min q.b.toInt q.d.toInt else max q.b.toInt q.d.toInt

/-- Both left ends and both right ends have one sign. -/
def SameSigns : Prop := (q.a.toInt < 0 ↔ q.c.toInt < 0) ∧ (q.b.toInt < 0 ↔ q.d.toInt < 0)

instance : Decidable q.SameSigns := instDecidableAnd

/-- Both left ends and both right ends have one sign; or the segments have nothing in common, and the ends that are
chosen are so far apart that their difference is not a positive number. -/
def Harmless : Prop := q.SameSigns ∨ q.length = 0 ∧ 2 ^ 31 ≤ q.chosenRight - q.chosenLeft

instance : Decidable q.Harmless := instDecidableOr

variable {q}

/-- Numbers without a sign are ordered as those with it, if they have the same one. -/
theorem ult_iff (x y : BitVec 32) :
    x.ult y = true ↔ if x.toInt < 0 ↔ y.toInt < 0 then x.toInt < y.toInt else y.toInt < 0 := by
  have x_bound := x.isLt
  have y_bound := y.isLt
  rw [BitVec.ult_eq_decide, decide_eq_true_iff, BitVec.toInt_eq_toNat_cond, BitVec.toInt_eq_toNat_cond]
  split_ifs <;> omega

theorem toInt_bounds (x : BitVec 32) : -2 ^ 31 ≤ x.toInt ∧ x.toInt < 2 ^ 31 := ⟨x.le_toInt, x.toInt_lt⟩

theorem toInt_left : q.left.toInt = q.chosenLeft := by
  have order := ult_iff q.c q.a
  rw [left, chosenLeft]
  by_cases same : q.a.toInt < 0 ↔ q.c.toInt < 0
  · rw [if_pos same.symm] at order
    rw [if_pos same]
    split_ifs with above <;> rw [order] at above <;> omega
  · rw [if_neg fun other => same other.symm] at order
    rw [if_neg same]
    split_ifs with above <;> rw [order] at above <;> omega

theorem toInt_right : q.right.toInt = q.chosenRight := by
  have order := ult_iff q.b q.d
  rw [right, chosenRight]
  by_cases same : q.b.toInt < 0 ↔ q.d.toInt < 0
  · rw [if_pos same] at order ⊢
    split_ifs with above <;> rw [order] at above <;> omega
  · rw [if_neg same] at order ⊢
    split_ifs with above <;> rw [order] at above <;> omega

theorem toInt_common : q.common.toInt = max 0 ((q.chosenRight - q.chosenLeft).bmod (2 ^ 32)) := by
  have difference : (q.right - q.left).toInt = (q.chosenRight - q.chosenLeft).bmod (2 ^ 32) := by
    rw [BitVec.toInt_sub, toInt_left, toInt_right]
  rw [common, ← difference, BitVec.msb_eq_toInt]
  split_ifs with negative
  · rw [decide_eq_true_iff] at negative
    exact (max_eq_left negative.le).symm
  · rw [decide_eq_true_iff, not_lt] at negative
    exact (max_eq_right negative).symm

theorem chosen_of_sameSigns (ordered : q.Ordered) (same : q.SameSigns) :
    q.chosenRight - q.chosenLeft = min q.b.toInt q.d.toInt - max q.a.toInt q.c.toInt ∧
      -2 ^ 31 ≤ q.chosenRight - q.chosenLeft := by
  obtain ⟨first, second⟩ := ordered
  obtain ⟨left, right⟩ := same
  have a_bounds := toInt_bounds q.a
  have b_bounds := toInt_bounds q.b
  have c_bounds := toInt_bounds q.c
  have d_bounds := toInt_bounds q.d
  rw [chosenRight, chosenLeft, if_pos left, if_pos right]
  omega

/-- If some ends differ in sign, the ends that are chosen are too far apart. -/
theorem chosen_of_not_sameSigns (ordered : q.Ordered) (differ : ¬q.SameSigns) :
    q.length < q.chosenRight - q.chosenLeft ∧ q.chosenRight - q.chosenLeft < 2 ^ 32 := by
  obtain ⟨first, second⟩ := ordered
  have a_bounds := toInt_bounds q.a
  have b_bounds := toInt_bounds q.b
  have c_bounds := toInt_bounds q.c
  have d_bounds := toInt_bounds q.d
  rw [SameSigns] at differ
  rw [length, chosenRight, chosenLeft]
  split_ifs <;> omega

/-- The line is right exactly if the quadruple is harmless. -/
theorem common_iff (ordered : q.Ordered) (fits : q.length < 2 ^ 31) : q.common.toInt = q.length ↔ q.Harmless := by
  rw [toInt_common, Harmless]
  by_cases same : q.SameSigns
  · obtain ⟨chosen, bound⟩ := chosen_of_sameSigns ordered same
    refine iff_of_true ?_ (.inl same)
    rw [chosen] at bound ⊢
    rw [length] at fits ⊢
    rw [Int.bmod_eq_of_le_mul_two (by omega) (by omega)]
  · obtain ⟨less, bound⟩ := chosen_of_not_sameSigns ordered same
    have positive : 0 ≤ q.length := le_max_left ..
    rw [or_iff_right same, Int.bmod_def]
    split_ifs <;> omega

end Quadruple

/-- Each line has the length, if it fits. -/
def Prints (quads : List Quadruple) (printed : List ℤ) : Prop :=
  List.Forall₂ (fun q v => q.length < 2 ^ 31 → v = q.length) quads printed

theorem prints_iff {quads : List Quadruple} (ordered : ∀ q ∈ quads, q.Ordered) :
    Prints quads (quads.map fun q => q.common.toInt) ↔ ∀ q ∈ quads, q.length < 2 ^ 31 → q.Harmless := by
  rw [Prints, List.forall₂_map_right_iff, List.forall₂_same]
  apply forall₂_congr
  intro q member
  apply forall_congr'
  intro fits
  exact Quadruple.common_iff (ordered q member) fits

/-- The program ends at an incomplete quadruple, with one line for each quadruple before it. The lines have the
lengths, as far as these fit, if and only if all quadruples are harmless whose length fits. -/
theorem segments_prints_iff (image : Image) (s : State Io) (quads : List Quadruple) (rest : List (BitVec 32))
    (ordered : ∀ q ∈ quads, q.Ordered) (incomplete : rest.length < 4)
    (at_ : s.pc = .line (image.program.target .main)) (outside : image.layout.lineAt (s.memory.load s.esp) = none)
    (world : s.world = ⟨quads.flatMap Quadruple.numbers ++ rest, []⟩) :
    (∃ t, image.program.Steps s t ∧ t.pc = .returned (s.memory.load s.esp) ∧ t.eax = 0 ∧
        Prints quads t.world.printed) ↔
      ∀ q ∈ quads, q.length < 2 ^ 31 → q.Harmless := by
  have stdin : s.world.stdin = quads.flatMap Quadruple.numbers ++ rest := congrArg Io.stdin world
  obtain ⟨t, steps, returned, zero, printed⟩ := exists_ended image quads incomplete at_ outside stdin
  rw [world, List.nil_append] at printed
  rw [← prints_iff ordered]
  constructor
  · rintro ⟨u, others, returned', -, prints⟩
    have same := steps.end_unique (by rw [Program.step, returned]) others (by rw [Program.step, returned'])
    rwa [same, printed] at prints
  · intro prints
    exact ⟨t, steps, returned, zero, printed ▸ prints⟩

/-- The instructions have the numbers of their lines as addresses, and the library changes no memory. -/
def plainImage : Image where
  sc := 0x1000
  pr := 0x1009
  layout := .numbered _ (show 57 ≤ 2 ^ 32 by decide)
  library := ⟨fun _ => 0, fun _ => 0, fun _ => 0, fun _ => false, fun _ => false, fun _ => false, State.memory,
    fun _ => .refl, fun _ => -1, fun _ => .inl rfl⟩

/-- At the start of `main`, with a return address outside of the program. -/
def plainStart (stdin : List (BitVec 32)) : State Io :=
  ⟨0, 0, 0, 0, 0, 0x8000, false, false, false, fun _ => 255, .line 45, [], ⟨stdin, []⟩⟩

/-- The lines of `segments.txt`. -/
def sample : List Quadruple := [⟨1, 2, 3, 4⟩, ⟨1, 5, 3, 6⟩, ⟨3, 6, 1, 5⟩]

theorem segments_prints_sample :
    ∃ t, plainImage.program.Steps (plainStart (sample.flatMap Quadruple.numbers ++ [])) t ∧
      t.pc = .returned (Memory.load (fun _ => 255) 0x8000) ∧ t.eax = 0 ∧ Prints sample t.world.printed :=
  (segments_prints_iff plainImage (plainStart (sample.flatMap Quadruple.numbers ++ [])) sample [] (by decide)
    (by decide) rfl (by decide) rfl).mpr (by decide)

/-- The segments `[-1, 1]` and `[0, 1]`, of which `2` is printed. -/
def mixed : Quadruple := ⟨-1, 1, 0, 1⟩

theorem segments_prints_two :
    ∃ t, plainImage.program.Steps (plainStart ([mixed].flatMap Quadruple.numbers ++ [])) t ∧
      t.pc = .returned (Memory.load (fun _ => 255) 0x8000) ∧ t.world.printed = [2] ∧
      mixed.Ordered ∧ mixed.length = 1 := by
  have few : ([] : List (BitVec 32)).length < 4 := by decide
  have outside : plainImage.layout.lineAt (Memory.load (fun _ => 255) 0x8000) = none := by decide
  have two : mixed.common.toInt = 2 := by decide
  obtain ⟨t, steps, returned, -, printed⟩ := exists_ended plainImage [mixed] few
    (s := plainStart ([mixed].flatMap Quadruple.numbers ++ [])) rfl outside rfl
  exact ⟨t, steps, returned, printed.trans (congrArg (fun v => [v]) two), by decide, by decide⟩

end Hseos.Segments
