import Mathlib.Data.List.Basic
import Mathlib.Data.Nat.ModEq
import Mathlib.Logic.Function.Basic

/-! # Reading and writing cells around a circle

A circular store of `size` cells is a function on cell numbers. `cyclicSlice` reads `count` cells
from `start` on, going back to cell zero after the last one, and `writeCells` writes a list to
consecutive cells. `distance` is the number of cells from one position forward to another, so the
contents of a ring between two offsets are a slice of that length.
-/

namespace Hseos

variable {α : Type*}

/-- The `count` cells from `start` on, around a circle of `size` cells. -/
def cyclicSlice (cells : ℕ → α) (size start count : ℕ) : List α :=
  (List.range count).map fun i => cells ((start + i) % size)

@[simp] theorem length_cyclicSlice (cells : ℕ → α) (size start count : ℕ) :
    (cyclicSlice cells size start count).length = count := by
  simp [cyclicSlice]

@[simp] theorem cyclicSlice_zero (cells : ℕ → α) (size start : ℕ) :
    cyclicSlice cells size start 0 = [] := rfl

/-- A slice is cut at any point into two consecutive slices. -/
theorem cyclicSlice_add (cells : ℕ → α) (size start first second : ℕ) :
    cyclicSlice cells size start (first + second) =
      cyclicSlice cells size start first ++
        cyclicSlice cells size ((start + first) % size) second := by
  simp only [cyclicSlice, List.range_add, List.map_append, List.map_map, Function.comp_def,
    Nat.mod_add_mod, Nat.add_assoc]

theorem cyclicSlice_succ (cells : ℕ → α) (size start count : ℕ) :
    cyclicSlice cells size start (count + 1) =
      cyclicSlice cells size start count ++ [cells ((start + count) % size)] := by
  simp [cyclicSlice, List.range_succ]

/-- Slices only see the cells they pass over. -/
theorem cyclicSlice_congr {cells other : ℕ → α} {size start count : ℕ}
    (same : ∀ i < count, cells ((start + i) % size) = other ((start + i) % size)) :
    cyclicSlice cells size start count = cyclicSlice other size start count :=
  List.map_congr_left fun i member => same i (List.mem_range.mp member)

theorem take_cyclicSlice (cells : ℕ → α) (size start : ℕ) {count taken : ℕ}
    (within : taken ≤ count) :
    (cyclicSlice cells size start count).take taken = cyclicSlice cells size start taken := by
  obtain ⟨rest, rfl⟩ := Nat.exists_eq_add_of_le within
  rw [cyclicSlice_add, List.take_left' (length_cyclicSlice ..)]

theorem drop_cyclicSlice (cells : ℕ → α) (size start : ℕ) {count dropped : ℕ}
    (within : dropped ≤ count) :
    (cyclicSlice cells size start count).drop dropped =
      cyclicSlice cells size ((start + dropped) % size) (count - dropped) := by
  obtain ⟨rest, rfl⟩ := Nat.exists_eq_add_of_le within
  rw [cyclicSlice_add, List.drop_left' (length_cyclicSlice ..), Nat.add_sub_cancel_left]

/-- A slice that does not reach the end of the circle is a run of consecutive cells. -/
theorem cyclicSlice_contiguous (cells : ℕ → α) {size start count : ℕ} (fits : start + count ≤ size) :
    cyclicSlice cells size start count = (List.range count).map fun i => cells (start + i) := by
  apply List.map_congr_left
  intro i member
  have bound := List.mem_range.mp member
  rw [Nat.mod_eq_of_lt (by omega)]

/-- A slice is the list whose elements its cells hold. -/
theorem cyclicSlice_eq {cells : ℕ → α} {size start : ℕ} {values : List α}
    (holds : ∀ i (bound : i < values.length), cells ((start + i) % size) = values[i]) :
    cyclicSlice cells size start values.length = values := by
  apply List.ext_getElem (length_cyclicSlice ..)
  intro i _ bound
  simp only [cyclicSlice, List.getElem_map, List.getElem_range, holds i bound]

/-- Cells written behind the end of a slice lengthen it, if its own cells stay as they are. -/
theorem cyclicSlice_extend {before after : ℕ → α} {size start stop count : ℕ} {values : List α}
    (joined : (start + count) % size = stop)
    (kept : ∀ i < count, after ((start + i) % size) = before ((start + i) % size))
    (written : ∀ i (bound : i < values.length), after ((stop + i) % size) = values[i]) :
    cyclicSlice after size start (count + values.length) =
      cyclicSlice before size start count ++ values := by
  rw [cyclicSlice_add, joined, cyclicSlice_congr kept, cyclicSlice_eq written]

/-- Two offsets below the size of the circle name one cell only if they are equal. -/
theorem cyclic_injective {size start i j : ℕ} (left : i < size) (right : j < size)
    (same : (start + i) % size = (start + j) % size) : i = j :=
  Nat.ModEq.eq_of_lt_of_lt (Nat.ModEq.add_left_cancel' start same) left right

/-- The number of cells from `start` forward to `stop`. -/
def distance (size start stop : ℕ) : ℕ := (stop + size - start) % size

theorem distance_of_le {size start stop : ℕ} (below : stop < size) (ordered : start ≤ stop) :
    distance size start stop = stop - start := by
  rw [distance, show stop + size - start = stop - start + size by omega, Nat.add_mod_right,
    Nat.mod_eq_of_lt (by omega)]

theorem distance_of_lt {size start stop : ℕ} (below : start < size) (ordered : stop < start) :
    distance size start stop = stop + size - start :=
  Nat.mod_eq_of_lt (by omega)

/-- The case split under which distances, offsets and their bounds are linear arithmetic. -/
theorem distance_cases {size start stop : ℕ} (first : start < size) (last : stop < size) :
    (start ≤ stop ∧ distance size start stop = stop - start) ∨
      (stop < start ∧ distance size start stop = stop + size - start) := by
  rcases Nat.lt_or_ge stop start with wrapped | ordered
  · exact .inr ⟨wrapped, distance_of_lt first wrapped⟩
  · exact .inl ⟨ordered, distance_of_le last ordered⟩

theorem distance_lt {size start : ℕ} (first : start < size) (stop : ℕ) :
    distance size start stop < size :=
  Nat.mod_lt _ (by omega)

/-- Going forward by the distance between two positions leads from one to the other. -/
theorem add_distance {size start stop : ℕ} (first : start < size) (last : stop < size) :
    (start + distance size start stop) % size = stop := by
  rcases distance_cases first last with ⟨_, equal⟩ | ⟨_, equal⟩
  · rw [equal, Nat.mod_eq_of_lt (by omega)]
    omega
  · rw [equal, show start + (stop + size - start) = stop + size by omega, Nat.add_mod_right,
      Nat.mod_eq_of_lt last]

/-- Going forward by less than a whole turn crosses the end of the circle at most once. -/
theorem add_mod_cases {size start count : ℕ} (first : start < size) (short : count < size) :
    (start + count < size ∧ (start + count) % size = start + count) ∨
      (size ≤ start + count ∧ (start + count) % size = start + count - size) := by
  rcases Nat.lt_or_ge (start + count) size with inside | crossed
  · exact .inl ⟨inside, Nat.mod_eq_of_lt inside⟩
  · exact .inr ⟨crossed, by rw [Nat.mod_eq_sub_mod crossed, Nat.mod_eq_of_lt (by omega)]⟩

/-- Advancing the far end by fewer cells than are free lengthens the distance by as much. -/
theorem distance_advance {size start stop count : ℕ} (first : start < size) (last : stop < size)
    (room : distance size start stop + count < size) :
    distance size start ((stop + count) % size) = distance size start stop + count := by
  have next : (stop + count) % size < size := Nat.mod_lt _ (by omega)
  rcases distance_cases first last with ⟨_, before⟩ | ⟨_, before⟩ <;>
    rcases distance_cases first next with ⟨_, after⟩ | ⟨_, after⟩ <;>
      rcases add_mod_cases last (by omega : count < size) with ⟨_, moved⟩ | ⟨_, moved⟩ <;>
        omega

/-- Advancing the near end by at most the distance shortens it by as much. -/
theorem distance_release {size start stop count : ℕ} (first : start < size) (last : stop < size)
    (within : count ≤ distance size start stop) :
    distance size ((start + count) % size) stop = distance size start stop - count := by
  have short := distance_lt first stop
  have next : (start + count) % size < size := Nat.mod_lt _ (by omega)
  rcases distance_cases first last with ⟨_, before⟩ | ⟨_, before⟩ <;>
    rcases distance_cases next last with ⟨_, after⟩ | ⟨_, after⟩ <;>
      rcases add_mod_cases first (by omega : count < size) with ⟨_, moved⟩ | ⟨_, moved⟩ <;>
        omega

/-- Write a list to consecutive cells. -/
def writeCells (cells : ℕ → α) (offset : ℕ) : List α → ℕ → α
  | [] => cells
  | head :: rest => writeCells (Function.update cells offset head) (offset + 1) rest

/-- Cells outside the written interval keep their contents. -/
theorem writeCells_outside (cells : ℕ → α) {offset i : ℕ} {values : List α}
    (outside : i < offset ∨ offset + values.length ≤ i) : writeCells cells offset values i = cells i := by
  induction values generalizing cells offset with
  | nil => rfl
  | cons head rest ih =>
    simp only [List.length_cons] at outside
    rw [writeCells, ih _ (by omega), Function.update_of_ne (by omega)]

/-- Each cell of the written interval holds its element of the list. -/
theorem writeCells_inside (cells : ℕ → α) {offset i : ℕ} {values : List α} (bound : i < values.length) :
    writeCells cells offset values (offset + i) = values[i] := by
  induction values generalizing cells offset i with
  | nil => simp at bound
  | cons head rest ih =>
    cases i with
    | zero =>
      rw [writeCells, writeCells_outside _ (.inl (by omega))]
      exact Function.update_self ..
    | succ i =>
      rw [writeCells, show offset + (i + 1) = offset + 1 + i by omega,
        ih _ (by simpa only [List.length_cons, Nat.add_lt_add_iff_right] using bound)]
      rfl

end Hseos
