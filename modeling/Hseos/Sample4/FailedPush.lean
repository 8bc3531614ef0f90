import Hseos.Lib.Machine
import Hseos.Sample4.VectorHistory

/-! # A push after a failed reallocation

`reserve` tells by its result whether it has made room, but `push_back` goes on without looking at it: it
copies the element behind the last one and counts it, beyond the capacity. Nor does it return from a
reallocation with memory, which gets the address of the variable. So only a vector with room is safe.
-/

namespace Hseos.Sample4

/-- The variable that points to the vector, and the heap. -/
structure Handle where
  vector : Option ℕ
  heap : Memory

/-- A `push_back`, with the bytes from `element` on and the outcome of its allocation. -/
structure Push where
  element : ℕ → BitVec 8
  garbage : Option (ℕ → BitVec 8)

namespace Handle

/-- `vector->field`. -/
def field (s : Handle) (field : Field) : Except Fault ℕ := load s.vector field s.heap

/-- The element of a `push_back` is as large as the vector's elements. -/
def push (s : Handle) (push : Push) : Calls Handle := do
  let elementSize ← .lift (s.field .elementSize)
  let (_, vector, heap) ← pushBack push.garbage s.vector (Heap.fill push.element elementSize) s.heap
  return ⟨vector, heap⟩

/-- The block of a vector starts with these numbers and has room for the capacity. -/
structure Laid (s : Handle) (b size capacity elementSize : ℕ) (tail : List (BitVec 8)) : Prop where
  vector : s.vector = some b
  live : s.heap.block b = some (header size capacity elementSize ++ tail)
  within : size ≤ capacity
  room : capacity * elementSize ≤ tail.length
  words : capacity < 2 ^ 64 ∧ elementSize < 2 ^ 64
  small : capacity * elementSize < 2 ^ 64

/-- A vector whose size is at most its capacity. -/
def Valid (s : Handle) : Prop := ∃ b size capacity elementSize tail, s.Laid b size capacity elementSize tail

/-- The vector has this order of its size and its capacity. -/
def Ordered (order : ℕ → ℕ → Prop) (s : Handle) : Prop :=
  ∃ size capacity, s.field .size = .ok size ∧ s.field .capacity = .ok capacity ∧ order size capacity

/-- Every `push_back` returns. One whose reallocation fails changes nothing; none copies to an index that is not
below the capacity, or leaves a size above it. -/
structure Atomic (s : Handle) (push : Push) : Prop where
  returns : ∃ s', (s.push push).result = .ok s'
  failed : push.garbage = none → s.Ordered (· = ·) →
    ∃ s', (s.push push).result = .ok s' ∧ s'.vector = s.vector ∧
      ∀ b, s.vector = some b → s'.heap.block b = s.heap.block b
  inside : ∀ vector heap, (makeRoom push.garbage s.vector s.heap).result = .ok (vector, heap) →
    Ordered (· < ·) ⟨vector, heap⟩
  counted : ∀ s', (s.push push).result = .ok s' → s'.Ordered (· ≤ ·)

/-- The vector has room for the element. -/
def HasRoom (s : Handle) (_ : Push) : Prop := s.Ordered (· < ·)

end Handle

/-- Histories of calls of `push_back`, as far as no call fails. -/
def pusher : Machine Handle Push where
  start s := s.Valid
  step s push := (s.push push).result.toOption

namespace Handle

variable {s s' : Handle} {b size capacity elementSize : ℕ} {tail : List (BitVec 8)}
  {garbage : Option (ℕ → BitVec 8)} {element : ℕ → BitVec 8}

section Laid

variable (laid : s.Laid b size capacity elementSize tail)
include laid

theorem Laid.fields :
    load (some b) .size s.heap = .ok size ∧ load (some b) .capacity s.heap = .ok capacity ∧
      load (some b) .elementSize s.heap = .ok elementSize :=
  ⟨load_size laid.live (laid.within.trans_lt laid.words.1), load_capacity laid.live laid.words.1,
    load_elementSize laid.live laid.words.2⟩

theorem Laid.field_elementSize : s.field .elementSize = .ok elementSize := by
  rw [field, laid.vector]
  exact laid.fields.2.2

theorem Laid.ordered_iff (order : ℕ → ℕ → Prop) : s.Ordered order ↔ order size capacity := by
  obtain ⟨size_eq, capacity_eq, -⟩ := laid.fields
  rw [← laid.vector] at size_eq capacity_eq
  constructor
  · rintro ⟨size', capacity', found, found', ordered⟩
    cases size_eq.symm.trans found
    cases capacity_eq.symm.trans found'
    exact ordered
  · intro ordered
    exact ⟨size, capacity, size_eq, capacity_eq, ordered⟩

/-- A vector with room is left alone. -/
theorem Laid.makeRoom_room (garbage : Option (ℕ → BitVec 8)) (spare : size < capacity) :
    makeRoom garbage s.vector s.heap = ⟨[], .ok (s.vector, s.heap)⟩ := by
  obtain ⟨size_eq, capacity_eq, -⟩ := laid.fields
  simp only [makeRoom, laid.vector, size_eq, capacity_eq, Calls.lift_ok_bind, if_neg spare.ne]
  rfl

/-- A full vector is handed over as the address of the variable; without memory it stays as it is. -/
theorem Laid.makeRoom_full (garbage : Option (ℕ → BitVec 8)) (full : size = capacity)
    (double : 2 * capacity < 2 ^ 64) :
    (makeRoom garbage s.vector s.heap).result =
      if garbage.isSome then .error .outOfBounds else .ok (s.vector, s.heap) := by
  obtain ⟨size_eq, capacity_eq, elementSize_eq⟩ := laid.fields
  have more : ¬max (2 * capacity) 1 ≤ capacity := by omega
  simp only [makeRoom, laid.vector, size_eq, capacity_eq, Calls.lift_ok_bind, if_pos full, wordMul_two double,
    reserve, ite_lt_one, ge_iff_le, if_neg more, elementSize_eq]
  cases garbage <;> rfl

/-- Where twice the capacity wraps around, a full vector passes for one with room. -/
theorem Laid.makeRoom_wraps (garbage : Option (ℕ → BitVec 8)) (full : size = capacity)
    (wraps : 2 ^ 64 ≤ 2 * capacity) :
    (makeRoom garbage s.vector s.heap).result = .ok (s.vector, s.heap) := by
  obtain ⟨size_eq, capacity_eq, -⟩ := laid.fields
  have word := laid.words.1
  have room : max (2 * capacity - 2 ^ 64) 1 ≤ capacity := by omega
  simp only [makeRoom, laid.vector, size_eq, capacity_eq, Calls.lift_ok_bind, if_pos full,
    wordMul_two_wraps word wraps, reserve, ite_lt_one, ge_iff_le, if_pos room]
  rfl

/-- An element that is put into the room is counted, and the block keeps its layout. -/
theorem Laid.putBehind (element : ℕ → BitVec 8) (spare : size < capacity) :
    ∃ ptr heap tail', putBehind s.vector (Heap.fill element elementSize) s.heap =
        ⟨[], .ok (ptr, s.vector, heap)⟩ ∧
      Laid ⟨s.vector, heap⟩ b (size + 1) capacity elementSize tail' := by
  have words := laid.words
  have small := laid.small
  have room := laid.room
  have upTo : elementSize * size + elementSize ≤ capacity * elementSize := by
    rw [← Nat.mul_succ, Nat.mul_comm]
    exact Nat.mul_le_mul_right _ spare
  have live : s.heap.block b = some (header size capacity elementSize ++ (tail.take (elementSize * size) ++
      (tail.drop (elementSize * size)).take elementSize ++
      (tail.drop (elementSize * size)).drop elementSize)) := by
    rw [laid.live, List.append_assoc (List.take _ tail), List.take_append_drop, List.take_append_drop]
  have place : (tail.take (elementSize * size)).length = elementSize * size := by
    rw [List.length_take]
    omega
  have same : ((tail.drop (elementSize * size)).take elementSize).length =
      (Heap.fill element elementSize).length := by
    rw [Heap.length_fill, List.length_take, List.length_drop]
    omega
  obtain ⟨heap', put, live'⟩ := putBehind_segment live place same (Heap.length_fill ..) (by omega) words.2
    (by omega)
  rw [laid.vector]
  refine ⟨_, heap', _, put, ⟨rfl, live', spare, ?_, words, small⟩⟩
  rw [List.length_append, List.length_append, place, Heap.length_fill, List.length_drop, List.length_drop]
  omega

/-- A `push_back` fails where it cannot make room. -/
theorem Laid.push_error (push : Push) {reason : Fault}
    (fails : (makeRoom push.garbage s.vector s.heap).result = .error reason) :
    (s.push push).result = .error reason := by
  rw [Handle.push, laid.field_elementSize, Calls.lift_ok_bind, pushBack_eq]
  simp only [Bind.bind, fails]

/-- A `push_back` that finds room keeps the layout. -/
theorem Laid.push (push : Push) (spare : size < capacity) :
    ∃ heap tail', s.push push = ⟨[], .ok ⟨s.vector, heap⟩⟩ ∧
      Laid ⟨s.vector, heap⟩ b (size + 1) capacity elementSize tail' := by
  obtain ⟨ptr, heap, tail', put, laid'⟩ := laid.putBehind push.element spare
  refine ⟨heap, tail', ?_, laid'⟩
  rw [Handle.push, laid.field_elementSize, Calls.lift_ok_bind, pushBack_eq, laid.makeRoom_room _ spare]
  change (Sample4.putBehind s.vector _ s.heap >>= _) = _
  rw [put]
  rfl

/-- Exactly the pushes that find room are atomic. -/
theorem Laid.atomic_iff (push : Push) : s.Atomic push ↔ s.HasRoom push := by
  rw [HasRoom, laid.ordered_iff]
  rcases laid.within.lt_or_eq with spare | full
  · obtain ⟨heap', tail', pushed, laid'⟩ := laid.push push spare
    refine iff_of_true ⟨⟨_, congrArg Calls.result pushed⟩, fun _ full => ?_, ?_, ?_⟩ spare
    · exact absurd ((laid.ordered_iff _).mp full) spare.ne
    · intro vector heap room
      rw [laid.makeRoom_room _ spare] at room
      cases room
      exact (laid.ordered_iff _).mpr spare
    · intro s' ran
      rw [pushed] at ran
      cases ran
      exact (laid'.ordered_iff _).mpr spare
  · refine iff_of_false (fun atomic => ?_) full.not_lt
    -- where `push_back` goes on, it does so with the full vector
    have stays (room : (makeRoom push.garbage s.vector s.heap).result = .ok (s.vector, s.heap)) : False :=
      ((laid.ordered_iff _).mp (atomic.inside _ _ room)).ne full
    rcases Nat.lt_or_ge (2 * capacity) (2 ^ 64) with double | wraps
    · have room := laid.makeRoom_full push.garbage full double
      split_ifs at room with allocates
      · obtain ⟨s', ran⟩ := atomic.returns
        cases (laid.push_error push room).symm.trans ran
      · exact stays room
    · exact stays (laid.makeRoom_wraps push.garbage full wraps)

/-- A push that finds room keeps the layout. -/
theorem Laid.valid {push : Push} (room : s.HasRoom push) (ran : (s.push push).result = .ok s') : s'.Valid := by
  obtain ⟨heap', tail', pushed, laid'⟩ := laid.push push ((laid.ordered_iff _).mp room)
  rw [pushed] at ran
  cases ran
  exact ⟨b, size + 1, capacity, elementSize, tail', laid'⟩

end Laid

/-- From any vector on, the pushes are atomic exactly as long as each finds room. -/
theorem pushes_atomic_iff (valid : s.Valid) (history : List Push) :
    pusher.AllSteps Atomic s history ↔ pusher.AllSteps HasRoom s history := by
  apply Machine.allSteps_iff Valid _ _ valid
  · rintro s push ⟨b, size, capacity, elementSize, tail, laid⟩
    exact laid.atomic_iff push
  · rintro s s' push ⟨b, size, capacity, elementSize, tail, laid⟩ room moved
    exact laid.valid room (toOption_eq_some.mp moved)

/-- A vector of one byte elements in the first block of a heap, with this behind its header. -/
def sample (size capacity : ℕ) (tail : List (BitVec 8)) : Handle :=
  ⟨some 0, Heap.empty.insert (header size capacity 1 ++ tail)⟩

theorem pushes_atomic_one : pusher.AllSteps Atomic (sample 0 1 [0]) [⟨fun _ => 7, none⟩] := by
  have valid : (sample 0 1 [0]).Valid := ⟨0, 0, 1, 1, [0], rfl, rfl, by decide, by decide, by decide, by decide⟩
  exact (pushes_atomic_iff valid _).mpr ⟨⟨0, 1, rfl, rfl, by decide⟩, fun _ _ => trivial⟩

/-- In a full vector, a push without memory overwrites the byte behind the elements and counts it. -/
theorem push_not_atomic :
    (sample 1 1 [5, 6]).Valid ∧
    (∃ s', ((sample 1 1 [5, 6]).push ⟨fun _ => 7, none⟩).result = .ok s' ∧
      s'.heap.block 0 = some (header 2 1 1 ++ [5, 7])) ∧
    ¬pusher.AllSteps Atomic (sample 1 1 [5, 6]) [⟨fun _ => 7, none⟩] := by
  refine ⟨⟨0, 1, 1, 1, [5, 6], rfl, rfl, by decide, by decide, by decide, by decide⟩, ⟨_, rfl, rfl⟩, ?_⟩
  rintro ⟨atomic, -⟩
  obtain ⟨size, capacity, found, found', below⟩ := atomic.inside _ _ rfl
  obtain rfl : 1 = size := Except.ok.inj found
  obtain rfl : 1 = capacity := Except.ok.inj found'
  exact Nat.lt_irrefl 1 below

end Handle

end Hseos.Sample4
