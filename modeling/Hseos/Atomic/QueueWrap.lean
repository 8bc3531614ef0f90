import Hseos.Atomic.QueueFifo

/-! # The queue when its sums wrap around

The free space and the available data are sums modulo `2 ^ w` that are then reduced modulo the size of the
memory. When the memory is larger than half of the words, a sum may wrap around; then it has lost `2 ^ w`
where a reduction by one turn of the ring would have taken away less. So both numbers are too small and
never too large: a call may be refused that has room, but what is accepted fits.
-/

namespace Hseos.Atomic

open AtomicQueue

/-- `(read_offset - write_offset - 1) mod memory_size`. -/
def trueFreeSpace (memorySize rOff wOff : ℕ) : ℤ := ((rOff : ℤ) - wOff - 1) % memorySize

/-- `(write_offset - read_offset) mod memory_size`. -/
def trueAvailableData (memorySize wOff rOff : ℕ) : ℤ := ((wOff : ℤ) - rOff) % memorySize

variable {w memorySize rOff wOff : ℕ}

/-- A sum of at most two turns, reduced by the word first, is at most what it is when it is reduced by a turn
only. -/
theorem mod_word_mod_le {sum : ℕ} (word : memorySize < 2 ^ w) (turns : sum < 2 * memorySize) :
    sum % 2 ^ w % memorySize ≤ sum % memorySize := by
  rcases Nat.lt_or_ge sum (2 ^ w) with inside | wraps
  · rw [Nat.mod_eq_of_lt inside]
  · have lost : sum % 2 ^ w = sum - 2 ^ w := by
      rw [Nat.mod_eq_sub_mod wraps, Nat.mod_eq_of_lt (by omega)]
    have turn : sum % memorySize = sum - memorySize := by
      rw [Nat.mod_eq_sub_mod (by omega), Nat.mod_eq_of_lt (by omega)]
    rw [lost, turn, Nat.mod_eq_of_lt (by omega)]
    omega

/-- Adding one turn before a difference is taken makes it a natural number. -/
theorem emod_of_turn {sum : ℕ} {difference : ℤ} (turn : (sum : ℤ) = difference + memorySize) :
    difference % memorySize = (sum % memorySize : ℕ) := by
  rw [Int.natCast_emod, turn, Int.add_emod_right]

section Offsets

variable (word : memorySize < 2 ^ w) (read : rOff < memorySize) (write : wOff < memorySize)

theorem trueFreeSpace_eq (write : wOff < memorySize) :
    trueFreeSpace memorySize rOff wOff = ((rOff + memorySize - 1 - wOff) % memorySize : ℕ) := by
  apply emod_of_turn
  omega

theorem trueAvailableData_eq (read : rOff < memorySize) :
    trueAvailableData memorySize wOff rOff = ((wOff + memorySize - rOff) % memorySize : ℕ) := by
  apply emod_of_turn
  omega

include word read write

/-- The free space is reduced by the word and then by the size of the memory. -/
theorem freeSpace_wraps : freeSpace w memorySize rOff wOff =
    .ok ((rOff + memorySize - 1 - wOff) % 2 ^ w % memorySize) := by
  rw [freeSpace, wordAdd, wordSub_mod (by omega) (by omega), wordSub_mod (by omega) (by omega),
    wordMod_of_pos (by omega)]

omit write in
theorem availableData_wraps : availableData w memorySize wOff rOff =
    .ok ((wOff + memorySize - rOff) % 2 ^ w % memorySize) := by
  rw [availableData, wordAdd, wordSub_mod (by omega) (by omega), wordMod_of_pos (by omega)]

/-- The free space is never overestimated, and not underestimated in a memory of at most half of the words. -/
theorem freeSpace_bounds : ∃ free, freeSpace w memorySize rOff wOff = .ok free ∧
    (free : ℤ) ≤ trueFreeSpace memorySize rOff wOff ∧
    (2 * memorySize ≤ 2 ^ w → (free : ℤ) = trueFreeSpace memorySize rOff wOff) := by
  refine ⟨_, freeSpace_wraps word read write, ?_⟩
  rw [trueFreeSpace_eq write]
  constructor
  · exact Int.ofNat_le.mpr (mod_word_mod_le word (by omega))
  · intro half
    rw [Nat.mod_eq_of_lt (show rOff + memorySize - 1 - wOff < 2 ^ w by omega)]

theorem availableData_bounds : ∃ available, availableData w memorySize wOff rOff = .ok available ∧
    (available : ℤ) ≤ trueAvailableData memorySize wOff rOff ∧
    (2 * memorySize ≤ 2 ^ w → (available : ℤ) = trueAvailableData memorySize wOff rOff) := by
  refine ⟨_, availableData_wraps word read, ?_⟩
  rw [trueAvailableData_eq read]
  constructor
  · exact Int.ofNat_le.mpr (mod_word_mod_le word (by omega))
  · intro half
    rw [Nat.mod_eq_of_lt (show wOff + memorySize - rOff < 2 ^ w by omega)]

end Offsets

variable {queue : AtomicQueue}

/-- The true amount of data is the number of stored bytes, and the rest but one cell is free. -/
theorem trueAvailableData_used (valid : queue.OffsetsValid) (positive : 0 < queue.memorySize) :
    trueAvailableData queue.memorySize queue.writeOffset queue.readOffset = queue.used :=
  trueAvailableData_eq (valid.of_pos positive).1

theorem trueFreeSpace_used (valid : queue.OffsetsValid) (positive : 0 < queue.memorySize) :
    trueFreeSpace queue.memorySize queue.readOffset queue.writeOffset =
      (queue.memorySize - 1 - queue.used : ℕ) := by
  obtain ⟨first, last⟩ := valid.of_pos positive
  rw [trueFreeSpace_eq last, used]
  rcases distance_cases first last with ⟨_, equal⟩ | ⟨_, equal⟩
  · rw [equal, show queue.readOffset + queue.memorySize - 1 - queue.writeOffset =
      queue.memorySize - 1 - (queue.writeOffset - queue.readOffset) by omega, Nat.mod_eq_of_lt (by omega)]
  · rw [equal, show queue.readOffset + queue.memorySize - 1 - queue.writeOffset =
      queue.memorySize - 1 - (queue.writeOffset + queue.memorySize - queue.readOffset) + queue.memorySize by
        omega, Nat.add_mod_right, Nat.mod_eq_of_lt (by omega)]

section Calls

variable (word : queue.memorySize < 2 ^ w) (positive : 0 < queue.memorySize) (valid : queue.OffsetsValid)
include word positive valid

/-- An enqueue is refused, or appends its bytes to those that are stored. -/
theorem tryEnqueue_wraps (data : List UInt8) :
    atomicQueueTryEnqueue w queue data = .ok (-1, queue) ∨
      ∃ next, atomicQueueTryEnqueue w queue data = .ok (0, next) ∧
        data.length ≤ trueFreeSpace queue.memorySize queue.readOffset queue.writeOffset ∧
        Appended queue next data := by
  obtain ⟨first, last⟩ := valid.of_pos positive
  obtain ⟨free, computed, bound, -⟩ := freeSpace_bounds word first last
  have short := valid.used_le
  rw [trueFreeSpace_used valid positive] at bound ⊢
  unfold atomicQueueTryEnqueue
  split_ifs with large empty
  · exact .inl rfl
  · have nothing : data = [] := List.length_eq_zero_iff.mp empty
    subst nothing
    refine .inr ⟨queue, rfl, by simp, rfl, rfl, ?_, valid, (List.append_nil _).symm⟩
    exact (Nat.mod_eq_of_lt last).symm
  · rw [computed, ok_bind]
    by_cases full : data.length > free
    · left
      rw [if_pos full]
      rfl
    · right
      obtain ⟨next, copied, appended⟩ := enqueueCopy_spec word valid data (by omega)
      refine ⟨next, ?_, by omega, appended⟩
      rw [if_neg full, copied]
      rfl

/-- A dequeue is refused, or delivers and removes the first bytes that are stored. -/
theorem tryDequeue_wraps (data : List UInt8) (size : ℕ) :
    atomicQueueTryDequeue w queue data size = .ok (-1, queue, data) ∨
      ∃ next, atomicQueueTryDequeue w queue data size =
          .ok (0, next, queue.contents.take size ++ data.drop size) ∧
        size ≤ trueAvailableData queue.memorySize queue.writeOffset queue.readOffset ∧
        Dropped queue next size := by
  obtain ⟨first, last⟩ := valid.of_pos positive
  obtain ⟨available, computed, bound, -⟩ := availableData_bounds word first last
  rw [trueAvailableData_used valid positive] at bound ⊢
  unfold atomicQueueTryDequeue
  split_ifs with large empty
  · exact .inl rfl
  · subst empty
    refine .inr ⟨queue, rfl, by simp, rfl, ?_, rfl, valid, rfl⟩
    exact (Nat.mod_eq_of_lt first).symm
  · rw [computed, ok_bind]
    by_cases lacking : size > available
    · left
      rw [if_pos lacking]
      rfl
    · right
      have within : size ≤ queue.used := by omega
      obtain ⟨next, copied, dropped⟩ := dequeueCopy_spec word valid within (by omega) data
      refine ⟨next, ?_, by omega, dropped⟩
      rw [if_neg lacking, copied]
      rfl

end Calls

/-- For words of any size: the free space and the available data are never overestimated and are exact for a
memory of at most half of the words. Each call is refused and changes nothing, or it moves its offset by the
size around the ring, having stored no more than there was room for, or taken no more than there was. -/
theorem queue_wrap_safe (w : ℕ) (queue : AtomicQueue) (positive : 0 < queue.memorySize)
    (word : queue.memorySize < 2 ^ w) (read : queue.readOffset < queue.memorySize)
    (write : queue.writeOffset < queue.memorySize) :
    (∃ free available, freeSpace w queue.memorySize queue.readOffset queue.writeOffset = .ok free ∧
      availableData w queue.memorySize queue.writeOffset queue.readOffset = .ok available ∧
      (free : ℤ) ≤ ((queue.readOffset : ℤ) - queue.writeOffset - 1) % queue.memorySize ∧
      (available : ℤ) ≤ ((queue.writeOffset : ℤ) - queue.readOffset) % queue.memorySize ∧
      (queue.memorySize ≤ 2 ^ (w - 1) →
        (free : ℤ) = ((queue.readOffset : ℤ) - queue.writeOffset - 1) % queue.memorySize ∧
        (available : ℤ) = ((queue.writeOffset : ℤ) - queue.readOffset) % queue.memorySize)) ∧
    (∀ data, atomicQueueTryEnqueue w queue data = .ok (-1, queue) ∨
      ∃ next, atomicQueueTryEnqueue w queue data = .ok (0, next) ∧
        data.length ≤ ((queue.readOffset : ℤ) - queue.writeOffset - 1) % queue.memorySize ∧
        next.writeOffset = (queue.writeOffset + data.length) % queue.memorySize ∧
        next.readOffset = queue.readOffset ∧ next.memorySize = queue.memorySize ∧
        next.contents = queue.contents ++ data) ∧
    ∀ data size, atomicQueueTryDequeue w queue data size = .ok (-1, queue, data) ∨
      ∃ next, atomicQueueTryDequeue w queue data size =
          .ok (0, next, queue.contents.take size ++ data.drop size) ∧
        size ≤ ((queue.writeOffset : ℤ) - queue.readOffset) % queue.memorySize ∧
        next.readOffset = (queue.readOffset + size) % queue.memorySize ∧
        next.writeOffset = queue.writeOffset ∧ next.memorySize = queue.memorySize ∧
        next.contents = queue.contents.drop size := by
  have valid : queue.OffsetsValid := ⟨by omega, by omega⟩
  refine ⟨?_, fun data => ?_, fun data size => ?_⟩
  · obtain ⟨free, free_ok, free_le, free_eq⟩ := freeSpace_bounds word read write
    obtain ⟨available, available_ok, available_le, available_eq⟩ := availableData_bounds word read write
    refine ⟨free, available, free_ok, available_ok, free_le, available_le, fun half => ?_⟩
    have doubled : 2 * queue.memorySize ≤ 2 ^ w := by
      cases w with
      | zero => omega
      | succ w =>
        rw [Nat.add_sub_cancel] at half
        rw [Nat.pow_succ]
        omega
    exact ⟨free_eq doubled, available_eq doubled⟩
  · rcases tryEnqueue_wraps word positive valid data with refused | ⟨next, called, room, appended⟩
    · exact .inl refused
    · exact .inr ⟨next, called, room, appended.write, appended.read, appended.size, appended.contents⟩
  · rcases tryDequeue_wraps word positive valid data size with refused | ⟨next, called, within, dropped⟩
    · exact .inl refused
    · exact .inr ⟨next, called, within, dropped.read, dropped.write, dropped.size, dropped.contents⟩

/-- With words of three bits, the sum of seven, five and less wraps around in a memory of seven bytes. -/
theorem queue_wrap_safe_seven :
    freeSpace 3 7 5 0 = .ok 3 ∧ ∃ available, availableData 3 7 0 5 = .ok available ∧ (available : ℤ) ≤ 2 := by
  obtain ⟨⟨_, available, _, computed, _, bound, _⟩, _⟩ := queue_wrap_safe 3 ⟨5, 0, 7, fun _ => 0⟩
    (by decide) (by decide) (by decide) (by decide)
  exact ⟨rfl, available, computed, bound⟩

end Hseos.Atomic
