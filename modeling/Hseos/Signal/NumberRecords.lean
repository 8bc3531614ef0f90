import Hseos.Signal.NumberPipe

/-! # Numbers through the pipe

A number that a process writes is found by the process that reads next, as long as its digits, the newline
and the NUL fit the sixteen bytes of a record. `sprintf` does not know the size of the buffer, and a 64-bit
number has up to twenty digits.
-/

namespace Hseos.Signal

open Numeral

/-- `write_number` on a pipe with these bytes; `s` is in the buffer before. -/
def writeNumberTo (pipe : List (BitVec 8)) (s : Buffer) (v : ℕ) : Except Fault (ℤ × List (BitVec 8)) := do
  let (status, record) ← writeNumber s v
  return (status, pipe ++ List.ofFn record)

/-- `read_number` on a pipe with these bytes: what it returns, `*res`, and what is left. -/
def readNumberFrom (pipe : List (BitVec 8)) (res : ℕ) : Except Fault (ℤ × ℕ × List (BitVec 8)) :=
  if full : 16 ≤ pipe.length then do
    let (status, v) ← readNumber (fun i => pipe.get ⟨i, i.isLt.trans_le full⟩) res
    return (status, v, pipe.drop 16)
  else .ok (-1, res, [])

/-- `write_number` of values in turn, each with its buffer: what the calls return, and the pipe. -/
def writeNumbers (pipe : List (BitVec 8)) :
    List (Buffer × BitVec 64) → Except Fault (List ℤ × List (BitVec 8))
  | [] => .ok ([], pipe)
  | (s, v) :: rest => do
      let (status, pipe) ← writeNumberTo pipe s v.toNat
      let (statuses, pipe) ← writeNumbers pipe rest
      return (status :: statuses, pipe)

/-- As many calls of `read_number`: what each returns and finds, and the pipe. -/
def readNumbers (pipe : List (BitVec 8)) (res : ℕ) : ℕ → Except Fault (List (ℤ × ℕ) × List (BitVec 8))
  | 0 => .ok ([], pipe)
  | count + 1 => do
      let (status, v, pipe) ← readNumberFrom pipe res
      let (answers, pipe) ← readNumbers pipe res count
      return ((status, v) :: answers, pipe)

/-- All writes stay inside their buffers and return zero, and as many reads return zero and give the values
back in order. -/
def ReadBack (values : List (Buffer × BitVec 64)) : Prop :=
  ∀ res, ∃ pipe, writeNumbers [] values = .ok (values.map fun _ => 0, pipe) ∧
    readNumbers pipe res values.length = .ok (values.map fun value => (0, value.2.toNat), [])

variable {pipe : List (BitVec 8)} {values : List (Buffer × BitVec 64)}

/-- A text of more than fourteen digits does not fit. -/
theorem writeNumber_exceeds {v : ℕ} (large : 10 ^ 14 ≤ v) (s : Buffer) :
    writeNumber s v = .error .outOfBounds := by
  have digits : ¬(numeral 10 v).length ≤ 14 := by
    rw [length_numeral_le_iff (by decide) (by decide)]
    omega
  apply if_neg
  rw [List.length_append, List.length_singleton]
  omega

theorem writeNumberTo_ok {s record : Buffer} {v : ℕ} (written : writeNumber s v = .ok (0, record)) :
    writeNumberTo pipe s v = .ok (0, pipe ++ List.ofFn record) := by
  rw [writeNumberTo, written]
  rfl

theorem writeNumberTo_exceeds {v : ℕ} (large : 10 ^ 14 ≤ v) (s : Buffer) :
    writeNumberTo pipe s v = .error .outOfBounds := by
  rw [writeNumberTo, writeNumber_exceeds large]
  rfl

/-- The first sixteen bytes of a pipe are the record that was written first. -/
theorem readNumberFrom_record {record : Buffer} {v : ℕ} (carries : Carries record v) (res : ℕ) :
    readNumberFrom (List.ofFn record ++ pipe) res = .ok (0, v, pipe) := by
  have length : (List.ofFn record).length = 16 := List.length_ofFn
  have full : 16 ≤ (List.ofFn record ++ pipe).length := by
    rw [List.length_append]
    omega
  have same : (fun i : Fin 16 => (List.ofFn record ++ pipe).get ⟨i, i.isLt.trans_le full⟩) = record := by
    funext i
    have inside : i.val < (List.ofFn record).length := by
      rw [length]
      exact i.isLt
    rw [List.get_eq_getElem, List.getElem_append_left inside, List.getElem_ofFn]
  rw [readNumberFrom, dif_pos full, same, carries res, ok_bind, List.drop_left' length]
  rfl

/-- Small values are written record by record. -/
theorem writeNumbers_ok (pipe : List (BitVec 8)) (small : ∀ value ∈ values, value.2.toNat < 10 ^ 14) :
    ∃ records, writeNumbers pipe values = .ok (values.map fun _ => 0, pipe ++ records) ∧
      ∀ res, readNumbers records res values.length =
        .ok (values.map fun value => (0, value.2.toNat), []) := by
  induction values generalizing pipe with
  | nil =>
    refine ⟨[], ?_, fun _ => rfl⟩
    rw [writeNumbers, List.append_nil]
    rfl
  | cons value rest ih =>
    obtain ⟨s, v⟩ := value
    obtain ⟨record, written, carries⟩ := writeNumber_ok (small (s, v) List.mem_cons_self) s
    obtain ⟨records, others, answers⟩ := ih (pipe ++ List.ofFn record) fun value member =>
      small value (List.mem_cons_of_mem _ member)
    refine ⟨List.ofFn record ++ records, ?_, fun res => ?_⟩
    · rw [List.append_assoc] at others
      simp only [writeNumbers, writeNumberTo_ok written, ok_bind, others]
      rfl
    · simp only [List.length_cons, readNumbers, readNumberFrom_record carries, ok_bind, answers]
      rfl

/-- If all values are written, all of them have at most fourteen digits. -/
theorem small_of_written {result : List ℤ × List (BitVec 8)} (written : writeNumbers pipe values = .ok result) :
    ∀ value ∈ values, value.2.toNat < 10 ^ 14 := by
  induction values generalizing pipe result with
  | nil => exact fun _ member => absurd member List.not_mem_nil
  | cons value rest ih =>
    obtain ⟨s, v⟩ := value
    obtain ⟨⟨status, pipe'⟩, first, later⟩ := ok_of_bind written
    obtain ⟨others, more, -⟩ := ok_of_bind later
    rintro value member
    rcases List.mem_cons.mp member with rfl | member
    · by_contra large
      rw [writeNumberTo_exceeds (Nat.le_of_not_lt large)] at first
      cases first
    · exact ih more value member

/-- Values that are written in turn are read back in turn exactly if each of them is below `10 ^ 14`. -/
theorem read_back_iff (values : List (Buffer × BitVec 64)) :
    ReadBack values ↔ ∀ value ∈ values, value.2.toNat < 10 ^ 14 := by
  constructor
  · intro readBack
    obtain ⟨pipe, written, -⟩ := readBack 0
    exact small_of_written written
  · intro small res
    obtain ⟨records, written, answers⟩ := writeNumbers_ok [] small
    exact ⟨records, written, answers res⟩

/-- The least value that does not fit its record is written behind the end of the buffer. -/
theorem not_read_back : ¬ReadBack [(fun _ => 0, 100000000000000)] ∧
    writeNumber (fun _ => 0) 100000000000000 = .error .outOfBounds := by
  refine ⟨fun readBack => ?_, writeNumber_exceeds (by decide) _⟩
  obtain ⟨pipe, written, -⟩ := readBack 0
  obtain ⟨_, first, -⟩ := ok_of_bind written
  rw [writeNumberTo_exceeds (by decide)] at first
  cases first

end Hseos.Signal
