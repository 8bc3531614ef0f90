import Hseos.Lib.Heap
import Hseos.Lib.Machine
import Mathlib.Algebra.BigOperators.Group.List.Basic

/-! # The vector

A vector keeps its elements, byte blocks of one size, in a heap block that it reallocates with twice the
capacity when it is full. The variables of a program that hold vectors share one heap; each call of
`malloc` and `realloc` comes with its outcome.
-/

namespace Hseos.Sample2

variable {α : Type*}

/-- `vector_t`. -/
structure VectorT where
  size : ℕ
  capacity : ℕ
  elementSize : ℕ
  memory : Option ℕ
deriving DecidableEq

/-- `make_vector`. -/
def makeVector (elementSize : ℕ) : VectorT := ⟨0, 0, elementSize, none⟩

/-- `get_ith`. -/
def VectorT.getIth (vector : VectorT) (i : ℕ) : Pointer :=
  ⟨vector.memory, wordMul 64 vector.elementSize i⟩

/-- `reserve`. -/
def reserve (garbage : Option (ℕ → α)) (vector : VectorT) (capacity : ℕ) (heap : Heap α) :
    Except Fault (VectorT × Heap α) :=
  let capacity := if capacity < 1 then 1 else capacity
  if vector.capacity ≥ capacity then .ok (vector, heap)
  else
    let bytes := wordMul 64 capacity vector.elementSize
    match vector.memory with
    | none =>
        let (memory, heap) := heap.malloc garbage bytes
        .ok ({ vector with memory := memory, capacity := capacity }, heap)
    | some block => do
        let (memory, heap) ← heap.realloc garbage block bytes
        .ok ({ vector with memory := memory, capacity := capacity }, heap)

/-- `push_back`. -/
def pushBack (garbage : Option (ℕ → α)) (vector : VectorT) (element : List α) (heap : Heap α) :
    Except Fault (VectorT × Heap α) := do
  let (vector, heap) ←
    if vector.size = vector.capacity then reserve garbage vector (wordMul 64 vector.capacity 2) heap
    else .ok (vector, heap)
  let heap ← heap.memcpy (vector.getIth vector.size) element vector.elementSize
  .ok ({ vector with size := wordAdd 64 vector.size 1 }, heap)

/-- The heap and the variables, with the elements pushed to each since it was made. -/
structure Vectors (ι α : Type*) where
  heap : Heap α
  vector : ι → VectorT
  pushed : ι → List (List α)

/-- A call for one of the variables. An allocation succeeds and finds some bytes, or fails. -/
inductive VectorCall (ι α : Type*) where
  | makeVector (k : ι) (elementSize : ℕ)
  | reserve (k : ι) (capacity : ℕ) (garbage : Option (ℕ → α))
  | pushBack (k : ι) (element : List α) (garbage : Option (ℕ → α))
  | getIth (k : ι) (i : ℕ)

variable {ι : Type*} [DecidableEq ι]

namespace Vectors

/-- A call has returned this vector and this heap. -/
def set (k : ι) (result : VectorT × Heap α) (s : Vectors ι α) : Vectors ι α :=
  { s with vector := Function.update s.vector k result.1, heap := result.2 }

def call (s : Vectors ι α) : VectorCall ι α → Except Fault (Vectors ι α)
  | .makeVector k elementSize =>
      .ok { s.set k (Sample2.makeVector elementSize, s.heap) with
        pushed := Function.update s.pushed k [] }
  | .reserve k capacity garbage =>
      (Sample2.reserve garbage (s.vector k) capacity s.heap).map fun result => s.set k result
  | .pushBack k element garbage =>
      (Sample2.pushBack garbage (s.vector k) element s.heap).map fun result =>
        { s.set k result with pushed := Function.update s.pushed k (s.pushed k ++ [element]) }
  | .getIth _ _ => .ok s

/-- The calls whose allocations succeed, with size products that fit a `size_t`. -/
def Fits (s : Vectors ι α) : VectorCall ι α → Prop
  | .makeVector _ elementSize => 1 ≤ elementSize
  | .reserve k capacity garbage =>
      garbage.isSome ∧ max capacity 1 * (s.vector k).elementSize < 2 ^ 64
  | .pushBack k element garbage =>
      garbage.isSome ∧ element.length = (s.vector k).elementSize ∧
        ((s.vector k).size = (s.vector k).capacity →
          max (2 * (s.vector k).capacity) 1 * (s.vector k).elementSize < 2 ^ 64)
  | .getIth _ _ => True

end Vectors

end Hseos.Sample2
