import Hseos.Lib.Heap
import Hseos.Lib.LittleEndian
import Hseos.Lib.Machine

/-! # The vector with its header in the block

A vector is one heap block: three numbers of eight bytes, and the elements behind them. Functions that may
move it take the address of the variable that points to it, and `reserve` hands this address to `realloc`
instead of the pointer. The address of a variable is no live block, so such a call has no defined result,
except that without memory it is taken to give a null pointer. The calls record which pointers they have
handed over.
-/

namespace Hseos.Sample4

/-- `sizeof(vector_t)`, which is the offset of `memory`. -/
def sizeofVectorT : ℕ := 24

/-- `sizeof(*vector)`, where `vector` points to a pointer. -/
def sizeofPointer : ℕ := 8

abbrev Memory := Heap (BitVec 8)

/-- The numbers of a `vector_t`. -/
inductive Field where
  | size
  | capacity
  | elementSize
deriving DecidableEq

def Field.offset : Field → ℕ
  | .size => 0
  | .capacity => 8
  | .elementSize => 16

/-- `vector->field`. -/
def load (vector : Option ℕ) (field : Field) (heap : Memory) : Except Fault ℕ :=
  (heap.read ⟨vector, field.offset⟩ 8).map bytesNumber

/-- `vector->field = n`. -/
def store (vector : Option ℕ) (field : Field) (n : ℕ) (heap : Memory) : Except Fault Memory :=
  heap.memcpy ⟨vector, field.offset⟩ (numberBytes 8 n) 8

/-- A pointer as an argument of `realloc`: to a block, or to the variable that holds the vector. -/
inductive Address where
  | block (b : ℕ)
  | variable
deriving DecidableEq

/-- A computation and the pointers it has handed to `realloc`, also where it fails. -/
structure Calls (β : Type) where
  handed : List Address
  result : Except Fault β

namespace Calls

instance : Monad Calls where
  pure a := ⟨[], .ok a⟩
  bind first next :=
    match first.result with
    | .error reason => ⟨first.handed, .error reason⟩
    | .ok a => ⟨first.handed ++ (next a).handed, (next a).result⟩

/-- A computation that does not call `realloc`. -/
def lift {β : Type} (result : Except Fault β) : Calls β := ⟨[], result⟩

@[simp] theorem lift_ok_bind {β γ : Type} (a : β) (next : β → Calls γ) :
    (lift (.ok a) >>= next) = next a := rfl

@[simp] theorem pure_bind {β γ : Type} (a : β) (next : β → Calls γ) :
    ((pure a : Calls β) >>= next) = next a := rfl

end Calls

/-- `realloc` of any pointer. What it does with one that no allocation has returned is not defined. That it gives a
null pointer for it when there is no memory is an idealisation: a library may end the program first. -/
def reallocAt (garbage : Option (ℕ → BitVec 8)) (address : Address) (size : ℕ) (heap : Memory) :
    Calls (Option ℕ × Memory) where
  handed := [address]
  result :=
    match address with
    | .block b => heap.realloc garbage b size
    | .variable => if garbage.isSome then .error .outOfBounds else .ok (none, heap)

/-- `make_vector`. -/
def makeVector (garbage : Option (ℕ → BitVec 8)) (elementSize capacity : ℕ) (heap : Memory) :
    Except Fault (Option ℕ × Memory) := do
  let (v, heap) := heap.malloc garbage (wordAdd 64 sizeofVectorT (wordMul 64 elementSize capacity))
  let heap ← store v .elementSize elementSize heap
  let heap ← store v .capacity capacity heap
  let heap ← store v .size 0 heap
  return (v, heap)

/-- `reserve`: what it returns, and `*vector` after it. -/
def reserve (garbage : Option (ℕ → BitVec 8)) (vector : Option ℕ) (capacity : ℕ) (heap : Memory) :
    Calls (ℤ × Option ℕ × Memory) := do
  let capacity := if capacity < 1 then 1 else capacity
  let current ← .lift (load vector .capacity heap)
  if current ≥ capacity then return (0, vector, heap)
  let elementSize ← .lift (load vector .elementSize heap)
  -- `vector` is the address of the variable, and its target has the size of a pointer
  let (newVector, heap) ← reallocAt garbage .variable
    (wordAdd 64 (wordMul 64 capacity elementSize) sizeofPointer) heap
  match newVector with
  | some b =>
      let heap ← .lift (store (some b) .capacity capacity heap)
      return (0, some b, heap)
  | none => return (-1, vector, heap)

/-- `get_ith`. -/
def getIth (vector : Option ℕ) (i : ℕ) (heap : Memory) : Except Fault Pointer := do
  let elementSize ← load vector .elementSize heap
  return ⟨vector, sizeofVectorT + wordMul 64 elementSize i⟩

/-- `push_back`. -/
def pushBack (garbage : Option (ℕ → BitVec 8)) (vector : Option ℕ) (element : List (BitVec 8))
    (heap : Memory) : Calls (Pointer × Option ℕ × Memory) := do
  let size ← .lift (load vector .size heap)
  let capacity ← .lift (load vector .capacity heap)
  let (vector, heap) ←
    if size = capacity then do
      let (_, vector, heap) ← reserve garbage vector (wordMul 64 capacity 2) heap
      pure (vector, heap)
    else pure (vector, heap)
  let size ← .lift (load vector .size heap)
  let ptr ← .lift (getIth vector size heap)
  let elementSize ← .lift (load vector .elementSize heap)
  let heap ← .lift (heap.memcpy ptr element elementSize)
  let size ← .lift (load vector .size heap)
  let heap ← .lift (store vector .size (wordAdd 64 size 1) heap)
  return (ptr, vector, heap)

/-- The part of `push_back` before it copies. -/
def makeRoom (garbage : Option (ℕ → BitVec 8)) (vector : Option ℕ) (heap : Memory) :
    Calls (Option ℕ × Memory) := do
  let size ← .lift (load vector .size heap)
  let capacity ← .lift (load vector .capacity heap)
  if size = capacity then do
    let (_, vector, heap) ← reserve garbage vector (wordMul 64 capacity 2) heap
    pure (vector, heap)
  else pure (vector, heap)

/-- The part of `push_back` from the copy on. -/
def putBehind (vector : Option ℕ) (element : List (BitVec 8)) (heap : Memory) :
    Calls (Pointer × Option ℕ × Memory) := do
  let size ← .lift (load vector .size heap)
  let ptr ← .lift (getIth vector size heap)
  let elementSize ← .lift (load vector .elementSize heap)
  let heap ← .lift (heap.memcpy ptr element elementSize)
  let size ← .lift (load vector .size heap)
  let heap ← .lift (store vector .size (wordAdd 64 size 1) heap)
  return (ptr, vector, heap)

/-- The variable that points to the vector, the heap, and the elements pushed. -/
structure Program where
  vector : Option ℕ
  heap : Memory
  pushed : List (List (BitVec 8))

/-- A call whose allocation succeeds and finds some bytes. -/
inductive VectorCall where
  | reserve (capacity : ℕ) (garbage : ℕ → BitVec 8)
  | pushBack (element : List (BitVec 8)) (garbage : ℕ → BitVec 8)

namespace Program

/-- A program that has just made its vector. -/
def make (garbage : ℕ → BitVec 8) (elementSize capacity : ℕ) (heap : Memory) : Except Fault Program := do
  let (vector, heap) ← makeVector (some garbage) elementSize capacity heap
  return ⟨vector, heap, []⟩

def call (s : Program) : VectorCall → Calls Program
  | .reserve capacity garbage => do
      let (_, vector, heap) ← Sample4.reserve (some garbage) s.vector capacity s.heap
      return { s with vector := vector, heap := heap }
  | .pushBack element garbage => do
      let (_, vector, heap) ← Sample4.pushBack (some garbage) s.vector element s.heap
      return ⟨vector, heap, s.pushed ++ [element]⟩

/-- `vector->field`. -/
def field (s : Program) (field : Field) : Except Fault ℕ := load s.vector field s.heap

/-- The size products of a call fit a `size_t`, and it gets an element of the size of the vector's. -/
def Fits (s : Program) : VectorCall → Prop
  | .reserve capacity _ => capacity < 2 ^ 64 ∧ ∃ elementSize, s.field .elementSize = .ok elementSize ∧
      sizeofVectorT + max capacity 1 * elementSize < 2 ^ 64
  | .pushBack element _ => ∃ size capacity, s.field .size = .ok size ∧ s.field .capacity = .ok capacity ∧
      s.field .elementSize = .ok element.length ∧
      (size = capacity → 2 * capacity < 2 ^ 64 ∧
        sizeofVectorT + max (2 * capacity) 1 * element.length < 2 ^ 64)

/-- The vector points to a live block that holds its header and room for its capacity, and `get_ith` finds
the elements that were pushed. -/
def Holds (s : Program) : Prop :=
  ∃ b bytes capacity elementSize, s.vector = some b ∧ s.heap.block b = some bytes ∧
    s.field .size = .ok s.pushed.length ∧ s.field .capacity = .ok capacity ∧
    s.field .elementSize = .ok elementSize ∧ sizeofVectorT + capacity * elementSize ≤ bytes.length ∧
    s.pushed.length ≤ capacity ∧
    ∀ i (bound : i < s.pushed.length), ∃ p, getIth s.vector i s.heap = .ok p ∧
      s.heap.read p elementSize = .ok s.pushed[i]

/-- Each pointer handed to `realloc` is the live block of the vector, and after the call the vector holds
its elements. -/
def Sound (s : Program) (call : VectorCall) : Prop :=
  (∀ address ∈ (s.call call).handed,
    ∃ b bytes, s.vector = some b ∧ s.heap.block b = some bytes ∧ address = .block b) ∧
  ∃ s', (s.call call).result = .ok s' ∧ s'.Holds

/-- The call finds the room it needs. -/
def HasRoom (s : Program) : VectorCall → Prop
  | .reserve capacity _ => ∃ current, s.field .capacity = .ok current ∧ max capacity 1 ≤ current
  | .pushBack _ _ => ∃ size capacity, s.field .size = .ok size ∧ s.field .capacity = .ok capacity ∧
      size < capacity

end Program

/-- Histories of calls on a vector that was just made, as far as they return. -/
def vectorCalls : Machine Program VectorCall where
  start s := ∃ garbage elementSize capacity heap, Program.make garbage elementSize capacity heap = .ok s
  step s call := (s.call call).result.toOption

end Hseos.Sample4
