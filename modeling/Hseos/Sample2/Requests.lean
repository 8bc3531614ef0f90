import Hseos.Sample2.Vector

/-! # What a call asks of the heap

`reserve` calls `malloc` for a vector without a block and `realloc` for the others, so it reallocates
whatever pointer earlier calls have left in `memory`. `push_back` makes room by a `reserve` of twice the
capacity, which may have wrapped around, and copies then.
-/

namespace Hseos.Sample2

variable {α : Type*}

/-- The pointer that is reallocated, which may be null, and the size that is asked for. -/
structure Request where
  block : Option ℕ
  bytes : ℕ
deriving DecidableEq

/-- The request of a `reserve`, if it makes one. -/
def VectorT.request (vector : VectorT) (capacity : ℕ) : Option Request :=
  if vector.capacity ≥ max capacity 1 then none
  else some ⟨vector.memory, wordMul 64 (max capacity 1) vector.elementSize⟩

/-- `malloc` or `realloc`. -/
def allocate (garbage : Option (ℕ → α)) (request : Request) (heap : Heap α) :
    Except Fault (Option ℕ × Heap α) :=
  match request.block with
  | none => .ok (heap.malloc garbage request.bytes)
  | some block => heap.realloc garbage block request.bytes

/-- The vector as `push_back` copies to it. -/
def makeRoom (garbage : Option (ℕ → α)) (vector : VectorT) (heap : Heap α) :
    Except Fault (VectorT × Heap α) :=
  if vector.size = vector.capacity then reserve garbage vector (wordMul 64 vector.capacity 2) heap
  else .ok (vector, heap)

variable {garbage : Option (ℕ → α)} {vector : VectorT} {capacity : ℕ} {heap heap' : Heap α}
  {memory : Option ℕ} {request : Request} {element : List α}

theorem request_eq_none : vector.request capacity = none ↔ max capacity 1 ≤ vector.capacity := by
  rw [VectorT.request]
  split_ifs with room
  · exact iff_of_true rfl room
  · exact iff_of_false nofun room

theorem request_eq_some (more : vector.capacity < max capacity 1) :
    vector.request capacity = some ⟨vector.memory, wordMul 64 (max capacity 1) vector.elementSize⟩ :=
  if_neg (Nat.not_le_of_lt more)

/-- A `reserve` that finds the room changes nothing. -/
theorem reserve_of_room (room : max capacity 1 ≤ vector.capacity) :
    reserve garbage vector capacity heap = .ok (vector, heap) := by
  simp only [reserve, ite_lt_one, ge_iff_le, if_pos room]

/-- The other calls of `reserve` set the capacity, whatever has become of their request. -/
theorem reserve_of_request (requests : vector.request capacity = some request) :
    reserve garbage vector capacity heap =
      allocate garbage request heap >>= fun result =>
        .ok ({ vector with memory := result.1, capacity := max capacity 1 }, result.2) := by
  have more : ¬max capacity 1 ≤ vector.capacity := by
    intro room
    rw [request_eq_none.mpr room] at requests
    cases requests
  rw [request_eq_some (Nat.lt_of_not_le more)] at requests
  cases requests
  simp only [reserve, ite_lt_one, ge_iff_le, if_neg more, allocate]
  cases vector.memory <;> rfl

theorem pushBack_makeRoom :
    pushBack garbage vector element heap =
      makeRoom garbage vector heap >>= fun grown =>
        grown.2.memcpy (grown.1.getIth grown.1.size) element grown.1.elementSize >>= fun heap =>
          .ok ({ grown.1 with size := wordAdd 64 grown.1.size 1 }, heap) := by
  unfold pushBack makeRoom
  split_ifs <;> rfl

/-- No call changes the size of the elements. -/
theorem reserve_elementSize {result : VectorT × Heap α}
    (ran : reserve garbage vector capacity heap = .ok result) :
    result.1.elementSize = vector.elementSize := by
  cases requests : vector.request capacity with
  | none =>
    rw [reserve_of_room (request_eq_none.mp requests)] at ran
    cases ran
    rfl
  | some request =>
    rw [reserve_of_request requests] at ran
    obtain ⟨found, -, made⟩ := ok_of_bind ran
    cases made
    rfl

theorem makeRoom_elementSize {result : VectorT × Heap α} (ran : makeRoom garbage vector heap = .ok result) :
    result.1.elementSize = vector.elementSize := by
  rw [makeRoom] at ran
  split_ifs at ran with full
  · exact reserve_elementSize ran
  · cases ran
    rfl

/-- A `push_back` that succeeds has made room and copied. -/
theorem pushBack_ok {result : VectorT × Heap α} (ran : pushBack garbage vector element heap = .ok result) :
    ∃ grown, makeRoom garbage vector heap = .ok grown ∧
      grown.2.memcpy (grown.1.getIth grown.1.size) element grown.1.elementSize = .ok result.2 ∧
      result.1 = { grown.1 with size := wordAdd 64 grown.1.size 1 } := by
  rw [pushBack_makeRoom] at ran
  obtain ⟨grown, room, copies⟩ := ok_of_bind ran
  obtain ⟨heap', copied, made⟩ := ok_of_bind copies
  cases made
  exact ⟨grown, room, copied, rfl⟩

/-- A request for a live block, or for none, is met as far as there is memory. -/
theorem allocate_live (garbage : Option (ℕ → α)) (request : Request)
    (live : ∀ b, request.block = some b → (heap.block b).isSome) :
    ∃ memory heap', allocate garbage request heap = .ok (memory, heap') ∧
      (heap'.blockSize memory = if garbage.isSome then request.bytes else 0) ∧
      ∀ c, memory = some c → (heap'.block c).isSome := by
  rw [allocate]
  cases found : request.block with
  | none =>
    refine ⟨_, _, rfl, Heap.malloc_blockSize .., ?_⟩
    rintro c allocated
    cases garbage with
    | none => cases allocated
    | some garbage =>
      cases allocated
      exact congrArg Option.isSome Heap.block_insert
  | some b =>
    obtain ⟨bytes, block⟩ := Option.isSome_iff_exists.mp (live b found)
    exact Heap.realloc_blockSize garbage request.bytes block

end Hseos.Sample2
