import Hseos.Sample2.Requests

/-! # Growth that fails

`reserve` sets the capacity even if `malloc` or `realloc` has failed, and does not notice that the size in
bytes wraps around. Then the block is shorter than the capacity says, and `push_back` writes outside of it.
-/

namespace Hseos.Sample2

variable {α : Type*}

/-- A call with the outcome of the allocation it may make. -/
inductive Growth (α : Type*) where
  | reserve (capacity : ℕ) (garbage : Option (ℕ → α))
  | pushBack (element : ℕ → α) (garbage : Option (ℕ → α))

/-- A vector and the heap. -/
structure Owner (α : Type*) where
  vector : VectorT
  heap : Heap α

namespace Owner

/-- The element of a `push_back` is as large as the vector's elements. -/
def call (s : Owner α) : Growth α → Except Fault (Owner α)
  | .reserve capacity garbage =>
      (Sample2.reserve garbage s.vector capacity s.heap).map fun result => ⟨result.1, result.2⟩
  | .pushBack element garbage =>
      (Sample2.pushBack garbage s.vector (Heap.fill element s.vector.elementSize) s.heap).map
        fun result => ⟨result.1, result.2⟩

/-- The live block has the bytes of the capacity. -/
def Holds (s : Owner α) : Prop :=
  s.vector.capacity * s.vector.elementSize ≤ s.heap.blockSize s.vector.memory

/-- The next element, unless it is empty, lies inside of the live block. -/
def Inside (s : Owner α) : Prop :=
  s.vector.elementSize = 0 ∨
    (s.vector.getIth s.vector.size).offset + s.vector.elementSize ≤ s.heap.blockSize s.vector.memory

/-- A call leaves a vector whose block has the bytes of its capacity, and writes inside of the block. -/
def Safe (s : Owner α) (call : Growth α) : Prop :=
  (∀ s', s.call call = .ok s' → s'.Holds) ∧
  match call with
  | .reserve _ _ => True
  | .pushBack _ garbage =>
      ∀ grown heap, makeRoom garbage s.vector s.heap = .ok (grown, heap) → Inside ⟨grown, heap⟩

/-- A call that has to grow the block gets the memory it needs, of a size that fits a `size_t`. -/
def Supplied (s : Owner α) : Growth α → Prop
  | .reserve capacity garbage => s.vector.capacity < max capacity 1 →
      garbage.isSome ∧ max capacity 1 * s.vector.elementSize < 2 ^ 64
  | .pushBack _ garbage => s.vector.size = s.vector.capacity →
      garbage.isSome ∧ max (2 * s.vector.capacity) 1 * s.vector.elementSize < 2 ^ 64

end Owner

/-- Histories of calls on one vector, as far as no call fails. -/
def owner (α : Type*) : Machine (Owner α) (Growth α) where
  start s := ∃ elementSize, s.vector = makeVector elementSize
  step s call := (s.call call).toOption

namespace Owner

variable {s s' : Owner α} {garbage : Option (ℕ → α)} {element : ℕ → α} {capacity : ℕ}

/-- The block is exactly as large as the capacity says, which the elements do not exceed. -/
structure Exact (s : Owner α) : Prop where
  size : s.vector.size ≤ s.vector.capacity
  bytes : s.heap.blockSize s.vector.memory = s.vector.capacity * s.vector.elementSize
  small : s.vector.capacity * s.vector.elementSize < 2 ^ 64
  live : ∀ b, s.vector.memory = some b → (s.heap.block b).isSome

/-- What a growing `reserve` leaves: a block of the size asked for, or none. -/
theorem Exact.reserve_more (exact_ : s.Exact) (garbage : Option (ℕ → α))
    (more : s.vector.capacity < max capacity 1) :
    ∃ memory heap, reserve garbage s.vector capacity s.heap =
        .ok ({ s.vector with memory := memory, capacity := max capacity 1 }, heap) ∧
      (heap.blockSize memory =
        if garbage.isSome then wordMul 64 (max capacity 1) s.vector.elementSize else 0) ∧
      ∀ c, memory = some c → (heap.block c).isSome := by
  have requests := request_eq_some more
  obtain ⟨memory, heap, allocated, bytes, live⟩ := allocate_live garbage
    ⟨s.vector.memory, wordMul 64 (max capacity 1) s.vector.elementSize⟩ exact_.live
  refine ⟨memory, heap, ?_, bytes, live⟩
  rw [reserve_of_request requests, allocated, ok_bind]

/-- The bytes of the capacity are there exactly if there is memory and the product does not wrap around. -/
theorem holds_iff {elementSize bytes : ℕ} (positive : 1 ≤ elementSize) (more : 1 ≤ capacity)
    (supplied : bytes = if garbage.isSome then wordMul 64 capacity elementSize else 0) :
    capacity * elementSize ≤ bytes ↔ garbage.isSome ∧ capacity * elementSize < 2 ^ 64 := by
  have product : 0 < capacity * elementSize := Nat.mul_pos more positive
  have bound : wordMul 64 capacity elementSize < 2 ^ 64 := Nat.mod_lt _ (by decide)
  rw [supplied]
  split_ifs with allocates
  · constructor
    · intro enough
      exact ⟨allocates, enough.trans_lt bound⟩
    · rintro ⟨-, small⟩
      exact (wordMul_of_lt small).ge
  · apply iff_of_false
    · omega
    · exact fun both => allocates both.1

/-- A `reserve` keeps the block exact if it is supplied, and leaves it too short otherwise. -/
theorem Exact.reserve_cases (exact_ : s.Exact) (positive : 1 ≤ s.vector.elementSize)
    (garbage : Option (ℕ → α)) (capacity : ℕ) :
    ∃ grown heap, reserve garbage s.vector capacity s.heap = .ok (grown, heap) ∧
      grown.elementSize = s.vector.elementSize ∧ grown.size = s.vector.size ∧
      max capacity 1 ≤ grown.capacity ∧
      (s.Supplied (.reserve capacity garbage) ∧ Exact ⟨grown, heap⟩ ∨
        ¬s.Supplied (.reserve capacity garbage) ∧ ¬Holds ⟨grown, heap⟩) := by
  rcases Nat.lt_or_ge s.vector.capacity (max capacity 1) with more | room
  · obtain ⟨memory, heap, grows, bytes, live⟩ := exact_.reserve_more garbage more
    have holds := holds_iff positive (show 1 ≤ max capacity 1 by omega) bytes
    refine ⟨_, heap, grows, rfl, rfl, le_rfl, ?_⟩
    by_cases supplied : garbage.isSome ∧ max capacity 1 * s.vector.elementSize < 2 ^ 64
    · refine .inl ⟨fun _ => supplied, ⟨exact_.size.trans more.le, ?_, supplied.2, live⟩⟩
      rw [bytes, if_pos supplied.1, wordMul_of_lt supplied.2]
    · exact .inr ⟨fun met => supplied (met more), fun enough => supplied (holds.mp enough)⟩
  · refine ⟨_, _, reserve_of_room room, rfl, rfl, room, .inl ⟨?_, exact_⟩⟩
    exact fun more => absurd room (Nat.not_le_of_lt more)

/-- There is room for one more element exactly if the call is supplied. -/
theorem Exact.makeRoom_cases (exact_ : s.Exact) (positive : 1 ≤ s.vector.elementSize)
    (garbage : Option (ℕ → α)) (element : ℕ → α) :
    ∃ grown heap, makeRoom garbage s.vector s.heap = .ok (grown, heap) ∧
      grown.elementSize = s.vector.elementSize ∧
      (s.Supplied (.pushBack element garbage) ∧ Exact ⟨grown, heap⟩ ∧ grown.size < grown.capacity ∨
        ¬s.Supplied (.pushBack element garbage) ∧ (¬Inside ⟨grown, heap⟩ ∨ ¬Holds ⟨grown, heap⟩)) := by
  have small := exact_.small
  have word : s.vector.capacity < 2 ^ 64 := (Nat.le_mul_of_pos_right _ positive).trans_lt small
  rw [makeRoom]
  split_ifs with full
  · rcases Nat.lt_or_ge (2 * s.vector.capacity) (2 ^ 64) with fits | wraps
    · have more : s.vector.capacity < max (2 * s.vector.capacity) 1 := by omega
      rw [wordMul_two fits]
      obtain ⟨grown, heap, grows, elementSize, size, room, outcome⟩ :=
        exact_.reserve_cases positive garbage (2 * s.vector.capacity)
      refine ⟨grown, heap, grows, elementSize, ?_⟩
      rcases outcome with ⟨supplied, exact'⟩ | ⟨short, lacks⟩
      · exact .inl ⟨fun _ => supplied more, exact', by omega⟩
      · exact .inr ⟨fun met => short fun _ => met full, .inr lacks⟩
    · -- twice the capacity has wrapped around to less than the capacity
      have wrapped := wordMul_two_wraps word wraps
      refine ⟨_, _, reserve_of_room (by omega), rfl, .inr ⟨?_, .inl ?_⟩⟩
      · intro met
        obtain ⟨-, product⟩ := met full
        have := Nat.le_mul_of_pos_right (max (2 * s.vector.capacity) 1) positive
        omega
      · have offset : (s.vector.getIth s.vector.size).offset = s.vector.capacity * s.vector.elementSize := by
          rw [VectorT.getIth, full, Nat.mul_comm s.vector.capacity]
          exact wordMul_of_lt (by rwa [Nat.mul_comm])
        rintro (empty | fits)
        · exact absurd empty (Nat.ne_of_gt positive)
        · change (s.vector.getIth s.vector.size).offset + s.vector.elementSize ≤
            s.heap.blockSize s.vector.memory at fits
          rw [offset, exact_.bytes] at fits
          omega
  · exact ⟨_, _, rfl, rfl, .inl ⟨fun same => absurd same full, exact_, exact_.size.lt_of_ne full⟩⟩

/-- The place behind the elements of a vector with room. -/
theorem Exact.inside (exact_ : s.Exact) (room : s.vector.size < s.vector.capacity) : s.Inside := by
  have within : s.vector.elementSize * s.vector.size + s.vector.elementSize ≤
      s.vector.capacity * s.vector.elementSize := by
    rw [← Nat.mul_succ, Nat.mul_comm]
    exact Nat.mul_le_mul_right _ room
  have small := exact_.small
  have offset : (s.vector.getIth s.vector.size).offset = s.vector.elementSize * s.vector.size :=
    wordMul_of_lt (by omega)
  rw [Inside, offset, exact_.bytes]
  exact .inr within

/-- A copy inside of the block succeeds and keeps all blocks with their sizes. -/
theorem Inside.copies {grown : VectorT} {heap : Heap α} (inside : Inside ⟨grown, heap⟩)
    (positive : 1 ≤ grown.elementSize) (element : ℕ → α) :
    ∃ heap', heap.memcpy (grown.getIth grown.size) (Heap.fill element grown.elementSize)
        grown.elementSize = .ok heap' := by
  have fits := inside.resolve_left (Nat.ne_of_gt positive)
  obtain ⟨b, memory⟩ : ∃ b, grown.memory = some b := by
    cases found : grown.memory with
    | none =>
      simp only [found, Heap.blockSize, Option.bind_none, Option.map_none, Option.getD_none] at fits
      omega
    | some b => exact ⟨b, rfl⟩
  obtain ⟨bytes, live⟩ : ∃ bytes, heap.block b = some bytes := by
    cases found : heap.block b with
    | none =>
      simp only [memory, Heap.blockSize, Option.bind_some, found, Option.map_none, Option.getD_none] at fits
      omega
    | some bytes => exact ⟨bytes, rfl⟩
  have length : heap.blockSize grown.memory = bytes.length := by
    simp only [memory, Heap.blockSize, Option.bind_some, live, Option.map_some, Option.getD_some]
  have place : grown.getIth grown.size = ⟨some b, (grown.getIth grown.size).offset⟩ := by
    rw [VectorT.getIth, memory]
  rw [length] at fits
  have fits' : (grown.getIth grown.size).offset + (Heap.fill element grown.elementSize).length ≤
      bytes.length := by
    rw [Heap.length_fill]
    exact fits
  have copied := Heap.memcpy_inside live fits'
  rw [Heap.length_fill, ← place] at copied
  exact ⟨_, copied⟩

/-- A `push_back` that copies inside of the block. -/
theorem call_pushBack {grown : VectorT} {heap heap' : Heap α}
    (room : makeRoom garbage s.vector s.heap = .ok (grown, heap))
    (same : grown.elementSize = s.vector.elementSize)
    (copied : heap.memcpy (grown.getIth grown.size) (Heap.fill element grown.elementSize)
      grown.elementSize = .ok heap') :
    s.call (.pushBack element garbage) =
      .ok ⟨{ grown with size := wordAdd 64 grown.size 1 }, heap'⟩ := by
  simp only [call, ← same, pushBack_makeRoom, room, ok_bind, copied]
  rfl

theorem call_elementSize {growth : Growth α} (ran : s.call growth = .ok s') :
    s'.vector.elementSize = s.vector.elementSize := by
  cases growth with
  | reserve capacity garbage =>
    obtain ⟨result, reserved, rfl⟩ := map_eq_ok.mp ran
    exact reserve_elementSize reserved
  | pushBack element garbage =>
    obtain ⟨result, pushed, rfl⟩ := map_eq_ok.mp ran
    obtain ⟨grown, room, -, vector⟩ := pushBack_ok pushed
    exact (congrArg VectorT.elementSize vector).trans (makeRoom_elementSize room)

/-- Empty elements need no bytes. -/
theorem safe_of_empty (empty : s.vector.elementSize = 0) (growth : Growth α) : s.Safe growth := by
  constructor
  · intro s' ran
    rw [Holds, call_elementSize ran, empty]
    exact Nat.zero_le _
  · cases growth with
    | reserve capacity garbage => trivial
    | pushBack element garbage =>
      intro grown heap room
      exact .inl ((makeRoom_elementSize room).trans empty)

/-- Exactly the supplied calls are safe. -/
theorem Exact.safe_iff (exact_ : s.Exact) (positive : 1 ≤ s.vector.elementSize) (growth : Growth α) :
    s.Safe growth ↔ s.Supplied growth := by
  cases growth with
  | reserve capacity garbage =>
    obtain ⟨grown, heap, reserved, -, -, -, outcome⟩ := exact_.reserve_cases positive garbage capacity
    have called : s.call (.reserve capacity garbage) = .ok ⟨grown, heap⟩ := by
      rw [call, reserved]
      rfl
    rcases outcome with ⟨supplied, exact'⟩ | ⟨short, lacks⟩
    · refine iff_of_true ⟨?_, trivial⟩ supplied
      intro s' ran
      cases called.symm.trans ran
      exact exact'.bytes.ge
    · exact iff_of_false (fun safe => lacks (safe.1 _ called)) short
  | pushBack element garbage =>
    obtain ⟨grown, heap, room, same, outcome⟩ := exact_.makeRoom_cases positive garbage element
    rcases outcome with ⟨supplied, exact', spare⟩ | ⟨short, outside | lacks⟩
    · have inside : Inside ⟨grown, heap⟩ := exact'.inside spare
      obtain ⟨heap', copied⟩ := inside.copies (same ▸ positive) element
      refine iff_of_true ⟨?_, ?_⟩ supplied
      · intro s' ran
        cases (call_pushBack room same copied).symm.trans ran
        rw [Holds, Heap.memcpy_blockSize copied]
        exact exact'.bytes.ge
      · intro grown' heap' room'
        cases room.symm.trans room'
        exact inside
    · exact iff_of_false (fun safe => outside (safe.2 _ _ room)) short
    · apply iff_of_false _ short
      intro safe
      obtain ⟨heap', copied⟩ := Inside.copies (safe.2 _ _ room) (same ▸ positive) element
      have holds := safe.1 _ (call_pushBack room same copied)
      rw [Holds, Heap.memcpy_blockSize copied] at holds
      exact lacks holds

/-- A supplied call keeps the block exact. -/
theorem Exact.call {growth : Growth α} (exact_ : s.Exact) (positive : 1 ≤ s.vector.elementSize)
    (supplied : s.Supplied growth) (ran : s.call growth = .ok s') : s'.Exact := by
  cases growth with
  | reserve capacity garbage =>
    obtain ⟨grown, heap, reserved, -, -, -, outcome⟩ := exact_.reserve_cases positive garbage capacity
    rw [Owner.call, reserved] at ran
    cases ran
    rcases outcome with ⟨-, exact'⟩ | ⟨short, -⟩
    · exact exact'
    · exact absurd supplied short
  | pushBack element garbage =>
    obtain ⟨grown, heap, room, same, outcome⟩ := exact_.makeRoom_cases positive garbage element
    rcases outcome with ⟨-, exact', spare⟩ | ⟨short, -⟩
    · obtain ⟨heap', copied⟩ := (exact'.inside spare).copies (same ▸ positive) element
      cases (call_pushBack room same copied).symm.trans ran
      obtain ⟨-, bytes, small, live⟩ := exact'
      have word : grown.capacity < 2 ^ 64 :=
        (Nat.le_mul_of_pos_right _ (same ▸ positive)).trans_lt small
      have next : wordAdd 64 grown.size 1 = grown.size + 1 := by
        refine wordAdd_of_lt ?_
        have : grown.size < grown.capacity := spare
        omega
      refine ⟨?_, (Heap.memcpy_blockSize copied _).trans bytes, small, ?_⟩
      · rw [next]
        exact spare
      · intro b memory
        rw [Heap.memcpy_isSome copied]
        exact live b memory
    · exact absurd supplied short

/-- For every size of the elements, the block has the bytes of the capacity after each call of a history, and
is not written outside of, exactly if the elements are empty or every call that has to grow the block gets
memory, of a size that does not wrap around. -/
theorem block_holds_capacity_iff (elementSize : ℕ) (heap : Heap α) (history : List (Growth α)) :
    (owner α).AllSteps Safe ⟨makeVector elementSize, heap⟩ history ↔
      (owner α).AllSteps (fun s growth => s.vector.elementSize = 0 ∨ s.Supplied growth)
        ⟨makeVector elementSize, heap⟩ history := by
  apply Machine.allSteps_iff fun s => s.vector.elementSize = 0 ∨ 1 ≤ s.vector.elementSize ∧ s.Exact
  · rintro s growth (empty | ⟨positive, exact_⟩)
    · exact iff_of_true (safe_of_empty empty growth) (.inl empty)
    · rw [exact_.safe_iff positive, or_iff_right (Nat.ne_of_gt positive)]
  · rintro s s' growth inv met moved
    have ran : s.call growth = .ok s' := toOption_eq_some.mp moved
    have same := call_elementSize ran
    rcases inv with empty | ⟨positive, exact_⟩
    · exact .inl (same.trans empty)
    · exact .inr ⟨same ▸ positive, exact_.call positive (met.resolve_left (Nat.ne_of_gt positive)) ran⟩
  · rcases Nat.eq_zero_or_pos elementSize with empty | positive
    · exact .inl empty
    · exact .inr ⟨positive, ⟨le_rfl, (Nat.zero_mul _).symm, by simp [makeVector], nofun⟩⟩

/-- After a `malloc` that fails, the first `push_back` writes through a null pointer; a `reserve` of half of
all numbers of a `size_t`, for elements of two bytes, gets a block without any. -/
theorem block_too_short :
    ¬(owner ℕ).AllSteps Safe ⟨makeVector 1, .empty⟩ [.pushBack (fun _ => 7) none] ∧
    ¬(owner ℕ).AllSteps Safe ⟨makeVector 2, .empty⟩ [.reserve (2 ^ 63) (some fun _ => 0)] := by
  constructor
  · rintro ⟨⟨-, inside⟩, -⟩
    rcases inside _ _ rfl with empty | fits
    · cases empty
    · cases fits
  · rintro ⟨⟨holds, -⟩, -⟩
    have enough : 2 ^ 63 * 2 ≤ 0 := holds _ rfl
    omega

end Owner

end Hseos.Sample2
