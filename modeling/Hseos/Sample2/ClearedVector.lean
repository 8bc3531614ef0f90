import Hseos.Sample2.Requests

/-! # A vector that was cleared

`clear_vector` frees the block and sets the capacity to zero, but leaves the pointer in `memory`. The next
`push_back` or `reserve` has to grow the vector and hands the pointer to `realloc`, and the next
`clear_vector` hands it to `free` again.
-/

namespace Hseos.Sample2

variable {α : Type*}

/-- `clear_vector`. -/
def clearVector (vector : VectorT) (heap : Heap α) : Except Fault (VectorT × Heap α) :=
  match vector.memory with
  | none => .ok (vector, heap)
  | some block => do
      let heap ← heap.free (some block)
      return ({ vector with size := 0, capacity := 0 }, heap)

/-- A call; an allocation finds some bytes. -/
inductive ClearCall (α : Type*) where
  | reserve (capacity : ℕ) (garbage : ℕ → α)
  | pushBack (element : ℕ → α) (garbage : ℕ → α)
  | clearVector

/-- A vector that may be cleared, and the heap. -/
structure Clearable (α : Type*) where
  vector : VectorT
  heap : Heap α

namespace Clearable

/-- The element of a `push_back` is as large as the vector's elements. -/
def call (s : Clearable α) (call : ClearCall α) : Except Fault (Clearable α) :=
  let result :=
    match call with
    | .reserve capacity garbage => Sample2.reserve (some garbage) s.vector capacity s.heap
    | .pushBack element garbage =>
        Sample2.pushBack (some garbage) s.vector (Heap.fill element s.vector.elementSize) s.heap
    | .clearVector => Sample2.clearVector s.vector s.heap
  result.map fun result => ⟨result.1, result.2⟩

/-- The pointer, unless it is null, that a call hands to `realloc` or `free`. -/
def handed (s : Clearable α) : ClearCall α → Option ℕ
  | .reserve capacity _ => (s.vector.request capacity).bind Request.block
  | .pushBack _ _ =>
      if s.vector.size = s.vector.capacity then
        (s.vector.request (wordMul 64 s.vector.capacity 2)).bind Request.block
      else none
  | .clearVector => s.vector.memory

/-- The block that a call reallocates or frees is live. -/
def HandsLive (s : Clearable α) (call : ClearCall α) : Prop :=
  ∀ b, s.handed call = some b → (s.heap.block b).isSome

/-- The vector was not cleared: it has no block, or it has room for some elements. -/
def Uncleared (s : Clearable α) : Prop := s.vector.memory = none ∨ 0 < s.vector.capacity

end Clearable

/-- Histories of calls on one vector, as far as no call fails. -/
def clearable (α : Type*) : Machine (Clearable α) (ClearCall α) where
  start s := ∃ elementSize, s.vector = makeVector elementSize
  step s call := (s.call call).toOption

namespace Clearable

variable {s s' : Clearable α} {a : ClearCall α} {garbage : ℕ → α} {element : List α} {capacity : ℕ}
  {vector : VectorT} {heap : Heap α} {result : VectorT × Heap α}

/-- A block is live as long as the vector has a capacity. -/
structure Tracks (vector : VectorT) (heap : Heap α) : Prop where
  live : ∀ b, vector.memory = some b → ((heap.block b).isSome ↔ 0 < vector.capacity)
  empty : vector.capacity = 0 → vector.size = 0

/-- What a call hands over is the block of the vector. -/
theorem handed_memory {b : ℕ} (handed : s.handed a = some b) : s.vector.memory = some b := by
  have requested {capacity : ℕ} (found : (s.vector.request capacity).bind Request.block = some b) :
      s.vector.memory = some b := by
    obtain ⟨request, requests, block⟩ := Option.bind_eq_some_iff.mp found
    rw [VectorT.request] at requests
    split_ifs at requests
    cases requests
    exact block
  cases a with
  | reserve capacity garbage => exact requested handed
  | pushBack element garbage =>
    rw [Clearable.handed] at handed
    split_ifs at handed
    exact requested handed
  | clearVector => exact handed

/-- Every call on a cleared vector hands its block over. -/
theorem handed_of_cleared (tracks : Tracks s.vector s.heap) (cleared : s.vector.capacity = 0) (a : ClearCall α) :
    s.handed a = s.vector.memory := by
  have requests (capacity : ℕ) : (s.vector.request capacity).bind Request.block = s.vector.memory := by
    rw [request_eq_some (by omega)]
    rfl
  cases a with
  | reserve capacity garbage => exact requests capacity
  | pushBack element garbage =>
    rw [handed, if_pos ((tracks.empty cleared).trans cleared.symm)]
    exact requests _
  | clearVector => rfl

/-- The pointers that are handed over are live exactly as long as the vector was not cleared. -/
theorem handsLive_iff (tracks : Tracks s.vector s.heap) (a : ClearCall α) : s.HandsLive a ↔ s.Uncleared := by
  constructor
  · intro hands
    rcases Nat.eq_zero_or_pos s.vector.capacity with cleared | positive
    · left
      have handed := handed_of_cleared tracks cleared a
      cases memory : s.vector.memory with
      | none => rfl
      | some b =>
        have live := (tracks.live b memory).mp (hands b (handed.trans memory))
        omega
    · exact .inr positive
  · intro uncleared b handed
    have memory := handed_memory handed
    rcases uncleared with none | positive
    · cases none.symm.trans memory
    · exact (tracks.live b memory).mpr positive

/-- A `reserve` on a vector that was not cleared leaves it with a block that is live, if any. -/
theorem Tracks.reserve (tracks : Tracks vector heap) (uncleared : vector.memory = none ∨ 0 < vector.capacity)
    (ran : Sample2.reserve (some garbage) vector capacity heap = .ok result) :
    Tracks result.1 result.2 ∧ 0 < result.1.capacity := by
  cases requests : vector.request capacity with
  | none =>
    have room := request_eq_none.mp requests
    rw [reserve_of_room room] at ran
    cases ran
    exact ⟨tracks, (show 0 < max capacity 1 by omega).trans_le room⟩
  | some request =>
    have block : ∀ b, request.block = some b → (heap.block b).isSome := by
      intro b found
      rw [VectorT.request] at requests
      split_ifs at requests
      cases requests
      rcases uncleared with none | positive
      · cases none.symm.trans found
      · exact (tracks.live b found).mpr positive
    obtain ⟨memory, heap', allocated, -, live⟩ := allocate_live (some garbage) request block
    rw [reserve_of_request requests, allocated] at ran
    cases ran
    have positive : 0 < max capacity 1 := by omega
    refine ⟨⟨fun b found => iff_of_true (live b found) positive, fun zero => ?_⟩, positive⟩
    exact absurd zero positive.ne'

theorem Tracks.pushBack (tracks : Tracks vector heap) (uncleared : vector.memory = none ∨ 0 < vector.capacity)
    (ran : Sample2.pushBack (some garbage) vector element heap = .ok result) : Tracks result.1 result.2 := by
  obtain ⟨grown, room, copied, made⟩ := pushBack_ok ran
  have ready : Tracks grown.1 grown.2 ∧ 0 < grown.1.capacity := by
    rw [makeRoom] at room
    split_ifs at room with full
    · exact tracks.reserve uncleared room
    · cases room
      refine ⟨tracks, Nat.pos_of_ne_zero ?_⟩
      intro zero
      exact full ((tracks.empty zero).trans zero.symm)
  obtain ⟨tracks', positive⟩ := ready
  rw [made]
  refine ⟨fun b memory => ?_, fun zero => absurd zero positive.ne'⟩
  rw [Heap.memcpy_isSome copied]
  exact tracks'.live b memory

theorem Tracks.clearVector (tracks : Tracks vector heap)
    (ran : Sample2.clearVector vector heap = .ok result) : Tracks result.1 result.2 := by
  cases memory : vector.memory with
  | none =>
    rw [Sample2.clearVector, memory] at ran
    cases ran
    exact tracks
  | some b =>
    simp only [Sample2.clearVector, memory] at ran
    obtain ⟨heap', freed, made⟩ := ok_of_bind ran
    cases made
    refine ⟨fun c found => ?_, fun _ => rfl⟩
    cases found
    rw [Heap.free_block freed]
    exact iff_of_false nofun (Nat.lt_irrefl 0)

/-- Exactly the histories without a call on a cleared vector hand over live blocks only. -/
theorem hands_live_iff (elementSize : ℕ) (heap : Heap α) (history : List (ClearCall α)) :
    (clearable α).AllSteps HandsLive ⟨makeVector elementSize, heap⟩ history ↔
      (clearable α).AllSteps (fun s _ => s.Uncleared) ⟨makeVector elementSize, heap⟩ history := by
  apply Machine.allSteps_iff fun s : Clearable α => Tracks s.vector s.heap
  · intro s a tracks
    exact handsLive_iff tracks a
  · intro s s' a tracks uncleared moved
    have ran : s.call a = .ok s' := toOption_eq_some.mp moved
    cases a with
    | reserve capacity garbage =>
      obtain ⟨result, reserved, rfl⟩ := map_eq_ok.mp ran
      exact (tracks.reserve uncleared reserved).1
    | pushBack element garbage =>
      obtain ⟨result, pushed, rfl⟩ := map_eq_ok.mp ran
      exact tracks.pushBack uncleared pushed
    | clearVector =>
      obtain ⟨result, cleared, rfl⟩ := map_eq_ok.mp ran
      exact tracks.clearVector cleared
  · exact ⟨nofun, fun _ => rfl⟩

/-- A vector that is filled, cleared and filled again, and one that is cleared twice. -/
theorem cleared_dangles :
    ¬(clearable ℕ).AllSteps HandsLive ⟨makeVector 1, .empty⟩
      [.pushBack (fun _ => 7) fun _ => 0, .clearVector, .pushBack (fun _ => 8) fun _ => 0] ∧
    ¬(clearable ℕ).AllSteps HandsLive ⟨makeVector 1, .empty⟩
      [.pushBack (fun _ => 7) fun _ => 0, .clearVector, .clearVector] := by
  constructor
  · rintro ⟨-, rest⟩
    obtain ⟨-, rest⟩ := rest _ rfl
    obtain ⟨live, -⟩ := rest _ rfl
    cases live 0 rfl
  · rintro ⟨-, rest⟩
    obtain ⟨-, rest⟩ := rest _ rfl
    obtain ⟨live, -⟩ := rest _ rfl
    cases live 0 rfl

end Clearable

end Hseos.Sample2
