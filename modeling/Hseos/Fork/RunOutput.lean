import Hseos.Lib.Heap

/-! # Collecting the output of a child

`run` reads what its child prints into a block that it doubles as often as the next chunk needs it. The size
of the block is kept in `capacity` and the part in use in `output.size`. Each `read` delivers a chunk of up to
`sizeof(data)` bytes, until the output ends; allocations succeed.
-/

namespace Hseos.RunOutput

/-- `buffer_t`. -/
structure BufferT where
  data : Option ℕ
  size : ℕ

/-- The variables of the loop with the heap. -/
structure Running where
  output : BufferT
  capacity : ℕ
  heap : Heap (BitVec 8)

/-- The bytes that an allocation finds in its new block. -/
abbrev Garbage := ℕ → ℕ → BitVec 8

/-- Before the loop. -/
def start (garbage : Garbage) (heap : Heap (BitVec 8)) : Running :=
  let (data, heap') := heap.malloc (some (garbage heap.next)) 4096
  ⟨⟨data, 0⟩, 4096, heap'⟩

/-- The loop that doubles the capacity. -/
def doubleCapacity (needed : ℕ) : ℕ → ℕ → Except Fault ℕ
  | 0, _ => .error .outOfFuel
  | fuel + 1, capacity =>
      if needed > capacity then doubleCapacity needed fuel (wordMul 64 capacity 2) else .ok capacity

/-- What is done for a chunk of `n` bytes before it is copied. -/
def makeRoom (garbage : Garbage) (fuel : ℕ) (s : Running) (n : ℕ) : Except Fault Running :=
  let needed := wordAdd 64 n s.output.size
  if needed > s.capacity then do
    let capacity ← doubleCapacity needed fuel s.capacity
    match s.output.data with
    | none => .error .nullPointer
    | some b =>
      let (data, heap) ← s.heap.realloc (some (garbage s.heap.next)) b capacity
      return ⟨⟨data, s.output.size⟩, capacity, heap⟩
  else .ok s

/-- The `memcpy` of a chunk. -/
def copyChunk (s : Running) (chunk : List (BitVec 8)) : Except Fault Running := do
  let heap ← s.heap.memcpy ⟨s.output.data, s.output.size⟩ chunk chunk.length
  return ⟨⟨s.output.data, wordAdd 64 s.output.size chunk.length⟩, s.capacity, heap⟩

/-- The loop on these chunks. -/
def readChunks (garbage : Garbage) (fuel : ℕ) : Running → List (List (BitVec 8)) → Except Fault Running
  | s, [] => .ok s
  | s, chunk :: rest => do
      let s ← makeRoom garbage fuel s chunk.length
      let s ← copyChunk s chunk
      readChunks garbage fuel s rest

/-- `run` behind the calls that start the child: what it returns, and the heap. -/
def run (garbage : Garbage) (fuel : ℕ) (heap : Heap (BitVec 8)) (chunks : List (List (BitVec 8))) :
    Except Fault (BufferT × Heap (BitVec 8)) := do
  let s ← readChunks garbage fuel (start garbage heap) chunks
  return (s.output, s.heap)

/-- The capacity is the size of the live block, which begins with these bytes; `output.size` is their
number. -/
structure Holds (s : Running) (bytes : List (BitVec 8)) : Prop where
  size : s.output.size = bytes.length
  block : ∃ b tail, s.output.data = some b ∧ s.heap.block b = some (bytes ++ tail) ∧
    s.capacity = bytes.length + tail.length
  least : 4096 ≤ s.capacity
  bound : s.capacity < 2 ^ 63

variable {fuel : ℕ} {s : Running} {bytes chunk : List (BitVec 8)}

/-- Doubling ends with enough, and with less than twice as much if there was not enough before. -/
theorem doubleCapacity_spec {needed capacity : ℕ} (positive : 0 < capacity) (bound : capacity < 2 ^ 63)
    (fits : needed ≤ 2 ^ 62) (reaches : needed ≤ capacity * 2 ^ fuel) :
    ∃ grown, doubleCapacity needed (fuel + 1) capacity = .ok grown ∧ needed ≤ grown ∧ capacity ≤ grown ∧
      grown < 2 ^ 63 := by
  induction fuel generalizing capacity with
  | zero =>
    rw [Nat.pow_zero, Nat.mul_one] at reaches
    exact ⟨capacity, if_neg (by omega), reaches, le_rfl, bound⟩
  | succ fuel ih =>
    rw [doubleCapacity]
    split_ifs with less
    · have twice : wordMul 64 capacity 2 = 2 * capacity := wordMul_two (by omega)
      rw [Nat.pow_succ', ← Nat.mul_assoc, Nat.mul_comm capacity 2] at reaches
      obtain ⟨grown, doubled, enough, more, bound⟩ := ih (by omega) (by omega) reaches
      rw [twice]
      exact ⟨grown, doubled, enough, by omega, bound⟩
    · exact ⟨capacity, rfl, by omega, le_rfl, bound⟩

theorem holds_start (garbage : Garbage) (heap : Heap (BitVec 8)) : Holds (start garbage heap) [] := by
  have capacity : (start garbage heap).capacity = 4096 := rfl
  have live : (start garbage heap).heap.block heap.next = some (Heap.fill (garbage heap.next) 4096) :=
    Heap.block_insert
  refine ⟨rfl, ⟨heap.next, Heap.fill (garbage heap.next) 4096, rfl, ?_, ?_⟩, capacity.ge, ?_⟩
  · rw [List.nil_append]
    exact live
  · rw [capacity, Heap.length_fill, List.length_nil]
  · rw [capacity]
    omega

/-- Before a chunk is copied there is room for it. -/
theorem Holds.makeRoom (garbage : Garbage) (holds : Holds s bytes) {n : ℕ} (total : bytes.length + n < 2 ^ 62)
    (enough : 64 ≤ fuel) :
    ∃ s', RunOutput.makeRoom garbage fuel s n = .ok s' ∧ Holds s' bytes ∧ bytes.length + n ≤ s'.capacity := by
  obtain ⟨size, ⟨b, tail, data, live, parts⟩, least, bound⟩ := holds
  have needed : wordAdd 64 n s.output.size = bytes.length + n := by
    rw [size, wordAdd_of_lt (by omega), Nat.add_comm]
  unfold RunOutput.makeRoom
  dsimp only
  rw [needed]
  split_ifs with more
  · obtain ⟨fuel, rfl⟩ : ∃ f, fuel = f + 64 := ⟨fuel - 64, by omega⟩
    have reaches : bytes.length + n ≤ s.capacity * 2 ^ (fuel + 63) := by
      calc bytes.length + n ≤ 2 ^ 62 := total.le
        _ ≤ 2 ^ (fuel + 63) := Nat.pow_le_pow_right (by decide) (by omega)
        _ ≤ s.capacity * 2 ^ (fuel + 63) := Nat.le_mul_of_pos_left _ (by omega)
    obtain ⟨grown, doubled, room, larger, bound'⟩ := doubleCapacity_spec (by omega) bound (by omega) reaches
    rw [doubled, ok_bind, data]
    dsimp only
    have inside : (bytes ++ tail).length ≤ grown := by
      rw [List.length_append]
      omega
    obtain ⟨heap', new, moved, live', length, kept, _⟩ :=
      Heap.realloc_grow (garbage s.heap.next) live inside (by omega)
    have front : bytes ++ new.drop bytes.length = new := by
      have first := congrArg (List.take bytes.length) kept
      rw [List.take_take, List.length_append, Nat.min_eq_left (Nat.le_add_right _ _), List.take_left] at first
      conv_rhs => rw [← List.take_append_drop bytes.length new, first]
    have least' : 4096 ≤ grown := least.trans larger
    rw [moved, ok_bind]
    refine ⟨_, rfl, ⟨size, ⟨s.heap.next, new.drop bytes.length, rfl, ?_, ?_⟩, least', bound'⟩, room⟩
    · rw [front]
      exact live'
    · rw [← List.length_append, front, length]
  · exact ⟨s, rfl, ⟨size, ⟨b, tail, data, live, parts⟩, least, bound⟩, by omega⟩

/-- A chunk that there is room for is put behind the bytes of the block. -/
theorem Holds.copyChunk (holds : Holds s bytes) (room : bytes.length + chunk.length ≤ s.capacity) :
    ∃ s', RunOutput.copyChunk s chunk = .ok s' ∧ Holds s' (bytes ++ chunk) := by
  obtain ⟨size, ⟨b, tail, data, live, parts⟩, least, bound⟩ := holds
  have live' : s.heap.block b = some (bytes ++ tail.take chunk.length ++ tail.drop chunk.length) := by
    rw [live, List.append_assoc, List.take_append_drop]
  have same : (tail.take chunk.length).length = chunk.length := by
    rw [List.length_take]
    omega
  have next : wordAdd 64 s.output.size chunk.length = (bytes ++ chunk).length := by
    rw [size, List.length_append]
    exact wordAdd_of_lt (by omega)
  have copied := Heap.memcpy_segment live' same
  rw [← size, ← data] at copied
  rw [RunOutput.copyChunk, copied, ok_bind]
  refine ⟨_, rfl, ⟨next, ⟨b, tail.drop chunk.length, data, Heap.block_set (Heap.used live), ?_⟩, least, bound⟩⟩
  rw [List.length_append, List.length_drop]
  show s.capacity = _
  omega

/-- The loop puts the chunks behind one another. -/
theorem Holds.readChunks (garbage : Garbage) (holds : Holds s bytes) {chunks : List (List (BitVec 8))}
    (total : bytes.length + chunks.flatten.length < 2 ^ 62) (enough : 64 ≤ fuel) :
    ∃ s', RunOutput.readChunks garbage fuel s chunks = .ok s' ∧ Holds s' (bytes ++ chunks.flatten) := by
  induction chunks generalizing s bytes with
  | nil => exact ⟨s, rfl, by rw [List.flatten_nil, List.append_nil]; exact holds⟩
  | cons chunk rest ih =>
    rw [List.flatten_cons, List.length_append] at total
    have first : bytes.length + chunk.length < 2 ^ 62 := by omega
    obtain ⟨s₁, made, holds₁, room⟩ := holds.makeRoom garbage first enough
    obtain ⟨s₂, copied, holds₂⟩ := holds₁.copyChunk room
    obtain ⟨s₃, ran, holds₃⟩ := ih holds₂ (by rw [List.length_append]; omega)
    refine ⟨s₃, ?_, ?_⟩
    · rw [RunOutput.readChunks, made, ok_bind, copied, ok_bind, ran]
    · rw [List.flatten_cons, ← List.append_assoc]
      exact holds₃

/-- What is true before a `memcpy` of `n` bytes: the capacity is the size of the live block and sufficient. -/
def Room (s : Running) (n : ℕ) : Prop :=
  ∃ b block, s.output.data = some b ∧ s.heap.block b = some block ∧ block.length = s.capacity ∧
    s.output.size + n ≤ s.capacity

/-- For every output of less than 2^62 bytes and all chunks it is read in, whatever their sizes, `run` returns
the output. Before each `memcpy` the capacity is the size of the live block and at least what is needed; the
doubling ends. -/
theorem run_collects (garbage : Garbage) (heap : Heap (BitVec 8)) (chunks : List (List (BitVec 8)))
    (total : chunks.flatten.length < 2 ^ 62) {fuel : ℕ} (enough : 64 ≤ fuel) :
    (∃ output heap' b tail, run garbage fuel heap chunks = .ok (output, heap') ∧
      output.size = chunks.flatten.length ∧ output.data = some b ∧
      heap'.block b = some (chunks.flatten ++ tail)) ∧
    ∀ before chunk after, chunks = before ++ chunk :: after →
      ∃ s s', readChunks garbage fuel (start garbage heap) before = .ok s ∧
        makeRoom garbage fuel s chunk.length = .ok s' ∧ Room s' chunk.length := by
  have begins := holds_start garbage heap
  constructor
  · obtain ⟨s, ran, holds⟩ := begins.readChunks garbage ((Nat.zero_add _).trans_lt total) enough
    obtain ⟨size, ⟨b, tail, data, live, _⟩, _⟩ := holds
    refine ⟨s.output, s.heap, b, tail, ?_, size, data, live⟩
    rw [run, ran]
    rfl
  · rintro before chunk after rfl
    rw [List.flatten_append, List.flatten_cons, List.length_append, List.length_append] at total
    have front : before.flatten.length < 2 ^ 62 := by omega
    obtain ⟨s, ran, holds⟩ := begins.readChunks garbage ((Nat.zero_add _).trans_lt front) enough
    rw [List.nil_append] at holds
    have both : before.flatten.length + chunk.length < 2 ^ 62 := by omega
    obtain ⟨s', made, holds', room⟩ := holds.makeRoom garbage both enough
    obtain ⟨size, ⟨b, tail, data, live, parts⟩, _⟩ := holds'
    exact ⟨s, s', ran, made, b, _, data, live, by rw [List.length_append, parts], by rw [size]; exact room⟩

/-- A chunk that fills the first block, and one byte for which the capacity is doubled. -/
theorem run_collects_page : ∃ output heap' b tail,
    run (fun _ _ => 0) 64 .empty [List.replicate 4096 97, [10]] = .ok (output, heap') ∧ output.size = 4097 ∧
      output.data = some b ∧ heap'.block b = some (List.replicate 4096 97 ++ [10] ++ tail) := by
  have total : ([List.replicate 4096 97, [10]] : List (List (BitVec 8))).flatten.length = 4097 := by
    rw [List.flatten_cons, List.flatten_singleton, List.length_append, List.length_replicate, List.length_singleton]
  obtain ⟨output, heap', b, tail, ran, size, data, block⟩ :=
    (run_collects (fun _ _ => 0) .empty [List.replicate 4096 97, [10]] (by rw [total]; decide) le_rfl).1
  exact ⟨output, heap', b, tail, ran, size.trans total, data, block⟩

end Hseos.RunOutput
