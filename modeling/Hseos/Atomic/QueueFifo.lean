import Hseos.Atomic.OneToOneQueue

/-! # The queue refines a bounded byte FIFO

The abstract component is a list of bytes with a capacity; `AtomicQueue.contents` reads that list
out of the ring from the read offset to the write offset. Each call has one specification lemma against the
list; a run of calls that do not overlap then answers exactly as the list does, and no call of the
run reduces modulo zero or copies outside the buffer.
-/

namespace Hseos.Atomic

/-- A call of one of the two functions; a dequeue is given the caller's output buffer. -/
inductive Call where
  | enqueue (data : List UInt8)
  | dequeue (out : List UInt8) (size : ℕ)
deriving DecidableEq, Repr

/-- Sizes are `size_t` values, and an output buffer has room for what is asked for. -/
def Call.Valid (w : ℕ) : Call → Prop
  | .enqueue data => data.length < 2 ^ w
  | .dequeue out size => size < 2 ^ w ∧ size ≤ out.length

/-- What the caller sees: the result and its output buffer afterwards. -/
structure Answer where
  result : ℤ
  out : List UInt8
deriving DecidableEq, Repr

/-- The abstract byte FIFO of a given capacity. -/
def fifoCall (capacity : ℕ) (contents : List UInt8) : Call → Answer × List UInt8
  | .enqueue data =>
      if data.length = 0 ∨ contents.length + data.length ≤ capacity then
        (⟨0, []⟩, contents ++ data)
      else (⟨-1, []⟩, contents)
  | .dequeue out size =>
      if size = 0 ∨ size ≤ contents.length then
        (⟨0, contents.take size ++ out.drop size⟩, contents.drop size)
      else (⟨-1, out⟩, contents)

/-- The FIFO over a sequence of calls. -/
def fifoCalls (capacity : ℕ) : List UInt8 → List Call → List Answer × List UInt8
  | contents, [] => ([], contents)
  | contents, call :: rest =>
      let (answer, next) := fifoCall capacity contents call
      let (answers, last) := fifoCalls capacity next rest
      (answer :: answers, last)

namespace AtomicQueue

/-- One call of the queue. -/
def call (w : ℕ) (queue : AtomicQueue) : Call → Except Fault (Answer × AtomicQueue)
  | .enqueue data => do
      let (result, next) ← atomicQueueTryEnqueue w queue data
      return (⟨result, []⟩, next)
  | .dequeue out size => do
      let (result, next, out) ← atomicQueueTryDequeue w queue out size
      return (⟨result, out⟩, next)

/-- A sequence of calls made without overlap. -/
def calls (w : ℕ) : AtomicQueue → List Call → Except Fault (List Answer × AtomicQueue)
  | queue, [] => .ok ([], queue)
  | queue, head :: rest => do
      let (answer, next) ← queue.call w head
      let (answers, last) ← next.calls w rest
      return (answer :: answers, last)

/-- Bytes stored between the two offsets. -/
def used (queue : AtomicQueue) : ℕ := distance queue.memorySize queue.readOffset queue.writeOffset

/-- The bytes the ring holds cyclically from the read offset to the write offset. -/
def contents (queue : AtomicQueue) : List UInt8 :=
  cyclicSlice queue.queueMemory queue.memorySize queue.readOffset queue.used

/-- Both offsets lie in the ring; in an empty ring both are zero. -/
structure OffsetsValid (queue : AtomicQueue) : Prop where
  read : queue.readOffset < max 1 queue.memorySize
  write : queue.writeOffset < max 1 queue.memorySize

@[simp] theorem length_contents (queue : AtomicQueue) : queue.contents.length = queue.used :=
  length_cyclicSlice ..

theorem OffsetsValid.of_pos {queue : AtomicQueue} (valid : queue.OffsetsValid)
    (positive : 0 < queue.memorySize) :
    queue.readOffset < queue.memorySize ∧ queue.writeOffset < queue.memorySize := by
  obtain ⟨read, write⟩ := valid
  omega

/-- One cell always stays free, so the number of stored bytes is below the memory size. -/
theorem OffsetsValid.used_le {queue : AtomicQueue} (valid : queue.OffsetsValid) :
    queue.used ≤ queue.memorySize - 1 := by
  rcases Nat.eq_zero_or_pos queue.memorySize with empty | positive
  · have := valid.read
    have := valid.write
    simp only [used, distance, empty, Nat.mod_zero]
    omega
  · have := distance_lt (valid.of_pos positive).1 queue.writeOffset
    simp only [used]
    omega

end AtomicQueue

open AtomicQueue

variable {w : ℕ} {queue : AtomicQueue}

theorem memcpyTo_ok {offset : ℕ} {data : List UInt8}
    (inside : offset + data.length ≤ queue.memorySize) :
    queue.memcpyTo offset data =
      .ok { queue with queueMemory := writeCells queue.queueMemory offset data } :=
  if_pos inside

/-- A copy out of the ring is a slice. -/
theorem memcpyFrom_ok {offset size : ℕ} (inside : offset + size ≤ queue.memorySize) :
    queue.memcpyFrom offset size =
      .ok (cyclicSlice queue.queueMemory queue.memorySize offset size) := by
  rw [memcpyFrom, if_pos inside, cyclicSlice_contiguous _ inside]

/-- Both pieces of an accepted copy into the ring: the bytes stand behind the write offset and the
stored bytes stay. -/
theorem copied_cells {cells : ℕ → UInt8} {size start stop : ℕ} {data : List UInt8}
    (first : start < size) (last : stop < size)
    (room : distance size start stop + data.length < size) (wraps : size - stop ≤ data.length) :
    let after := writeCells (writeCells cells stop (data.take (size - stop))) 0 (data.drop (size - stop))
    (∀ i < distance size start stop, after ((start + i) % size) = cells ((start + i) % size)) ∧
      ∀ i (bound : i < data.length), after ((stop + i) % size) = data[i] := by
  intro after
  have right : (data.take (size - stop)).length = size - stop := List.length_take_of_le wraps
  have left : (data.drop (size - stop)).length = data.length - (size - stop) := List.length_drop ..
  refine ⟨fun i bound => ?_, fun i bound => ?_⟩
  · have outside : data.length - (size - stop) ≤ (start + i) % size ∧ (start + i) % size < stop := by
      rcases distance_cases first last with ⟨_, equal⟩ | ⟨_, equal⟩ <;>
        rcases add_mod_cases first (by omega : i < size) with ⟨_, moved⟩ | ⟨_, moved⟩ <;> omega
    simp only [after]
    rw [writeCells_outside _ (.inr (by omega)), writeCells_outside _ (.inl outside.2)]
  · rcases add_mod_cases last (by omega : i < size) with ⟨inside, moved⟩ | ⟨crossed, moved⟩
    · simp only [after]
      rw [moved, writeCells_outside _ (.inr (by omega)), writeCells_inside _ (by omega),
        List.getElem_take]
    · simp only [after]
      rw [moved, show stop + i - size = 0 + (i - (size - stop)) by omega,
        writeCells_inside _ (by omega), List.getElem_drop]
      congr 1
      omega

theorem copied_cells_inside {cells : ℕ → UInt8} {size start stop : ℕ} {data : List UInt8}
    (first : start < size) (last : stop < size)
    (room : distance size start stop + data.length < size) (fits : stop + data.length < size) :
    let after := writeCells cells stop data
    (∀ i < distance size start stop, after ((start + i) % size) = cells ((start + i) % size)) ∧
      ∀ i (bound : i < data.length), after ((stop + i) % size) = data[i] := by
  intro after
  refine ⟨fun i bound => ?_, fun i bound => ?_⟩
  · have outside : (start + i) % size < stop ∨ stop + data.length ≤ (start + i) % size := by
      rcases distance_cases first last with ⟨_, equal⟩ | ⟨_, equal⟩ <;>
        rcases add_mod_cases first (by omega : i < size) with ⟨_, moved⟩ | ⟨_, moved⟩ <;> omega
    exact writeCells_outside _ outside
  · simp only [after]
    rw [Nat.mod_eq_of_lt (by omega), writeCells_inside _ bound]

/-- The ring with these bytes behind those it holds. -/
structure Appended (queue next : AtomicQueue) (data : List UInt8) : Prop where
  size : next.memorySize = queue.memorySize
  read : next.readOffset = queue.readOffset
  write : next.writeOffset = (queue.writeOffset + data.length) % queue.memorySize
  valid : next.OffsetsValid
  contents : next.contents = queue.contents ++ data

/-- A ring whose cells behind the write offset hold `data` and whose stored cells are kept has
`data` appended once the write offset moves over it. -/
theorem Appended.of_cells {next : AtomicQueue} {data : List UInt8} (valid : queue.OffsetsValid)
    (room : queue.used + data.length < queue.memorySize)
    (size : next.memorySize = queue.memorySize) (read : next.readOffset = queue.readOffset)
    (write : next.writeOffset = (queue.writeOffset + data.length) % queue.memorySize)
    (cells : (∀ i < queue.used, next.queueMemory ((queue.readOffset + i) % queue.memorySize) =
        queue.queueMemory ((queue.readOffset + i) % queue.memorySize)) ∧
      ∀ i (bound : i < data.length),
        next.queueMemory ((queue.writeOffset + i) % queue.memorySize) = data[i]) :
    Appended queue next data := by
  obtain ⟨first, last⟩ := valid.of_pos (by omega)
  have below : next.writeOffset < queue.memorySize := write ▸ Nat.mod_lt _ (by omega)
  have longer : next.used = queue.used + data.length := by
    rw [used, size, read, write, distance_advance first last room, used]
  refine ⟨size, read, write, ⟨by omega, by omega⟩, ?_⟩
  rw [AtomicQueue.contents, longer, size, read]
  exact cyclicSlice_extend (add_distance first last) cells.1 cells.2

/-- The copy of an enqueue that fits appends its bytes. -/
theorem enqueueCopy_spec (word : queue.memorySize < 2 ^ w) (valid : queue.OffsetsValid)
    (data : List UInt8) (room : queue.used + data.length < queue.memorySize) :
    ∃ next, enqueueCopy w queue queue.writeOffset data = .ok next ∧ Appended queue next data := by
  obtain ⟨first, last⟩ := valid.of_pos (by omega)
  have right : wordSub w queue.memorySize queue.writeOffset = queue.memorySize - queue.writeOffset :=
    wordSub_of_le (by omega) (by omega)
  simp only [enqueueCopy, right]
  by_cases wraps : data.length ≥ queue.memorySize - queue.writeOffset
  · have rest : wordSub w data.length (queue.memorySize - queue.writeOffset) =
        data.length - (queue.memorySize - queue.writeOffset) := wordSub_of_le (by omega) (by omega)
    have offset : wordAdd w 0 (data.length - (queue.memorySize - queue.writeOffset)) =
        data.length - (queue.memorySize - queue.writeOffset) :=
      (wordAdd_of_lt (by omega)).trans (Nat.zero_add _)
    have moved : data.length - (queue.memorySize - queue.writeOffset) =
        (queue.writeOffset + data.length) % queue.memorySize := by
      rcases add_mod_cases last (by omega : data.length < queue.memorySize) with
        ⟨_, moved⟩ | ⟨_, moved⟩ <;> omega
    rw [if_pos wraps, rest, offset,
      memcpyTo_ok (by rw [List.length_take]; omega), ok_bind,
      memcpyTo_ok (by rw [List.length_drop]; dsimp only; omega), ok_bind]
    exact ⟨_, rfl, .of_cells valid room rfl rfl moved (copied_cells first last room wraps)⟩
  · have offset : wordAdd w queue.writeOffset data.length = queue.writeOffset + data.length :=
      wordAdd_of_lt (by omega)
    have moved : queue.writeOffset + data.length =
        (queue.writeOffset + data.length) % queue.memorySize := (Nat.mod_eq_of_lt (by omega)).symm
    rw [if_neg wraps, offset, memcpyTo_ok (by omega), ok_bind]
    exact ⟨_, rfl, .of_cells valid room rfl rfl moved
      (copied_cells_inside first last room (by omega))⟩

/-- Exactly the calls whose bytes fit into the free cells are accepted. -/
theorem tryEnqueue_spec (fits : 2 * queue.memorySize ≤ 2 ^ w) (valid : queue.OffsetsValid)
    (data : List UInt8) :
    if data.length = 0 ∨ queue.used + data.length ≤ queue.memorySize - 1 then
      ∃ next, atomicQueueTryEnqueue w queue data = .ok (0, next) ∧
        next.memorySize = queue.memorySize ∧ next.OffsetsValid ∧ next.contents = queue.contents ++ data
    else atomicQueueTryEnqueue w queue data = .ok (-1, queue) := by
  unfold atomicQueueTryEnqueue
  rcases Nat.lt_or_ge queue.memorySize data.length with large | small
  · rw [if_neg (by omega), if_pos large]
  rw [if_neg (show ¬data.length > queue.memorySize by omega)]
  rcases Nat.eq_zero_or_pos data.length with empty | nonempty
  · rw [if_pos (.inl empty), if_pos empty]
    have nothing : data = [] := List.length_eq_zero_iff.mp empty
    exact ⟨queue, rfl, rfl, valid, by rw [nothing, List.append_nil]⟩
  obtain ⟨first, last⟩ := valid.of_pos (by omega)
  have short := valid.used_le
  rw [if_neg (show ¬data.length = 0 by omega), freeSpace_eq fits first last, ok_bind]
  change if _ ∨ _ then _ else (if data.length > queue.memorySize - 1 - queue.used then _ else _) = _
  rcases Nat.lt_or_ge (queue.memorySize - 1 - queue.used) data.length with full | room
  · rw [if_neg (by omega), if_pos full]
    rfl
  · rw [if_pos (by omega)]
    have word : queue.memorySize < 2 ^ w := by omega
    obtain ⟨next, copied, appended⟩ := enqueueCopy_spec word valid data (by omega)
    refine ⟨next, ?_, appended.size, appended.valid, appended.contents⟩
    change (if data.length > queue.memorySize - 1 - queue.used then _ else _) = _
    rw [if_neg (by omega), copied]
    rfl

/-- The ring without the first bytes it holds. -/
structure Dropped (queue next : AtomicQueue) (count : ℕ) : Prop where
  size : next.memorySize = queue.memorySize
  read : next.readOffset = (queue.readOffset + count) % queue.memorySize
  write : next.writeOffset = queue.writeOffset
  valid : next.OffsetsValid
  contents : next.contents = queue.contents.drop count

/-- A ring whose read offset moved over stored bytes has lost exactly these bytes. -/
theorem Dropped.of_cells {next : AtomicQueue} {size : ℕ} (valid : queue.OffsetsValid)
    (within : size ≤ queue.used) (positive : 0 < queue.memorySize)
    (same : next.memorySize = queue.memorySize) (write : next.writeOffset = queue.writeOffset)
    (read : next.readOffset = (queue.readOffset + size) % queue.memorySize)
    (cells : next.queueMemory = queue.queueMemory) : Dropped queue next size := by
  obtain ⟨first, last⟩ := valid.of_pos positive
  have below : next.readOffset < queue.memorySize := read ▸ Nat.mod_lt _ positive
  have shorter : next.used = queue.used - size := by
    rw [used, same, read, write, distance_release first last within, used]
  refine ⟨same, read, write, ⟨by omega, by omega⟩, ?_⟩
  rw [AtomicQueue.contents, shorter, same, read, cells, AtomicQueue.contents,
    drop_cyclicSlice _ _ _ within]

/-- The copy of a dequeue that asks for stored bytes delivers and removes the first of them. -/
theorem dequeueCopy_spec (word : queue.memorySize < 2 ^ w) (valid : queue.OffsetsValid)
    {size : ℕ} (within : size ≤ queue.used) (nonempty : 0 < size) (data : List UInt8) :
    ∃ next, dequeueCopy w queue data queue.readOffset size =
        .ok (next, queue.contents.take size ++ data.drop size) ∧ Dropped queue next size := by
  have short := valid.used_le
  have positive : 0 < queue.memorySize := by omega
  obtain ⟨first, last⟩ := valid.of_pos positive
  have right : wordSub w queue.memorySize queue.readOffset = queue.memorySize - queue.readOffset :=
    wordSub_of_le (by omega) (by omega)
  simp only [dequeueCopy, right]
  rw [AtomicQueue.contents, take_cyclicSlice _ _ _ within]
  by_cases wraps : size ≥ queue.memorySize - queue.readOffset
  · have rest : wordSub w size (queue.memorySize - queue.readOffset) =
        size - (queue.memorySize - queue.readOffset) := wordSub_of_le (by omega) (by omega)
    have offset : wordAdd w 0 (size - (queue.memorySize - queue.readOffset)) =
        size - (queue.memorySize - queue.readOffset) :=
      (wordAdd_of_lt (by omega)).trans (Nat.zero_add _)
    have moved : size - (queue.memorySize - queue.readOffset) =
        (queue.readOffset + size) % queue.memorySize := by
      rcases add_mod_cases first (by omega : size < queue.memorySize) with
        ⟨_, moved⟩ | ⟨_, moved⟩ <;> omega
    have joined : cyclicSlice queue.queueMemory queue.memorySize queue.readOffset size =
        cyclicSlice queue.queueMemory queue.memorySize queue.readOffset
            (queue.memorySize - queue.readOffset) ++
          cyclicSlice queue.queueMemory queue.memorySize 0
            (size - (queue.memorySize - queue.readOffset)) := by
      have around : (queue.readOffset + (queue.memorySize - queue.readOffset)) % queue.memorySize = 0 := by
        rw [show queue.readOffset + (queue.memorySize - queue.readOffset) = queue.memorySize by omega,
          Nat.mod_self]
      rw [← around, ← cyclicSlice_add]
      congr 1
      omega
    rw [if_pos wraps, rest, offset, memcpyFrom_ok (by omega), ok_bind, memcpyFrom_ok (by omega),
      ok_bind, joined]
    exact ⟨_, rfl, .of_cells valid within positive rfl rfl moved rfl⟩
  · have offset : wordAdd w queue.readOffset size = queue.readOffset + size := wordAdd_of_lt (by omega)
    have moved : queue.readOffset + size = (queue.readOffset + size) % queue.memorySize :=
      (Nat.mod_eq_of_lt (by omega)).symm
    rw [if_neg wraps, offset, memcpyFrom_ok (by omega), ok_bind]
    exact ⟨_, rfl, .of_cells valid within positive rfl rfl moved rfl⟩

/-- Exactly the calls that ask for at most the stored bytes are accepted. -/
theorem tryDequeue_spec (fits : 2 * queue.memorySize ≤ 2 ^ w) (valid : queue.OffsetsValid)
    (data : List UInt8) (size : ℕ) :
    if size = 0 ∨ size ≤ queue.used then
      ∃ next, atomicQueueTryDequeue w queue data size =
          .ok (0, next, queue.contents.take size ++ data.drop size) ∧
        next.memorySize = queue.memorySize ∧ next.OffsetsValid ∧
        next.contents = queue.contents.drop size
    else atomicQueueTryDequeue w queue data size = .ok (-1, queue, data) := by
  unfold atomicQueueTryDequeue
  have short := valid.used_le
  rcases Nat.lt_or_ge queue.memorySize size with large | small
  · rw [if_neg (by omega), if_pos large]
  rw [if_neg (show ¬size > queue.memorySize by omega)]
  rcases Nat.eq_zero_or_pos size with empty | nonempty
  · subst size
    rw [if_pos (.inl rfl), if_pos rfl]
    exact ⟨queue, rfl, rfl, valid, rfl⟩
  obtain ⟨first, last⟩ := valid.of_pos (by omega)
  rw [if_neg (show ¬size = 0 by omega), availableData_eq fits first last, ok_bind]
  change if _ ∨ _ then _ else (if size > queue.used then _ else _) = _
  rcases Nat.lt_or_ge queue.used size with lacking | within
  · rw [if_neg (by omega), if_pos lacking]
    rfl
  · rw [if_pos (.inr within)]
    have word : queue.memorySize < 2 ^ w := by omega
    obtain ⟨next, copied, dropped⟩ := dequeueCopy_spec word valid within nonempty data
    refine ⟨next, ?_, dropped.size, dropped.valid, dropped.contents⟩
    change (if size > queue.used then _ else _) = _
    rw [if_neg (by omega), copied]
    rfl

/-- One call answers as the FIFO does and leaves its contents in the ring; a refused call changes
nothing. -/
theorem call_refines (fits : 2 * queue.memorySize ≤ 2 ^ w) (valid : queue.OffsetsValid) (call : Call) :
    ∃ answer next, queue.call w call = .ok (answer, next) ∧
      fifoCall (queue.memorySize - 1) queue.contents call = (answer, next.contents) ∧
      next.memorySize = queue.memorySize ∧ next.OffsetsValid ∧
      (answer.result = -1 → next = queue ∧ ∀ out size, call = .dequeue out size → answer.out = out) := by
  cases call with
  | enqueue data =>
    have spec := tryEnqueue_spec fits valid data
    simp only [fifoCall, length_contents, AtomicQueue.call]
    split_ifs at spec ⊢ with accepted
    · obtain ⟨next, called, size, offsets, appended⟩ := spec
      exact ⟨⟨0, []⟩, next, by rw [called]; rfl, by rw [appended], size, offsets, by simp⟩
    · exact ⟨⟨-1, []⟩, queue, by rw [spec]; rfl, rfl, rfl, valid, fun _ => ⟨rfl, by simp⟩⟩
  | dequeue out size =>
    have spec := tryDequeue_spec fits valid out size
    simp only [fifoCall, length_contents, AtomicQueue.call]
    split_ifs at spec ⊢ with accepted
    · obtain ⟨next, called, same, offsets, dropped⟩ := spec
      exact ⟨⟨0, _⟩, next, by rw [called]; rfl, by rw [dropped], same, offsets, by simp⟩
    · refine ⟨⟨-1, out⟩, queue, by rw [spec]; rfl, rfl, rfl, valid, fun _ => ⟨rfl, ?_⟩⟩
      rintro _ _ ⟨rfl, rfl⟩
      rfl

/-- A run of calls answers as the FIFO does. -/
theorem calls_refine (fits : 2 * queue.memorySize ≤ 2 ^ w) (valid : queue.OffsetsValid)
    (sequence : List Call) :
    ∃ answers last, queue.calls w sequence = .ok (answers, last) ∧
      fifoCalls (queue.memorySize - 1) queue.contents sequence = (answers, last.contents) ∧
      last.memorySize = queue.memorySize ∧ last.OffsetsValid := by
  induction sequence generalizing queue with
  | nil => exact ⟨[], queue, rfl, rfl, rfl, valid⟩
  | cons head rest ih =>
    obtain ⟨answer, next, called, abstract, size, offsets, _⟩ := call_refines fits valid head
    obtain ⟨answers, last, ran, fifo, same, final⟩ := ih (size ▸ fits) offsets
    refine ⟨answer :: answers, last, ?_, ?_, same.trans size, final⟩
    · rw [calls, called, ok_bind]
      dsimp only
      rw [ran]
      rfl
    · rw [fifoCalls, abstract]
      dsimp only
      rw [← size, fifo]

theorem init_contents {buffer : ℕ → UInt8} {bufferSize : ℕ}
    (init : atomicQueueInit buffer bufferSize = some queue) :
    queue.memorySize = bufferSize - sizeofAtomicQueue ∧ queue.OffsetsValid ∧ queue.contents = [] := by
  simp only [atomicQueueInit] at init
  split_ifs at init
  cases init
  refine ⟨rfl, ⟨?_, ?_⟩, ?_⟩
  · simp
  · simp
  · simp [contents, used, distance]

/-- The queue in any accepted buffer answers every sequence of calls as a byte FIFO of one byte less
than its memory size does, without a fault; a refused call leaves everything as it was. -/
theorem queue_refines_fifo (buffer : ℕ → UInt8) (bufferSize : ℕ)
    (accepted : sizeofAtomicQueue ≤ bufferSize) (small : bufferSize - sizeofAtomicQueue ≤ 2 ^ 63) :
    ∃ queue, atomicQueueInit buffer bufferSize = some queue ∧
      queue.memorySize = bufferSize - sizeofAtomicQueue ∧
      ∀ sequence : List Call, (∀ call ∈ sequence, call.Valid sizeBits) →
        ∃ answers last, queue.calls sizeBits sequence = .ok (answers, last) ∧
          fifoCalls (queue.memorySize - 1) [] sequence = (answers, last.contents) ∧
          (0 < queue.memorySize →
            last.readOffset < queue.memorySize ∧ last.writeOffset < queue.memorySize) ∧
          ∀ call : Call, call.Valid sizeBits →
            ∃ answer next, last.call sizeBits call = .ok (answer, next) ∧
              fifoCall (queue.memorySize - 1) last.contents call = (answer, next.contents) ∧
              (answer.result = -1 → next = last ∧
                ∀ out size, call = .dequeue out size → answer.out = out) := by
  obtain ⟨queue, init⟩ : ∃ queue, atomicQueueInit buffer bufferSize = some queue :=
    ⟨_, if_neg (by omega)⟩
  obtain ⟨size, valid, empty⟩ := init_contents init
  have fits : 2 * queue.memorySize ≤ 2 ^ sizeBits := by rw [sizeBits]; omega
  refine ⟨queue, init, size, fun sequence _ => ?_⟩
  obtain ⟨answers, last, ran, fifo, same, offsets⟩ := calls_refine fits valid sequence
  refine ⟨answers, last, ran, empty ▸ fifo, fun positive => ?_, fun call _ => ?_⟩
  · rw [← same]
    exact offsets.of_pos (by omega)
  · obtain ⟨answer, next, called, abstract, _, _, unchanged⟩ :=
      call_refines (same ▸ fits) offsets call
    exact ⟨answer, next, called, same ▸ abstract, unchanged⟩

/-- A ring of four bytes refuses a fourth byte and gives back the first two of three. -/
theorem queue_refines_fifo_four_bytes :
    ∃ queue, atomicQueueInit (fun _ => 0) 28 = some queue ∧
      ∃ last, queue.calls sizeBits [.enqueue [1, 2, 3], .enqueue [4], .dequeue [0, 0] 2] =
        .ok ([⟨0, []⟩, ⟨-1, []⟩, ⟨0, [1, 2]⟩], last) ∧ last.contents = [3] := by
  obtain ⟨queue, init, _, runs⟩ := queue_refines_fifo (fun _ => 0) 28 (by decide) (by decide)
  obtain ⟨answers, last, ran, fifo, _⟩ := runs [.enqueue [1, 2, 3], .enqueue [4], .dequeue [0, 0] 2]
    (by simp [Call.Valid, sizeBits])
  cases init
  obtain ⟨rfl, held⟩ := Prod.mk.inj fifo
  exact ⟨_, rfl, last, ran, held.symm⟩

end Hseos.Atomic
