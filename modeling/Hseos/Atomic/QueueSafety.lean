import Hseos.Atomic.QueueInterleaving

/-! # Safety of every interleaving of the queue

The invariant ties each side's locals to the shared memory: an accepted enqueue fits into the free
cells and has written a prefix of its data behind the write offset, an accepted dequeue asks for
stored bytes and has copied a prefix of them. A step of one side can only help the other: a release
store of the consumer frees cells, and one of the producer lengthens the contents.
-/

namespace Hseos.Atomic

open AtomicQueue

/-- A copy of `call` behind the write offset that has written its first `done` bytes. -/
structure Copying (queue : AtomicQueue) (call : List UInt8) (done : ℕ) : Prop where
  room : queue.used + call.length < queue.memorySize
  written : ∀ i (bound : i < call.length), i < done →
    queue.queueMemory ((queue.writeOffset + i) % queue.memorySize) = call[i]

/-- What the producer's locals have to do with the shared memory. -/
def ProducerInv (queue : AtomicQueue) : Producer → Prop
  | .idle => True
  | .entered call => 0 < call.length ∧ call.length ≤ queue.memorySize
  | .loadRead call wOff =>
      0 < call.length ∧ call.length ≤ queue.memorySize ∧ wOff = queue.writeOffset
  | .copyRight call wOff rightFree i =>
      wOff = queue.writeOffset ∧ rightFree = queue.memorySize - wOff ∧ i ≤ rightFree ∧
        rightFree ≤ call.length ∧ Copying queue call i
  | .copyRest call wOff data i =>
      i ≤ data.length ∧ data = call.drop (call.length - data.length) ∧
        (queue.writeOffset + (call.length - data.length)) % queue.memorySize = wOff ∧
        wOff + data.length < queue.memorySize ∧ Copying queue call (call.length - data.length + i)
  | .fault _ => False

/-- What the consumer's locals have to do with the shared memory: it has copied a prefix of the
stored bytes, and asked for no more than are stored. -/
def ConsumerInv (queue : AtomicQueue) : Consumer → Prop
  | .idle => True
  | .entered size => 0 < size ∧ size ≤ queue.memorySize
  | .readOwn size wOff =>
      0 < size ∧ size ≤ queue.memorySize ∧ wOff < queue.memorySize ∧
        distance queue.memorySize queue.readOffset wOff ≤ queue.used
  | .copyRight size rOff rightFree out =>
      0 < size ∧ rOff = queue.readOffset ∧ rightFree = queue.memorySize - rOff ∧ out.length ≤ rightFree ∧
        rightFree ≤ size ∧ size ≤ queue.used ∧ out = queue.contents.take out.length
  | .copyRest size rOff rest i out =>
      i ≤ rest ∧ rest ≤ size ∧ out.length = size - rest + i ∧
        (queue.readOffset + (size - rest)) % queue.memorySize = rOff ∧
        rOff + rest < queue.memorySize ∧ size ≤ queue.used ∧ out = queue.contents.take out.length
  | .fault _ => False

/-- The invariant of every interleaving. -/
structure QueueInv (size : ℕ) (s : QueueState) : Prop where
  memorySize : s.queue.memorySize = size
  offsets : s.queue.OffsetsValid
  history : s.published = s.delivered ++ s.queue.contents
  producer : ProducerInv s.queue s.producer
  consumer : ConsumerInv s.queue s.consumer

variable {w : ℕ} {queue next : AtomicQueue}

theorem suffix_length {call data : List UInt8} (part : data = call.drop (call.length - data.length)) :
    data.length ≤ call.length := by
  have length := congrArg List.length part
  rw [List.length_drop] at length
  omega

/-- The cells behind the write offset, as far as there is room, are not stored cells. -/
theorem free_cell (valid : queue.OffsetsValid) {length done i : ℕ}
    (room : queue.used + length < queue.memorySize) (more : done < length) (stored : i < queue.used) :
    (queue.readOffset + i) % queue.memorySize ≠ (queue.writeOffset + done) % queue.memorySize := by
  obtain ⟨first, last⟩ := valid.of_pos (by omega)
  rw [← add_distance first last, Nat.mod_add_mod, Nat.add_assoc]
  intro same
  have := cyclic_injective (by omega) (by rw [← used]; omega) same
  rw [← used] at this
  omega

/-- Writing the next byte of a copy keeps the stored bytes and extends the written prefix. -/
theorem Copying.writeByte (valid : queue.OffsetsValid) {call : List UInt8} {done : ℕ}
    (copying : Copying queue call done) (more : done < call.length)
    (size : next.memorySize = queue.memorySize) (read : next.readOffset = queue.readOffset)
    (write : next.writeOffset = queue.writeOffset)
    (memory : next.queueMemory = Function.update queue.queueMemory
      ((queue.writeOffset + done) % queue.memorySize) call[done]) :
    Copying next call (done + 1) ∧ next.contents = queue.contents := by
  have same : next.used = queue.used := by rw [used, used, size, read, write]
  have room := copying.room
  refine ⟨⟨by omega, fun i bound before => ?_⟩, ?_⟩
  · rw [write, size, memory]
    by_cases current : i = done
    · subst current
      rw [Function.update_self]
    · have other : (queue.writeOffset + i) % queue.memorySize ≠
          (queue.writeOffset + done) % queue.memorySize :=
        fun equal => current (cyclic_injective (by omega) (by omega) equal)
      rw [Function.update_of_ne other]
      exact copying.written i bound (by omega)
  · rw [contents, contents, same, size, read, memory]
    exact cyclicSlice_congr fun i stored =>
      Function.update_of_ne (free_cell valid room more stored) ..

/-- The consumer's invariant survives whatever keeps the read offset and the stored bytes. -/
theorem ConsumerInv.mono {c : Consumer} (inv : ConsumerInv queue c)
    (size : next.memorySize = queue.memorySize) (read : next.readOffset = queue.readOffset)
    (grown : queue.contents <+: next.contents) : ConsumerInv next c := by
  have longer : queue.used ≤ next.used := by simpa only [length_contents] using grown.length_le
  have kept {n : ℕ} (within : n ≤ queue.used) : next.contents.take n = queue.contents.take n := by
    obtain ⟨rest, equal⟩ := grown
    rw [← equal, List.take_append_of_le_length (by rwa [length_contents])]
  cases c with
  | idle => trivial
  | entered => simpa only [ConsumerInv, size] using inv
  | readOwn wanted wOff =>
    obtain ⟨positive, small, below, stored⟩ := inv
    exact ⟨positive, by omega, by omega, by rw [size, read]; omega⟩
  | copyRight wanted rOff rightFree out =>
    obtain ⟨nonempty, offset, right, copied, wraps, stored, taken⟩ := inv
    exact ⟨nonempty, by omega, by omega, copied, wraps, by omega, by rwa [kept (by omega)]⟩
  | copyRest wanted rOff rest i out =>
    obtain ⟨copied, part, length, offset, inside, stored, taken⟩ := inv
    exact ⟨copied, part, length, by rw [read, size, offset], by omega, by omega,
      by rwa [kept (by omega)]⟩
  | fault => exact inv

theorem Copying.mono {call : List UInt8} {done : ℕ} (copying : Copying queue call done)
    (size : next.memorySize = queue.memorySize) (write : next.writeOffset = queue.writeOffset)
    (memory : next.queueMemory = queue.queueMemory) (released : next.used ≤ queue.used) :
    Copying next call done := by
  have room := copying.room
  refine ⟨by omega, fun i bound before => ?_⟩
  rw [write, size, memory]
  exact copying.written i bound before

/-- The producer's invariant survives whatever keeps the cells and frees some of them. -/
theorem ProducerInv.mono {p : Producer} (inv : ProducerInv queue p)
    (size : next.memorySize = queue.memorySize) (write : next.writeOffset = queue.writeOffset)
    (memory : next.queueMemory = queue.queueMemory) (released : next.used ≤ queue.used) :
    ProducerInv next p := by
  cases p with
  | idle => trivial
  | entered => simpa only [ProducerInv, size] using inv
  | loadRead => simpa only [ProducerInv, size, write] using inv
  | copyRight call wOff rightFree i =>
    obtain ⟨offset, right, copied, wraps, copying⟩ := inv
    exact ⟨by omega, by omega, copied, wraps, copying.mono size write memory released⟩
  | copyRest call wOff data i =>
    obtain ⟨copied, part, offset, inside, copying⟩ := inv
    exact ⟨copied, part, by rw [write, size, offset], by omega,
      copying.mono size write memory released⟩
  | fault => exact inv

variable {size : ℕ} {s s' : QueueState}

/-- A producer that moves without touching the queue only has to establish its own invariant. -/
theorem QueueInv.producerLocal (inv : QueueInv size s) {p : Producer} (own : ProducerInv s.queue p) :
    QueueInv size { s with producer := p } :=
  ⟨inv.memorySize, inv.offsets, inv.history, own, inv.consumer⟩

theorem QueueInv.consumerLocal (inv : QueueInv size s) {c : Consumer} (own : ConsumerInv s.queue c) :
    QueueInv size { s with consumer := c } :=
  ⟨inv.memorySize, inv.offsets, inv.history, inv.producer, own⟩

/-- The byte of an in-flight enqueue lands in its own free cell, and the consumer sees nothing. -/
theorem QueueInv.writeByte (inv : QueueInv size s) {call : List UInt8} {done offset : ℕ}
    (copying : Copying s.queue call done) (more : done < call.length) {byte : Option UInt8}
    (own : byte = some call[done])
    (cell : (s.queue.writeOffset + done) % s.queue.memorySize = offset) {p : Producer}
    (advanced : ∀ queue : AtomicQueue, queue.memorySize = s.queue.memorySize →
      queue.writeOffset = s.queue.writeOffset → Copying queue call (done + 1) → ProducerInv queue p) :
    QueueInv size (s.writeByte offset byte p) := by
  have room := copying.room
  have inside : offset < s.queue.memorySize := cell ▸ Nat.mod_lt _ (by omega)
  subst own
  rw [QueueState.writeByte, if_pos inside]
  subst cell
  let queue : AtomicQueue :=
    { s.queue with
      queueMemory := Function.update s.queue.queueMemory
        ((s.queue.writeOffset + done) % s.queue.memorySize) call[done] }
  obtain ⟨longer, same⟩ : Copying queue call (done + 1) ∧ queue.contents = s.queue.contents :=
    copying.writeByte inv.offsets more rfl rfl rfl rfl
  exact ⟨inv.memorySize, ⟨inv.offsets.read, inv.offsets.write⟩, by rw [inv.history, same],
    advanced _ rfl rfl longer, inv.consumer.mono rfl rfl (same ▸ List.prefix_rfl)⟩

/-- The release store of an enqueue publishes its data behind the stored bytes. -/
theorem QueueInv.publish (inv : QueueInv size s) {call : List UInt8}
    (copying : Copying s.queue call call.length) {offset : ℕ}
    (moved : offset = (s.queue.writeOffset + call.length) % s.queue.memorySize) :
    QueueInv size { s with
      queue.writeOffset := offset, producer := .idle, published := s.published ++ call } := by
  let queue : AtomicQueue := { s.queue with writeOffset := offset }
  obtain ⟨_, _, _, offsets, appended⟩ : Appended s.queue queue call :=
    .of_cells inv.offsets copying.room rfl rfl moved
      ⟨fun _ _ => rfl, fun i bound => copying.written i bound bound⟩
  refine ⟨inv.memorySize, offsets, ?_, trivial, inv.consumer.mono rfl rfl ?_⟩
  · rw [inv.history, appended, List.append_assoc]
  · exact appended ▸ List.prefix_append ..

theorem producerStep_inv (fits : 2 * size ≤ 2 ^ w) (inv : QueueInv size s)
    (moved : s.producerStep w = some s') : QueueInv size s' := by
  have same := inv.memorySize
  have started := inv.producer
  unfold QueueState.producerStep at moved
  cases at_ : s.producer with
  | idle | fault => simp only [at_, reduceCtorEq] at moved
  | entered call =>
    simp only [at_, Option.some.injEq] at moved started
    subst moved
    exact inv.producerLocal ⟨started.1, started.2, rfl⟩
  | loadRead call wOff =>
    simp only [at_] at moved started
    obtain ⟨nonempty, small, rfl⟩ := started
    obtain ⟨first, last⟩ := inv.offsets.of_pos (by omega)
    have right : wordSub w s.queue.memorySize s.queue.writeOffset =
        s.queue.memorySize - s.queue.writeOffset := wordSub_of_le (by omega) (by omega)
    rw [freeSpace_eq (by omega) first last, right] at moved
    have short := inv.offsets.used_le
    dsimp only at moved
    rw [← used] at moved
    split_ifs at moved with full wraps <;> cases moved
    · exact inv.producerLocal trivial
    · exact inv.producerLocal ⟨rfl, rfl, Nat.zero_le _, wraps, by omega, fun _ _ before => by omega⟩
    · refine inv.producerLocal ⟨Nat.zero_le _, ?_, ?_, by omega, by omega, fun _ _ before => by omega⟩
      · rw [Nat.sub_self, List.drop_zero]
      · rw [Nat.sub_self, Nat.add_zero, Nat.mod_eq_of_lt last]
  | copyRight call wOff rightFree i =>
    simp only [at_] at moved started
    obtain ⟨rfl, right, copied, wraps, copying⟩ := started
    have room := copying.room
    obtain ⟨first, last⟩ := inv.offsets.of_pos (by omega)
    split_ifs at moved with more <;> cases moved
    · apply inv.writeByte copying (by omega) (List.getElem?_eq_getElem (by omega))
        (Nat.mod_eq_of_lt (by omega))
      intro queue size write longer
      exact ⟨write.symm, by omega, more, wraps, longer⟩
    · have part : call.length - (call.drop rightFree).length = rightFree := by
        rw [List.length_drop]
        omega
      refine inv.producerLocal ⟨Nat.zero_le _, by rw [part], ?_, by rw [List.length_drop]; omega, ?_⟩
      · rw [part, show s.queue.writeOffset + rightFree = s.queue.memorySize by omega, Nat.mod_self]
      · rw [part, Nat.add_zero, show rightFree = i by omega]
        exact copying
  | copyRest call wOff data i =>
    simp only [at_] at moved started
    obtain ⟨copied, part, offset, inside, copying⟩ := started
    have room := copying.room
    have shorter := suffix_length part
    split_ifs at moved with more <;> cases moved
    · apply inv.writeByte copying (by omega)
      · rw [← List.getElem?_eq_getElem (by omega), part, List.getElem?_drop, ← part]
      · rw [← Nat.add_assoc, ← Nat.mod_add_mod, offset, Nat.mod_eq_of_lt (by omega)]
      · intro queue size write longer
        exact ⟨more, part, by rw [write, size, offset], by omega, by rwa [← Nat.add_assoc]⟩
    · have whole : i = data.length := by omega
      apply inv.publish
      · rwa [whole, Nat.sub_add_cancel shorter] at copying
      · rw [wordAdd_of_lt (by omega), ← Nat.mod_eq_of_lt inside, ← offset, Nat.mod_add_mod,
          Nat.add_assoc, Nat.sub_add_cancel shorter]

/-- The byte of an in-flight dequeue is the next of the stored bytes. -/
theorem QueueInv.readByte (inv : QueueInv size s) {out : List UInt8} {offset : ℕ}
    (copied : out = s.queue.contents.take out.length) (more : out.length < s.queue.used)
    (cell : (s.queue.readOffset + out.length) % s.queue.memorySize = offset) {c : UInt8 → Consumer}
    (advanced : ∀ byte, out ++ [byte] = s.queue.contents.take (out.length + 1) →
      ConsumerInv s.queue (c byte)) :
    QueueInv size (s.readByte offset c) := by
  have short := inv.offsets.used_le
  have inside : offset < s.queue.memorySize := cell ▸ Nat.mod_lt _ (by omega)
  rw [QueueState.readByte, if_pos inside]
  refine inv.consumerLocal (advanced _ ?_)
  rw [contents, take_cyclicSlice _ _ _ more.le] at copied
  rw [contents, take_cyclicSlice _ _ _ more, cyclicSlice_succ, ← copied, cell]

/-- The release store of a dequeue removes exactly the bytes it has delivered. -/
theorem QueueInv.release (inv : QueueInv size s) {out : List UInt8} {offset : ℕ}
    (copied : out = s.queue.contents.take out.length) (within : out.length ≤ s.queue.used)
    (positive : 0 < s.queue.memorySize)
    (moved : offset = (s.queue.readOffset + out.length) % s.queue.memorySize) :
    QueueInv size { s with
      queue.readOffset := offset, consumer := .idle, delivered := s.delivered ++ out } := by
  let queue : AtomicQueue := { s.queue with readOffset := offset }
  obtain ⟨_, _, _, offsets, dropped⟩ : Dropped s.queue queue out.length :=
    .of_cells inv.offsets within positive rfl rfl moved rfl
  have fewer : queue.used ≤ s.queue.used := by
    rw [← length_contents, dropped, List.length_drop, length_contents]
    exact Nat.sub_le ..
  refine ⟨inv.memorySize, offsets, ?_, inv.producer.mono rfl rfl rfl fewer, trivial⟩
  have parts : s.queue.contents = out ++ s.queue.contents.drop out.length := by
    conv_lhs => rw [← List.take_append_drop out.length s.queue.contents, ← copied]
  change s.published = s.delivered ++ out ++ queue.contents
  rw [inv.history, dropped, List.append_assoc, ← parts]

theorem consumerStep_inv (fits : 2 * size ≤ 2 ^ w) (inv : QueueInv size s)
    (moved : s.consumerStep w = some s') : QueueInv size s' := by
  have same := inv.memorySize
  have started := inv.consumer
  have short := inv.offsets.used_le
  unfold QueueState.consumerStep at moved
  cases at_ : s.consumer with
  | idle | fault => simp only [at_, reduceCtorEq] at moved
  | entered wanted =>
    simp only [at_, Option.some.injEq] at moved started
    subst moved
    exact inv.consumerLocal
      ⟨started.1, started.2, (inv.offsets.of_pos (by have := started.1; have := started.2; omega)).2, le_rfl⟩
  | readOwn wanted wOff =>
    simp only [at_] at moved started
    obtain ⟨nonempty, small, below, stored⟩ := started
    obtain ⟨first, last⟩ := inv.offsets.of_pos (by omega)
    have right : wordSub w s.queue.memorySize s.queue.readOffset =
        s.queue.memorySize - s.queue.readOffset := wordSub_of_le (by omega) (by omega)
    rw [availableData_eq (by omega) first below, right] at moved
    dsimp only at moved
    split_ifs at moved with lacking wraps <;> cases moved
    · exact inv.consumerLocal trivial
    · exact inv.consumerLocal ⟨nonempty, rfl, rfl, Nat.zero_le _, wraps, by omega, rfl⟩
    · refine inv.consumerLocal ⟨Nat.zero_le _, le_rfl, ?_, ?_, by omega, by omega, rfl⟩
      · rw [Nat.sub_self, List.length_nil]
      · rw [Nat.sub_self, Nat.add_zero, Nat.mod_eq_of_lt first]
  | copyRight wanted rOff rightFree out =>
    simp only [at_] at moved started
    obtain ⟨nonempty, rfl, right, before, wraps, stored, copied⟩ := started
    obtain ⟨first, last⟩ := inv.offsets.of_pos (by omega)
    split_ifs at moved with more <;> cases moved
    · apply inv.readByte copied (by omega) (Nat.mod_eq_of_lt (by omega))
      intro byte longer
      exact ⟨nonempty, rfl, right, by rw [List.length_append]; exact more, wraps, stored,
        by rw [List.length_append]; exact longer⟩
    · have rest : wordSub w wanted rightFree = wanted - rightFree := wordSub_of_le (by omega) wraps
      refine inv.consumerLocal ⟨Nat.zero_le _, by omega, by omega, ?_, by omega, stored, copied⟩
      rw [rest, show s.queue.readOffset + (wanted - (wanted - rightFree)) = s.queue.memorySize by omega,
        Nat.mod_self]
  | copyRest wanted rOff rest i out =>
    simp only [at_] at moved started
    obtain ⟨before, part, length, offset, inside, stored, copied⟩ := started
    split_ifs at moved with more <;> cases moved
    · apply inv.readByte copied (by omega)
      · rw [length, ← Nat.add_assoc, ← Nat.mod_add_mod, offset, Nat.mod_eq_of_lt (by omega)]
      · intro byte longer
        exact ⟨more, part, by rw [List.length_append, length, List.length_singleton, Nat.add_assoc],
          offset, inside, stored, by rw [List.length_append]; exact longer⟩
    · apply inv.release copied (by omega) (by omega)
      rw [wordAdd_of_lt (by omega), ← Nat.mod_eq_of_lt inside, ← offset, Nat.mod_add_mod,
        show out.length = wanted - rest + rest by omega, Nat.add_assoc]

/-- Every step of either side preserves the invariant. -/
theorem step_inv (fits : 2 * size ≤ 2 ^ w) (inv : QueueInv size s) {a : QueueAction}
    (moved : s.step w a = some s') : QueueInv size s' := by
  have same := inv.memorySize
  cases a with
  | producer => exact producerStep_inv fits inv moved
  | consumer => exact consumerStep_inv fits inv moved
  | enqueue data =>
    simp only [QueueState.step] at moved
    split_ifs at moved with _ refused <;> cases moved
    · exact inv
    · exact inv.producerLocal ⟨by omega, by omega⟩
  | dequeue wanted =>
    simp only [QueueState.step] at moved
    split_ifs at moved with _ refused <;> cases moved
    · exact inv
    · exact inv.consumerLocal ⟨by omega, by omega⟩

/-- The invariant holds in every state of every interleaving. -/
theorem reachable_inv {buffer : ℕ → UInt8} {bufferSize : ℕ} {allowed : QueueState → QueueAction → Prop}
    (fits : 2 * (bufferSize - sizeofAtomicQueue) ≤ 2 ^ w)
    (reachable : (queueMachine w buffer bufferSize).Reachable allowed s) :
    QueueInv (bufferSize - sizeofAtomicQueue) s := by
  refine reachable.invariant (QueueInv _) ?_ fun _ _ _ _ inv moved => step_inv fits inv moved
  rintro s ⟨init, producer, consumer, published, delivered⟩
  obtain ⟨size, offsets, empty⟩ := init_contents init
  refine ⟨size, offsets, ?_, ?_, ?_⟩
  · rw [published, delivered, empty, List.append_nil]
  · rw [producer]
    trivial
  · rw [consumer]
    trivial

/-- A cell an enqueue has still to write is a free cell of the ring. -/
theorem ProducerInv.toWrite {p : Producer} (valid : queue.OffsetsValid) (inv : ProducerInv queue p) :
    ∀ cell ∈ p.toWrite, cell < queue.memorySize ∧ cell ∉ queue.occupied := by
  have free {length cell : ℕ} (room : queue.used + length < queue.memorySize) (done : ℕ)
      (more : done < length) (equal : (queue.writeOffset + done) % queue.memorySize = cell) :
      cell < queue.memorySize ∧ cell ∉ queue.occupied := by
    subst equal
    refine ⟨Nat.mod_lt _ (by omega), fun stored => ?_⟩
    obtain ⟨i, member, same⟩ := List.mem_map.mp stored
    exact free_cell valid room more (List.mem_range.mp member) same
  intro cell member
  cases p with
  | copyRight call wOff rightFree i =>
    obtain ⟨rfl, right, copied, wraps, copying⟩ := inv
    have room := copying.room
    obtain ⟨_, last⟩ := valid.of_pos (by omega)
    simp only [Producer.toWrite, List.mem_append, List.mem_range'_1] at member
    rcases member with ⟨low, high⟩ | ⟨_, high⟩
    · apply free room (cell - queue.writeOffset) (by omega)
      rw [Nat.mod_eq_of_lt] <;> omega
    · apply free room (rightFree + cell) (by omega)
      rw [show queue.writeOffset + (rightFree + cell) = cell + queue.memorySize by omega,
        Nat.add_mod_right, Nat.mod_eq_of_lt (by omega)]
  | copyRest call wOff data i =>
    obtain ⟨copied, part, offset, inside, copying⟩ := inv
    have room := copying.room
    have shorter := suffix_length part
    simp only [Producer.toWrite, List.mem_range'_1] at member
    apply free room (call.length - data.length + (cell - wOff)) (by omega)
    rw [← Nat.add_assoc, ← Nat.mod_add_mod, offset, Nat.mod_eq_of_lt (by omega)]
    omega
  | idle | entered | loadRead | fault => simp [Producer.toWrite] at member

/-- A cell a dequeue has still to copy is a stored cell. -/
theorem ConsumerInv.toRead {c : Consumer} (valid : queue.OffsetsValid) (inv : ConsumerInv queue c) :
    ∀ cell ∈ c.toRead, cell ∈ queue.occupied := by
  have short := valid.used_le
  have stored {cell : ℕ} (done : ℕ) (within : done < queue.used)
      (equal : (queue.readOffset + done) % queue.memorySize = cell) : cell ∈ queue.occupied :=
    List.mem_map.mpr ⟨done, List.mem_range.mpr within, equal⟩
  intro cell member
  cases c with
  | copyRight size rOff rightFree out =>
    obtain ⟨nonempty, rfl, right, copied, wraps, within, _⟩ := inv
    obtain ⟨first, _⟩ := valid.of_pos (by omega)
    simp only [Consumer.toRead, List.mem_append, List.mem_range'_1] at member
    rcases member with ⟨low, high⟩ | ⟨_, high⟩
    · apply stored (cell - queue.readOffset) (by omega)
      rw [Nat.mod_eq_of_lt] <;> omega
    · apply stored (rightFree + cell) (by omega)
      rw [show queue.readOffset + (rightFree + cell) = cell + queue.memorySize by omega,
        Nat.add_mod_right, Nat.mod_eq_of_lt (by omega)]
  | copyRest size rOff rest i out =>
    obtain ⟨copied, part, length, offset, inside, within, _⟩ := inv
    simp only [Consumer.toRead, List.mem_range'_1] at member
    apply stored (size - rest + (cell - rOff)) (by omega)
    rw [← Nat.add_assoc, ← Nat.mod_add_mod, offset, Nat.mod_eq_of_lt (by omega)]
    omega
  | idle | entered | readOwn | fault => simp [Consumer.toRead] at member

/-- In every state of every interleaving of one producer and one consumer: the cells an enqueue has
still to write are free and the cells a dequeue has still to copy are stored, and the published
bytes are the delivered ones followed by what the ring holds from the read to the write offset. -/
theorem queue_interleaving_safe (buffer : ℕ → UInt8) (bufferSize : ℕ)
    (small : bufferSize - sizeofAtomicQueue ≤ 2 ^ 63) (s : QueueState)
    (reachable : (queueMachine sizeBits buffer bufferSize).Reachable (fun _ _ => True) s) :
    (∀ cell ∈ s.producer.toWrite, cell < s.queue.memorySize ∧
      cell ∉ s.queue.occupied ∧ cell ∉ s.consumer.toRead) ∧
    (∀ cell ∈ s.consumer.toRead, cell ∈ s.queue.occupied) ∧
    s.delivered <+: s.published ∧
    s.published.drop s.delivered.length = cyclicSlice s.queue.queueMemory s.queue.memorySize
      s.queue.readOffset (distance s.queue.memorySize s.queue.readOffset s.queue.writeOffset) ∧
    (∀ reason, s.producer ≠ .fault reason) ∧ ∀ reason, s.consumer ≠ .fault reason := by
  have fits : 2 * (bufferSize - sizeofAtomicQueue) ≤ 2 ^ sizeBits := by rw [sizeBits]; omega
  have inv := reachable_inv fits reachable
  have writes := inv.producer.toWrite inv.offsets
  have reads := inv.consumer.toRead inv.offsets
  refine ⟨fun cell member => ?_, reads, ?_, ?_, fun reason at_ => ?_, fun reason at_ => ?_⟩
  · obtain ⟨inside, free⟩ := writes cell member
    exact ⟨inside, free, fun copied => free (reads cell copied)⟩
  · exact inv.history ▸ List.prefix_append ..
  · rw [inv.history, List.drop_left]
    rfl
  · have faulty := inv.producer
    rwa [at_] at faulty
  · have faulty := inv.consumer
    rwa [at_] at faulty

/-- A state in which an enqueue has written one of its two bytes and a dequeue has loaded the offset
from before. -/
theorem queue_interleaving_safe_midway :
    ∃ s : QueueState, s.producer = .copyRest [7, 8] 0 [7, 8] 1 ∧ s.consumer = .readOwn 1 0 ∧
      (∀ cell ∈ s.producer.toWrite, cell < s.queue.memorySize ∧
        cell ∉ s.queue.occupied ∧ cell ∉ s.consumer.toRead) ∧ s.delivered <+: s.published := by
  let machine := queueMachine sizeBits (fun _ => 0) 28
  have start : machine.Reachable (fun _ _ => True)
      ⟨⟨0, 0, 4, fun _ => 0⟩, .idle, .idle, [], []⟩ := .start ⟨rfl, rfl, rfl, rfl, rfl⟩
  have reachable := start.run (fun _ _ _ => trivial) (show machine.run _
    [.dequeue 1, .enqueue [7, 8], .producer, .consumer, .producer, .producer] = some _ from rfl)
  have safe := queue_interleaving_safe (fun _ => 0) 28 (by decide) _ reachable
  exact ⟨_, rfl, rfl, safe.1, safe.2.2.1⟩

end Hseos.Atomic
