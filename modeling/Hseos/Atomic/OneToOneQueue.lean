import Hseos.Lib.Cyclic
import Hseos.Lib.Word

/-! # The one-to-one queue

`atomic_queue_t` is a header followed by `memory_size` bytes of a caller's buffer. The functions
below are the calls as they run without overlap, for a `size_t` of `w` bits: every sum and
difference wraps around, a reduction modulo zero and a copy outside the buffer are faults. The
interleaving of two concurrent calls is in `Hseos.Atomic.QueueInterleaving`.
-/

namespace Hseos.Atomic

/-- Bits of `size_t` on the target. -/
def sizeBits : ℕ := 64

/-- `sizeof(atomic_queue_t)`: three `size_t` fields. -/
def sizeofAtomicQueue : ℕ := 24

/-- The header, and the bytes at `((char*)queue) + sizeof(*queue)`. -/
structure AtomicQueue where
  readOffset : ℕ
  writeOffset : ℕ
  memorySize : ℕ
  queueMemory : ℕ → UInt8

/-- `atomic_queue_init`; the buffer may hold anything. -/
def atomicQueueInit (buffer : ℕ → UInt8) (bufferSize : ℕ) : Option AtomicQueue :=
  if bufferSize < sizeofAtomicQueue then none
  else some {
    readOffset := 0
    writeOffset := 0
    memorySize := bufferSize - sizeofAtomicQueue
    queueMemory := fun i => buffer (sizeofAtomicQueue + i) }

namespace AtomicQueue

/-- `memcpy(&queue_memory[offset], data, size)` for the bytes of `data`. -/
def memcpyTo (queue : AtomicQueue) (offset : ℕ) (data : List UInt8) : Except Fault AtomicQueue :=
  if offset + data.length ≤ queue.memorySize then
    .ok { queue with queueMemory := writeCells queue.queueMemory offset data }
  else .error .outOfBounds

/-- The bytes `memcpy(data, &queue_memory[offset], size)` copies. -/
def memcpyFrom (queue : AtomicQueue) (offset size : ℕ) : Except Fault (List UInt8) :=
  if offset + size ≤ queue.memorySize then
    .ok ((List.range size).map fun i => queue.queueMemory (offset + i))
  else .error .outOfBounds

end AtomicQueue

/-- `(r_off + queue->memory_size - 1 - w_off) % queue->memory_size`. -/
def freeSpace (w memorySize rOff wOff : ℕ) : Except Fault ℕ :=
  wordMod (wordSub w (wordSub w (wordAdd w rOff memorySize) 1) wOff) memorySize

/-- `(w_off + queue->memory_size - r_off) % queue->memory_size`. -/
def availableData (w memorySize wOff rOff : ℕ) : Except Fault ℕ :=
  wordMod (wordSub w (wordAdd w wOff memorySize) rOff) memorySize

/-- The copy of an accepted enqueue, cut where the ring ends, and the store of the write offset. -/
def enqueueCopy (w : ℕ) (queue : AtomicQueue) (wOff : ℕ) (data : List UInt8) :
    Except Fault AtomicQueue :=
  let rightFree := wordSub w queue.memorySize wOff
  if data.length ≥ rightFree then do
    let queue ← queue.memcpyTo wOff (data.take rightFree)
    let size := wordSub w data.length rightFree
    let queue ← queue.memcpyTo 0 (data.drop rightFree)
    return { queue with writeOffset := wordAdd w 0 size }
  else do
    let queue ← queue.memcpyTo wOff data
    return { queue with writeOffset := wordAdd w wOff data.length }

/-- `atomic_queue_try_enqueue` with `size = data.length`: the result and the queue after the call. -/
def atomicQueueTryEnqueue (w : ℕ) (queue : AtomicQueue) (data : List UInt8) :
    Except Fault (ℤ × AtomicQueue) :=
  if data.length > queue.memorySize then .ok (-1, queue)
  else if data.length = 0 then .ok (0, queue)
  else do
    let free ← freeSpace w queue.memorySize queue.readOffset queue.writeOffset
    if data.length > free then return (-1, queue)
    let queue ← enqueueCopy w queue queue.writeOffset data
    return (0, queue)

/-- The copy of an accepted dequeue, cut where the ring ends, and the store of the read offset.
The bytes go to the front of the caller's buffer. -/
def dequeueCopy (w : ℕ) (queue : AtomicQueue) (data : List UInt8) (rOff size : ℕ) :
    Except Fault (AtomicQueue × List UInt8) :=
  let rightFree := wordSub w queue.memorySize rOff
  if size ≥ rightFree then do
    let right ← queue.memcpyFrom rOff rightFree
    let rest := wordSub w size rightFree
    let left ← queue.memcpyFrom 0 rest
    return ({ queue with readOffset := wordAdd w 0 rest }, right ++ left ++ data.drop size)
  else do
    let copied ← queue.memcpyFrom rOff size
    return ({ queue with readOffset := wordAdd w rOff size }, copied ++ data.drop size)

/-- `atomic_queue_try_dequeue`: the result, the queue and the caller's buffer after the call. -/
def atomicQueueTryDequeue (w : ℕ) (queue : AtomicQueue) (data : List UInt8) (size : ℕ) :
    Except Fault (ℤ × AtomicQueue × List UInt8) :=
  if size > queue.memorySize then .ok (-1, queue, data)
  else if size = 0 then .ok (0, queue, data)
  else do
    let available ← availableData w queue.memorySize queue.writeOffset queue.readOffset
    if size > available then return (-1, queue, data)
    let (queue, data) ← dequeueCopy w queue data queue.readOffset size
    return (0, queue, data)

variable {w memorySize rOff wOff : ℕ}

/-- Without wrap-around the free space is the circle less one cell less what is stored. -/
theorem freeSpace_eq (fits : 2 * memorySize ≤ 2 ^ w) (read : rOff < memorySize)
    (write : wOff < memorySize) :
    freeSpace w memorySize rOff wOff = .ok (memorySize - 1 - distance memorySize rOff wOff) := by
  have sum : wordAdd w rOff memorySize = rOff + memorySize := wordAdd_of_lt (by omega)
  have gap : wordSub w (rOff + memorySize) 1 = rOff + memorySize - 1 :=
    wordSub_of_le (by omega) (by omega)
  have free : wordSub w (rOff + memorySize - 1) wOff = rOff + memorySize - 1 - wOff :=
    wordSub_of_le (by omega) (by omega)
  rw [freeSpace, sum, gap, free, wordMod_of_pos (by omega)]
  congr 1
  rcases distance_cases read write with ⟨_, equal⟩ | ⟨_, equal⟩
  · rw [equal, show rOff + memorySize - 1 - wOff = memorySize - 1 - (wOff - rOff) by omega,
      Nat.mod_eq_of_lt (by omega)]
  · rw [equal, show rOff + memorySize - 1 - wOff =
      memorySize - 1 - (wOff + memorySize - rOff) + memorySize by omega, Nat.add_mod_right,
      Nat.mod_eq_of_lt (by omega)]

/-- Without wrap-around the available data is the distance from the read to the write offset. -/
theorem availableData_eq (fits : 2 * memorySize ≤ 2 ^ w) (read : rOff < memorySize)
    (write : wOff < memorySize) :
    availableData w memorySize wOff rOff = .ok (distance memorySize rOff wOff) := by
  rw [availableData, wordAdd_of_lt (by omega), wordSub_of_le (by omega) (by omega),
    wordMod_of_pos (by omega), distance]

end Hseos.Atomic
