import Hseos.Atomic.QueueFifo
import Hseos.Lib.Machine

/-! # One producer and one consumer, step by step

The two functions of the queue as they interleave: each read of the own offset, acquire load of the
other side's offset, byte of a `memcpy` and release store of the own offset is one step. A side
works with the offset it loaded while the other side moves on. Two ghost fields remember the bytes
of all published enqueues and of all successful dequeues.
-/

namespace Hseos.Atomic

/-- Where the producer is in `atomic_queue_try_enqueue(queue, call, size)`; `i` counts the bytes the
current `memcpy` has written. -/
inductive Producer where
  | idle
  | entered (call : List UInt8)
  | loadRead (call : List UInt8) (wOff : ℕ)
  | copyRight (call : List UInt8) (wOff rightFree i : ℕ)
  | copyRest (call : List UInt8) (wOff : ℕ) (data : List UInt8) (i : ℕ)
  | fault (reason : Fault)
deriving DecidableEq

/-- Where the consumer is in `atomic_queue_try_dequeue(queue, data, size)`; `out` holds the bytes
written to `data` so far. -/
inductive Consumer where
  | idle
  | entered (size : ℕ)
  | readOwn (size wOff : ℕ)
  | copyRight (size rOff rightFree : ℕ) (out : List UInt8)
  | copyRest (size rOff rest i : ℕ) (out : List UInt8)
  | fault (reason : Fault)
deriving DecidableEq

/-- Shared memory, both program counters with their locals, and the ghost history. -/
structure QueueState where
  queue : AtomicQueue
  producer : Producer
  consumer : Consumer
  published : List UInt8
  delivered : List UInt8

/-- A side calls its function or performs its next step. -/
inductive QueueAction where
  | enqueue (data : List UInt8)
  | producer
  | dequeue (size : ℕ)
  | consumer
deriving DecidableEq

namespace QueueState

/-- One byte of a `memcpy` into the ring. -/
def writeByte (s : QueueState) (offset : ℕ) (byte : Option UInt8) (next : Producer) : QueueState :=
  match byte with
  | none => { s with producer := .fault .outOfBounds }
  | some byte =>
      if offset < s.queue.memorySize then
        { s with
          queue.queueMemory := Function.update s.queue.queueMemory offset byte
          producer := next }
      else { s with producer := .fault .outOfBounds }

/-- One byte of a `memcpy` out of the ring. -/
def readByte (s : QueueState) (offset : ℕ) (next : UInt8 → Consumer) : QueueState :=
  if offset < s.queue.memorySize then
    { s with consumer := next (s.queue.queueMemory offset) }
  else { s with consumer := .fault .outOfBounds }

/-- The next step of a running `atomic_queue_try_enqueue`. -/
def producerStep (w : ℕ) (s : QueueState) : Option QueueState :=
  match s.producer with
  | .idle | .fault _ => none
  | .entered call => some { s with producer := .loadRead call s.queue.writeOffset }
  | .loadRead call wOff =>
      match freeSpace w s.queue.memorySize s.queue.readOffset wOff with
      | .error reason => some { s with producer := .fault reason }
      | .ok free =>
          if call.length > free then some { s with producer := .idle }
          else
            let rightFree := wordSub w s.queue.memorySize wOff
            if call.length ≥ rightFree then some { s with producer := .copyRight call wOff rightFree 0 }
            else some { s with producer := .copyRest call wOff call 0 }
  | .copyRight call wOff rightFree i =>
      if i < rightFree then some (s.writeByte (wOff + i) call[i]? (.copyRight call wOff rightFree (i + 1)))
      else some { s with producer := .copyRest call 0 (call.drop rightFree) 0 }
  | .copyRest call wOff data i =>
      if i < data.length then some (s.writeByte (wOff + i) data[i]? (.copyRest call wOff data (i + 1)))
      else some { s with
        queue.writeOffset := wordAdd w wOff data.length
        producer := .idle
        published := s.published ++ call }

/-- The next step of a running `atomic_queue_try_dequeue`. -/
def consumerStep (w : ℕ) (s : QueueState) : Option QueueState :=
  match s.consumer with
  | .idle | .fault _ => none
  | .entered size => some { s with consumer := .readOwn size s.queue.writeOffset }
  | .readOwn size wOff =>
      let rOff := s.queue.readOffset
      match availableData w s.queue.memorySize wOff rOff with
      | .error reason => some { s with consumer := .fault reason }
      | .ok available =>
          if size > available then some { s with consumer := .idle }
          else
            let rightFree := wordSub w s.queue.memorySize rOff
            if size ≥ rightFree then some { s with consumer := .copyRight size rOff rightFree [] }
            else some { s with consumer := .copyRest size rOff size 0 [] }
  | .copyRight size rOff rightFree out =>
      if out.length < rightFree then
        some (s.readByte (rOff + out.length) fun byte => .copyRight size rOff rightFree (out ++ [byte]))
      else some { s with consumer := .copyRest size 0 (wordSub w size rightFree) 0 out }
  | .copyRest size rOff rest i out =>
      if i < rest then
        some (s.readByte (rOff + i) fun byte => .copyRest size rOff rest (i + 1) (out ++ [byte]))
      else some { s with
        queue.readOffset := wordAdd w rOff rest
        consumer := .idle
        delivered := s.delivered ++ out }

/-- A call first tests its size: too large is refused and zero succeeds, both without a further
step. -/
def step (w : ℕ) (s : QueueState) : QueueAction → Option QueueState
  | .enqueue data =>
      if s.producer = .idle ∧ data.length < 2 ^ w then
        if data.length > s.queue.memorySize ∨ data.length = 0 then some s
        else some { s with producer := .entered data }
      else none
  | .producer => s.producerStep w
  | .dequeue size =>
      if s.consumer = .idle ∧ size < 2 ^ w then
        if size > s.queue.memorySize ∨ size = 0 then some s
        else some { s with consumer := .entered size }
      else none
  | .consumer => s.consumerStep w

end QueueState

/-- All interleavings of the calls of one producer and one consumer on a freshly initialised queue. -/
def queueMachine (w : ℕ) (buffer : ℕ → UInt8) (bufferSize : ℕ) : Machine QueueState QueueAction where
  start s := atomicQueueInit buffer bufferSize = some s.queue ∧ s.producer = .idle ∧
    s.consumer = .idle ∧ s.published = [] ∧ s.delivered = []
  step := QueueState.step w

/-- The ring cells an in-flight enqueue has still to write. -/
def Producer.toWrite : Producer → List ℕ
  | .copyRight call wOff rightFree i =>
      List.range' (wOff + i) (rightFree - i) ++ List.range' 0 (call.length - rightFree)
  | .copyRest _ wOff data i => List.range' (wOff + i) (data.length - i)
  | _ => []

/-- The ring cells an in-flight dequeue has still to copy. -/
def Consumer.toRead : Consumer → List ℕ
  | .copyRight size rOff rightFree out =>
      List.range' (rOff + out.length) (rightFree - out.length) ++ List.range' 0 (size - rightFree)
  | .copyRest _ rOff rest i _ => List.range' (rOff + i) (rest - i)
  | _ => []

/-- The ring cells of published bytes the consumer has not released. -/
def AtomicQueue.occupied (queue : AtomicQueue) : List ℕ :=
  (List.range queue.used).map fun i => (queue.readOffset + i) % queue.memorySize

end Hseos.Atomic
