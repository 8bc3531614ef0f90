import Hseos.Atomic.QueueSafety

/-! # The interleaved queue is linearizable

Each call of either side takes effect at one of its own steps: an enqueue at the release store of the write offset or,
if it is refused, at the acquire load of the read offset; a dequeue at the release store of the read offset or, if it
is refused, at the acquire load of the write offset, which comes before the step that finds out. In the order of these
steps the answers are those of the byte FIFO.
-/

namespace Hseos.Atomic

open AtomicQueue

def Call.isEnqueue : Call → Bool
  | .enqueue _ => true
  | .dequeue _ _ => false

/-- A dequeue is refused which has loaded this write offset and asks for more than it leaves. -/
def AtomicQueue.refused (w : ℕ) (queue : AtomicQueue) (size wOff : ℕ) : List (Call × Answer) :=
  match availableData w queue.memorySize wOff queue.readOffset with
  | .ok available => if size > available then [(.dequeue [] size, ⟨-1, []⟩)] else []
  | .error _ => []

namespace QueueState

variable (w : ℕ) (s : QueueState)

/-- A call begins at this step. Of the buffer of a dequeue only the bytes that it gets are looked at. -/
def called : QueueAction → List Call
  | .enqueue data => [.enqueue data]
  | .dequeue size => [.dequeue [] size]
  | .producer | .consumer => []

/-- A call returns at this step, with its answer. -/
def returned : QueueAction → List (Call × Answer)
  | .enqueue data =>
      if data.length > s.queue.memorySize then [(.enqueue data, ⟨-1, []⟩)]
      else if data.length = 0 then [(.enqueue data, ⟨0, []⟩)]
      else []
  | .producer =>
      match s.producer with
      | .loadRead call wOff =>
          match freeSpace w s.queue.memorySize s.queue.readOffset wOff with
          | .ok free => if call.length > free then [(.enqueue call, ⟨-1, []⟩)] else []
          | .error _ => []
      | .copyRest call _ data i => if i < data.length then [] else [(.enqueue call, ⟨0, []⟩)]
      | .idle | .entered _ | .copyRight _ _ _ _ | .fault _ => []
  | .dequeue size =>
      if size > s.queue.memorySize then [(.dequeue [] size, ⟨-1, []⟩)]
      else if size = 0 then [(.dequeue [] size, ⟨0, []⟩)]
      else []
  | .consumer =>
      match s.consumer with
      | .readOwn size wOff => s.queue.refused w size wOff
      | .copyRest size _ rest i out => if i < rest then [] else [(.dequeue [] size, ⟨0, out⟩)]
      | .idle | .entered _ | .copyRight _ _ _ _ | .fault _ => []

/-- A call takes effect at this step, with its answer: when it returns, or as a dequeue that is refused when it
loads the write offset. -/
def linearized : QueueAction → List (Call × Answer)
  | .consumer =>
      match s.consumer with
      | .entered size => s.queue.refused w size s.queue.writeOffset
      | .readOwn _ _ => []
      | .idle | .copyRight _ _ _ _ | .copyRest _ _ _ _ _ | .fault _ => s.returned w .consumer
  | .enqueue data => s.returned w (.enqueue data)
  | .producer => s.returned w .producer
  | .dequeue size => s.returned w (.dequeue size)

/-- The dequeue that has taken effect and not returned. -/
def decided : List (Call × Answer) :=
  match s.consumer with
  | .readOwn size wOff => s.queue.refused w size wOff
  | .idle | .entered _ | .copyRight _ _ _ _ | .copyRest _ _ _ _ _ | .fault _ => []

/-- The enqueue that runs. -/
def enqueues : List Call :=
  match s.producer with
  | .entered call | .loadRead call _ | .copyRight call _ _ _ | .copyRest call _ _ _ => [.enqueue call]
  | .idle | .fault _ => []

/-- The dequeue that runs. -/
def dequeues : List Call :=
  match s.consumer with
  | .entered size | .readOwn size _ | .copyRight size _ _ _ | .copyRest size _ _ _ _ => [.dequeue [] size]
  | .idle | .fault _ => []

end QueueState

open QueueState

variable {w size : ℕ} {s s' : QueueState}

/-- Calls one after the other. -/
theorem fifoCalls_append (capacity : ℕ) (contents : List UInt8) (first second : List Call) :
    fifoCalls capacity contents (first ++ second) =
      let (answers, middle) := fifoCalls capacity contents first
      let (answers', last) := fifoCalls capacity middle second
      (answers ++ answers', last) := by
  induction first generalizing contents with
  | nil => rfl
  | cons call rest ih =>
    simp only [List.cons_append, fifoCalls, ih]

theorem fifoCalls_singleton (capacity : ℕ) (contents : List UInt8) (call : Call) :
    fifoCalls capacity contents [call] =
      ([(fifoCall capacity contents call).1], (fifoCall capacity contents call).2) := rfl

/-- The bytes in the ring change with the histories only. -/
theorem QueueInv.contents_eq (inv : QueueInv size s) (inv' : QueueInv size s')
    (published : s'.published = s.published) (delivered : s'.delivered = s.delivered) :
    s'.queue.contents = s.queue.contents := by
  have history := inv'.history
  rw [published, delivered, inv.history] at history
  exact (List.append_cancel_left history).symm

/-- The consumer, what it works with and what it has delivered are as they were. -/
structure KeepsConsumer (s s' : QueueState) : Prop where
  consumer : s'.consumer = s.consumer
  memorySize : s'.queue.memorySize = s.queue.memorySize
  readOffset : s'.queue.readOffset = s.queue.readOffset
  delivered : s'.delivered = s.delivered

/-- A byte of a copy leaves the histories, the offsets and the other side as they are. -/
theorem writeByte_kept (s : QueueState) (offset : ℕ) (byte : Option UInt8) (p : Producer) :
    KeepsConsumer s (s.writeByte offset byte p) ∧ (s.writeByte offset byte p).published = s.published := by
  cases byte with
  | none => exact ⟨⟨rfl, rfl, rfl, rfl⟩, rfl⟩
  | some byte =>
    simp only [QueueState.writeByte]
    split_ifs <;> exact ⟨⟨rfl, rfl, rfl, rfl⟩, rfl⟩

theorem readByte_kept (s : QueueState) (offset : ℕ) (c : UInt8 → Consumer) :
    (s.readByte offset c).published = s.published ∧ (s.readByte offset c).delivered = s.delivered ∧
      (s.readByte offset c).producer = s.producer := by
  simp only [QueueState.readByte]
  split_ifs <;> exact ⟨rfl, rfl, rfl⟩

/-- A byte that is inside the call and the ring is copied. -/
theorem writeByte_producer {offset : ℕ} {byte : Option UInt8} {p : Producer}
    (inv : QueueInv size (s.writeByte offset byte p)) : (s.writeByte offset byte p).producer = p := by
  have sound := inv.producer
  cases byte with
  | none => exact sound.elim
  | some byte =>
    simp only [QueueState.writeByte] at sound ⊢
    split_ifs at sound ⊢
    · rfl
    · exact sound.elim

theorem readByte_consumer {offset : ℕ} {c : UInt8 → Consumer} (inv : QueueInv size (s.readByte offset c)) :
    ∃ byte, (s.readByte offset c).consumer = c byte := by
  have sound := inv.consumer
  simp only [QueueState.readByte] at sound ⊢
  split_ifs at sound ⊢
  · exact ⟨_, rfl⟩
  · exact sound.elim

/-- A dequeue that asks for more than it has seen in the ring is refused. -/
theorem refused_eq (queue : AtomicQueue) (wanted : ℕ) {wOff : ℕ} (fits : 2 * queue.memorySize ≤ 2 ^ w)
    (first : queue.readOffset < queue.memorySize) (last : wOff < queue.memorySize) :
    queue.refused w wanted wOff =
      if wanted > distance queue.memorySize queue.readOffset wOff then [(.dequeue [] wanted, ⟨-1, []⟩)] else [] := by
  rw [refused, availableData_eq fits first last]

/-- What a step of the producer is to its call: it goes on, is refused, or publishes its bytes. -/
inductive ProducerTurn (w size : ℕ) (s s' : QueueState) : Prop
  | runs (returned : s.returned w .producer = []) (running : s'.enqueues = s.enqueues) (kept : KeepsConsumer s s')
      (published : s'.published = s.published)
  | refuses (call : List UInt8) (running : s.enqueues = [.enqueue call])
      (returned : s.returned w .producer = [(.enqueue call, ⟨-1, []⟩)])
      (full : ¬(call.length = 0 ∨ s.queue.contents.length + call.length ≤ size - 1))
      (same : s' = { s with producer := .idle })
  | publishes (call : List UInt8) (running : s.enqueues = [.enqueue call])
      (returned : s.returned w .producer = [(.enqueue call, ⟨0, []⟩)])
      (room : call.length = 0 ∨ s.queue.contents.length + call.length ≤ size - 1) (idle : s'.producer = .idle)
      (kept : KeepsConsumer s s') (published : s'.published = s.published ++ call)

theorem producerStep_turn (fits : 2 * size ≤ 2 ^ w) (inv : QueueInv size s) (moved : s.producerStep w = some s') :
    ProducerTurn w size s s' := by
  have inv' := producerStep_inv fits inv moved
  have same := inv.memorySize
  have started := inv.producer
  unfold QueueState.producerStep at moved
  cases at_ : s.producer with
  | idle | fault => simp only [at_, reduceCtorEq] at moved
  | entered call =>
    simp only [at_] at moved
    cases moved
    exact .runs (by simp only [returned, at_]) (by simp only [enqueues, at_]) ⟨rfl, rfl, rfl, rfl⟩ rfl
  | loadRead call wOff =>
    simp only [at_] at moved started
    obtain ⟨nonempty, small, rfl⟩ := started
    obtain ⟨first, last⟩ := inv.offsets.of_pos (by omega)
    have short := inv.offsets.used_le
    have free := freeSpace_eq (w := w) (by omega) first last
    rw [← used] at free
    rw [free] at moved
    dsimp only at moved
    split_ifs at moved with full
    · cases moved
      refine .refuses call (by simp only [enqueues, at_]) (by simp only [returned, at_, free, if_pos full]) ?_ rfl
      rw [length_contents]
      omega
    all_goals
      cases moved
      exact .runs (by simp only [returned, at_, free, if_neg full]) (by simp only [enqueues, at_])
        ⟨rfl, rfl, rfl, rfl⟩ rfl
  | copyRight call wOff rightFree i =>
    simp only [at_] at moved
    have none : s.returned w .producer = [] := by simp only [returned, at_]
    split_ifs at moved <;> cases moved
    · obtain ⟨kept, published⟩ := writeByte_kept s (wOff + i) call[i]? (.copyRight call wOff rightFree (i + 1))
      exact .runs none (by simp only [enqueues, at_, writeByte_producer inv']) kept published
    · exact .runs none (by simp only [enqueues, at_]) ⟨rfl, rfl, rfl, rfl⟩ rfl
  | copyRest call wOff data i =>
    simp only [at_] at moved started
    obtain ⟨copied, part, offset, inside, copying⟩ := started
    have room := copying.room
    split_ifs at moved with more <;> cases moved
    · obtain ⟨kept, published⟩ := writeByte_kept s (wOff + i) data[i]? (.copyRest call wOff data (i + 1))
      exact .runs (by simp only [returned, at_, if_pos more]) (by simp only [enqueues, at_, writeByte_producer inv'])
        kept published
    · refine .publishes call (by simp only [enqueues, at_]) (by simp only [returned, at_, if_neg more]) (.inr ?_) rfl
        ⟨rfl, rfl, rfl, rfl⟩ rfl
      rw [length_contents]
      omega

theorem ProducerTurn.kept (turn : ProducerTurn w size s s') : KeepsConsumer s s' := by
  cases turn with
  | runs _ _ kept | publishes _ _ _ _ _ kept => exact kept
  | refuses _ _ _ _ same =>
    subst same
    exact ⟨rfl, rfl, rfl, rfl⟩

/-- The answers of the producer's steps are answers of enqueues. -/
theorem ProducerTurn.returned (turn : ProducerTurn w size s s') :
    s.returned w .producer = [] ∨ ∃ call answer, s.returned w .producer = [(.enqueue call, answer)] := by
  cases turn with
  | runs returned => exact .inl returned
  | refuses _ _ returned | publishes _ _ returned => exact .inr ⟨_, _, returned⟩

/-- What a step of the consumer is to its call: it loads the write offset, goes on, finds that it is refused, or
delivers its bytes. -/
inductive ConsumerTurn (w : ℕ) (s s' : QueueState) : Prop
  | loads {wanted : ℕ} (at_ : s.consumer = .entered wanted)
      (same : s' = { s with consumer := .readOwn wanted s.queue.writeOffset })
  | runs (undecided : s.decided w = [] ∧ s'.decided w = []) (linearized : s.linearized w .consumer = [])
      (returned : s.returned w .consumer = []) (running : s'.dequeues = s.dequeues)
      (kept : s'.published = s.published ∧ s'.delivered = s.delivered ∧ s'.producer = s.producer)
  | refuses {wanted wOff : ℕ} (at_ : s.consumer = .readOwn wanted wOff)
      (refused : s.queue.refused w wanted wOff = [(.dequeue [] wanted, ⟨-1, []⟩)])
      (same : s' = { s with consumer := .idle })
  | delivers (wanted : ℕ) (out : List UInt8) (running : s.dequeues = [.dequeue [] wanted])
      (undecided : s.decided w = []) (linearized : s.linearized w .consumer = s.returned w .consumer)
      (returned : s.returned w .consumer = [(.dequeue [] wanted, ⟨0, out⟩)]) (whole : out.length = wanted)
      (stored : wanted ≤ s.queue.contents.length) (idle : s'.consumer = .idle)
      (kept : s'.published = s.published ∧ s'.delivered = s.delivered ++ out ∧ s'.producer = s.producer)

theorem consumerStep_turn (fits : 2 * size ≤ 2 ^ w) (inv : QueueInv size s) (moved : s.consumerStep w = some s') :
    ConsumerTurn w s s' := by
  have inv' := consumerStep_inv fits inv moved
  have same := inv.memorySize
  have started := inv.consumer
  unfold QueueState.consumerStep at moved
  cases at_ : s.consumer with
  | idle | fault => simp only [at_, reduceCtorEq] at moved
  | entered wanted =>
    simp only [at_] at moved
    cases moved
    exact .loads at_ rfl
  | readOwn wanted wOff =>
    simp only [at_] at moved started
    obtain ⟨nonempty, small, below, stored⟩ := started
    obtain ⟨first, last⟩ := inv.offsets.of_pos (by omega)
    have answer := refused_eq (w := w) s.queue wanted (by omega) first below
    rw [availableData_eq (by omega) first below] at moved
    dsimp only at moved
    split_ifs at moved with lacking
    · cases moved
      exact .refuses at_ (answer.trans (if_pos lacking)) rfl
    all_goals
      have none := answer.trans (if_neg lacking)
      cases moved
      exact .runs ⟨by simp only [decided, at_, none], rfl⟩ (by simp only [linearized, at_])
        (by simp only [returned, at_, none]) (by simp only [dequeues, at_]) ⟨rfl, rfl, rfl⟩
  | copyRight wanted rOff rightFree out =>
    simp only [at_] at moved
    have undecided : s.decided w = [] := by simp only [decided, at_]
    have none : s.returned w .consumer = [] := by simp only [returned, at_]
    have none' : s.linearized w .consumer = [] := by simp only [linearized, at_, none]
    split_ifs at moved <;> cases moved
    · obtain ⟨byte, copies⟩ := readByte_consumer inv'
      exact .runs ⟨undecided, by simp only [decided, copies]⟩ none' none (by simp only [dequeues, at_, copies])
        (readByte_kept ..)
    · exact .runs ⟨undecided, rfl⟩ none' none (by simp only [dequeues, at_]) ⟨rfl, rfl, rfl⟩
  | copyRest wanted rOff rest i out =>
    simp only [at_] at moved started
    obtain ⟨before, part, length, offset, inside, stored, copied⟩ := started
    have undecided : s.decided w = [] := by simp only [decided, at_]
    have answers : s.linearized w .consumer = s.returned w .consumer := by simp only [linearized, at_]
    split_ifs at moved with more <;> cases moved
    · obtain ⟨byte, copies⟩ := readByte_consumer inv'
      have none : s.returned w .consumer = [] := by simp only [returned, at_, if_pos more]
      exact .runs ⟨undecided, by simp only [decided, copies]⟩ (answers.trans none) none
        (by simp only [dequeues, at_, copies]) (readByte_kept ..)
    · refine .delivers wanted out (by simp only [dequeues, at_]) undecided answers
        (by simp only [returned, at_, if_neg more]) (by omega) ?_ rfl ⟨rfl, rfl, rfl⟩
      rwa [length_contents]

theorem ConsumerTurn.producer (turn : ConsumerTurn w s s') : s'.producer = s.producer := by
  cases turn with
  | loads _ same | refuses _ _ same => rw [same]
  | runs _ _ _ _ kept | delivers _ _ _ _ _ _ _ _ _ kept => exact kept.2.2

/-- The answers of the consumer's steps are answers of dequeues. -/
theorem ConsumerTurn.returned (turn : ConsumerTurn w s s') :
    s.returned w .consumer = [] ∨ ∃ wanted answer, s.returned w .consumer = [(.dequeue [] wanted, answer)] := by
  cases turn with
  | loads at_ => exact .inl (by simp only [QueueState.returned, at_])
  | runs _ _ returned => exact .inl returned
  | @refuses wanted _ at_ refused => exact .inr ⟨wanted, ⟨-1, []⟩, by simp only [QueueState.returned, at_, refused]⟩
  | delivers _ _ _ _ _ returned => exact .inr ⟨_, _, returned⟩

/-- The effect of the steps of one call on the byte FIFO. -/
def Effect (size : ℕ) (s s' : QueueState) (events : List (Call × Answer)) : Prop :=
  fifoCalls (size - 1) s.queue.contents (events.map Prod.fst) = (events.map Prod.snd, s'.queue.contents)

theorem Effect.nothing (same : s'.queue.contents = s.queue.contents) : Effect size s s' [] := by
  rw [Effect, same]
  rfl

theorem Effect.one {call : Call} {answer : Answer}
    (answers : fifoCall (size - 1) s.queue.contents call = (answer, s'.queue.contents)) :
    Effect size s s' [(call, answer)] := by
  rw [Effect, List.map_singleton, fifoCalls_singleton, answers]
  rfl

theorem consumerStep_effect (fits : 2 * size ≤ 2 ^ w) (inv : QueueInv size s) (moved : s.consumerStep w = some s') :
    Effect size s s' (s.linearized w .consumer) := by
  have inv' := consumerStep_inv fits inv moved
  have same_size := inv.memorySize
  cases consumerStep_turn fits inv moved with
  | @loads wanted at_ same =>
    subst same
    have started := inv.consumer
    rw [at_] at started
    obtain ⟨nonempty, small⟩ := started
    obtain ⟨first, last⟩ := inv.offsets.of_pos (by omega)
    simp only [linearized, at_, refused_eq (w := w) s.queue wanted (by omega) first last]
    split_ifs with lacking
    · apply Effect.one
      have few : ¬(wanted = 0 ∨ wanted ≤ s.queue.contents.length) := by
        rw [length_contents, used]
        omega
      rw [fifoCall, if_neg few]
    · exact .nothing rfl
  | runs _ linearized _ _ kept =>
    rw [linearized]
    exact .nothing (inv.contents_eq inv' kept.1 kept.2.1)
  | refuses at_ _ same =>
    subst same
    simp only [linearized, at_]
    exact .nothing rfl
  | delivers _ _ _ _ linearized returned whole stored _ kept =>
    rw [linearized, returned]
    apply Effect.one
    -- the bytes that are delivered were at the front of the ring
    have history := inv'.history
    rw [kept.1, kept.2.1, inv.history, List.append_assoc] at history
    have parts := List.append_cancel_left history
    rw [fifoCall, if_pos (.inr stored), parts, List.take_left' whole, List.drop_left' whole, List.drop_nil,
      List.append_nil]

theorem producerStep_effect (fits : 2 * size ≤ 2 ^ w) (inv : QueueInv size s) (moved : s.producerStep w = some s') :
    Effect size s s' (s.linearized w .producer) := by
  have inv' := producerStep_inv fits inv moved
  change Effect size s s' (s.returned w .producer)
  cases producerStep_turn fits inv moved with
  | runs returned _ kept published =>
    rw [returned]
    exact .nothing (inv.contents_eq inv' published kept.delivered)
  | refuses _ _ returned full same =>
    subst same
    rw [returned]
    apply Effect.one
    rw [fifoCall, if_neg full]
  | publishes _ _ returned room _ kept published =>
    rw [returned]
    apply Effect.one
    have history := inv'.history
    rw [published, kept.delivered, inv.history, List.append_assoc] at history
    rw [fifoCall, if_pos room, List.append_cancel_left history]

/-- How a call of an enqueue begins: it is refused, it has nothing to do, or it enters. -/
theorem enqueue_cases {data : List UInt8} (moved : s.step w (.enqueue data) = some s') :
    s.producer = .idle ∧
      (data.length > s.queue.memorySize ∧ s.returned w (.enqueue data) = [(.enqueue data, ⟨-1, []⟩)] ∧ s' = s ∨
        data.length = 0 ∧ s.returned w (.enqueue data) = [(.enqueue data, ⟨0, []⟩)] ∧ s' = s ∨
        s.returned w (.enqueue data) = [] ∧ s' = { s with producer := .entered data }) := by
  simp only [QueueState.step] at moved
  split_ifs at moved with begins refused <;> cases moved
  · refine ⟨begins.1, ?_⟩
    by_cases large : data.length > s.queue.memorySize
    · exact .inl ⟨large, if_pos large, rfl⟩
    · have empty := refused.resolve_left large
      exact .inr (.inl ⟨empty, (if_neg large).trans (if_pos empty), rfl⟩)
  · rw [not_or] at refused
    exact ⟨begins.1, .inr (.inr ⟨(if_neg refused.1).trans (if_neg refused.2), rfl⟩)⟩

theorem dequeue_cases {wanted : ℕ} (moved : s.step w (.dequeue wanted) = some s') :
    s.consumer = .idle ∧
      (wanted > s.queue.memorySize ∧ s.returned w (.dequeue wanted) = [(.dequeue [] wanted, ⟨-1, []⟩)] ∧ s' = s ∨
        wanted = 0 ∧ s.returned w (.dequeue wanted) = [(.dequeue [] wanted, ⟨0, []⟩)] ∧ s' = s ∨
        s.returned w (.dequeue wanted) = [] ∧ s' = { s with consumer := .entered wanted }) := by
  simp only [QueueState.step] at moved
  split_ifs at moved with begins refused <;> cases moved
  · refine ⟨begins.1, ?_⟩
    by_cases large : wanted > s.queue.memorySize
    · exact .inl ⟨large, if_pos large, rfl⟩
    · have empty := refused.resolve_left large
      exact .inr (.inl ⟨empty, (if_neg large).trans (if_pos empty), rfl⟩)
  · rw [not_or] at refused
    exact ⟨begins.1, .inr (.inr ⟨(if_neg refused.1).trans (if_neg refused.2), rfl⟩)⟩

theorem step_effect (fits : 2 * size ≤ 2 ^ w) (inv : QueueInv size s) {a : QueueAction}
    (moved : s.step w a = some s') : Effect size s s' (s.linearized w a) := by
  have same := inv.memorySize
  have short := inv.offsets.used_le
  cases a with
  | producer => exact producerStep_effect fits inv moved
  | consumer => exact consumerStep_effect fits inv moved
  | enqueue data =>
    change Effect size s s' (s.returned w (.enqueue data))
    obtain ⟨-, ⟨large, answer, rfl⟩ | ⟨empty, answer, rfl⟩ | ⟨none, rfl⟩⟩ := enqueue_cases moved
    · rw [answer]
      apply Effect.one
      have refuses : ¬(data.length = 0 ∨ s'.queue.contents.length + data.length ≤ size - 1) := by omega
      rw [fifoCall, if_neg refuses]
    · rw [answer]
      apply Effect.one
      rw [fifoCall, if_pos (.inl empty), List.length_eq_zero_iff.mp empty, List.append_nil]
    · rw [none]
      exact .nothing rfl
  | dequeue wanted =>
    change Effect size s s' (s.returned w (.dequeue wanted))
    obtain ⟨-, ⟨large, answer, rfl⟩ | ⟨rfl, answer, rfl⟩ | ⟨none, rfl⟩⟩ := dequeue_cases moved
    · rw [answer]
      apply Effect.one
      have refuses : ¬(wanted = 0 ∨ wanted ≤ s'.queue.contents.length) := by
        rw [length_contents]
        omega
      rw [fifoCall, if_neg refuses]
    · rw [answer]
      apply Effect.one
      rw [fifoCall, if_pos (.inl rfl)]
      rfl
    · rw [none]
      exact .nothing rfl

/-- The answers of a run, in the order in which the calls take effect, are those of the byte FIFO. -/
theorem run_effect {buffer : ℕ → UInt8} {bufferSize : ℕ} (fits : 2 * size ≤ 2 ^ w) (inv : QueueInv size s)
    {schedule : List QueueAction} (ran : (queueMachine w buffer bufferSize).run s schedule = some s') :
    Effect size s s' ((queueMachine w buffer bufferSize).observed (linearized w) s schedule) := by
  induction schedule generalizing s with
  | nil =>
    cases ran
    exact .nothing rfl
  | cons a rest ih =>
    obtain ⟨next, moved, remaining⟩ := Option.bind_eq_some_iff.mp ran
    have first := step_effect fits inv moved
    have others := ih (step_inv fits inv moved) remaining
    rw [Effect] at first others
    rw [Effect, Machine.observed_cons _ moved, List.map_append, List.map_append, fifoCalls_append, first]
    dsimp only
    rw [others]

theorem KeepsConsumer.decided (kept : KeepsConsumer s s') : s'.decided w = s.decided w := by
  rw [QueueState.decided, QueueState.decided, kept.consumer]
  cases s.consumer with
  | readOwn wanted wOff => simp only [refused, kept.memorySize, kept.readOffset]
  | idle | entered | copyRight | copyRest | fault => rfl

theorem filter_refused (queue : AtomicQueue) (wanted wOff : ℕ) :
    (queue.refused w wanted wOff).filter (fun e => !e.1.isEnqueue) = queue.refused w wanted wOff := by
  unfold refused
  split
  · split_ifs <;> rfl
  · rfl

/-- A refused dequeue is decided between its load of the write offset and its return. -/
theorem decided_step (fits : 2 * size ≤ 2 ^ w) (inv : QueueInv size s) {a : QueueAction}
    (moved : s.step w a = some s') :
    s.decided w ++ (s.linearized w a).filter (fun e => !e.1.isEnqueue) =
      (s.returned w a).filter (fun e => !e.1.isEnqueue) ++ s'.decided w := by
  cases a with
  | producer =>
    have turn := producerStep_turn fits inv moved
    change _ ++ (s.returned w .producer).filter _ = _
    rw [turn.kept.decided]
    obtain none | ⟨call, answer, one⟩ := turn.returned
    · rw [none]
      exact List.append_nil _
    · rw [one]
      exact List.append_nil _
  | enqueue data =>
    change _ ++ (s.returned w (.enqueue data)).filter _ = _
    obtain ⟨-, ⟨-, answer, rfl⟩ | ⟨-, answer, rfl⟩ | ⟨none, rfl⟩⟩ := enqueue_cases moved
    · rw [answer]
      exact List.append_nil _
    · rw [answer]
      exact List.append_nil _
    · rw [none]
      exact List.append_nil _
  | dequeue wanted =>
    change _ ++ (s.returned w (.dequeue wanted)).filter _ = _
    obtain ⟨idle, ⟨-, -, rfl⟩ | ⟨-, -, rfl⟩ | ⟨none, rfl⟩⟩ := dequeue_cases moved
    · rw [decided, idle, List.append_nil, List.nil_append]
    · rw [decided, idle, List.append_nil, List.nil_append]
    · rw [none, decided, decided, idle]
      rfl
  | consumer =>
    cases consumerStep_turn fits inv moved with
    | loads at_ same =>
      subst same
      simp only [decided, linearized, returned, at_, filter_refused]
      rfl
    | runs undecided linearized returned =>
      rw [undecided.1, undecided.2, linearized, returned]
      rfl
    | refuses at_ _ same =>
      subst same
      simp only [decided, linearized, returned, at_, filter_refused]
      rfl
    | delivers _ _ _ undecided linearized _ _ _ idle =>
      rw [undecided, linearized, decided, idle]
      exact (List.append_nil _).symm

/-- A call runs from the step at which it begins to the one at which it returns. -/
theorem enqueues_step (fits : 2 * size ≤ 2 ^ w) (inv : QueueInv size s) {a : QueueAction}
    (moved : s.step w a = some s') :
    s.enqueues ++ (called a).filter Call.isEnqueue =
      ((s.returned w a).map Prod.fst).filter Call.isEnqueue ++ s'.enqueues := by
  cases a with
  | consumer =>
    have turn := consumerStep_turn fits inv moved
    rw [enqueues, enqueues, turn.producer]
    obtain none | ⟨wanted, answer, one⟩ := turn.returned
    · rw [none]
      exact List.append_nil _
    · rw [one]
      exact List.append_nil _
  | dequeue wanted =>
    obtain ⟨-, ⟨-, answer, rfl⟩ | ⟨-, answer, rfl⟩ | ⟨answer, rfl⟩⟩ := dequeue_cases moved
    all_goals
      rw [answer]
      exact List.append_nil _
  | enqueue data =>
    obtain ⟨idle, ⟨-, answer, rfl⟩ | ⟨-, answer, rfl⟩ | ⟨answer, rfl⟩⟩ := enqueue_cases moved
    all_goals
      simp only [answer, enqueues, idle]
      rfl
  | producer =>
    cases producerStep_turn fits inv moved with
    | runs returned running =>
      rw [returned, running]
      exact List.append_nil _
    | refuses _ running returned _ same =>
      subst same
      rw [running, returned]
      rfl
    | publishes _ running returned _ idle =>
      rw [running, returned, enqueues, idle]
      rfl

theorem dequeues_step (fits : 2 * size ≤ 2 ^ w) (inv : QueueInv size s) {a : QueueAction}
    (moved : s.step w a = some s') :
    s.dequeues ++ (called a).filter (fun c => !c.isEnqueue) =
      ((s.returned w a).map Prod.fst).filter (fun c => !c.isEnqueue) ++ s'.dequeues := by
  cases a with
  | producer =>
    have turn := producerStep_turn fits inv moved
    rw [dequeues, dequeues, turn.kept.consumer]
    obtain none | ⟨call, answer, one⟩ := turn.returned
    · rw [none]
      exact List.append_nil _
    · rw [one]
      exact List.append_nil _
  | enqueue data =>
    obtain ⟨-, ⟨-, answer, rfl⟩ | ⟨-, answer, rfl⟩ | ⟨answer, rfl⟩⟩ := enqueue_cases moved
    all_goals
      rw [answer]
      exact List.append_nil _
  | dequeue wanted =>
    obtain ⟨idle, ⟨-, answer, rfl⟩ | ⟨-, answer, rfl⟩ | ⟨answer, rfl⟩⟩ := dequeue_cases moved
    all_goals
      simp only [answer, dequeues, idle]
      rfl
  | consumer =>
    cases consumerStep_turn fits inv moved with
    | loads at_ same =>
      subst same
      simp only [dequeues, returned, at_]
      rfl
    | runs _ _ returned running =>
      rw [returned, running]
      exact List.append_nil _
    | refuses at_ refused same =>
      subst same
      simp only [dequeues, returned, at_, refused]
      rfl
    | delivers _ _ running _ _ returned _ _ idle =>
      rw [running, returned, dequeues, idle]
      rfl

/-- An enqueue takes effect when it returns. -/
theorem linearized_enqueues (s : QueueState) (a : QueueAction) :
    (s.linearized w a).filter (fun e => e.1.isEnqueue) = (s.returned w a).filter (fun e => e.1.isEnqueue) := by
  have none (wanted wOff : ℕ) : (s.queue.refused w wanted wOff).filter (fun e => e.1.isEnqueue) = [] := by
    rw [← filter_refused, List.filter_filter, List.filter_eq_nil_iff]
    intro e _
    cases e.1.isEnqueue <;> decide
  cases a with
  | enqueue | dequeue | producer => rfl
  | consumer =>
    simp only [linearized, returned]
    cases s.consumer with
    | entered wanted => exact none _ _
    | readOwn wanted wOff => exact (none _ _).symm
    | idle | copyRight | copyRest | fault => rfl

/-- In every run of one producer and one consumer, the calls have the answers of the byte FIFO if they are made
one after the other in the order in which they take effect, and the ring holds what the FIFO holds then. A call
takes effect between its beginning and its return, and returns the answer it has then: at any time a side has
had all answers but that of a refused dequeue which has not returned yet, and it has returned from all calls but
the one that runs. -/
theorem queue_linearizable (buffer : ℕ → UInt8) (bufferSize : ℕ) (small : bufferSize - sizeofAtomicQueue ≤ 2 ^ 63)
    {s s' : QueueState} {schedule : List QueueAction} (started : (queueMachine sizeBits buffer bufferSize).start s)
    (ran : (queueMachine sizeBits buffer bufferSize).run s schedule = some s') :
    let m := queueMachine sizeBits buffer bufferSize
    let effects := m.observed (linearized sizeBits) s schedule
    let returns := m.observed (returned sizeBits) s schedule
    let calls := m.observed (fun _ => called) s schedule
    fifoCalls (bufferSize - sizeofAtomicQueue - 1) [] (effects.map Prod.fst) =
        (effects.map Prod.snd, s'.published.drop s'.delivered.length) ∧
      effects.filter (fun e => e.1.isEnqueue) = returns.filter (fun e => e.1.isEnqueue) ∧
      effects.filter (fun e => !e.1.isEnqueue) = returns.filter (fun e => !e.1.isEnqueue) ++ s'.decided sizeBits ∧
      calls.filter Call.isEnqueue = (returns.map Prod.fst).filter Call.isEnqueue ++ s'.enqueues ∧
      calls.filter (fun c => !c.isEnqueue) =
        (returns.map Prod.fst).filter (fun c => !c.isEnqueue) ++ s'.dequeues := by
  intro m effects returns calls
  have fits : 2 * (bufferSize - sizeofAtomicQueue) ≤ 2 ^ sizeBits := by rw [sizeBits]; omega
  have first : m.Reachable (fun _ _ => True) s := .start started
  have inv := reachable_inv fits first
  have inv' := reachable_inv fits (first.run (fun _ _ _ => trivial) ran)
  obtain ⟨-, producer, consumer, published, delivered⟩ := started
  have empty : s.queue.contents = [] := by
    have history := inv.history
    rw [published, delivered] at history
    exact history.symm
  have kept : ∀ s s' a, QueueInv (bufferSize - sizeofAtomicQueue) s → m.step s a = some s' →
      QueueInv (bufferSize - sizeofAtomicQueue) s' := fun _ _ _ inv moved => step_inv fits inv moved
  refine ⟨?_, ?_, ?_, ?_, ?_⟩
  · have answers := run_effect fits inv ran
    rw [Effect, empty] at answers
    rw [answers, inv'.history, List.drop_left]
  · rw [Machine.filter_observed, Machine.filter_observed]
    exact congrArg (fun f => m.observed f s schedule) (funext₂ linearized_enqueues)
  · have agree := Machine.observed_pending _ kept (decided sizeBits)
      (fun _ _ _ inv moved => decided_step fits inv moved) inv ran
    rw [← Machine.filter_observed, ← Machine.filter_observed, decided, consumer] at agree
    exact agree
  · have agree := Machine.observed_pending _ kept enqueues
      (fun _ _ _ inv moved => enqueues_step fits inv moved) inv ran
    rw [enqueues, producer] at agree
    rw [Machine.map_observed, Machine.filter_observed, Machine.filter_observed]
    exact agree
  · have agree := Machine.observed_pending _ kept dequeues
      (fun _ _ _ inv moved => dequeues_step fits inv moved) inv ran
    rw [dequeues, consumer] at agree
    rw [Machine.map_observed, Machine.filter_observed, Machine.filter_observed]
    exact agree

/-- A dequeue finds the ring empty, and returns when a byte has been published. -/
def refusedDequeue : List QueueAction :=
  [.dequeue 1, .consumer, .enqueue [7], .producer, .producer, .producer, .producer, .consumer]

theorem queue_linearizable_refused :
    ∃ s', (queueMachine sizeBits (fun _ => 0) 28).run ⟨⟨0, 0, 4, fun _ => 0⟩, .idle, .idle, [], []⟩ refusedDequeue =
        some s' ∧ s'.consumer = .idle ∧
      fifoCalls 3 [] [.dequeue [] 1, .enqueue [7]] = ([⟨-1, []⟩, ⟨0, []⟩], s'.published.drop s'.delivered.length) := by
  obtain ⟨s', ran, idle⟩ : ∃ s', (queueMachine sizeBits (fun _ => 0) 28).run
      ⟨⟨0, 0, 4, fun _ => 0⟩, .idle, .idle, [], []⟩ refusedDequeue = some s' ∧ s'.consumer = .idle :=
    ⟨_, rfl, rfl⟩
  have answers := (queue_linearizable (fun _ => 0) 28 (by decide) ⟨rfl, rfl, rfl, rfl, rfl⟩ ran).1
  exact ⟨s', ran, idle, answers⟩

end Hseos.Atomic
