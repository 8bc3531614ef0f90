import Hseos.Lib.Machine
import Mathlib.Data.Int.Basic

/-! # Numbers through a non-blocking pipe

The parent sends the numbers typed to it through a pipe, the child prints what it reads; both ends have
`O_NONBLOCK`. The parent ignores the result of `write`, so a number is lost when the pipe is full. The
child takes a read for failed if `res == -1 || ENOBUFS`, and `ENOBUFS` is not zero, so it prints every
record it reads as an error.

Each call of `scanf` and `write` is a step, and so is each iteration of the child, which shares nothing
but the pipe; `sleep` only delays it. A pipe holds `capacity` records. The child keeps its own copy of the
write end open, so an empty pipe is never at its end.
-/

namespace Hseos.Nonblocking

/-- `sizeof(x)`. -/
def sizeofX : ℤ := 4

/-- `EAGAIN`. -/
def eagain : ℕ := 11

/-- `ENOBUFS`. -/
def enobufs : ℕ := 105

/-- What the child prints: `value: x`, or the result of a read and `strerror` of this number. -/
inductive Line where
  | value (x : ℤ)
  | error (res : ℤ) (errno : ℕ)
deriving DecidableEq

/-- Where the parent is in its loop. -/
inductive Parent where
  | scanf
  | write
deriving DecidableEq

/-- Where the child is: in its loop, or behind it. -/
inductive Child where
  | loop
  | exited
deriving DecidableEq

/-- The numbers still to be typed and whether the input ends behind them, the pipe, the variables of both
processes, the lines the child has printed and the numbers whose `write` has returned. -/
structure System where
  typed : List ℤ
  ended : Bool
  parent : Parent
  parentX : ℤ
  pipe : List ℤ
  child : Child
  childX : ℤ
  errno : ℕ
  printed : List Line
  sent : List ℤ
deriving DecidableEq

/-- A step of a process. -/
inductive Action where
  | parent
  | child
deriving DecidableEq

namespace System

/-- `write(fd[1], &x, sizeof(x))`. -/
def write (capacity : ℕ) (s : System) : ℤ × System :=
  if s.pipe.length < capacity then (sizeofX, { s with pipe := s.pipe ++ [s.parentX] }) else (-1, s)

/-- `read(fd[0], &x, sizeof(x))`. -/
def read (s : System) : ℤ × System :=
  match s.pipe with
  | x :: rest => (sizeofX, { s with pipe := rest, childX := x })
  | [] => (-1, { s with errno := eagain })

def parentStep (capacity : ℕ) (s : System) : Option System :=
  match s.parent with
  | .scanf =>
      match s.typed with
      | x :: rest => some { s with parent := .write, parentX := x, typed := rest }
      -- at the end of the input `scanf` leaves `x` alone
      | [] => if s.ended then some { s with parent := .write } else none
  | .write =>
      let (_, after) := s.write capacity
      some { after with parent := .scanf, sent := s.sent ++ [s.parentX] }

def childStep (s : System) : Option System :=
  match s.child with
  | .exited => none
  | .loop =>
      let (res, s) := s.read
      if res = 0 then some { s with child := .exited }
      else if res = -1 ∨ enobufs ≠ 0 then some { s with printed := s.printed ++ [.error res s.errno] }
      else some { s with printed := s.printed ++ [.value s.childX] }

def step (capacity : ℕ) (s : System) : Action → Option System
  | .parent => s.parentStep capacity
  | .child => s.childStep

/-- The numbers of the lines with a value. -/
def values (s : System) : List ℤ :=
  s.printed.filterMap fun line => match line with
    | .value x => some x
    | .error _ _ => none

/-- The values printed and the records in the pipe are the numbers sent. -/
def Delivered (s : System) : Prop := s.values ++ s.pipe = s.sent

/-- Numbers sent are neither printed nor in the pipe. -/
def Short (s : System) : Prop := s.values.length + s.pipe.length < s.sent.length

/-- The action is no write to a full pipe and no read of a record. -/
def Keeps (capacity : ℕ) (s : System) : Action → Prop
  | .parent => s.parent = .write → s.pipe.length < capacity
  | .child => s.pipe = []

end System

/-- All runs of the program. -/
def nonblocking (capacity : ℕ) : Machine System Action where
  start s := s.parent = .scanf ∧ s.child = .loop ∧ s.pipe = [] ∧ s.printed = [] ∧ s.sent = []
  step := System.step capacity

variable {capacity : ℕ} {s s' : System} {a : Action}

section Step

/-- The child prints an error for every read, whatever it has read. -/
theorem childStep_cases (moved : s.childStep = some s') :
    s'.values = s.values ∧ s'.sent = s.sent ∧ s'.pipe = s.pipe.tail := by
  cases at_ : s.child with
  | exited => simp only [System.childStep, at_, reduceCtorEq] at moved
  | loop =>
    cases held : s.pipe with
    | nil =>
      have failed : s.read = (-1, { s with errno := eagain }) := by rw [System.read, held]
      simp only [System.childStep, at_, failed] at moved
      cases moved
      simp [System.values, held]
    | cons x rest =>
      have record : s.read = (4, { s with pipe := rest, childX := x }) := by
        rw [System.read, held]
        rfl
      simp only [System.childStep, at_, record] at moved
      cases moved
      simp [System.values]

/-- The parent sends the number whether it is written or not. -/
theorem parentStep_cases (moved : s.parentStep capacity = some s') :
    s'.values = s.values ∧
      (s.parent = .scanf ∧ s'.sent = s.sent ∧ s'.pipe = s.pipe ∨
        s.parent = .write ∧ s'.sent = s.sent ++ [s.parentX] ∧
          s'.pipe = if s.pipe.length < capacity then s.pipe ++ [s.parentX] else s.pipe) := by
  rw [System.parentStep] at moved
  split at moved
  · next at_ =>
    split at moved
    · cases moved
      exact ⟨rfl, .inl ⟨at_, rfl, rfl⟩⟩
    · split at moved
      · cases moved
        exact ⟨rfl, .inl ⟨at_, rfl, rfl⟩⟩
      · cases moved
  · next at_ =>
    rw [System.write] at moved
    split_ifs at moved ⊢ with room <;> cases moved <;> exact ⟨rfl, .inr ⟨at_, rfl, rfl⟩⟩

/-- What is missing stays missing. -/
theorem short_step (short : s.Short) (moved : s.step capacity a = some s') : s'.Short := by
  rw [System.Short] at short ⊢
  cases a with
  | child =>
    obtain ⟨values, sent, pipe⟩ := childStep_cases moved
    rw [values, sent, pipe, List.length_tail]
    omega
  | parent =>
    obtain ⟨values, ⟨_, sent, pipe⟩ | ⟨_, sent, pipe⟩⟩ := parentStep_cases moved
    · rw [values, sent, pipe]
      exact short
    · rw [values, sent, pipe, List.length_append, List.length_singleton]
      split
      · rw [List.length_append, List.length_singleton]
        omega
      · omega

/-- As long as nothing is missing, a step keeps it so, or a number is missing from then on. -/
theorem delivered_step (delivered : s.Delivered) (moved : s.step capacity a = some s') :
    (s.Keeps capacity a → s'.Delivered) ∧ (¬s.Keeps capacity a → s'.Short) := by
  have balance := congrArg List.length delivered
  rw [List.length_append] at balance
  rw [System.Delivered] at delivered ⊢
  rw [System.Short]
  cases a with
  | child =>
    obtain ⟨values, sent, pipe⟩ := childStep_cases moved
    rw [values, sent, pipe]
    constructor
    · intro empty
      change s.pipe = [] at empty
      rw [empty] at delivered ⊢
      exact delivered
    · intro record
      have positive := List.length_pos_of_ne_nil record
      rw [List.length_tail]
      omega
  | parent =>
    obtain ⟨values, ⟨at_, sent, pipe⟩ | ⟨at_, sent, pipe⟩⟩ := parentStep_cases moved
    · rw [values, sent, pipe]
      refine ⟨fun _ => delivered, fun full => absurd ?_ full⟩
      intro writing
      rw [at_] at writing
      cases writing
    · rw [values, sent, pipe]
      constructor
      · intro room
        rw [if_pos (room at_), ← List.append_assoc, delivered]
      · intro full
        have noRoom : ¬s.pipe.length < capacity := fun room => full fun _ => room
        rw [if_neg noRoom, List.length_append, List.length_singleton]
        omega

end Step

theorem not_delivered_of_short (short : s.Short) : ¬s.Delivered := by
  intro delivered
  have balance := congrArg List.length delivered
  rw [List.length_append] at balance
  rw [System.Short] at short
  omega

/-- For every typed input, every capacity and every interleaving: the values printed and the records in the
pipe are the numbers sent exactly if no write of the run found the pipe full and no read found a record. -/
theorem nonblocking_delivered_iff (capacity : ℕ) (start s : System) (schedule : List Action)
    (started : (nonblocking capacity).start start)
    (ran : (nonblocking capacity).run start schedule = some s) :
    s.Delivered ↔ (nonblocking capacity).AllSteps (System.Keeps capacity) start schedule := by
  obtain ⟨_, _, pipe, printed, sent⟩ := started
  have delivered : start.Delivered := by
    rw [System.Delivered, System.values, pipe, printed, sent]
    rfl
  apply Machine.holds_iff_allSteps System.Delivered System.Short _ _ _ _ delivered ran
  · exact fun _ _ _ delivered moved => (delivered_step delivered moved).1
  · exact fun _ _ _ delivered moved => (delivered_step delivered moved).2
  · exact fun _ _ _ short moved => short_step short moved
  · exact fun _ short => not_delivered_of_short short

/-- The program with one number typed to it. -/
def oneTyped : System := ⟨[7], false, .scanf, 0, [], .loop, 0, 0, [], []⟩

/-- Before the child has read it, the number is in the pipe. -/
theorem nonblocking_sends :
    ∃ s, (nonblocking 1).run oneTyped [.child, .parent, .parent] = some s ∧ s.pipe = [7] ∧
      s.Delivered := by
  obtain ⟨s, ran, pipe⟩ :
      ∃ s, (nonblocking 1).run oneTyped [.child, .parent, .parent] = some s ∧ s.pipe = [7] :=
    ⟨_, rfl, rfl⟩
  refine ⟨s, ran, pipe, (nonblocking_delivered_iff 1 oneTyped s _ ⟨rfl, rfl, rfl, rfl, rfl⟩ ran).mpr ?_⟩
  refine ⟨rfl, ?_⟩
  rintro _ ⟨⟩
  refine ⟨by simp [System.Keeps, oneTyped], ?_⟩
  rintro _ ⟨⟩
  refine ⟨fun _ => by decide, ?_⟩
  rintro _ ⟨⟩
  trivial

/-- The child reads the number and prints an error. -/
theorem nonblocking_loses :
    ∃ s, (nonblocking 1).start oneTyped ∧
      (nonblocking 1).run oneTyped [.parent, .parent, .child] = some s ∧
      s.sent = [7] ∧ s.pipe = [] ∧ s.printed = [.error 4 0] ∧ ¬s.Delivered := by
  refine ⟨_, ⟨rfl, rfl, rfl, rfl, rfl⟩, rfl, rfl, rfl, rfl, ?_⟩
  intro delivered
  cases delivered

end Hseos.Nonblocking
