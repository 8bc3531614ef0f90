import Hseos.Lib.Machine
import Hseos.Lib.Word
import Mathlib.Data.Int.Basic
import Mathlib.Logic.Function.Basic

/-! # Printing a sequence in turns

The parent and its children share a counter, and pass the right to use it on by `SIGUSR1`. A handler
sets `received`; `wait_signal` calls `pause` until it is set and clears it. A child that has left
`wait_signal` increments the counter, prints its old value and signals the parent, and the parent signals
the next child while the counter is below `LIMIT`; then it kills them all.

Every system call, access to the shared counter and test of `received` is a step of its own, and the
handler of a process may run between any two of them. `pause` returns only when a handler has run while
it waits, and `raise` when its handler has run. A process that has been sent `SIGKILL` may go on for a
while. Calls of `mmap` and `fork` succeed.
-/

namespace Hseos.Signal

/-- Where a process is in `wait_signal`. -/
inductive WaitPc where
  | test
  | pause
  | paused
  | clear
deriving DecidableEq

/-- A step of `wait_signal`: `received` behind it and where the process is then, nowhere when it returns. -/
def WaitPc.step (received : Bool) : WaitPc → Option (Bool × Option WaitPc)
  | .test => some (received, some (if received then .clear else .pause))
  | .pause => some (received, some .paused)
  | .paused => none
  | .clear => some (false, none)

/-- Where a process is behind a handler. -/
def WaitPc.wake : WaitPc → WaitPc
  | .paused => .test
  | .test => .test
  | .pause => .pause
  | .clear => .clear

/-- Where the parent is in `main`. -/
inductive SequenceParentPc (count : ℕ) where
  | fork (i : ℕ)
  | raise
  | raised
  | wait (at_ : WaitPc)
  | choose
  | kill (next : Fin count)
  | killAll (i : ℕ)
  | exited
deriving DecidableEq

/-- Where a child is in `main`. -/
inductive SequenceChildPc where
  | notForked
  | getppid
  | wait (at_ : WaitPc)
  | load
  | store (value : ℤ)
  | print (value : ℤ)
  | kill
  | dead
  | fault (reason : Fault)
deriving DecidableEq

/-- The parent with its flag, its pending `SIGUSR1` and `index`. -/
structure SequenceParent (count : ℕ) where
  pc : SequenceParentPc count
  received : Bool
  pending : Bool
  index : ℕ

/-- A child with its flag and its pending signals. `parent` says whether its variable of this name is the
process id of the parent, which may have exited before the call of `getppid`. -/
structure SequenceChild where
  pc : SequenceChildPc
  received : Bool
  pending : Bool
  parent : Bool
  doomed : Bool

/-- The processes and the shared counter, with how often it was incremented and the values printed. -/
structure Sequence (count : ℕ) where
  parent : SequenceParent count
  children : Fin count → SequenceChild
  mem : ℤ
  increments : ℕ
  printed : List ℤ

/-- A step of a process, its handler, or its death by `SIGKILL`. The parent is `none`. -/
inductive SequenceAction (count : ℕ) where
  | step (p : Option (Fin count))
  | deliver (p : Option (Fin count))
  | die (i : Fin count)

def SequenceParentPc.wake {count : ℕ} : SequenceParentPc count → SequenceParentPc count
  | .wait at_ => .wait at_.wake
  | pc => pc

def SequenceChildPc.wake : SequenceChildPc → SequenceChildPc
  | .wait at_ => .wait at_.wake
  | pc => pc

def SequenceChildPc.live : SequenceChildPc → Bool
  | .notForked | .dead | .fault _ => false
  | .getppid | .wait _ | .load | .store _ | .print _ | .kill => true

namespace Sequence

variable {count : ℕ}

def setChild (i : Fin count) (c : SequenceChild) (s : Sequence count) : Sequence count :=
  { s with children := Function.update s.children i c }

/-- `kill(parent, SIGUSR1)`. -/
def signalParent (s : Sequence count) : Sequence count :=
  if s.parent.pc = .exited then s else { s with parent := { s.parent with pending := true } }

/-- `kill(children[i], SIGUSR1)`. -/
def signalChild (i : Fin count) (s : Sequence count) : Sequence count :=
  if (s.children i).pc.live then s.setChild i { s.children i with pending := true } else s

/-- One step of a child. -/
def childStep (i : Fin count) (s : Sequence count) : Option (Sequence count) :=
  let c := s.children i
  match c.pc with
  | .notForked | .dead | .fault _ => none
  | .getppid =>
      some (s.setChild i { c with pc := .wait .test, parent := s.parent.pc ≠ .exited })
  | .wait at_ =>
      (at_.step c.received).map fun (received, next) =>
        s.setChild i { c with pc := next.elim .load .wait, received := received }
  | .load => some (s.setChild i { c with pc := .store s.mem })
  | .store value =>
      match intAdd value 1 with
      | .error reason => some (s.setChild i { c with pc := .fault reason })
      | .ok next =>
          some { s.setChild i { c with pc := .print value } with
            mem := next, increments := s.increments + 1 }
  | .print value =>
      some { s.setChild i { c with pc := .kill } with printed := s.printed ++ [value] }
  | .kill =>
      let s := s.setChild i { c with pc := .wait .test }
      some (if c.parent then s.signalParent else s)

/-- One step of the parent. -/
def parentStep [NeZero count] (limit : ℤ) (s : Sequence count) : Option (Sequence count) :=
  let p := s.parent
  match p.pc with
  | .fork i =>
      if child : i < count then
        some { s.setChild ⟨i, child⟩ ⟨.getppid, p.received, false, false, false⟩ with
          parent := { p with pc := .fork (i + 1) } }
      else some { s with parent := { p with pc := .raise } }
  | .raise => some { s with parent := { p with pc := .raised, pending := true } }
  | .raised => if p.pending then none else some { s with parent := { p with pc := .wait .test } }
  | .wait at_ =>
      (at_.step p.received).map fun (received, next) =>
        { s with parent := { p with pc := next.elim .choose .wait, received := received } }
  | .choose =>
      let next := Fin.ofNat count p.index
      some { s with parent := { p with
        pc := if s.mem < limit then .kill next else .killAll 0
        index := wordAdd 64 p.index 1 } }
  | .kill next => some ({ s with parent := { p with pc := .wait .test } }.signalChild next)
  | .killAll i =>
      if child : i < count then
        some { s.setChild ⟨i, child⟩ { s.children ⟨i, child⟩ with doomed := true } with
          parent := { p with pc := .killAll (i + 1) } }
      else some { s with parent := { p with pc := .exited } }
  | .exited => none

/-- The handler of the parent. -/
def parentHandler (s : Sequence count) : Option (Sequence count) :=
  if s.parent.pending ∧ s.parent.pc ≠ .exited then
    some { s with parent := { s.parent with
      pc := s.parent.pc.wake, received := true, pending := false } }
  else none

/-- The handler of a child. -/
def childHandler (i : Fin count) (s : Sequence count) : Option (Sequence count) :=
  let c := s.children i
  if c.pending ∧ c.pc.live then
    some (s.setChild i { c with pc := c.pc.wake, received := true, pending := false })
  else none

def step [NeZero count] (limit : ℤ) (s : Sequence count) :
    SequenceAction count → Option (Sequence count)
  | .step none => s.parentStep limit
  | .step (some i) => s.childStep i
  | .deliver none => s.parentHandler
  | .deliver (some i) => s.childHandler i
  | .die i =>
      let c := s.children i
      if c.doomed ∧ c.pc.live then some (s.setChild i { c with pc := .dead }) else none

end Sequence

/-- All runs with these constants, from the first `fork` on. -/
def sequencePrint (count : ℕ) [NeZero count] (limit : ℤ) :
    Machine (Sequence count) (SequenceAction count) where
  start s := s =
    ⟨⟨.fork 0, false, false, 0⟩, fun _ => ⟨.notForked, false, false, false, false⟩, 0, 0, []⟩
  step := Sequence.step limit

end Hseos.Signal
