import Hseos.Lib.EventFd
import Hseos.Lib.Machine
import Hseos.Lib.Word
import Mathlib.Data.Fintype.Card
import Mathlib.Logic.Function.Basic

/-! # A ring of event counters

The parent creates an eventfd for each of its children, forks them, writes one to the first eventfd and
waits. A child reads its eventfd, prints the number while it does not exceed `N`, writes the next number
to the eventfd of the next child, and exits once that number exceeds `N`.

Every system call, print and test of the loop is a step of its own. Calls of `eventfd` and `fork` succeed;
a message of `check_result` is a printed line. Lines are in the order of the calls of `printf`, which is that
of the output on a terminal; into a file or a pipe each child writes its lines when it exits.
-/

namespace Hseos.EvfdSync

/-- Where a child is in its loop. -/
inductive ChildPc where
  | notForked
  | read
  | print (x : ℕ)
  | write (x : ℕ)
  | test (x : ℕ)
  | exited
deriving DecidableEq

/-- Where the parent is in `main`. -/
inductive ParentPc where
  | fork (i : ℕ)
  | write
  | wait
  | exited
deriving DecidableEq

/-- A printed line: a number with the child that prints it, or the message of `check_result`. -/
inductive Line where
  | number (child x : ℕ)
  | failed (msg : String)
deriving DecidableEq

/-- The processes and the eventfds, with the children the parent has waited for and the lines printed. -/
structure Ring (threads : ℕ) where
  parent : ParentPc
  children : Fin threads → ChildPc
  fds : Fin threads → ℕ
  reaped : ℕ
  printed : List Line

/-- A step of a process. -/
inductive RingAction (threads : ℕ) where
  | parent
  | child (i : Fin threads)

/-- `(current_id + 1) % THREADS`. -/
def nextId {threads : ℕ} (i : Fin threads) : Fin threads := ⟨(i + 1) % threads, Nat.mod_lt _ i.pos⟩

namespace Ring

variable {threads : ℕ}

def setChild (i : Fin threads) (pc : ChildPc) (s : Ring threads) : Ring threads :=
  { s with children := Function.update s.children i pc }

def setFd (i : Fin threads) (counter : ℕ) (s : Ring threads) : Ring threads :=
  { s with fds := Function.update s.fds i counter }

def print (line : Line) (s : Ring threads) : Ring threads := { s with printed := s.printed ++ [line] }

/-- `check_result`. -/
def checkResult (flag : Bool) (msg : String) (s : Ring threads) : Ring threads :=
  if flag then s else s.print (.failed msg)

/-- How many children have exited. -/
def exited (s : Ring threads) : ℕ := (Finset.univ.filter fun i => s.children i = .exited).card

/-- One step of a child. -/
def childStep (n : ℕ) (i : Fin threads) (s : Ring threads) : Option (Ring threads) :=
  match s.children i with
  | .notForked | .exited => none
  | .read =>
      (eventRead (s.fds i)).map fun (x, counter) => (s.setFd i counter).setChild i (.print x)
  | .print x =>
      some ((if x ≤ n then s.print (.number i x) else s).setChild i (.write (wordAdd 64 x 1)))
  | .write x =>
      (eventWrite (s.fds (nextId i)) x).map fun (written, counter) =>
        ((s.setFd (nextId i) counter).checkResult written "write efd").setChild i (.test x)
  | .test x => some (s.setChild i (if x > n then .exited else .read))

/-- One step of the parent. -/
def parentStep [NeZero threads] (s : Ring threads) : Option (Ring threads) :=
  match s.parent with
  | .fork i =>
      if child : i < threads then some { s.setChild ⟨i, child⟩ .read with parent := .fork (i + 1) }
      else some { s with parent := .write }
  | .write =>
      (eventWrite (s.fds 0) 1).map fun (written, counter) =>
        { (s.setFd 0 counter).checkResult written "init write" with parent := .wait }
  | .wait =>
      if s.reaped < s.exited then some { s with reaped := s.reaped + 1 }
      else if s.reaped < threads then none
      else some { s with parent := .exited }
  | .exited => none

end Ring

/-- All runs with these constants, from behind the creation of the eventfds. -/
def evfdSync (threads n : ℕ) [NeZero threads] : Machine (Ring threads) (RingAction threads) where
  start s := s = ⟨.fork 0, fun _ => .notForked, fun _ => 0, 0, []⟩
  step s
    | .parent => s.parentStep
    | .child i => s.childStep n i

end Hseos.EvfdSync
