import Hseos.Lib.Machine
import Hseos.Signal.NumberPipe
import Mathlib.Logic.Function.Basic

/-! # The ping-pong program

A parent forks two children that share one pipe, writes the process id of the second child and the
number one into the pipe and wakes the first child. A child that is woken takes a number from the pipe,
prints it, wakes the other child and only then writes the next number.

Every system call, print and test of the loop is a step of its own. A process has one pending `SIGUSR1`
at most, which reading the signal descriptor consumes; a signal to a process that has ended is lost.
The children keep both ends of the pipe open, so a read never finds its end. Calls of `fork`, `pipe`,
`signalfd` and `kill` succeed.
-/

namespace Hseos.Signal

/-- The children. -/
inductive Which where
  | child1
  | child2
deriving DecidableEq

def Which.other : Which → Which
  | .child1 => .child2
  | .child2 => .child1

/-- What the two calls of `fork` return in the parent. -/
structure Pids where
  of : Which → ℕ
  positive : ∀ w, 0 < of w
  bound : ∀ w, of w < 2 ^ 31
  distinct : of .child1 ≠ of .child2

/-- Where a child is in `run_child`. -/
inductive ChildPc where
  | notForked
  | readPid
  | readSig
  | readRecord
  | print
  | kill
  | write
  | check
  | exited (status : ℤ)
  | fault (reason : Fault)
deriving DecidableEq

/-- A child with the variables `pid`, `is_first` and `v` of `run_child`. -/
structure Child where
  pc : ChildPc
  pid : ℤ
  isFirst : Bool
  v : ℕ
deriving DecidableEq

/-- Where the parent is in `main`. -/
inductive ParentPc where
  | fork1
  | fork2
  | initChild1
  | initSequence
  | kill
  | closeRead
  | closeWrite
  | wait
  | exited (status : ℤ)
  | fault (reason : Fault)
deriving DecidableEq

/-- A printed line: who and which number, or the message of `check_result`. -/
inductive Line where
  | turn (who v : ℕ)
  | failed (msg : String)
deriving DecidableEq

/-- A record read from the pipe: who took it, whether in the handshake, and the number in it. -/
structure Taken where
  who : Which
  handshake : Bool
  number : ℕ
deriving DecidableEq

/-- The processes, the pipe and the pending signals, with the children the parent has waited for, the
lines printed, the records taken, and whether a signal was sent to a process that had one pending. -/
structure PingPongState where
  parent : ParentPc
  child : Which → Child
  pipe : List Buffer
  pending : Which → Bool
  reaped : ℕ
  printed : List Line
  taken : List Taken
  coalesced : Bool

/-- A step of a process, with what the buffer of `write_number` holds before. -/
inductive PingPongAction where
  | parent (s : Buffer)
  | child (w : Which) (s : Buffer)

/-- The child whose process id this is. -/
def Pids.which (pids : Pids) (pid : ℤ) : Option Which :=
  if pid = pids.of .child1 then some .child1
  else if pid = pids.of .child2 then some .child2
  else none

def ChildPc.ended : ChildPc → Bool
  | .exited _ | .fault _ => true
  | .notForked | .readPid | .readSig | .readRecord | .print | .kill | .write | .check => false

def ChildPc.live (pc : ChildPc) : Bool := pc ≠ .notForked ∧ ¬pc.ended

/-- `run_child` up to its first system call. -/
def Child.begin (pid : ℤ) (v : ℕ) : Child := ⟨if pid = 0 then .readPid else .readSig, pid, false, v⟩

namespace PingPongState

def setChild (w : Which) (c : Child) (sys : PingPongState) : PingPongState :=
  { sys with child := Function.update sys.child w c }

def setPc (w : Which) (pc : ChildPc) (sys : PingPongState) : PingPongState :=
  sys.setChild w { sys.child w with pc := pc }

/-- `kill(pid, SIGUSR1)`. -/
def kill (pids : Pids) (pid : ℤ) (sys : PingPongState) : PingPongState :=
  match pids.which pid with
  | none => sys
  | some w =>
      if (sys.child w).pc.live then
        { sys with
          pending := Function.update sys.pending w true
          coalesced := sys.coalesced || sys.pending w }
      else sys

/-- One step of `run_child`. -/
def childStep (pids : Pids) (n : ℕ) (w : Which) (s : Buffer) (sys : PingPongState) : Option PingPongState :=
  let c := sys.child w
  match c.pc with
  | .notForked => none
  | .readPid =>
      match sys.pipe with
      | [] => none
      | record :: rest =>
          let sys := { sys with pipe := rest }
          match readNumber record 0 with
          | .error reason => some (sys.setPc w (.fault reason))
          | .ok (status, t) =>
              if status ≠ -1 then
                some { sys.setChild w ⟨.readSig, (t : ℤ).bmod (2 ^ 32), true, c.v⟩ with
                  taken := sys.taken ++ [⟨w, true, t⟩] }
              else
                some { sys.setPc w (.exited (-1)) with
                  printed := sys.printed ++ [.failed "wait pid"] }
  | .readSig =>
      if sys.pending w then
        some { sys.setPc w .readRecord with pending := Function.update sys.pending w false }
      else none
  | .readRecord =>
      match sys.pipe with
      | [] => none
      | record :: rest =>
          let sys := { sys with pipe := rest }
          match readNumber record c.v with
          | .error reason => some (sys.setPc w (.fault reason))
          | .ok (_, v) =>
              some { sys.setChild w { c with pc := .print, v := v } with
                taken := sys.taken ++ [⟨w, false, v⟩] }
  | .print =>
      if c.v ≤ n then
        some { sys.setPc w .kill with
          printed := sys.printed ++ [.turn (if c.isFirst then 1 else 2) c.v] }
      else some (sys.setPc w .kill)
  | .kill => some ((sys.setPc w .write).kill pids c.pid)
  | .write =>
      match writeNumber s (wordAdd 64 c.v 1) with
      | .error reason => some (sys.setPc w (.fault reason))
      | .ok (_, record) => some { sys.setPc w .check with pipe := sys.pipe ++ [record] }
  | .check => some (sys.setPc w (if c.v ≥ n then .exited 0 else .readSig))
  | .exited _ | .fault _ => none

/-- `check_result(write_number(pipe_fd[1], v) != -1, msg)` of the parent. -/
def initPipe (s : Buffer) (v : ℕ) (msg : String) (next : ParentPc) (sys : PingPongState) : PingPongState :=
  match writeNumber s v with
  | .error reason => { sys with parent := .fault reason }
  | .ok (status, record) =>
      if status ≠ -1 then { sys with parent := next, pipe := sys.pipe ++ [record] }
      else { sys with parent := .exited (-1), printed := sys.printed ++ [.failed msg] }

/-- How many children have ended. -/
def ended (sys : PingPongState) : ℕ :=
  (if (sys.child .child1).pc.ended then 1 else 0) + if (sys.child .child2).pc.ended then 1 else 0

/-- One step of `main`. -/
def parentStep (pids : Pids) (s : Buffer) (sys : PingPongState) : Option PingPongState :=
  match sys.parent with
  | .fork1 =>
      some { sys.setChild .child1 (.begin 0 (sys.child .child1).v) with parent := .fork2 }
  | .fork2 =>
      some { sys.setChild .child2 (.begin (pids.of .child1) (sys.child .child2).v) with
        parent := .initChild1 }
  | .initChild1 => some (sys.initPipe s (pids.of .child2) "init child1" .initSequence)
  | .initSequence => some (sys.initPipe s 1 "init sequence" .kill)
  | .kill => some ({ sys with parent := .closeRead }.kill pids (pids.of .child1))
  | .closeRead => some { sys with parent := .closeWrite }
  | .closeWrite => some { sys with parent := .wait }
  | .wait =>
      if sys.reaped < sys.ended then some { sys with reaped := sys.reaped + 1 }
      else if sys.reaped < 2 then none
      else some { sys with parent := .exited 0 }
  | .exited _ | .fault _ => none

def step (pids : Pids) (n : ℕ) (sys : PingPongState) : PingPongAction → Option PingPongState
  | .parent s => sys.parentStep pids s
  | .child w s => sys.childStep pids n w s

end PingPongState

/-- All runs of the program with limit `n`; the children's `v` is not initialised. -/
def pingPong (pids : Pids) (n : ℕ) : Machine PingPongState PingPongAction where
  start sys := ∃ v : Which → ℕ, sys =
    ⟨.fork1, fun w => ⟨.notForked, 0, false, v w⟩, [], fun _ => false, 0, [], [], false⟩
  step := PingPongState.step pids n

end Hseos.Signal
