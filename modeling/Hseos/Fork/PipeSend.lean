import Hseos.Lib.Machine
import Mathlib.Data.Int.Basic

/-! # Sending the input through a pipe

`main` creates a pipe and forks. The parent puts the write end in place of its standard output and the
child the read end in place of its standard input; then both copy their input to their output until it
ends. Both check the result of `dup2` with one subtracted, which for the parent is zero.

The two processes run the same code with tables of their own for the four descriptors in use. Every
system call is a step; `read` and `write` come with the number of bytes they transfer. A pipe holds
`capacity` bytes; it ends when no process has its write end open, and a write to it kills the writer when
no process has its read end open. What a process has printed is written to its standard output when it
exits. Calls of `pipe` and `fork` succeed.
-/

namespace Hseos.PipeSend

/-- What a descriptor may stand for: the standard streams of the program and the ends of the pipe. -/
inductive File where
  | input
  | output
  | pipeRead
  | pipeWrite
deriving DecidableEq

/-- The descriptors 0 and 1, `pipe_fd[0]` and `pipe_fd[1]`, as far as they are open. -/
structure Descriptors where
  stdin : Option File
  stdout : Option File
  pipeFd0 : Option File
  pipeFd1 : Option File
deriving DecidableEq

/-- Where a process is in `main`, with the data that `ensure_write` still has to write. -/
inductive Pc where
  | close
  | dup2
  | checkResult (flag : ℤ)
  | closeFd0
  | closeFd1
  | read
  | ensureWrite (data : List UInt8)
  | flush
  | exited
  | killed
deriving DecidableEq

/-- A process with its descriptors and what it has printed. -/
structure Process where
  pc : Pc
  fds : Descriptors
  stdio : List UInt8
deriving DecidableEq

/-- The processes, told apart by the variable `child`. -/
inductive Role where
  | parent
  | child
deriving DecidableEq

/-- The processes, the standard input that is left, the pipe and the standard output. -/
structure System where
  parent : Process
  child : Process
  input : List UInt8
  pipe : List UInt8
  output : List UInt8

/-- A step of a process, with the number of bytes for a system call that transfers some. -/
structure SystemAction where
  role : Role
  count : ℕ

/-- What `check_result` prints, with the text of `strerror`. -/
def checkMessage (strerror : List UInt8) : List UInt8 :=
  "dup2 error: ".toList.map (fun c => c.toNat.toUInt8) ++ strerror ++ [10]

def Descriptors.closed : Descriptors := ⟨none, none, none, none⟩

/-- Some descriptor stands for this file. -/
def Descriptors.holds (file : File) (fds : Descriptors) : Bool :=
  fds.stdin = some file ∨ fds.stdout = some file ∨ fds.pipeFd0 = some file ∨ fds.pipeFd1 = some file

/-- What `write` has done. -/
inductive Written where
  | bytes (count : ℕ)
  | failed
  | killed

namespace System

def process (role : Role) (s : System) : Process :=
  match role with
  | .parent => s.parent
  | .child => s.child

def setProcess (role : Role) (p : Process) (s : System) : System :=
  match role with
  | .parent => { s with parent := p }
  | .child => { s with child := p }

/-- Some process has this file open. -/
def isOpen (file : File) (s : System) : Bool := s.parent.fds.holds file || s.child.fds.holds file

/-- `read` of up to `sizeof(buf)` bytes. The outcome is no data on an error, and empty data at the end;
there is none while the call blocks. -/
def read (file : Option File) (count : ℕ) (s : System) : Option (Option (List UInt8) × System) :=
  match file with
  | some .input =>
      if s.input = [] then some (some [], s)
      else if 1 ≤ count ∧ count ≤ 1024 ∧ count ≤ s.input.length then
        some (some (s.input.take count), { s with input := s.input.drop count })
      else none
  | some .pipeRead =>
      if s.pipe = [] then if s.isOpen .pipeWrite then none else some (some [], s)
      else if 1 ≤ count ∧ count ≤ 1024 ∧ count ≤ s.pipe.length then
        some (some (s.pipe.take count), { s with pipe := s.pipe.drop count })
      else none
  | some .output | some .pipeWrite | none => some (none, s)

/-- `write` of this data; there is no outcome while the call blocks. -/
def write (capacity : ℕ) (file : Option File) (data : List UInt8) (count : ℕ) (s : System) :
    Option (Written × System) :=
  match file with
  | some .output =>
      if 1 ≤ count ∧ count ≤ data.length then
        some (.bytes count, { s with output := s.output ++ data.take count })
      else none
  | some .pipeWrite =>
      if ¬s.isOpen .pipeRead then some (.killed, s)
      else if 1 ≤ count ∧ count ≤ data.length ∧ s.pipe.length + count ≤ capacity then
        some (.bytes count, { s with pipe := s.pipe ++ data.take count })
      else none
  | some .input | some .pipeRead | none => some (.failed, s)

/-- One step of `main`. -/
def step (capacity : ℕ) (strerror : List UInt8) (s : System) (a : SystemAction) : Option System :=
  let p := s.process a.role
  match p.pc with
  | .close =>
      let fds := match a.role with
        | .parent => { p.fds with stdout := none }
        | .child => { p.fds with stdin := none }
      some (s.setProcess a.role { p with pc := .dup2, fds := fds })
  | .dup2 =>
      match a.role with
      | .parent =>
        some (s.setProcess .parent { p with
          pc := .checkResult ((if p.fds.pipeFd1.isSome then 1 else -1) - 1)
          fds := { p.fds with stdout := p.fds.pipeFd1 } })
      | .child =>
        some (s.setProcess .child { p with
          pc := .checkResult ((if p.fds.pipeFd0.isSome then 0 else -1) - 1)
          fds := { p.fds with stdin := p.fds.pipeFd0 } })
  | .checkResult flag =>
      let stdio := if flag = 0 then p.stdio ++ checkMessage strerror else p.stdio
      some (s.setProcess a.role { p with pc := .closeFd0, stdio := stdio })
  | .closeFd0 =>
      some (s.setProcess a.role { p with pc := .closeFd1, fds := { p.fds with pipeFd0 := none } })
  | .closeFd1 =>
      some (s.setProcess a.role { p with pc := .read, fds := { p.fds with pipeFd1 := none } })
  | .read =>
      (s.read p.fds.stdin a.count).map fun (outcome, s) =>
        let pc := match outcome with
          | none | some [] => .flush
          | some data => .ensureWrite data
        s.setProcess a.role { p with pc := pc }
  | .ensureWrite data =>
      (s.write capacity p.fds.stdout data a.count).map fun (outcome, s) =>
        match outcome with
        | .bytes count =>
            let rest := data.drop count
            s.setProcess a.role { p with pc := if rest = [] then .read else .ensureWrite rest }
        | .failed => s.setProcess a.role { p with pc := .flush }
        | .killed => s.setProcess a.role { p with pc := .killed, fds := .closed }
  | .flush =>
      if p.stdio = [] then some (s.setProcess a.role { p with pc := .exited, fds := .closed })
      else
        (s.write capacity p.fds.stdout p.stdio a.count).map fun (outcome, s) =>
          match outcome with
          | .bytes count => s.setProcess a.role { p with stdio := p.stdio.drop count }
          | .failed => s.setProcess a.role { p with stdio := [] }
          | .killed => s.setProcess a.role { p with pc := .killed, fds := .closed }
  | .exited | .killed => none

end System

/-- A process behind `fork`. -/
def Process.forked : Process :=
  ⟨.close, ⟨some .input, some .output, some .pipeRead, some .pipeWrite⟩, []⟩

/-- All runs on this input, from behind `fork` on. -/
def pipeSend (capacity : ℕ) (strerror input : List UInt8) : Machine System SystemAction where
  start s := s = ⟨.forked, .forked, input, [], []⟩
  step := System.step capacity strerror

end Hseos.PipeSend
