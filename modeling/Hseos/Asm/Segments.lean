import Hseos.Lib.X86

/-! # The lengths of common parts of segments, in assembly

For each four numbers that it reads, the left ends and the right ends of two segments in turn, the program prints
the length of what the segments have in common. The greater left end and the smaller right end are chosen with the
jumps for "below" and "above", which compare numbers without their sign; whether anything is left of
the difference is decided by its sign.
-/

namespace Hseos.Segments

open X86

/-- The labels of `segments.S`. -/
inductive Label where
  | step
  | stepLeft
  | stepRight
  | stepPrint
  | stepFinish
  | stepExit
  | main
  | mainStep
deriving DecidableEq

/-- The functions of the C library. -/
inductive Function where
  | scanf
  | printf

/-- `segments.S`, with the addresses of `SC` and `PR`. -/
def text (sc pr : BitVec 32) : List (Line Label Function) := [
  .label .step,
  .instr (.push .ebp),
  .instr (.push .ebx),
  .instr (.mov (.reg .esp) (.reg .ebp)),
  .instr (.sub (.imm 36) (.reg .esp)),
  .instr (.lea 32 .esp .eax),
  .instr (.lea 28 .esp .ebx),
  .instr (.lea 24 .esp .ecx),
  .instr (.lea 20 .esp .edx),
  .instr (.mov (.reg .eax) (.mem 16 .esp)),
  .instr (.mov (.reg .ebx) (.mem 12 .esp)),
  .instr (.mov (.reg .ecx) (.mem 8 .esp)),
  .instr (.mov (.reg .edx) (.mem 4 .esp)),
  .instr (.mov (.imm sc) (.mem 0 .esp)),
  .instr (.callExternal .scanf),
  .instr (.cmp (.imm 4) (.reg .eax)),
  .instr (.jump .ne .stepFinish),
  .instr (.mov (.mem 32 .esp) (.reg .edx)),
  .instr (.mov (.mem 28 .esp) (.reg .ecx)),
  .instr (.mov (.mem 24 .esp) (.reg .ebx)),
  .instr (.mov (.mem 20 .esp) (.reg .eax)),
  .instr (.cmp (.reg .eax) (.reg .ecx)),
  .instr (.jump .b .stepLeft),
  .instr (.mov (.reg .ecx) (.reg .eax)),
  .label .stepLeft,
  .instr (.cmp (.reg .ebx) (.reg .edx)),
  .instr (.jump .a .stepRight),
  .instr (.mov (.reg .edx) (.reg .ebx)),
  .label .stepRight,
  .instr (.sub (.reg .eax) (.reg .ebx)),
  .instr (.jump .ns .stepPrint),
  .instr (.mov (.imm 0) (.reg .ebx)),
  .label .stepPrint,
  .instr (.mov (.reg .ebx) (.mem 4 .esp)),
  .instr (.mov (.imm pr) (.mem 0 .esp)),
  .instr (.callExternal .printf),
  .instr (.xor (.reg .eax) (.reg .eax)),
  .instr (.jmp .stepExit),
  .label .stepFinish,
  .instr (.mov (.imm 1) (.reg .eax)),
  .label .stepExit,
  .instr (.mov (.reg .ebp) (.reg .esp)),
  .instr (.pop .ebx),
  .instr (.pop .ebp),
  .instr .ret,
  .label .main,
  .instr (.push .ebp),
  .instr (.mov (.reg .esp) (.reg .ebp)),
  .instr (.and (.imm (-16)) (.reg .esp)),
  .label .mainStep,
  .instr (.call .step),
  .instr (.test (.reg .eax) (.reg .eax)),
  .instr (.jump .z .mainStep),
  .instr (.mov (.reg .ebp) (.reg .esp)),
  .instr (.pop .ebp),
  .instr (.xor (.reg .eax) (.reg .eax)),
  .instr .ret]

/-- The text at `SC`. -/
def SC : List Char := ['%', 'd', '%', 'd', '%', 'd', '%', 'd']

/-- The numbers that a format reads or writes. -/
def conversions (format : List Char) : ℕ := format.count '%'

/-- The numbers on the standard input, up to its end or to text that is no number, and those that were printed,
each on a line. -/
structure Io where
  stdin : List (BitVec 32)
  printed : List ℤ

/-- How far the frames of `step` and `main` reach above the stack pointer in a call of the library: 36 bytes, two
registers and the return address of `step`, up to 16 bytes that align the stack of `main`, and its register and
return address. -/
def frames : ℕ := 72

/-- What a call of the C library leaves of the registers, the flags and the memory. Of the frames of its callers it
may overwrite the arguments only. `noNumber` is what `scanf` returns where no number comes next: `EOF` at the end
of the input, and zero before other text. -/
structure Library where
  eax : State Io → BitVec 32
  ecx : State Io → BitVec 32
  edx : State Io → BitVec 32
  carry : State Io → Bool
  zero : State Io → Bool
  sign : State Io → Bool
  memory : State Io → Memory
  kept : ∀ s, Kept s.esp 20 frames s.memory (memory s)
  noNumber : State Io → BitVec 32
  noNumber_cases : ∀ s, noNumber s = -1 ∨ noNumber s = 0

def Library.returned (library : Library) (s : State Io) : State Io :=
  { s with
    eax := library.eax s, ecx := library.ecx s, edx := library.edx s, carry := library.carry s
    zero := library.zero s, sign := library.sign s, memory := library.memory s }

/-- The linked program: the addresses of its texts and of its instructions. -/
structure Image where
  sc : BitVec 32
  pr : BitVec 32
  layout : Layout (text sc pr)
  library : Library

/-- The values are stored at the pointers. -/
def storeAll (m : Memory) : List (BitVec 32) → List (BitVec 32) → Memory
  | p :: pointers, v :: values => storeAll (m.store p v) pointers values
  | _, _ => m

/-- The arguments behind the format. -/
def pointers (s : State Io) : List (BitVec 32) := (List.range (conversions SC)).map fun i => s.argument (i + 1)

namespace Image

variable (image : Image)

/-- `scanf`, with the format `SC`. It returns how many numbers it has read, or that there is none. -/
def scanf (s : State Io) : Option (State Io) :=
  if s.argument 0 = image.sc then
    some { image.library.returned s with
      eax :=
        if s.world.stdin = [] then image.library.noNumber s
        else BitVec.ofNat 32 (s.world.stdin.take (conversions SC)).length
      memory := storeAll (image.library.memory s) (pointers s) (s.world.stdin.take (conversions SC))
      world := { s.world with stdin := s.world.stdin.drop (conversions SC) } }
  else none

/-- `printf`, with the format `PR`. -/
def printf (s : State Io) : Option (State Io) :=
  if s.argument 0 = image.pr then
    some { image.library.returned s with
      world := { s.world with printed := s.world.printed ++ [(s.argument 1).toInt] } }
  else none

def program : Program Label Function Io where
  lines := text image.sc image.pr
  layout := image.layout
  external
    | .scanf => image.scanf
    | .printf => image.printf

end Image

section Blocks

/-! Each straight part of the program, with the conditions of its jumps. -/

variable (image : Image) {s : State Io}

theorem run_entry (at_ : s.pc = .line 0) :
    image.program.run 14 s = some { s.compare (s.esp - 4 - 4) 36 with
      eax := s.esp - 4 - 4 - 36 + 32
      ebx := s.esp - 4 - 4 - 36 + 28
      ecx := s.esp - 4 - 4 - 36 + 24
      edx := s.esp - 4 - 4 - 36 + 20
      ebp := s.esp - 4 - 4
      esp := s.esp - 4 - 4 - 36
      memory := ((((((s.memory.store (s.esp - 4) s.ebp).store (s.esp - 4 - 4) s.ebx).store
        (s.esp - 4 - 4 - 36 + 16) (s.esp - 4 - 4 - 36 + 32)).store
        (s.esp - 4 - 4 - 36 + 12) (s.esp - 4 - 4 - 36 + 28)).store
        (s.esp - 4 - 4 - 36 + 8) (s.esp - 4 - 4 - 36 + 24)).store
        (s.esp - 4 - 4 - 36 + 4) (s.esp - 4 - 4 - 36 + 20)).store
        (s.esp - 4 - 4 - 36 + 0) image.sc
      pc := .line 14 } := by
  obtain ⟨eax, ebx, ecx, edx, ebp, esp, carry, zero, sign, memory, pc, reads, world⟩ := s
  cases at_
  rfl

theorem run_count (at_ : s.pc = .line 15) :
    image.program.run 1 s = some { s.compare s.eax 4 with pc := .line 16 } := by
  obtain ⟨eax, ebx, ecx, edx, ebp, esp, carry, zero, sign, memory, pc, reads, world⟩ := s
  cases at_
  rfl

theorem run_incomplete (at_ : s.pc = .line 16) (other : s.zero = false) :
    image.program.run 3 s = some { s with eax := 1, pc := .line 40 } := by
  obtain ⟨eax, ebx, ecx, edx, ebp, esp, carry, zero, sign, memory, pc, reads, world⟩ := s
  cases at_
  cases other
  rfl

theorem run_complete (at_ : s.pc = .line 16) (same : s.zero = true) :
    image.program.run 5 s = some { s with
      eax := s.memory.load (s.esp + 20)
      ebx := s.memory.load (s.esp + 24)
      ecx := s.memory.load (s.esp + 28)
      edx := s.memory.load (s.esp + 32)
      pc := .line 21
      reads := s.reads ++ wordAt (s.esp + 32) ++ wordAt (s.esp + 28) ++ wordAt (s.esp + 24) ++
        wordAt (s.esp + 20) } := by
  obtain ⟨eax, ebx, ecx, edx, ebp, esp, carry, zero, sign, memory, pc, reads, world⟩ := s
  cases at_
  cases same
  rfl

theorem run_cmpLeft (at_ : s.pc = .line 21) :
    image.program.run 1 s = some { s.compare s.ecx s.eax with pc := .line 22 } := by
  obtain ⟨eax, ebx, ecx, edx, ebp, esp, carry, zero, sign, memory, pc, reads, world⟩ := s
  cases at_
  rfl

theorem run_below (at_ : s.pc = .line 22) (below : s.carry = true) :
    image.program.run 2 s = some { s with pc := .line 25 } := by
  obtain ⟨eax, ebx, ecx, edx, ebp, esp, carry, zero, sign, memory, pc, reads, world⟩ := s
  cases at_
  cases below
  rfl

theorem run_notBelow (at_ : s.pc = .line 22) (above : s.carry = false) :
    image.program.run 3 s = some { s with eax := s.ecx, pc := .line 25 } := by
  obtain ⟨eax, ebx, ecx, edx, ebp, esp, carry, zero, sign, memory, pc, reads, world⟩ := s
  cases at_
  cases above
  rfl

theorem run_cmpRight (at_ : s.pc = .line 25) :
    image.program.run 1 s = some { s.compare s.edx s.ebx with pc := .line 26 } := by
  obtain ⟨eax, ebx, ecx, edx, ebp, esp, carry, zero, sign, memory, pc, reads, world⟩ := s
  cases at_
  rfl

theorem run_above (at_ : s.pc = .line 26) (not_below : s.carry = false) (other : s.zero = false) :
    image.program.run 2 s = some { s with pc := .line 29 } := by
  obtain ⟨eax, ebx, ecx, edx, ebp, esp, carry, zero, sign, memory, pc, reads, world⟩ := s
  cases at_
  cases not_below
  cases other
  rfl

theorem run_notAbove (at_ : s.pc = .line 26) (at_most : (!s.carry && !s.zero) = false) :
    image.program.run 3 s = some { s with ebx := s.edx, pc := .line 29 } := by
  obtain ⟨eax, ebx, ecx, edx, ebp, esp, carry, zero, sign, memory, pc, reads, world⟩ := s
  cases at_
  cases carry <;> cases zero <;> first | rfl | cases at_most

theorem run_sub (at_ : s.pc = .line 29) :
    image.program.run 1 s = some { s.compare s.ebx s.eax with ebx := s.ebx - s.eax, pc := .line 30 } := by
  obtain ⟨eax, ebx, ecx, edx, ebp, esp, carry, zero, sign, memory, pc, reads, world⟩ := s
  cases at_
  rfl

theorem run_notSigned (at_ : s.pc = .line 30) (positive : s.sign = false) :
    image.program.run 2 s = some { s with pc := .line 33 } := by
  obtain ⟨eax, ebx, ecx, edx, ebp, esp, carry, zero, sign, memory, pc, reads, world⟩ := s
  cases at_
  cases positive
  rfl

theorem run_signed (at_ : s.pc = .line 30) (negative : s.sign = true) :
    image.program.run 3 s = some { s with ebx := 0, pc := .line 33 } := by
  obtain ⟨eax, ebx, ecx, edx, ebp, esp, carry, zero, sign, memory, pc, reads, world⟩ := s
  cases at_
  cases negative
  rfl

theorem run_print (at_ : s.pc = .line 33) :
    image.program.run 2 s = some { s with
      memory := (s.memory.store (s.esp + 4) s.ebx).store (s.esp + 0) image.pr
      pc := .line 35 } := by
  obtain ⟨eax, ebx, ecx, edx, ebp, esp, carry, zero, sign, memory, pc, reads, world⟩ := s
  cases at_
  rfl

theorem run_printed (at_ : s.pc = .line 36) :
    image.program.run 2 s = some { s.logic (s.eax ^^^ s.eax) with eax := s.eax ^^^ s.eax, pc := .line 40 } := by
  obtain ⟨eax, ebx, ecx, edx, ebp, esp, carry, zero, sign, memory, pc, reads, world⟩ := s
  cases at_
  rfl

theorem run_exit (at_ : s.pc = .line 40) :
    image.program.run 5 s = some { s with
      ebx := s.memory.load s.ebp
      ebp := s.memory.load (s.ebp + 4)
      esp := s.ebp + 4 + 4 + 4
      pc := image.program.goTo (s.memory.load (s.ebp + 4 + 4))
      reads := s.reads ++ wordAt s.ebp ++ wordAt (s.ebp + 4) ++ wordAt (s.ebp + 4 + 4) } := by
  obtain ⟨eax, ebx, ecx, edx, ebp, esp, carry, zero, sign, memory, pc, reads, world⟩ := s
  cases at_
  rfl

theorem run_main (at_ : s.pc = .line 45) :
    image.program.run 4 s = some { s.logic (s.esp - 4 &&& -16) with
      ebp := s.esp - 4
      esp := s.esp - 4 &&& -16
      memory := s.memory.store (s.esp - 4) s.ebp
      pc := .line 49 } := by
  obtain ⟨eax, ebx, ecx, edx, ebp, esp, carry, zero, sign, memory, pc, reads, world⟩ := s
  cases at_
  rfl

theorem run_call (at_ : s.pc = .line 49) :
    image.program.run 2 s = some { s with
      esp := s.esp - 4
      memory := s.memory.store (s.esp - 4) (image.layout.address 51)
      pc := .line 0 } := by
  obtain ⟨eax, ebx, ecx, edx, ebp, esp, carry, zero, sign, memory, pc, reads, world⟩ := s
  cases at_
  rfl

theorem run_test (at_ : s.pc = .line 51) :
    image.program.run 1 s = some { s.logic (s.eax &&& s.eax) with pc := .line 52 } := by
  obtain ⟨eax, ebx, ecx, edx, ebp, esp, carry, zero, sign, memory, pc, reads, world⟩ := s
  cases at_
  rfl

theorem run_again (at_ : s.pc = .line 52) (more : s.zero = true) :
    image.program.run 1 s = some { s with pc := .line 49 } := by
  obtain ⟨eax, ebx, ecx, edx, ebp, esp, carry, zero, sign, memory, pc, reads, world⟩ := s
  cases at_
  cases more
  rfl

theorem run_ending (at_ : s.pc = .line 52) (ends : s.zero = false) :
    image.program.run 5 s = some { s.logic (s.eax ^^^ s.eax) with
      eax := s.eax ^^^ s.eax
      ebp := s.memory.load s.ebp
      esp := s.ebp + 4 + 4
      pc := image.program.goTo (s.memory.load (s.ebp + 4))
      reads := s.reads ++ wordAt s.ebp ++ wordAt (s.ebp + 4) } := by
  obtain ⟨eax, ebx, ecx, edx, ebp, esp, carry, zero, sign, memory, pc, reads, world⟩ := s
  cases at_
  cases ends
  rfl

end Blocks

end Hseos.Segments
