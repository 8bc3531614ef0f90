import Mathlib.Logic.Relation
import Mathlib.Data.BitVec
import Mathlib.Tactic.IntervalCases

/-! # A part of the 32-bit x86

Programs are lists of lines in the order of their source, in which labels take a step of their own. Their
functions call each other, and functions of a library: a `call` pushes the address of the instruction behind
it, and `ret` goes on at the address it takes from the stack, at a line of the program or outside of it. What
a function of the library does is a parameter; it has returned in the state it leads to.

A state has the registers, the flags, the bytes of the memory, all addresses that the program has read, and
what is outside of the processor. Instructions have their operands in the order of the GNU assembler, the
source first. An operand is a register, a number or four bytes of the memory at a register and a displacement.
-/

namespace Hseos.X86

inductive Reg where
  | eax
  | ebx
  | ecx
  | edx
  | ebp
  | esp
deriving DecidableEq

/-- The low bytes of two registers. -/
inductive ByteReg where
  | cl
  | dl
deriving DecidableEq

inductive Operand where
  | reg (r : Reg)
  | imm (value : BitVec 32)
  | mem (displacement : BitVec 32) (base : Reg)

/-- The conditions of jumps: below, above, zero, not zero and not signed. -/
inductive Condition where
  | b
  | a
  | z
  | ne
  | ns

inductive Instr (Label External : Type*) where
  | push (source : Reg)
  | pop (target : Reg)
  | mov (source target : Operand)
  | loadByte (base : Reg) (target : ByteReg)
  | lea (displacement : BitVec 32) (base target : Reg)
  | sub (source target : Operand)
  | inc (target : Reg)
  | cmp (source target : Operand)
  | cmpByte (source target : ByteReg)
  | test (source target : Operand)
  | testByte (source target : ByteReg)
  | and (source target : Operand)
  | xor (source target : Operand)
  | jump (condition : Condition) (label : Label)
  | jmp (label : Label)
  | call (label : Label)
  | callExternal (function : External)
  | ret

inductive Line (Label External : Type*) where
  | label (label : Label)
  | instr (instr : Instr Label External)

/-- The next line, or the address the program has returned to. -/
inductive Pc where
  | line (n : ℕ)
  | returned (address : BitVec 32)
deriving DecidableEq

abbrev Memory := BitVec 32 → BitVec 8

/-- The processor with its memory, what has been read of it, and what is outside. -/
structure State (World : Type*) where
  eax : BitVec 32
  ebx : BitVec 32
  ecx : BitVec 32
  edx : BitVec 32
  ebp : BitVec 32
  esp : BitVec 32
  carry : Bool
  zero : Bool
  sign : Bool
  memory : Memory
  pc : Pc
  reads : List (BitVec 32)
  world : World

/-- The addresses of the instructions of a program. -/
structure Layout {Label External : Type*} (lines : List (Line Label External)) where
  address : ℕ → BitVec 32
  lineAt : BitVec 32 → Option ℕ
  lineAt_address : ∀ n instr, lines[n]? = some (.instr instr) → lineAt (address n) = some n

/-- The lines of a program with their addresses, and the functions that it calls. -/
structure Program (Label External World : Type*) where
  lines : List (Line Label External)
  layout : Layout lines
  external : External → State World → Option (State World)

namespace Memory

/-- The four bytes from an address on, the lowest first. -/
def load (m : Memory) (a : BitVec 32) : BitVec 32 := m (a + 3) ++ m (a + 2) ++ m (a + 1) ++ m a

def store (m : Memory) (a v : BitVec 32) : Memory := fun b =>
  if b = a then v.extractLsb' 0 8
  else if b = a + 1 then v.extractLsb' 8 8
  else if b = a + 2 then v.extractLsb' 16 8
  else if b = a + 3 then v.extractLsb' 24 8
  else m b

end Memory

/-- The addresses of the four bytes from an address on. -/
def wordAt (a : BitVec 32) : List (BitVec 32) := [a, a + 1, a + 2, a + 3]

namespace State

variable {World : Type*} {w : ℕ}

def get (s : State World) : Reg → BitVec 32
  | .eax => s.eax
  | .ebx => s.ebx
  | .ecx => s.ecx
  | .edx => s.edx
  | .ebp => s.ebp
  | .esp => s.esp

def set (s : State World) (r : Reg) (v : BitVec 32) : State World :=
  match r with
  | .eax => { s with eax := v }
  | .ebx => { s with ebx := v }
  | .ecx => { s with ecx := v }
  | .edx => { s with edx := v }
  | .ebp => { s with ebp := v }
  | .esp => { s with esp := v }

def getByte (s : State World) : ByteReg → BitVec 8
  | .cl => s.ecx.extractLsb' 0 8
  | .dl => s.edx.extractLsb' 0 8

/-- The other bytes of the register stay as they are. -/
def setByte (s : State World) (r : ByteReg) (v : BitVec 8) : State World :=
  match r with
  | .cl => { s with ecx := s.ecx.extractLsb' 8 24 ++ v }
  | .dl => { s with edx := s.edx.extractLsb' 8 24 ++ v }

/-- These addresses are read. -/
def note (s : State World) (addresses : List (BitVec 32)) : State World :=
  { s with reads := s.reads ++ addresses }

def read (s : State World) : Operand → BitVec 32
  | .reg r => s.get r
  | .imm v => v
  | .mem displacement base => s.memory.load (s.get base + displacement)

/-- The state when an operand has been read. -/
def noteRead (s : State World) : Operand → State World
  | .reg _ | .imm _ => s
  | .mem displacement base => s.note (wordAt (s.get base + displacement))

/-- A number is not written to. -/
def write (s : State World) (target : Operand) (v : BitVec 32) : State World :=
  match target with
  | .reg r => s.set r v
  | .imm _ => s
  | .mem displacement base => { s with memory := s.memory.store (s.get base + displacement) v }

/-- The flags after a subtraction. -/
def compare (s : State World) (first second : BitVec w) : State World :=
  { s with carry := first.ult second, zero := first - second == 0, sign := (first - second).msb }

/-- The flags after an operation on single bits. -/
def logic (s : State World) (result : BitVec w) : State World :=
  { s with carry := false, zero := result == 0, sign := result.msb }

def holds (s : State World) : Condition → Bool
  | .b => s.carry
  | .a => !s.carry && !s.zero
  | .z => s.zero
  | .ne => !s.zero
  | .ns => !s.sign

def jump (s : State World) (taken : Bool) (n : ℕ) : State World := if taken then { s with pc := .line n } else s

/-- The word `i` of the arguments. -/
def argument (s : State World) (i : ℕ) : BitVec 32 := s.memory.load (s.esp + BitVec.ofNat 32 (4 * i))

end State

variable {Label External World : Type*} [DecidableEq Label]

def Line.isLabel (label : Label) : Line Label External → Bool
  | .label other => other = label
  | .instr _ => false

/-- Each line has its number as address. -/
def Layout.numbered (lines : List (Line Label External)) (bound : lines.length ≤ 2 ^ 32) : Layout lines where
  address n := BitVec.ofNat 32 n
  lineAt a := if a.toNat < lines.length then some a.toNat else none
  lineAt_address := by
    intro n instr at_
    have inside : n < lines.length := (List.getElem?_eq_some_iff.mp at_).1
    rw [BitVec.toNat_ofNat, Nat.mod_eq_of_lt (by omega), if_pos inside]

namespace Program

variable (program : Program Label External World)

/-- The line of a label. -/
def target (label : Label) : ℕ := program.lines.findIdx (Line.isLabel label)

/-- Where a `ret` to an address goes on. -/
def goTo (address : BitVec 32) : Pc :=
  match program.layout.lineAt address with
  | some n => .line n
  | none => .returned address

/-- An instruction, in a state whose `pc` is already at the next line. -/
def runInstr (next : ℕ) (s : State World) : Instr Label External → Option (State World)
  | .push source => some { s with esp := s.esp - 4, memory := s.memory.store (s.esp - 4) (s.get source) }
  | .pop target =>
      some (State.set { s.note (wordAt s.esp) with esp := s.esp + 4 } target (s.memory.load s.esp))
  | .mov source target => some ((s.noteRead source).write target (s.read source))
  | .loadByte base target => some ((s.note [s.get base]).setByte target (s.memory (s.get base)))
  | .lea displacement base target => some (s.set target (s.get base + displacement))
  | .sub source target =>
      some ((((s.noteRead source).noteRead target).write target (s.read target - s.read source)).compare
        (s.read target) (s.read source))
  | .inc target =>
      some { s.set target (s.get target + 1) with
        zero := s.get target + 1 == 0, sign := (s.get target + 1).msb }
  | .cmp source target =>
      some (((s.noteRead source).noteRead target).compare (s.read target) (s.read source))
  | .cmpByte source target => some (s.compare (s.getByte target) (s.getByte source))
  | .test source target =>
      some (((s.noteRead source).noteRead target).logic (s.read target &&& s.read source))
  | .testByte source target => some (s.logic (s.getByte target &&& s.getByte source))
  | .and source target =>
      some ((((s.noteRead source).noteRead target).write target (s.read target &&& s.read source)).logic
        (s.read target &&& s.read source))
  | .xor source target =>
      some ((((s.noteRead source).noteRead target).write target (s.read target ^^^ s.read source)).logic
        (s.read target ^^^ s.read source))
  | .jump condition label => some (s.jump (s.holds condition) (program.target label))
  | .jmp label => some (s.jump true (program.target label))
  | .call label =>
      some { s with
        esp := s.esp - 4, memory := s.memory.store (s.esp - 4) (program.layout.address next)
        pc := .line (program.target label) }
  | .callExternal function => program.external function s
  | .ret =>
      some { s.note (wordAt s.esp) with esp := s.esp + 4, pc := program.goTo (s.memory.load s.esp) }

/-- One step; there is none behind the last line, or outside of the program. -/
def step (s : State World) : Option (State World) :=
  match s.pc with
  | .returned _ => none
  | .line n =>
    match program.lines[n]? with
    | none => none
    | some (.label _) => some { s with pc := .line (n + 1) }
    | some (.instr instr) => program.runInstr (n + 1) { s with pc := .line (n + 1) } instr

/-- A number of steps. -/
def run : ℕ → State World → Option (State World)
  | 0, s => some s
  | n + 1, s => (program.step s).bind (run n)

/-- The state is reached, by some number of steps. -/
def Steps : State World → State World → Prop := Relation.ReflTransGen fun s t => program.step s = some t

variable {program} {s t u : State World}

omit [DecidableEq Label] in
theorem goTo_line {address : BitVec 32} {n : ℕ} (line : program.layout.lineAt address = some n) :
    program.goTo address = .line n := by
  rw [goTo, line]

omit [DecidableEq Label] in
theorem goTo_outside {address : BitVec 32} (outside : program.layout.lineAt address = none) :
    program.goTo address = .returned address := by
  rw [goTo, outside]

theorem run_one (program : Program Label External World) (s : State World) : program.run 1 s = program.step s := by
  rw [run]
  cases program.step s <;> rfl

theorem Steps.of_run {n : ℕ} (ran : program.run n s = some t) : program.Steps s t := by
  induction n generalizing s with
  | zero =>
    cases ran
    exact .refl
  | succ n ih =>
    obtain ⟨next, moved, rest⟩ := Option.bind_eq_some_iff.mp ran
    exact .head moved (ih rest)

theorem Steps.trans (first : program.Steps s t) (second : program.Steps t u) : program.Steps s u :=
  Relation.ReflTransGen.trans first second

/-- All states that are reached lead to the one in which the program ends. -/
theorem Steps.to_end (steps : program.Steps s t) (ended : program.step t = none) (other : program.Steps s u) :
    program.Steps u t := by
  induction other using Relation.ReflTransGen.head_induction_on with
  | refl => exact steps
  | head moved _ ih =>
    apply ih
    rcases steps.cases_head with rfl | ⟨next, moved', rest⟩
    · cases ended.symm.trans moved
    · cases Option.some_inj.mp (moved.symm.trans moved')
      exact rest

/-- A program ends in one state. -/
theorem Steps.end_unique (steps : program.Steps s t) (ended : program.step t = none) (other : program.Steps s u)
    (ended' : program.step u = none) : u = t := by
  rcases (steps.to_end ended other).cases_head with same | ⟨next, moved, -⟩
  · exact same
  · cases ended'.symm.trans moved

end Program

/-- The memory is the same from `low` to `high` bytes above an address. -/
def Kept (e : BitVec 32) (low high : ℕ) (m m' : Memory) : Prop :=
  ∀ b, low ≤ (b - e).toNat → (b - e).toNat < high → m' b = m b

section Memory

variable {a b e i j v : BitVec 32} {m m' m'' : Memory} {low low' high : ℕ}

theorem add_one_add_ofNat (a : BitVec 32) (i : ℕ) :
    a + 1 + BitVec.ofNat 32 i = a + BitVec.ofNat 32 (i + 1) := by
  rw [BitVec.add_assoc, Nat.add_comm i, BitVec.ofNat_add]
  rfl

/-- A store leaves the other bytes alone. -/
theorem Memory.store_of_apart (apart : b ∉ wordAt a) : m.store a v b = m b := by
  simp only [wordAt, List.mem_cons, List.not_mem_nil, or_false, not_or] at apart
  obtain ⟨first, second, third, fourth⟩ := apart
  simp only [store, if_neg first, if_neg second, if_neg third, if_neg fourth]

/-- What was stored is loaded. -/
theorem Memory.load_store : (m.store a v).load a = v := by
  have second : a + 1 ≠ a := by bv_omega
  have third : a + 2 ≠ a ∧ a + 2 ≠ a + 1 := by bv_omega
  have fourth : a + 3 ≠ a ∧ a + 3 ≠ a + 1 ∧ a + 3 ≠ a + 2 := by bv_omega
  simp only [load, store, if_true, if_neg second, if_neg third.1, if_neg third.2, if_neg fourth.1,
    if_neg fourth.2.1, if_neg fourth.2.2]
  rw [BitVec.extractLsb'_append_extractLsb'_eq_extractLsb' (show 24 = 16 + 8 from rfl),
    BitVec.extractLsb'_append_extractLsb'_eq_extractLsb' (show 16 = 8 + 8 from rfl),
    BitVec.extractLsb'_append_extractLsb'_eq_extractLsb' (show 8 = 0 + 8 from rfl)]
  exact BitVec.extractLsb'_eq_self

/-- A load from bytes that agree. -/
theorem Memory.load_congr (same : ∀ b ∈ wordAt a, m' b = m b) : m'.load a = m.load a := by
  simp only [wordAt, List.forall_mem_cons, List.not_mem_nil, false_implies, implies_true, and_true] at same
  obtain ⟨first, second, third, fourth⟩ := same
  rw [load, load, first, second, third, fourth]

theorem Kept.refl : Kept e low high m m := fun _ _ _ => rfl

theorem Kept.trans (first : Kept e low high m m') (second : Kept e low high m' m'') : Kept e low high m m'' := by
  intro b above below
  rw [second b above below, first b above below]

theorem Kept.mono (kept : Kept e low high m m') (le : low ≤ low') : Kept e low' high m m' := by
  intro b above below
  exact kept b (le.trans above) below

theorem kept_store (below : i.toNat + 4 ≤ low) (bound : low < 2 ^ 31) : Kept e low high m (m.store (e + i) v) := by
  intro b above _
  apply Memory.store_of_apart
  intro member
  simp only [wordAt, List.mem_cons, List.not_mem_nil, or_false] at member
  rcases member with rfl | rfl | rfl | rfl <;> bv_omega

theorem Kept.store (kept : Kept e low high m m') (below : i.toNat + 4 ≤ low) (bound : low < 2 ^ 31) :
    Kept e low high m (m'.store (e + i) v) := kept.trans (kept_store below bound)

theorem Kept.load (kept : Kept e low high m m') (above : low ≤ i.toNat) (below : i.toNat + 4 ≤ high)
    (bound : high < 2 ^ 31) : m'.load (e + i) = m.load (e + i) := by
  apply Memory.load_congr
  intro b member
  simp only [wordAt, List.mem_cons, List.not_mem_nil, or_false] at member
  apply kept <;> rcases member with rfl | rfl | rfl | rfl <;> bv_omega

/-- Words at different places on the stack. -/
theorem load_store_apart (above : 4 ≤ (j - i).toNat) (below : (j - i).toNat ≤ 2 ^ 32 - 4) :
    (m.store (e + i) v).load (e + j) = m.load (e + j) := by
  apply Memory.load_congr
  intro b member
  apply Memory.store_of_apart
  intro other
  simp only [wordAt, List.mem_cons, List.not_mem_nil, or_false] at member other
  rcases member with rfl | rfl | rfl | rfl <;> rcases other with h | h | h | h <;> bv_omega

end Memory

end Hseos.X86
