import Hseos.Lib.X86

/-! # Comparing strings in assembly

`mystrcmp` compares its strings byte by byte, the byte of the second with that of the first, so that its
jumps for "below" and "above" look at the strings the other way round. It keeps `ebp` and `ebx` on the stack
and addresses its arguments above them.
-/

namespace Hseos.Asm

open X86

/-- The labels of `strcmp.S` up to `main`. -/
inductive Label where
  | mystrcmp
  | cmp
  | cmpb
  | cmpa
  | eq
  | ending
deriving DecidableEq

/-- `mystrcmp`. -/
def mystrcmp : List (Line Label Empty) := [
  .label .mystrcmp,
  .instr (.push .ebp),
  .instr (.push .ebx),
  .instr (.mov (.reg .esp) (.reg .ebp)),
  .instr (.mov (.mem 12 .ebp) (.reg .eax)),
  .instr (.mov (.mem 16 .ebp) (.reg .ebx)),
  .label .cmp,
  .instr (.loadByte .eax .cl),
  .instr (.loadByte .ebx .dl),
  .instr (.cmpByte .cl .dl),
  .instr (.jump .b .cmpb),
  .instr (.jump .a .cmpa),
  .instr (.testByte .cl .cl),
  .instr (.jump .z .eq),
  .instr (.inc .eax),
  .instr (.inc .ebx),
  .instr (.jmp .cmp),
  .label .cmpb,
  .instr (.mov (.imm 1) (.reg .eax)),
  .instr (.jmp .ending),
  .label .cmpa,
  .instr (.mov (.imm (-1)) (.reg .eax)),
  .instr (.jmp .ending),
  .label .eq,
  .instr (.xor (.reg .eax) (.reg .eax)),
  .label .ending,
  .instr (.mov (.reg .ebp) (.reg .esp)),
  .instr (.pop .ebx),
  .instr (.pop .ebp),
  .instr .ret]

/-- The line of its `ret`. -/
def retLine : ℕ := 29

/-- `mystrcmp` at some addresses. It calls no function of a library. -/
def program (layout : Layout mystrcmp) : Program Label Empty Unit where
  lines := mystrcmp
  layout := layout
  external function := function.elim

/-- The bytes of a string, with a NUL behind them and none among them. -/
def StringAt (m : Memory) (a : BitVec 32) : List (BitVec 8) → Prop
  | [] => m a = 0
  | c :: rest => c ≠ 0 ∧ m a = c ∧ StringAt m (a + 1) rest

/-- The first position where two strings differ or both end. -/
def stopAt : List (BitVec 8) → List (BitVec 8) → ℕ
  | c :: first, d :: second => if c = d then stopAt first second + 1 else 0
  | _, _ => 0

/-- `1`, `0` or `-1` for a string that is greater than, equal to or less than the other, in the lexicographic
order of unsigned bytes. -/
def Compares (result : BitVec 32) (first second : List (BitVec 8)) : Prop :=
  result = 1 ∧ second < first ∨ result = 0 ∧ first = second ∨ result = -1 ∧ first < second

/-- The words that are pushed below the return address. -/
def pushed (esp : BitVec 32) : List (BitVec 32) := wordAt (esp - 4) ++ wordAt (esp - 4 - 4)

/-- The return address and the arguments. -/
def callFrame (esp : BitVec 32) : List (BitVec 32) := wordAt esp ++ wordAt (esp + 4) ++ wordAt (esp + 8)

/-- A call of `mystrcmp` with pointers to these strings, which are not in the two words below the stack
pointer. -/
structure Called (layout : Layout mystrcmp) (s : State Unit) (p q : BitVec 32) (first second : List (BitVec 8)) :
    Prop where
  pc : s.pc = .line ((program layout).target .mystrcmp)
  firstArgument : s.memory.load (s.esp + 4) = p
  secondArgument : s.memory.load (s.esp + 8) = q
  firstString : StringAt s.memory p first
  secondString : StringAt s.memory q second
  firstApart : ∀ i ≤ first.length, p + BitVec.ofNat 32 i ∉ pushed s.esp
  secondApart : ∀ i ≤ second.length, q + BitVec.ofNat 32 i ∉ pushed s.esp
  reads : s.reads = []

variable {layout : Layout mystrcmp} {s : State Unit}

section Blocks

/-! Each straight part of the program, with the conditions of its jumps. -/

variable (layout : Layout mystrcmp)

theorem run_prologue (at_ : s.pc = .line 0) :
    (program layout).run 6 s = some { s with
      eax := ((s.memory.store (s.esp - 4) s.ebp).store (s.esp - 4 - 4) s.ebx).load (s.esp - 4 - 4 + 12)
      ebx := ((s.memory.store (s.esp - 4) s.ebp).store (s.esp - 4 - 4) s.ebx).load (s.esp - 4 - 4 + 16)
      ebp := s.esp - 4 - 4
      esp := s.esp - 4 - 4
      memory := (s.memory.store (s.esp - 4) s.ebp).store (s.esp - 4 - 4) s.ebx
      pc := .line 6
      reads := s.reads ++ wordAt (s.esp - 4 - 4 + 12) ++ wordAt (s.esp - 4 - 4 + 16) } := by
  obtain ⟨eax, ebx, ecx, edx, ebp, esp, carry, zero, sign, memory, pc, reads, world⟩ := s
  cases at_
  rfl

theorem run_bytes (at_ : s.pc = .line 6) :
    (program layout).run 3 s = some { s with
      ecx := s.ecx.extractLsb' 8 24 ++ s.memory s.eax
      edx := s.edx.extractLsb' 8 24 ++ s.memory s.ebx
      pc := .line 9
      reads := s.reads ++ [s.eax] ++ [s.ebx] } := by
  obtain ⟨eax, ebx, ecx, edx, ebp, esp, carry, zero, sign, memory, pc, reads, world⟩ := s
  cases at_
  rfl

theorem run_cmp (at_ : s.pc = .line 9) :
    (program layout).run 1 s = some { s.compare (s.getByte .dl) (s.getByte .cl) with pc := .line 10 } := by
  obtain ⟨eax, ebx, ecx, edx, ebp, esp, carry, zero, sign, memory, pc, reads, world⟩ := s
  cases at_
  rfl

theorem run_greater (at_ : s.pc = .line 10) (below : s.carry = true) :
    (program layout).run 4 s = some { s with eax := 1, pc := .line 25 } := by
  obtain ⟨eax, ebx, ecx, edx, ebp, esp, carry, zero, sign, memory, pc, reads, world⟩ := s
  cases at_
  cases below
  rfl

theorem run_less (at_ : s.pc = .line 10) (above : s.carry = false) (other : s.zero = false) :
    (program layout).run 5 s = some { s with eax := -1, pc := .line 25 } := by
  obtain ⟨eax, ebx, ecx, edx, ebp, esp, carry, zero, sign, memory, pc, reads, world⟩ := s
  cases at_
  cases above
  cases other
  rfl

theorem run_same (at_ : s.pc = .line 10) (above : s.carry = false) (same : s.zero = true) :
    (program layout).run 3 s = some { s.logic (s.getByte .cl &&& s.getByte .cl) with pc := .line 13 } := by
  obtain ⟨eax, ebx, ecx, edx, ebp, esp, carry, zero, sign, memory, pc, reads, world⟩ := s
  cases at_
  cases above
  cases same
  rfl

theorem run_equal (at_ : s.pc = .line 13) (ends : s.zero = true) :
    (program layout).run 3 s = some { s.logic (s.eax ^^^ s.eax) with eax := s.eax ^^^ s.eax, pc := .line 25 } := by
  obtain ⟨eax, ebx, ecx, edx, ebp, esp, carry, zero, sign, memory, pc, reads, world⟩ := s
  cases at_
  cases ends
  rfl

theorem run_next (at_ : s.pc = .line 13) (more : s.zero = false) :
    (program layout).run 4 s = some { s with
      eax := s.eax + 1, ebx := s.ebx + 1, zero := s.ebx + 1 == 0, sign := (s.ebx + 1).msb, pc := .line 6 } := by
  obtain ⟨eax, ebx, ecx, edx, ebp, esp, carry, zero, sign, memory, pc, reads, world⟩ := s
  cases at_
  cases more
  rfl

theorem run_ending (at_ : s.pc = .line 25) :
    (program layout).run 4 s = some { s with
      ebx := s.memory.load s.ebp
      ebp := s.memory.load (s.ebp + 4)
      esp := s.ebp + 4 + 4
      pc := .line retLine
      reads := s.reads ++ wordAt s.ebp ++ wordAt (s.ebp + 4) } := by
  obtain ⟨eax, ebx, ecx, edx, ebp, esp, carry, zero, sign, memory, pc, reads, world⟩ := s
  cases at_
  rfl

end Blocks

/-- The two bytes that the pointers are at have been compared. -/
structure Compared (layout : Layout mystrcmp) (s t : State Unit) : Prop where
  steps : (program layout).Steps s t
  pc : t.pc = .line 10
  eax : t.eax = s.eax
  ebx : t.ebx = s.ebx
  ebp : t.ebp = s.ebp
  memory : t.memory = s.memory
  byte : t.getByte .cl = s.memory s.eax
  carry : t.carry = (s.memory s.ebx).ult (s.memory s.eax)
  zero : t.zero = (s.memory s.ebx - s.memory s.eax == 0)
  reads : t.reads = s.reads ++ [s.eax] ++ [s.ebx]

theorem exists_compared (layout : Layout mystrcmp) (at_ : s.pc = .line 6) : ∃ t, Compared layout s t := by
  have cl : (s.ecx.extractLsb' 8 24 ++ s.memory s.eax).extractLsb' 0 8 = s.memory s.eax :=
    BitVec.extractLsb'_append_eq_right
  have dl : (s.edx.extractLsb' 8 24 ++ s.memory s.ebx).extractLsb' 0 8 = s.memory s.ebx :=
    BitVec.extractLsb'_append_eq_right
  have steps := (Program.Steps.of_run (run_bytes layout at_)).trans (.of_run (run_cmp layout rfl))
  refine ⟨_, steps, rfl, rfl, rfl, rfl, rfl, cl, ?_, ?_, rfl⟩
  · exact congrArg₂ BitVec.ult dl cl
  · exact congrArg₂ (fun first second : BitVec 8 => first - second == 0) dl cl

/-- The comparison has ended, with nothing to undo but the frame. -/
structure Ended (layout : Layout mystrcmp) (s t : State Unit) : Prop where
  steps : (program layout).Steps s t
  pc : t.pc = .line 25
  ebp : t.ebp = s.ebp
  memory : t.memory = s.memory

theorem ended_of_other (layout : Layout mystrcmp) (at_ : s.pc = .line 6) (other : s.memory s.eax ≠ s.memory s.ebx) :
    ∃ t, Ended layout s t ∧ t.eax = (if s.memory s.ebx < s.memory s.eax then 1 else -1) ∧
      t.reads = s.reads ++ [s.eax] ++ [s.ebx] := by
  obtain ⟨t, compared⟩ := exists_compared layout at_
  rcases below : (s.memory s.ebx).ult (s.memory s.eax) with _ | _
  · have unequal : t.zero = false := by
      rw [compared.zero]
      exact beq_eq_false_iff_ne.mpr (sub_ne_zero.mpr other.symm)
    have not_below : ¬s.memory s.ebx < s.memory s.eax := by
      rw [← BitVec.ult_iff_lt, below]
      exact Bool.false_ne_true
    refine ⟨_, ⟨compared.steps.trans (.of_run (run_less layout compared.pc (compared.carry.trans below) unequal)),
      rfl, compared.ebp, compared.memory⟩, (if_neg not_below).symm, compared.reads⟩
  · have is_below : s.memory s.ebx < s.memory s.eax := BitVec.ult_iff_lt.mp below
    exact ⟨_, ⟨compared.steps.trans (.of_run (run_greater layout compared.pc (compared.carry.trans below))),
      rfl, compared.ebp, compared.memory⟩, (if_pos is_below).symm, compared.reads⟩

theorem ended_of_nul (layout : Layout mystrcmp) (at_ : s.pc = .line 6) (first : s.memory s.eax = 0)
    (second : s.memory s.ebx = 0) :
    ∃ t, Ended layout s t ∧ t.eax = 0 ∧ t.reads = s.reads ++ [s.eax] ++ [s.ebx] := by
  obtain ⟨t, compared⟩ := exists_compared layout at_
  have not_below : t.carry = false := by
    rw [compared.carry, first, second]
    rfl
  have equal : t.zero = true := by
    rw [compared.zero, first, second]
    rfl
  have ends : (t.getByte .cl &&& t.getByte .cl == 0) = true := by
    rw [compared.byte, first]
    rfl
  have steps := (compared.steps.trans (.of_run (run_same layout compared.pc not_below equal))).trans
    (.of_run (run_equal layout rfl ends))
  exact ⟨_, ⟨steps, rfl, compared.ebp, compared.memory⟩, BitVec.xor_self, compared.reads⟩

/-- Equal bytes that are not zero lead to the next ones. -/
theorem goes_on (layout : Layout mystrcmp) (at_ : s.pc = .line 6) (same : s.memory s.eax = s.memory s.ebx)
    (more : s.memory s.eax ≠ 0) :
    ∃ t, (program layout).Steps s t ∧ t.pc = .line 6 ∧ t.eax = s.eax + 1 ∧ t.ebx = s.ebx + 1 ∧ t.ebp = s.ebp ∧
      t.memory = s.memory ∧ t.reads = s.reads ++ [s.eax] ++ [s.ebx] := by
  obtain ⟨t, compared⟩ := exists_compared layout at_
  have not_below : t.carry = false := by
    rw [compared.carry, same]
    exact decide_eq_false (Nat.lt_irrefl _)
  have equal : t.zero = true := by
    rw [compared.zero, same, BitVec.sub_self]
    rfl
  have goes : (t.getByte .cl &&& t.getByte .cl == 0) = false := by
    rw [compared.byte, BitVec.and_self]
    exact beq_eq_false_iff_ne.mpr more
  have steps := (compared.steps.trans (.of_run (run_same layout compared.pc not_below equal))).trans
    (.of_run (run_next layout rfl goes))
  exact ⟨_, steps, rfl, congrArg (· + 1) compared.eax, congrArg (· + 1) compared.ebx, compared.ebp,
    compared.memory, compared.reads⟩

/-- The byte at a string: its first one, or the NUL. -/
theorem StringAt.byte {m : Memory} {a : BitVec 32} {text : List (BitVec 8)} (holds : StringAt m a text) :
    m a = text.headD 0 := by
  cases text with
  | nil => exact holds
  | cons c rest => exact holds.2.1

/-- Strings whose next bytes differ are ordered as these, where a string that ends has a zero. -/
theorem compares_of_other {m : Memory} {a b : BitVec 32} {first second : List (BitVec 8)}
    (firstString : StringAt m a first) (secondString : StringAt m b second) (other : m a ≠ m b) :
    Compares (if m b < m a then 1 else -1) first second := by
  rw [firstString.byte, secondString.byte] at other ⊢
  cases first with
  | nil =>
    cases second with
    | nil => exact absurd rfl other
    | cons d second => exact .inr (.inr ⟨if_neg BitVec.not_lt_zero, List.nil_lt_cons ..⟩)
  | cons c first =>
    cases second with
    | nil =>
      have positive : 0 < c := (BitVec.pos_iff_ne_zero c).mpr firstString.1
      exact .inl ⟨if_pos positive, List.nil_lt_cons ..⟩
    | cons d second =>
      change c ≠ d at other
      change Compares (if d < c then 1 else -1) _ _
      split_ifs with less
      · exact .inl ⟨rfl, List.cons_lt_cons_iff.mpr (.inl less)⟩
      · exact .inr (.inr ⟨rfl, List.cons_lt_cons_iff.mpr (.inl (by bv_omega))⟩)

theorem Compares.cons {result : BitVec 32} {first second : List (BitVec 8)} (c : BitVec 8)
    (compares : Compares result first second) : Compares result (c :: first) (c :: second) := by
  rcases compares with ⟨value, less⟩ | ⟨value, rfl⟩ | ⟨value, less⟩
  · exact .inl ⟨value, List.cons_lt_cons_iff.mpr (.inr ⟨rfl, less⟩)⟩
  · exact .inr (.inl ⟨value, rfl⟩)
  · exact .inr (.inr ⟨value, List.cons_lt_cons_iff.mpr (.inr ⟨rfl, less⟩)⟩)

/-- All bytes that were read are among these or, up to a position, in one of two strings. -/
def ReadsUpTo (reads before : List (BitVec 32)) (p q : BitVec 32) (stop : ℕ) : Prop :=
  ∀ a ∈ reads, a ∈ before ∨ ∃ i ≤ stop, a = p + BitVec.ofNat 32 i ∨ a = q + BitVec.ofNat 32 i

theorem readsUpTo_start (before : List (BitVec 32)) (p q : BitVec 32) (stop : ℕ) :
    ReadsUpTo (before ++ [p] ++ [q]) before p q stop := by
  intro a member
  simp only [List.mem_append, List.mem_singleton] at member
  rcases member with (earlier | rfl) | rfl
  · exact .inl earlier
  · exact .inr ⟨0, Nat.zero_le _, .inl (BitVec.add_zero _).symm⟩
  · exact .inr ⟨0, Nat.zero_le _, .inr (BitVec.add_zero _).symm⟩

theorem ReadsUpTo.next {reads before : List (BitVec 32)} {p q : BitVec 32} {stop : ℕ}
    (rest : ReadsUpTo reads (before ++ [p] ++ [q]) (p + 1) (q + 1) stop) :
    ReadsUpTo reads before p q (stop + 1) := by
  intro a member
  rcases rest a member with start | ⟨i, bound, place⟩
  · exact readsUpTo_start before p q _ a start
  · rw [add_one_add_ofNat, add_one_add_ofNat] at place
    exact .inr ⟨i + 1, Nat.succ_le_succ bound, place⟩

/-- The comparison has ended as the order of the strings says, and has read no byte behind the first position
where they differ or both end. -/
structure Decided (layout : Layout mystrcmp) (s t : State Unit) (first second : List (BitVec 8)) : Prop where
  ended : Ended layout s t
  compares : Compares t.eax first second
  reads : ReadsUpTo t.reads s.reads s.eax s.ebx (stopAt first second)

theorem exists_decided_of_other (layout : Layout mystrcmp) {first second : List (BitVec 8)} (at_ : s.pc = .line 6)
    (firstString : StringAt s.memory s.eax first) (secondString : StringAt s.memory s.ebx second)
    (other : s.memory s.eax ≠ s.memory s.ebx) : ∃ t, Decided layout s t first second := by
  obtain ⟨t, ended, result, reads⟩ := ended_of_other layout at_ other
  refine ⟨t, ended, ?_, ?_⟩
  · rw [result]
    exact compares_of_other firstString secondString other
  · rw [reads]
    exact readsUpTo_start _ _ _ _

/-- From the pointers to two strings on, the comparison is decided, by induction on the first one. -/
theorem exists_decided (layout : Layout mystrcmp) {first second : List (BitVec 8)} (at_ : s.pc = .line 6)
    (firstString : StringAt s.memory s.eax first) (secondString : StringAt s.memory s.ebx second) :
    ∃ t, Decided layout s t first second := by
  rcases ne_or_eq (s.memory s.eax) (s.memory s.ebx) with other | same
  · exact exists_decided_of_other layout at_ firstString secondString other
  · induction first generalizing s second with
    | nil =>
      cases second with
      | nil =>
        obtain ⟨t, ended, result, reads⟩ := ended_of_nul layout at_ firstString secondString
        refine ⟨t, ended, .inr (.inl ⟨result, rfl⟩), ?_⟩
        rw [reads]
        exact readsUpTo_start _ _ _ _
      | cons d second =>
        exact absurd (secondString.2.1.symm.trans (same.symm.trans firstString)) secondString.1
    | cons c first ih =>
      cases second with
      | nil => exact absurd (firstString.2.1.symm.trans (same.trans secondString)) firstString.1
      | cons d second =>
        have more : s.memory s.eax ≠ 0 := firstString.2.1.trans_ne firstString.1
        obtain rfl : c = d := firstString.2.1.symm.trans (same.trans secondString.2.1)
        obtain ⟨t, steps, pc, eax, ebx, ebp, memory, reads⟩ := goes_on layout at_ same more
        have firstRest : StringAt t.memory t.eax first := by
          rw [memory, eax]
          exact firstString.2.2
        have secondRest : StringAt t.memory t.ebx second := by
          rw [memory, ebx]
          exact secondString.2.2
        obtain ⟨u, ended, compares, upTo⟩ : ∃ u, Decided layout t u first second := by
          rcases ne_or_eq (t.memory t.eax) (t.memory t.ebx) with other' | same'
          · exact exists_decided_of_other layout pc firstRest secondRest other'
          · exact ih pc firstRest secondRest same'
        rw [reads, eax, ebx] at upTo
        refine ⟨u, ⟨steps.trans ended.steps, ended.pc, ended.ebp.trans ebp, ended.memory.trans memory⟩,
          compares.cons c, ?_⟩
        rw [stopAt, if_pos rfl]
        exact upTo.next

section Frame

variable {m m' : Memory} {a b esp : BitVec 32} {text : List (BitVec 8)}

/-- A string in bytes that agree. -/
theorem StringAt.congr (holds : StringAt m a text)
    (same : ∀ i ≤ text.length, m' (a + BitVec.ofNat 32 i) = m (a + BitVec.ofNat 32 i)) : StringAt m' a text := by
  induction text generalizing a with
  | nil =>
    have zero := same 0 le_rfl
    rw [BitVec.add_zero] at zero
    exact zero.trans holds
  | cons c rest ih =>
    obtain ⟨nonzero, byte, more⟩ := holds
    have zero := same 0 (Nat.zero_le _)
    rw [BitVec.add_zero] at zero
    refine ⟨nonzero, zero.trans byte, ih more fun i bound => ?_⟩
    rw [add_one_add_ofNat]
    exact same (i + 1) (Nat.succ_le_succ bound)

theorem callFrame_apart (member : b ∈ callFrame esp) : b ∉ pushed esp := by
  simp only [callFrame, pushed, wordAt, List.mem_append, List.mem_cons, List.not_mem_nil, or_false] at member ⊢
  bv_omega

/-- The memory after the registers were pushed. -/
def pushes (s : State Unit) : Memory := (s.memory.store (s.esp - 4) s.ebp).store (s.esp - 4 - 4) s.ebx

theorem pushes_of_apart (apart : b ∉ pushed s.esp) : pushes s b = s.memory b := by
  rw [pushed, List.mem_append, not_or] at apart
  rw [pushes, Memory.store_of_apart apart.2, Memory.store_of_apart apart.1]

theorem load_pushes (inside : ∀ b ∈ wordAt a, b ∈ callFrame s.esp) : (pushes s).load a = s.memory.load a :=
  Memory.load_congr fun b member => pushes_of_apart (callFrame_apart (inside b member))

theorem load_ebx (s : State Unit) : (pushes s).load (s.esp - 4 - 4) = s.ebx := Memory.load_store

theorem load_ebp (s : State Unit) : (pushes s).load (s.esp - 4) = s.ebp := by
  have kept : (pushes s).load (s.esp - 4) = (s.memory.store (s.esp - 4) s.ebp).load (s.esp - 4) := by
    refine Memory.load_congr fun b member => Memory.store_of_apart ?_
    simp only [wordAt, List.mem_cons, List.not_mem_nil, or_false] at member ⊢
    bv_omega
  exact kept.trans Memory.load_store

end Frame

/-- How a call returns: it comes to its `ret` with the registers as they were, and then only the return
address is taken from the stack, where the caller goes on. -/
structure Returned (layout : Layout mystrcmp) (s last final : State Unit) (p q : BitVec 32)
    (first second : List (BitVec 8)) : Prop where
  steps : (program layout).Steps s last
  atRet : last.pc = .line retLine
  restored : last.ebp = s.ebp ∧ last.ebx = s.ebx ∧ last.esp = s.esp
  returns : (program layout).step last = some final
  pc : final.pc = (program layout).goTo (s.memory.load s.esp)
  kept : final.ebp = s.ebp ∧ final.ebx = s.ebx ∧ final.esp = s.esp + 4
  compares : Compares final.eax first second
  reads : ReadsUpTo final.reads (callFrame s.esp ++ pushed s.esp) p q (stopAt first second)

theorem step_ret (layout : Layout mystrcmp) (at_ : s.pc = .line retLine) :
    (program layout).step s = some { s with
      esp := s.esp + 4, reads := s.reads ++ wordAt s.esp
      pc := (program layout).goTo (s.memory.load s.esp) } := by
  obtain ⟨eax, ebx, ecx, edx, ebp, esp, carry, zero, sign, memory, pc, reads, world⟩ := s
  cases at_
  rfl

/-- The comparison begins with the pointers to the strings, which are as they were. -/
theorem Called.exists_entered {p q : BitVec 32} {first second : List (BitVec 8)}
    (called : Called layout s p q first second) :
    ∃ t, (program layout).Steps s t ∧ t.pc = .line 6 ∧ t.eax = p ∧ t.ebx = q ∧ t.ebp = s.esp - 4 - 4 ∧
      t.memory = pushes s ∧ t.reads = wordAt (s.esp + 4) ++ wordAt (s.esp + 8) := by
  have place₁ : s.esp - 4 - 4 + 12 = s.esp + 4 := by bv_omega
  have place₂ : s.esp - 4 - 4 + 16 = s.esp + 8 := by bv_omega
  have argument₁ : (pushes s).load (s.esp + 4) = p :=
    (load_pushes fun b member => List.mem_append_left _ (List.mem_append_right _ member)).trans
      called.firstArgument
  have argument₂ : (pushes s).load (s.esp + 8) = q :=
    (load_pushes fun b member => List.mem_append_right _ member).trans called.secondArgument
  have prologue := run_prologue layout called.pc
  rw [place₁, place₂] at prologue
  refine ⟨_, .of_run prologue, rfl, argument₁, argument₂, rfl, rfl, ?_⟩
  rw [called.reads, List.nil_append]

/-- The frame is undone. -/
theorem exists_left (layout : Layout mystrcmp) {t : State Unit} (at_ : t.pc = .line 25)
    (ebp : t.ebp = s.esp - 4 - 4) (memory : t.memory = pushes s) :
    ∃ u, (program layout).Steps t u ∧ u.pc = .line retLine ∧ u.eax = t.eax ∧ u.ebp = s.ebp ∧ u.ebx = s.ebx ∧
      u.esp = s.esp ∧ u.memory = pushes s ∧ u.reads = t.reads ++ wordAt (s.esp - 4 - 4) ++ wordAt (s.esp - 4) := by
  have place₁ : s.esp - 4 - 4 + 4 = s.esp - 4 := by bv_omega
  have place₂ : s.esp - 4 - 4 + 4 + 4 = s.esp := by bv_omega
  have ending := run_ending layout at_
  rw [ebp, memory, place₂, place₁, load_ebx, load_ebp] at ending
  exact ⟨_, .of_run ending, rfl, rfl, rfl, rfl, rfl, rfl, rfl⟩

/-- Every call returns, with the order of its strings in `eax`. It restores the registers, and reads its frame
and the strings up to the first position where they differ or both end. -/
theorem mystrcmp_compares {p q : BitVec 32} {first second : List (BitVec 8)}
    (called : Called layout s p q first second) :
    ∃ last final, Returned layout s last final p q first second := by
  obtain ⟨t, entered, pc, rfl, rfl, ebp, memory, reads⟩ := called.exists_entered
  have firstString : StringAt t.memory t.eax first := by
    rw [memory]
    exact called.firstString.congr fun i bound => pushes_of_apart (called.firstApart i bound)
  have secondString : StringAt t.memory t.ebx second := by
    rw [memory]
    exact called.secondString.congr fun i bound => pushes_of_apart (called.secondApart i bound)
  obtain ⟨u, ended, compares, upTo⟩ := exists_decided layout pc firstString secondString
  obtain ⟨last, left, atRet, eax, restored₁, restored₂, restored₃, memory', reads'⟩ :=
    exists_left layout ended.pc (ended.ebp.trans ebp) (ended.memory.trans memory)
  have address : last.memory.load last.esp = s.memory.load s.esp := by
    rw [memory', restored₃]
    exact load_pushes fun b member => List.mem_append_left _ (List.mem_append_left _ member)
  refine ⟨last, _, (entered.trans ended.steps).trans left, atRet, ⟨restored₁, restored₂, restored₃⟩,
    step_ret layout atRet, congrArg (program layout).goTo address,
    ⟨restored₁, restored₂, congrArg (· + 4) restored₃⟩, ?_, ?_⟩
  · show Compares last.eax first second
    rw [eax]
    exact compares
  · intro a member
    rw [reads', restored₃, List.mem_append, List.mem_append, List.mem_append] at member
    rcases member with ((before | ebx) | ebp) | return_
    · rcases upTo a before with argument | text
      · rw [reads, List.mem_append] at argument
        left
        simp only [callFrame, List.mem_append]
        tauto
      · exact .inr text
    · exact .inl (List.mem_append_right _ (List.mem_append_right _ ebx))
    · exact .inl (List.mem_append_right _ (List.mem_append_left _ ebp))
    · exact .inl (List.mem_append_left _ (List.mem_append_left _ (List.mem_append_left _ return_)))

/-- The strings `"ab"` and `"a\xff"` behind a stack at the address 100. -/
def sampleCall : State Unit where
  eax := 0
  ebx := 5
  ecx := 0
  edx := 0
  ebp := 9
  esp := 100
  carry := false
  zero := false
  sign := false
  memory a := if a = 104 then 200 else if a = 108 then 210 else if a = 200 ∨ a = 210 then 97
    else if a = 201 then 98 else if a = 211 then 255 else 0
  pc := .line 0
  reads := []
  world := ()

theorem mystrcmp_compares_two :
    ∃ last final, Returned (.numbered mystrcmp (by decide)) sampleCall last final 200 210 [97, 98] [97, 255] := by
  apply mystrcmp_compares
  refine ⟨rfl, by decide, by decide, ⟨by decide, rfl, by decide, rfl, rfl⟩,
    ⟨by decide, rfl, by decide, rfl, rfl⟩, ?_, ?_, rfl⟩
  · decide
  · decide

end Hseos.Asm
