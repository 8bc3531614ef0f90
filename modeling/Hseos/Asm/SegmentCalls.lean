import Hseos.Asm.Segments

/-! # The calls of `step`

A call of `step` keeps what its caller has on the stack. With four numbers it prints one line and returns `0`; with
fewer it returns `1`, which ends the loop of `main`. So the program prints one line for each four numbers.
-/

namespace Hseos.Segments

open X86
open X86.Program (Steps)

/-- Two segments `[a, b]` and `[c, d]`, in the order in which they are typed. -/
structure Quadruple where
  a : BitVec 32
  b : BitVec 32
  c : BitVec 32
  d : BitVec 32
deriving DecidableEq

namespace Quadruple

variable (q : Quadruple)

def numbers : List (BitVec 32) := [q.a, q.b, q.c, q.d]

/-- The greater left end and the smaller right end, as numbers without a sign. -/
def left : BitVec 32 := if q.c.ult q.a then q.a else q.c

def right : BitVec 32 := if q.b.ult q.d then q.b else q.d

/-- The number that is printed. -/
def common : BitVec 32 := if (q.right - q.left).msb then 0 else q.right - q.left

end Quadruple

variable {image : Image} {s t u : State Io} {e : BitVec 32}

/-- The frame of a call of `step`, which started in a first state: what is saved in it, and what is above it. -/
structure Frame (s t : State Io) (e : BitVec 32) : Prop where
  esp : t.esp = e
  ebp : t.ebp = e + 36
  savedEbx : t.memory.load (e + 36) = s.ebx
  savedEbp : t.memory.load (e + 40) = s.ebp
  kept : Kept e 44 frames s.memory t.memory

/-- Whatever happens to the words below what is saved. -/
theorem Frame.of_kept (frame : Frame s t e) (esp : u.esp = t.esp) (ebp : u.ebp = t.ebp)
    (kept : Kept e 36 frames t.memory u.memory) : Frame s u e where
  esp := esp.trans frame.esp
  ebp := ebp.trans frame.ebp
  savedEbx := (kept.load (by decide) (by decide) (by decide)).trans frame.savedEbx
  savedEbp := (kept.load (by decide) (by decide) (by decide)).trans frame.savedEbp
  kept := frame.kept.trans (kept.mono (by decide))

/-- The call of `scanf` is prepared. -/
structure Prepared (image : Image) (s t : State Io) (e : BitVec 32) : Prop where
  steps : image.program.Steps s t
  pc : t.pc = .line 14
  frame : Frame s t e
  format : t.argument 0 = image.sc
  places : pointers t = [e + 20, e + 24, e + 28, e + 32]
  world : t.world = s.world

theorem exists_prepared (image : Image) (at_ : s.pc = .line 0) (esp : s.esp = e + 44) :
    ∃ t, Prepared image s t e := by
  have first : s.esp - 4 = e + 40 := by rw [esp]; bv_omega
  have second : e + 40 - 4 = e + 36 := by bv_omega
  have third : e + 36 - 36 = e := by bv_omega
  have ran := run_entry image at_
  rw [first, second, third] at ran
  refine ⟨_, .of_run ran, rfl, ⟨rfl, rfl, ?_, ?_, ?_⟩, ?_, ?_, rfl⟩
  · simp (disch := decide) only [load_store_apart, Memory.load_store]
  · simp (disch := decide) only [load_store_apart, Memory.load_store]
  · iterate 7 refine Kept.store ?_ (by decide) (by decide)
    exact .refl
  · exact Memory.load_store
  · change [Memory.load _ (e + 4), Memory.load _ (e + 8), Memory.load _ (e + 12), Memory.load _ (e + 16)] = _
    simp (disch := decide) only [load_store_apart, Memory.load_store]

/-- Stores below the frame. -/
theorem kept_storeAll {pointers : List (BitVec 32)} {low high : ℕ}
    (below : ∀ p ∈ pointers, ∃ i, p = e + i ∧ i.toNat + 4 ≤ low) (bound : low < 2 ^ 31) (m : Memory)
    (values : List (BitVec 32)) : Kept e low high m (storeAll m pointers values) := by
  induction pointers generalizing m values with
  | nil => exact .refl
  | cons p pointers ih =>
    cases values with
    | nil => exact .refl
    | cons v values =>
      obtain ⟨i, rfl, inside⟩ := below p List.mem_cons_self
      have rest := ih (fun p member => below p (List.mem_cons_of_mem _ member)) (m.store (e + i) v) values
      exact (kept_store inside bound).trans rest

/-- What `scanf` leaves. -/
structure Scanned (image : Image) (s t : State Io) (e : BitVec 32) : Prop where
  steps : image.program.Steps s t
  pc : t.pc = .line 15
  frame : Frame s t e
  noNumber : s.world.stdin = [] → t.eax = -1 ∨ t.eax = 0
  count : s.world.stdin ≠ [] → t.eax = BitVec.ofNat 32 (s.world.stdin.take 4).length
  memory : ∃ m, t.memory = storeAll m [e + 20, e + 24, e + 28, e + 32] (s.world.stdin.take 4)
  world : t.world = ⟨s.world.stdin.drop 4, s.world.printed⟩

theorem run_scanf (at_ : s.pc = .line 14) :
    image.program.run 1 s = image.scanf { s with pc := .line 15 } := by
  obtain ⟨eax, ebx, ecx, edx, ebp, esp, carry, zero, sign, memory, pc, reads, world⟩ := s
  cases at_
  rw [Program.run_one]
  rfl

theorem Prepared.scanned (prepared : Prepared image s t e) : ∃ u, Scanned image s u e := by
  obtain ⟨steps, pc, frame, format, places, world⟩ := prepared
  have read : image.scanf { t with pc := .line 15 } = some _ := if_pos format
  have called := image.library.kept { t with pc := .line 15 }
  obtain rfl := frame.esp
  have kept (m : Memory) (values : List (BitVec 32)) : Kept t.esp 36 frames m (storeAll m (pointers t) values) := by
    rw [places]
    apply kept_storeAll
    · intro p member
      simp only [List.mem_cons, List.not_mem_nil, or_false] at member
      rcases member with rfl | rfl | rfl | rfl
      · exact ⟨20, rfl, by decide⟩
      · exact ⟨24, rfl, by decide⟩
      · exact ⟨28, rfl, by decide⟩
      · exact ⟨32, rfl, by decide⟩
    · decide
  refine ⟨_, steps.trans (.of_run ((run_scanf pc).trans read)), rfl, ?_, fun empty => ?_, fun more => ?_,
    ⟨image.library.memory { t with pc := .line 15 }, ?_⟩, ?_⟩
  · exact frame.of_kept rfl rfl ((called.mono (by decide)).trans (kept _ _))
  · rw [← world] at empty
    exact (if_pos empty).symm ▸ image.library.noNumber_cases { t with pc := .line 15 }
  · rw [← world] at more ⊢
    exact if_neg more
  · rw [← world, ← places]
    rfl
  · rw [← world]
    rfl

/-- At the exit of `step`. -/
structure Finished (image : Image) (s t : State Io) (e : BitVec 32) : Prop where
  steps : image.program.Steps s t
  pc : t.pc = .line 40
  frame : Frame s t e

/-- Fewer than four numbers. -/
theorem Scanned.incomplete (scanned : Scanned image s t e) (few : s.world.stdin.length < 4) :
    ∃ u, Finished image s u e ∧ u.eax = 1 ∧ u.world = t.world := by
  have other : (t.eax - 4 == 0) = false := by
    rw [beq_eq_false_iff_ne]
    by_cases empty : s.world.stdin = []
    · rcases scanned.noNumber empty with value | value <;> rw [value] <;> decide
    · rw [scanned.count empty, List.take_of_length_le few.le]
      bv_omega
  have counted := Steps.of_run (run_count image scanned.pc)
  have left := Steps.of_run (run_incomplete image (s := { t.compare t.eax 4 with pc := .line 16 }) rfl other)
  exact ⟨_, ⟨(scanned.steps.trans counted).trans left, rfl, scanned.frame.of_kept rfl rfl .refl⟩, rfl, rfl⟩

section Computation

theorem steps_left (at_ : s.pc = .line 21) :
    image.program.Steps s { s.compare s.ecx s.eax with
      eax := if s.ecx.ult s.eax then s.eax else s.ecx, pc := .line 25 } := by
  have compared := Steps.of_run (run_cmpLeft image at_)
  cases below : s.ecx.ult s.eax with
  | true => exact compared.trans (.of_run (run_below image rfl below))
  | false => exact compared.trans (.of_run (run_notBelow image rfl below))

theorem steps_right (at_ : s.pc = .line 25) :
    image.program.Steps s { s.compare s.edx s.ebx with
      ebx := if s.ebx.ult s.edx then s.ebx else s.edx, pc := .line 29 } := by
  have compared := Steps.of_run (run_cmpRight image at_)
  cases above : s.ebx.ult s.edx with
  | true =>
    have not_below : s.edx.ult s.ebx = false := by
      rw [BitVec.ult_eq_decide, decide_eq_true_iff] at above
      rw [BitVec.ult_eq_decide, decide_eq_false_iff_not]
      omega
    have other : (s.edx - s.ebx == 0) = false := by
      rw [BitVec.ult_eq_decide, decide_eq_true_iff] at above
      rw [beq_eq_false_iff_ne]
      bv_omega
    exact compared.trans (.of_run (run_above image rfl not_below other))
  | false =>
    have at_most : (!s.edx.ult s.ebx && !(s.edx - s.ebx == 0)) = false := by
      rw [BitVec.ult_eq_decide, decide_eq_false_iff_not, not_lt] at above
      rw [BitVec.ult_eq_decide]
      rcases above.lt_or_eq with less | same
      · rw [decide_eq_true less]
        rfl
      · rw [BitVec.eq_of_toNat_eq same, BitVec.sub_self]
        exact Bool.and_false _
    exact compared.trans (.of_run (run_notAbove image rfl at_most))

theorem steps_difference (at_ : s.pc = .line 29) :
    image.program.Steps s { s.compare s.ebx s.eax with
      ebx := if (s.ebx - s.eax).msb then 0 else s.ebx - s.eax, pc := .line 33 } := by
  have subtracted := Steps.of_run (run_sub image at_)
  cases sign : (s.ebx - s.eax).msb with
  | true => exact subtracted.trans (.of_run (run_signed image rfl sign))
  | false => exact subtracted.trans (.of_run (run_notSigned image rfl sign))

end Computation

theorem run_printf (at_ : s.pc = .line 35) : image.program.run 1 s = image.printf { s with pc := .line 36 } := by
  obtain ⟨eax, ebx, ecx, edx, ebp, esp, carry, zero, sign, memory, pc, reads, world⟩ := s
  cases at_
  rw [Program.run_one]
  rfl

/-- The line that is printed for a number. -/
theorem exists_printed (at_ : t.pc = .line 33) (frame : Frame s t e) :
    ∃ u, image.program.Steps t u ∧ u.pc = .line 40 ∧ Frame s u e ∧ u.eax = 0 ∧
      u.world = ⟨t.world.stdin, t.world.printed ++ [t.ebx.toInt]⟩ := by
  obtain rfl := frame.esp
  have prepared := run_print image at_
  have format : ((t.memory.store (t.esp + 4) t.ebx).store (t.esp + 0) image.pr).load (t.esp + 0) = image.pr :=
    Memory.load_store
  have number : ((t.memory.store (t.esp + 4) t.ebx).store (t.esp + 0) image.pr).load (t.esp + 4) = t.ebx := by
    simp (disch := decide) only [load_store_apart, Memory.load_store]
  have stored : Kept t.esp 36 frames t.memory ((t.memory.store (t.esp + 4) t.ebx).store (t.esp + 0) image.pr) := by
    iterate 2 refine Kept.store ?_ (by decide) (by decide)
    exact .refl
  have called := image.library.kept { t with
    memory := (t.memory.store (t.esp + 4) t.ebx).store (t.esp + 0) image.pr, pc := .line 36 }
  have printed : image.printf { t with
    memory := (t.memory.store (t.esp + 4) t.ebx).store (t.esp + 0) image.pr, pc := .line 36 } = some _ :=
      if_pos format
  have steps := (Steps.of_run prepared).trans (.of_run ((run_printf rfl).trans printed))
  refine ⟨_, steps.trans (.of_run (run_printed image rfl)), rfl, ?_, BitVec.xor_self, ?_⟩
  · exact frame.of_kept rfl rfl (stored.trans (called.mono (by decide)))
  · exact congrArg (fun v => Io.mk t.world.stdin (t.world.printed ++ [BitVec.toInt v])) number

/-- Four numbers, of which the line is printed. -/
theorem Scanned.complete {q : Quadruple} {rest : List (BitVec 32)} (scanned : Scanned image s t e)
    (stdin : s.world.stdin = q.numbers ++ rest) :
    ∃ u, Finished image s u e ∧ u.eax = 0 ∧ u.world = ⟨rest, s.world.printed ++ [q.common.toInt]⟩ := by
  obtain ⟨steps, pc, frame, -, count, ⟨m, memory⟩, world⟩ := scanned
  obtain rfl := frame.esp
  rw [stdin] at count memory world
  have same : (t.eax - 4 == 0) = true := by
    have nonempty : q.numbers ++ rest ≠ [] := List.cons_ne_nil _ _
    have four : ((q.numbers ++ rest).take 4).length = 4 := rfl
    rw [count nonempty, four]
    decide
  change t.memory = storeAll m _ [q.a, q.b, q.c, q.d] at memory
  have first : t.memory.load (t.esp + 20) = q.a := by
    rw [memory]
    simp (disch := decide) only [storeAll, load_store_apart, Memory.load_store]
  have second : t.memory.load (t.esp + 24) = q.b := by
    rw [memory]
    simp (disch := decide) only [storeAll, load_store_apart, Memory.load_store]
  have third : t.memory.load (t.esp + 28) = q.c := by
    rw [memory]
    simp (disch := decide) only [storeAll, load_store_apart, Memory.load_store]
  have fourth : t.memory.load (t.esp + 32) = q.d := by
    rw [memory]
    simp (disch := decide) only [storeAll, Memory.load_store]
  have counted := steps.trans (.of_run (run_count image pc))
  have loaded := run_complete image (s := { t.compare t.eax 4 with pc := .line 16 }) rfl same
  simp only [State.compare, first, second, third, fourth] at loaded
  have chosen := ((Steps.of_run loaded).trans (steps_left rfl)).trans (steps_right rfl)
  obtain ⟨p, computed, at_, ebx, kept, world'⟩ : ∃ p,
      image.program.Steps { t.compare t.eax 4 with pc := .line 16 } p ∧ p.pc = .line 33 ∧ p.ebx = q.common ∧
        Frame s p t.esp ∧ p.world = t.world :=
    ⟨_, chosen.trans (steps_difference rfl), rfl, rfl, frame.of_kept rfl rfl .refl, rfl⟩
  obtain ⟨u, printed, exit_, frame', zero, world''⟩ := exists_printed at_ kept
  refine ⟨u, ⟨(counted.trans computed).trans printed, exit_, frame'⟩, zero, ?_⟩
  rw [world'', world', world, ebx]
  rfl

/-- A call of `step` has returned to its caller. -/
structure Returned (image : Image) (s t : State Io) (e : BitVec 32) : Prop where
  steps : image.program.Steps s t
  pc : t.pc = image.program.goTo (s.memory.load (e + 44))
  ebp : t.ebp = s.ebp
  esp : t.esp = e + 48
  kept : Kept e 44 frames s.memory t.memory

theorem Finished.returned (finished : Finished image s t e) :
    ∃ u, Returned image s u e ∧ u.eax = t.eax ∧ u.world = t.world := by
  obtain ⟨steps, pc, frame⟩ := finished
  have second : e + 36 + 4 = e + 40 := by bv_omega
  have third : e + 40 + 4 = e + 44 := by bv_omega
  have fourth : e + 44 + 4 = e + 48 := by bv_omega
  have ran := run_exit image pc
  rw [frame.ebp, second, third, fourth, frame.savedEbp] at ran
  refine ⟨_, ⟨steps.trans (.of_run ran), ?_, rfl, rfl, frame.kept⟩, rfl, rfl⟩
  exact congrArg image.program.goTo (frame.kept.load (by decide) (by decide) (by decide))

/-- One call of `step` in the loop of `main`, behind the `test` of what it returns. -/
structure Passed (image : Image) (s t : State Io) (e : BitVec 32) : Prop where
  steps : image.program.Steps s t
  pc : t.pc = .line 52
  ebp : t.ebp = s.ebp
  esp : t.esp = e + 48
  kept : Kept e 48 frames s.memory t.memory

/-- The loop calls `step` with the address behind the call. -/
theorem exists_called (image : Image) (at_ : s.pc = .line 49) (esp : s.esp = e + 48) :
    ∃ t, image.program.Steps s t ∧ t.pc = .line 0 ∧ t.esp = e + 44 ∧ t.ebp = s.ebp ∧ t.world = s.world ∧
      image.program.goTo (t.memory.load (e + 44)) = .line 51 ∧ Kept e 48 frames s.memory t.memory := by
  have below : s.esp - 4 = e + 44 := by rw [esp]; bv_omega
  have ran := run_call image at_
  rw [below] at ran
  refine ⟨_, .of_run ran, rfl, rfl, rfl, rfl, ?_, kept_store (by decide) (by decide)⟩
  change image.program.goTo (Memory.load (s.memory.store (e + 44) (image.layout.address 51)) (e + 44)) = _
  rw [Memory.load_store]
  exact Program.goTo_line (image.layout.lineAt_address 51 _ rfl)

/-- One pass of the loop, with what `step` does behind `scanf`. -/
theorem exists_passed {result : BitVec 32} {world : Io} (at_ : s.pc = .line 49) (esp : s.esp = e + 48)
    (body : ∀ t u, t.world = s.world → Scanned image t u e →
      ∃ v, Finished image t v e ∧ v.eax = result ∧ v.world = world) :
    ∃ t, Passed image s t e ∧ t.zero = (result == 0) ∧ t.world = world := by
  obtain ⟨t, called, start, esp', ebp, world', line, kept⟩ := exists_called image at_ esp
  obtain ⟨u, prepared⟩ := exists_prepared image start esp'
  obtain ⟨v, scanned⟩ := prepared.scanned
  obtain ⟨w, finished, eax, worldw⟩ := body t v world' scanned
  obtain ⟨x, returned, eaxx, worldx⟩ := finished.returned
  have tested := run_test image (returned.pc.trans line)
  refine ⟨_, ⟨(called.trans returned.steps).trans (.of_run tested), rfl, returned.ebp.trans ebp, returned.esp,
    kept.trans (returned.kept.mono (by decide))⟩, ?_, worldx.trans worldw⟩
  rw [← eax, ← eaxx]
  exact congrArg (· == 0) BitVec.and_self

/-- The loop of `main`: a line for each four numbers, until fewer are left. -/
theorem exists_loop (image : Image) (quads : List Quadruple) {rest : List (BitVec 32)} (few : rest.length < 4)
    (at_ : s.pc = .line 49) (esp : s.esp = e + 48)
    (stdin : s.world.stdin = quads.flatMap Quadruple.numbers ++ rest) :
    ∃ t, Passed image s t e ∧ t.zero = false ∧
      t.world.printed = s.world.printed ++ quads.map fun q => q.common.toInt := by
  induction quads generalizing s with
  | nil =>
    have body (t u : State Io) (same : t.world = s.world) (scanned : Scanned image t u e) :
        ∃ v, Finished image t v e ∧ v.eax = 1 ∧ v.world = ⟨s.world.stdin.drop 4, s.world.printed⟩ := by
      rw [← same] at stdin ⊢
      obtain ⟨v, finished, eax, world⟩ := scanned.incomplete (stdin ▸ few)
      exact ⟨v, finished, eax, world.trans scanned.world⟩
    obtain ⟨t, passed, zero, world⟩ := exists_passed at_ esp body
    refine ⟨t, passed, zero, ?_⟩
    rw [world, List.map_nil, List.append_nil]
  | cons q quads ih =>
    have body (t u : State Io) (same : t.world = s.world) (scanned : Scanned image t u e) :
        ∃ v, Finished image t v e ∧ v.eax = 0 ∧
          v.world = ⟨quads.flatMap Quadruple.numbers ++ rest, s.world.printed ++ [q.common.toInt]⟩ := by
      rw [← same, List.flatMap_cons, List.append_assoc] at stdin
      rw [← same]
      exact scanned.complete stdin
    obtain ⟨t, passed, zero, world⟩ := exists_passed at_ esp body
    have again := run_again image passed.pc zero
    obtain ⟨u, passed', zero', printed⟩ :=
      ih (s := { t with pc := .line 49 }) rfl passed.esp (congrArg Io.stdin world)
    refine ⟨u, ⟨(passed.steps.trans (.of_run again)).trans passed'.steps, passed'.pc, passed'.ebp.trans passed.ebp,
      passed'.esp, passed.kept.trans passed'.kept⟩, zero', ?_⟩
    rw [printed, List.map_cons, world, List.append_assoc]
    rfl

/-- The lowest four bits are cleared. -/
theorem align_offset (v : BitVec 32) : (v - (v &&& -16)).toNat < 16 := by
  have split : (v &&& 15) + (v &&& -16) = v := by
    have apart : (v &&& 15) &&& (v &&& -16) = 0 := by
      calc
        (v &&& 15) &&& (v &&& -16) = v &&& v &&& (15 &&& -16) := by ac_rfl
        _ = 0 := BitVec.and_zero
    rw [BitVec.add_eq_or_of_and_eq_zero _ _ apart, ← BitVec.and_or_distrib_left]
    exact BitVec.and_allOnes
  have low : v - (v &&& -16) = v &&& 15 := by
    rw [sub_eq_iff_eq_add]
    exact split.symm
  rw [low, BitVec.toNat_and]
  exact Nat.lt_of_le_of_lt Nat.and_le_right (by decide)

/-- `main` ends, with a line for each four numbers. -/
theorem exists_ended (image : Image) (quads : List Quadruple) {rest : List (BitVec 32)} (few : rest.length < 4)
    (at_ : s.pc = .line 45) (outside : image.layout.lineAt (s.memory.load s.esp) = none)
    (stdin : s.world.stdin = quads.flatMap Quadruple.numbers ++ rest) :
    ∃ t, image.program.Steps s t ∧ t.pc = .returned (s.memory.load s.esp) ∧ t.eax = 0 ∧
      t.world.printed = s.world.printed ++ quads.map fun q => q.common.toInt := by
  -- the frames of `step` lie below the aligned stack pointer, and what `main` has saved is above it
  obtain ⟨e, aligned⟩ : ∃ e, s.esp - 4 &&& -16 = e + 48 := ⟨(s.esp - 4 &&& -16) - 48, by bv_omega⟩
  obtain ⟨i, saved⟩ : ∃ i, s.esp - 4 = e + i := ⟨s.esp - 4 - e, by bv_omega⟩
  have offset := align_offset (s.esp - 4)
  rw [aligned] at offset
  have above : 48 ≤ i.toNat ∧ i.toNat < 64 := by bv_omega
  have inside : 48 ≤ (i + 4).toNat ∧ (i + 4).toNat + 4 ≤ frames := by
    rw [frames]
    bv_omega
  have ran := run_main image at_
  rw [aligned] at ran
  obtain ⟨t, started, pc, esp, ebp, memory, world⟩ : ∃ t, image.program.Steps s t ∧ t.pc = .line 49 ∧
      t.esp = e + 48 ∧ t.ebp = s.esp - 4 ∧ t.memory = s.memory.store (s.esp - 4) s.ebp ∧ t.world = s.world :=
    ⟨_, .of_run ran, rfl, rfl, rfl, rfl, rfl⟩
  rw [← world] at stdin ⊢
  obtain ⟨u, passed, zero, printed⟩ := exists_loop image quads few pc esp stdin
  have back : u.memory.load (u.ebp + 4) = s.memory.load s.esp := by
    have place : e + i + 4 = e + (i + 4) := by bv_omega
    have top : s.esp = e + (i + 4) := by bv_omega
    rw [passed.ebp, ebp, saved, place, passed.kept.load inside.1 inside.2 (by decide), memory, saved, top]
    exact load_store_apart (by bv_omega) (by bv_omega)
  have ended := Steps.of_run (run_ending image passed.pc zero)
  refine ⟨_, (started.trans passed.steps).trans ended, ?_, BitVec.xor_self, printed⟩
  exact (congrArg image.program.goTo back).trans (Program.goTo_outside outside)

end Hseos.Segments
