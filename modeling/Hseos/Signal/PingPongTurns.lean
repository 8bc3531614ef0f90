import Hseos.Signal.PingPong

/-! # Turns of the ping-pong program

The children take turns: one number is under way at a time, in the pipe or with the child whose turn it
is. A child wakes the other before it writes the next number, so the other may be waiting for the
pipe, or still be about to test the limit of its last turn, when its signal or its number arrives.
One number more than the children print is needed to make both of them end.
-/

namespace Hseos.Signal

/-- The child that takes the `v`th number. -/
def turn (v : ℕ) : Which := if v % 2 = 1 then .child1 else .child2

/-- What the children print for `is_first`. -/
def Which.number : Which → ℕ
  | .child1 => 1
  | .child2 => 2

/-- All lines of the program. -/
def lines (n : ℕ) : List Line := (List.range n).map fun i => .turn (turn (i + 1)).number (i + 1)

/-- The records in the order in which they are taken: the handshake and then the numbers from one. -/
def taking (pids : Pids) : ℕ → Taken
  | 0 => ⟨.child1, true, pids.of .child2⟩
  | v + 1 => ⟨turn (v + 1), false, v + 1⟩

def takings (pids : Pids) (count : ℕ) : List Taken := (List.range count).map (taking pids)

/-- The number at which the first child ends. -/
def limit (n : ℕ) : ℕ := max n 1

/-- A child that is done with the number `u`, which is zero if it had none. -/
inductive Rested (n u : ℕ) (c : Child) : Prop
  | waits (pc : c.pc = .readSig) (more : u = 0 ∨ u < n)
  | tests (pc : c.pc = .check) (number : c.v = u) (positive : 0 < u)
  | gone (pc : c.pc = .exited 0) (beyond : n ≤ u) (positive : 0 < u)

/-- A child that was sent a signal for the number behind `u`, and its pending flag. -/
inductive Notified (n u : ℕ) (c : Child) : Bool → Prop
  | pending (rested : Rested n (u - 1) c) : Notified n u c true
  | woken (pc : c.pc = .readRecord) (bound : u ≤ limit n) : Notified n u c false
  | gone (pc : c.pc = .exited 0) (beyond : limit n < u) : Notified n u c false

/-- The children know each other and themselves. -/
def Knows (pids : Pids) (w : Which) (c : Child) : Prop :=
  c.pid = pids.of w.other ∧ c.isFirst = decide (w = .child1)

/-- Where the number `u + 1` is: in the pipe after the signal for it, with its child before it is
printed, before the other child is woken, and before the next number is written. -/
inductive Turn (pids : Pids) (n u : ℕ) (child : Which → Child) (pending : Which → Bool)
    (pipe : List Buffer) (taken : List Taken) (printed : List Line) : Prop
  | sent (bound : u ≤ limit n + 1)
      (notified : Notified n u (child (turn (u + 1))) (pending (turn (u + 1))))
      (rested : Rested n u (child (turn u))) (quiet : pending (turn u) = false)
      (inPipe : ∃ record, pipe = [record] ∧ Carries record (u + 1))
      (took : taken = takings pids (u + 1)) (shown : printed = (lines n).take u)
  | took (bound : u ≤ limit n) (pc : (child (turn (u + 1))).pc = .print)
      (number : (child (turn (u + 1))).v = u + 1) (still : pending (turn (u + 1)) = false)
      (rested : Rested n u (child (turn u))) (quiet : pending (turn u) = false) (inPipe : pipe = [])
      (took : taken = takings pids (u + 2)) (shown : printed = (lines n).take u)
  | shown (bound : u ≤ limit n) (pc : (child (turn (u + 1))).pc = .kill)
      (number : (child (turn (u + 1))).v = u + 1) (still : pending (turn (u + 1)) = false)
      (rested : Rested n u (child (turn u))) (quiet : pending (turn u) = false) (inPipe : pipe = [])
      (took : taken = takings pids (u + 2)) (shown : printed = (lines n).take (u + 1))
  | passed (bound : u ≤ limit n) (pc : (child (turn (u + 1))).pc = .write)
      (number : (child (turn (u + 1))).v = u + 1) (still : pending (turn (u + 1)) = false)
      (notified : Notified n (u + 1) (child (turn u)) (pending (turn u))) (inPipe : pipe = [])
      (took : taken = takings pids (u + 2)) (shown : printed = (lines n).take (u + 1))

variable {pids : Pids} {n u : ℕ} {w : Which} {s : Buffer} {sys sys' : PingPongState}

section Sequences

theorem turn_add_two (u : ℕ) : turn (u + 2) = turn u := by
  rw [turn, Nat.add_mod_right, turn]

theorem turn_succ (u : ℕ) : turn (u + 1) = (turn u).other := by
  rw [turn, turn]
  split <;> split <;> first | rfl | omega

theorem turn_ne (u : ℕ) : turn (u + 1) ≠ turn u := by
  rw [turn_succ]
  cases turn u <;> decide

/-- Two turns in a row are those of both children. -/
theorem which_turn (u : ℕ) (w : Which) : w = turn (u + 1) ∨ w = turn u := by
  rw [turn_succ]
  cases turn u <;> cases w <;> decide

theorem takings_succ (pids : Pids) (count : ℕ) :
    takings pids (count + 1) = takings pids count ++ [taking pids count] := by
  rw [takings, List.range_succ, List.map_append]
  rfl

theorem lines_take_succ (below : u < n) :
    (lines n).take (u + 1) = (lines n).take u ++ [.turn (turn (u + 1)).number (u + 1)] := by
  have inside : u < (lines n).length := by rwa [lines, List.length_map, List.length_range]
  rw [List.take_succ_eq_append_getElem inside]
  simp only [lines, List.getElem_map, List.getElem_range]

/-- No lines are left behind the limit. -/
theorem lines_take_of_le (beyond : n ≤ u) : (lines n).take u = lines n :=
  List.take_of_length_le (by rwa [lines, List.length_map, List.length_range])

end Sequences

section Child

variable {v : Which} {c : Child} {pc : ChildPc}

theorem child_setChild : (sys.setChild w c).child w = c := Function.update_self ..

theorem child_setChild_of_ne (other : v ≠ w) : (sys.setChild w c).child v = sys.child v :=
  Function.update_of_ne other ..

theorem child_setPc : (sys.setPc w pc).child w = { sys.child w with pc := pc } := child_setChild

theorem child_setPc_of_ne (other : v ≠ w) : (sys.setPc w pc).child v = sys.child v :=
  child_setChild_of_ne other

/-- A child at rest tests the limit, or is woken by a pending signal. -/
theorem Rested.step (rested : Rested n u (sys.child w))
    (moved : sys.childStep pids n w s = some sys') :
    (∃ c, Rested n u c ∧ sys' = sys.setChild w c) ∨
      sys.pending w = true ∧ (u = 0 ∨ u < n) ∧
        sys' = { sys.setPc w .readRecord with pending := Function.update sys.pending w false } := by
  cases rested with
  | waits pc more =>
    simp only [PingPongState.childStep, pc] at moved
    split_ifs at moved with pending
    cases moved
    exact .inr ⟨pending, more, rfl⟩
  | tests pc number positive =>
    simp only [PingPongState.childStep, pc] at moved
    cases moved
    rw [number]
    refine .inl ⟨_, ?_, rfl⟩
    split
    · next beyond => exact .gone rfl beyond positive
    · next more => exact .waits rfl (.inr (Nat.lt_of_not_le more))
  | gone pc =>
    simp only [PingPongState.childStep, pc] at moved
    cases moved

/-- A notified child that is not reading the pipe stays notified. -/
theorem Notified.step (notified : Notified n u (sys.child w) (sys.pending w))
    (elsewhere : (sys.child w).pc ≠ .readRecord) (moved : sys.childStep pids n w s = some sys') :
    ∃ c p, Notified n u c p ∧
      sys' = { sys.setChild w c with pending := Function.update sys.pending w p } := by
  generalize flag : sys.pending w = p at notified
  cases notified with
  | pending rested =>
    rcases rested.step moved with ⟨c, rested', rfl⟩ | ⟨_, more, rfl⟩
    · refine ⟨c, true, .pending rested', ?_⟩
      rw [← flag, Function.update_eq_self]
      rfl
    · refine ⟨_, false, .woken rfl ?_, rfl⟩
      rw [limit]
      omega
  | woken pc => exact absurd pc elsewhere
  | gone pc =>
    simp only [PingPongState.childStep, pc] at moved
    cases moved

/-- A child that reads the pipe has consumed its signal. -/
theorem Notified.reading {c : Child} {p : Bool} (notified : Notified n u c p)
    (reading : c.pc = .readRecord) : p = false ∧ u ≤ limit n := by
  cases notified with
  | pending rested =>
    cases rested with
    | waits pc | tests pc | gone pc =>
      rw [reading] at pc
      cases pc
  | woken _ bound => exact ⟨rfl, bound⟩
  | gone pc =>
    rw [reading] at pc
    cases pc

theorem Pids.which_of (pids : Pids) (w : Which) : pids.which (pids.of w) = some w := by
  have distinct : (pids.of .child2 : ℤ) ≠ pids.of .child1 := fun same =>
    pids.distinct (Int.ofNat_inj.mp same).symm
  cases w with
  | child1 => exact if_pos rfl
  | child2 => exact (if_neg distinct).trans (if_pos rfl)

/-- A signal to a child at rest that has none pending notifies it of the next number. -/
theorem Rested.kill (pids : Pids) (rested : Rested n u (sys.child w)) (quiet : sys.pending w = false) :
    ∃ p, Notified n (u + 1) (sys.child w) p ∧
      sys.kill pids (pids.of w) = { sys with pending := Function.update sys.pending w p } := by
  have target := pids.which_of w
  cases status : (sys.child w).pc.live with
  | true =>
    refine ⟨true, .pending rested, ?_⟩
    simp only [PingPongState.kill, target, status, quiet, Bool.or_false, if_true]
  | false =>
    refine ⟨false, ?_, ?_⟩
    · cases rested with
      | waits pc | tests pc =>
        rw [pc] at status
        cases status
      | gone pc beyond positive =>
        refine .gone pc ?_
        rw [limit]
        omega
    · simp only [PingPongState.kill, target, status, Bool.false_eq_true, if_false]
      rw [← quiet, Function.update_eq_self]

end Child

/-- The turns as the state of the program shows them. -/
abbrev PingPongState.AtTurn (pids : Pids) (n u : ℕ) (sys : PingPongState) : Prop :=
  Turn pids n u sys.child sys.pending sys.pipe sys.taken sys.printed

section Turns

/-- The child whose turn it is takes its number from the pipe, prints it, wakes the other child and
writes the next number. -/
theorem Turn.own (knows : Knows pids (turn (u + 1)) (sys.child (turn (u + 1))))
    (bound : n + 2 < 10 ^ 14) (turn_ : sys.AtTurn pids n u)
    (moved : sys.childStep pids n (turn (u + 1)) s = some sys') :
    (sys'.AtTurn pids n u ∨ sys'.AtTurn pids n (u + 1)) ∧ sys'.coalesced = sys.coalesced := by
  have other := (turn_ne u).symm
  cases turn_ with
  | sent inBound notified rested quiet inPipe took shown =>
    by_cases reading : (sys.child (turn (u + 1))).pc = .readRecord
    · obtain ⟨record, pipe, carries⟩ := inPipe
      have still := notified.reading reading
      simp only [PingPongState.childStep, reading, pipe, carries _] at moved
      cases moved
      refine ⟨.inl (.took still.2 ?_ ?_ still.1 ?_ quiet rfl ?_ shown), rfl⟩
      · simp only [child_setChild]
      · simp only [child_setChild]
      · simpa only [child_setChild_of_ne other] using rested
      · rw [took, takings_succ pids (u + 1)]
        rfl
    · obtain ⟨c, p, notified', rfl⟩ := notified.step reading moved
      refine ⟨.inl (.sent inBound ?_ ?_ ?_ inPipe took shown), rfl⟩
      · simpa only [child_setChild, Function.update_self] using notified'
      · simpa only [child_setChild_of_ne other] using rested
      · simpa only [Function.update_of_ne other] using quiet
  | took inBound pc number still rested quiet inPipe took shown =>
    have label : (if decide (turn (u + 1) = .child1) then 1 else 2) = (turn (u + 1)).number := by
      cases turn (u + 1) <;> rfl
    simp only [PingPongState.childStep, pc, number, knows.2, label] at moved
    have printed : ∃ out, sys' = { sys.setPc (turn (u + 1)) .kill with printed := out } ∧
        out = (lines n).take (u + 1) := by
      split_ifs at moved with inside
      all_goals cases moved
      · refine ⟨_, rfl, ?_⟩
        rw [lines_take_succ (by omega), ← shown]
      · refine ⟨_, rfl, ?_⟩
        rw [lines_take_of_le (by omega), ← lines_take_of_le (n := n) (u := u) (by omega)]
        exact shown
    obtain ⟨out, rfl, shown'⟩ := printed
    refine ⟨.inl (.shown inBound ?_ ?_ still ?_ quiet inPipe took shown'), rfl⟩
    · simp only [child_setPc]
    · simpa only [child_setPc] using number
    · simpa only [child_setPc_of_ne other] using rested
  | shown inBound pc number still rested quiet inPipe took shown =>
    simp only [PingPongState.childStep, pc] at moved
    cases moved
    have back : (turn (u + 1)).other = turn u := by rw [← turn_succ, turn_add_two]
    rw [knows.1, back]
    have rested' : Rested n u ((sys.setPc (turn (u + 1)) .write).child (turn u)) := by
      simpa only [child_setPc_of_ne other] using rested
    obtain ⟨p, notified, killed⟩ := rested'.kill pids quiet
    rw [killed]
    refine ⟨.inl (.passed inBound ?_ ?_ ?_ ?_ inPipe took shown), rfl⟩
    · simp only [child_setPc]
    · simpa only [child_setPc] using number
    · exact (Function.update_of_ne (turn_ne u) ..).trans still
    · simpa only [Function.update_self] using notified
  | passed inBound pc number still notified inPipe took shown =>
    have small : u + 2 < 10 ^ 14 := by rw [limit] at inBound; omega
    obtain ⟨record, written, carries⟩ := writeNumber_ok small s
    have next : wordAdd 64 (u + 1) 1 = u + 2 := wordAdd_of_lt (by omega)
    simp only [PingPongState.childStep, pc, number, next, written] at moved
    cases moved
    refine ⟨.inr (.sent (by omega) ?_ ?_ still ⟨record, ?_, carries⟩ took shown), rfl⟩
    · rw [turn_add_two]
      rw [child_setPc_of_ne other]
      exact notified
    · refine .tests ?_ ?_ (Nat.succ_pos u)
      · simp only [child_setPc]
      · simpa only [child_setPc] using number
    · exact congrArg (· ++ [record]) inPipe

/-- The other child is done with its last turn, or has been woken for its next one. -/
theorem Turn.rest (turn_ : sys.AtTurn pids n u)
    (moved : sys.childStep pids n (turn u) s = some sys') :
    sys'.AtTurn pids n u ∧ sys'.coalesced = sys.coalesced := by
  have other := turn_ne u
  have aside : ∀ (rested : Rested n u (sys.child (turn u))), sys.pending (turn u) = false →
      ∃ c, Rested n u c ∧ sys' = sys.setChild (turn u) c := by
    intro rested quiet
    rcases rested.step moved with same | ⟨pending, _⟩
    · exact same
    · rw [quiet] at pending
      cases pending
  cases turn_ with
  | sent inBound notified rested quiet inPipe took shown =>
    obtain ⟨c, rested', rfl⟩ := aside rested quiet
    refine ⟨.sent inBound ?_ ?_ quiet inPipe took shown, rfl⟩
    · rw [child_setChild_of_ne other]
      exact notified
    · simpa only [child_setChild] using rested'
  | took inBound pc number still rested quiet inPipe took shown =>
    obtain ⟨c, rested', rfl⟩ := aside rested quiet
    refine ⟨.took inBound ?_ ?_ still ?_ quiet inPipe took shown, rfl⟩
    · simpa only [child_setChild_of_ne other] using pc
    · simpa only [child_setChild_of_ne other] using number
    · simpa only [child_setChild] using rested'
  | shown inBound pc number still rested quiet inPipe took shown =>
    obtain ⟨c, rested', rfl⟩ := aside rested quiet
    refine ⟨.shown inBound ?_ ?_ still ?_ quiet inPipe took shown, rfl⟩
    · simpa only [child_setChild_of_ne other] using pc
    · simpa only [child_setChild_of_ne other] using number
    · simpa only [child_setChild] using rested'
  | passed inBound pc number still notified inPipe took shown =>
    by_cases reading : (sys.child (turn u)).pc = .readRecord
    · -- the next number is not written yet
      simp only [PingPongState.childStep, reading, inPipe] at moved
      cases moved
    · obtain ⟨c, p, notified', rfl⟩ := notified.step reading moved
      refine ⟨.passed inBound ?_ ?_ ?_ ?_ inPipe took shown, rfl⟩
      · simpa only [child_setChild_of_ne other] using pc
      · simpa only [child_setChild_of_ne other] using number
      · simpa only [Function.update_of_ne other] using still
      · simpa only [child_setChild, Function.update_self] using notified'

/-- Every step of a child keeps the turns. -/
theorem Turn.step (knows : ∀ w, Knows pids w (sys.child w)) (bound : n + 2 < 10 ^ 14)
    (turn_ : sys.AtTurn pids n u) (moved : sys.childStep pids n w s = some sys') :
    (∃ u', sys'.AtTurn pids n u') ∧ sys'.coalesced = sys.coalesced := by
  rcases which_turn u w with rfl | rfl
  · obtain ⟨same | next, clean⟩ := turn_.own (knows _) bound moved
    · exact ⟨⟨u, same⟩, clean⟩
    · exact ⟨⟨u + 1, next⟩, clean⟩
  · obtain ⟨same, clean⟩ := turn_.rest moved
    exact ⟨⟨u, same⟩, clean⟩

end Turns

end Hseos.Signal
