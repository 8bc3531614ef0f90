import Hseos.Signal.PingPongTurns

/-! # Runs of the ping-pong program

Before the turns begin the parent forks, fills the pipe and wakes the first child, which meanwhile
takes the process id of the other child from the front of the pipe. Nothing can take its place: the
second child only reads the pipe when it is woken. Every run is at one of these stages or at some
turn, and only stops when both children have ended and the parent has waited for them.
-/

namespace Hseos.Signal

/-- The parent has sent the first signal, and nothing has failed. -/
def ParentPc.Past : ParentPc → Prop
  | .closeRead | .closeWrite | .wait => True
  | .exited status => status = 0
  | .fork1 | .fork2 | .initChild1 | .initSequence | .kill | .fault _ => False

/-- The second child waits for its first signal. -/
def Ready (pids : Pids) (c : Child) : Prop := c.pc = .readSig ∧ Knows pids .child2 c

/-- The first child before its handshake, with these numbers in the pipe. -/
structure Asks (pids : Pids) (queue : List ℕ) (c : Child) (pipe : List Buffer) (taken : List Taken) :
    Prop where
  pc : c.pc = .readPid
  inPipe : List.Forall₂ Carries pipe queue
  took : taken = []

/-- The first child after its handshake, with these numbers in the pipe. -/
structure Greeted (pids : Pids) (queue : List ℕ) (c : Child) (pipe : List Buffer)
    (taken : List Taken) : Prop where
  pc : c.pc = .readSig
  knows : Knows pids .child1 c
  inPipe : List.Forall₂ Carries pipe queue
  took : taken = takings pids 1

/-- Nothing has been signalled or printed. -/
structure Quiet (sys : PingPongState) : Prop where
  still : ∀ w, sys.pending w = false
  shown : sys.printed = []

/-- The stages of a run. -/
inductive Stage (pids : Pids) (n : ℕ) (sys : PingPongState) : Prop
  | fork1 (at_ : sys.parent = .fork1) (idle : ∀ w, (sys.child w).pc = .notForked) (quiet : Quiet sys)
      (inPipe : sys.pipe = []) (took : sys.taken = [])
  | fork2 (at_ : sys.parent = .fork2) (idle : (sys.child .child2).pc = .notForked) (quiet : Quiet sys)
      (first : Asks pids [] (sys.child .child1) sys.pipe sys.taken)
  | initChild1 (at_ : sys.parent = .initChild1) (second : Ready pids (sys.child .child2))
      (quiet : Quiet sys) (first : Asks pids [] (sys.child .child1) sys.pipe sys.taken)
  | filling {queue : List ℕ} (second : Ready pids (sys.child .child2)) (quiet : Quiet sys)
      (at_ : sys.parent = .initSequence ∧ queue = [] ∨ sys.parent = .kill ∧ queue = [1])
      (first : Asks pids (pids.of .child2 :: queue) (sys.child .child1) sys.pipe sys.taken ∨
        Greeted pids queue (sys.child .child1) sys.pipe sys.taken)
  | greeting (past : sys.parent.Past) (second : Ready pids (sys.child .child2))
      (first : Asks pids [pids.of .child2, 1] (sys.child .child1) sys.pipe sys.taken)
      (notified : sys.pending .child1 = true) (still : sys.pending .child2 = false)
      (shown : sys.printed = [])
  | turns {u : ℕ} (past : sys.parent.Past) (knows : ∀ w, Knows pids w (sys.child w))
      (turn_ : sys.AtTurn pids n u)

variable {pids : Pids} {n u : ℕ} {w : Which} {s : Buffer} {sys sys' : PingPongState}

section Frame

@[simp] theorem setPc_pid (sys : PingPongState) (w j : Which) (pc : ChildPc) :
    ((sys.setPc w pc).child j).pid = (sys.child j).pid := by
  by_cases same : j = w
  · subst same
    simp only [child_setPc]
  · simp only [child_setPc_of_ne same]

@[simp] theorem setPc_isFirst (sys : PingPongState) (w j : Which) (pc : ChildPc) :
    ((sys.setPc w pc).child j).isFirst = (sys.child j).isFirst := by
  by_cases same : j = w
  · subst same
    simp only [child_setPc]
  · simp only [child_setPc_of_ne same]

/-- A signal changes flags only. -/
theorem kill_frame (pids : Pids) (pid : ℤ) (sys : PingPongState) :
    ∃ pending coalesced,
      sys.kill pids pid = { sys with pending := pending, coalesced := coalesced } := by
  rw [PingPongState.kill]
  split
  · exact ⟨_, _, rfl⟩
  · split <;> exact ⟨_, _, rfl⟩

/-- A step of a child that does not end its handshake changes neither the parent nor what the children
know. -/
theorem childStep_frame (past : (sys.child w).pc ≠ .readPid)
    (moved : sys.childStep pids n w s = some sys') :
    sys'.parent = sys.parent ∧
      ((∀ j, Knows pids j (sys.child j)) → ∀ j, Knows pids j (sys'.child j)) := by
  cases at_ : (sys.child w).pc <;> simp only [PingPongState.childStep, at_] at moved
  case readPid => exact absurd at_ past
  case kill =>
    obtain ⟨pending, coalesced, killed⟩ := kill_frame pids (sys.child w).pid (sys.setPc w .write)
    rw [killed] at moved
    cases moved
    exact ⟨rfl, fun knows j => by simpa [Knows] using knows j⟩
  case readRecord =>
    split at moved
    · cases moved
    · split at moved <;> cases moved
      · exact ⟨rfl, fun knows j => by simpa [Knows] using knows j⟩
      · refine ⟨rfl, fun knows j => ?_⟩
        by_cases same : j = w
        · subst same
          simpa [Knows, child_setChild] using knows j
        · simpa [Knows, child_setChild_of_ne same] using knows j
  all_goals
    try split at moved
    all_goals cases moved
    all_goals exact ⟨rfl, fun knows j => by simpa [Knows] using knows j⟩

theorem Rested.past {c : Child} (rested : Rested n u c) : c.pc ≠ .readPid := by
  cases rested with
  | waits pc | tests pc | gone pc => rw [pc]; exact ChildPc.noConfusion

theorem Notified.past {c : Child} {p : Bool} (notified : Notified n u c p) : c.pc ≠ .readPid := by
  cases notified with
  | pending rested => exact rested.past
  | woken pc | gone pc => rw [pc]; exact ChildPc.noConfusion

/-- The handshake is over when the turns begin. -/
theorem Turn.past (turn_ : sys.AtTurn pids n u) (w : Which) : (sys.child w).pc ≠ .readPid := by
  cases turn_ with
  | sent _ notified rested =>
    rcases which_turn u w with rfl | rfl
    · exact notified.past
    · exact rested.past
  | took _ pc _ _ rested | shown _ pc _ _ rested =>
    rcases which_turn u w with rfl | rfl
    · rw [pc]; exact ChildPc.noConfusion
    · exact rested.past
  | passed _ pc _ _ notified =>
    rcases which_turn u w with rfl | rfl
    · rw [pc]; exact ChildPc.noConfusion
    · exact notified.past

end Frame

section Start

/-- The signal for the first number begins the turns. -/
theorem first_turn (sys : PingPongState)
    (first : Greeted pids [1] (sys.child .child1) sys.pipe sys.taken)
    (second : Ready pids (sys.child .child2)) (notified : sys.pending .child1 = true)
    (still : sys.pending .child2 = false) (shown : sys.printed = []) :
    (∀ w, Knows pids w (sys.child w)) ∧ sys.AtTurn pids n 0 := by
  refine ⟨fun w => ?_, .sent (Nat.zero_le _) ?_ ?_ still ?_ first.took shown⟩
  · cases w with
    | child1 => exact first.knows
    | child2 => exact second.2
  · have pending : Notified n 0 (sys.child .child1) true := .pending (.waits first.pc (.inl rfl))
    exact notified ▸ pending
  · exact .waits second.1 (.inl rfl)
  · obtain ⟨record, rest, carries, none_, same⟩ := List.forall₂_cons_right_iff.mp first.inPipe
    rw [List.forall₂_nil_right_iff] at none_
    exact ⟨record, by rw [same, none_], carries⟩

/-- The first child takes the process id of the second child. -/
theorem Asks.step {queue : List ℕ}
    (first : Asks pids (pids.of .child2 :: queue) (sys.child .child1) sys.pipe sys.taken)
    (moved : sys.childStep pids n .child1 s = some sys') :
    ∃ c pipe taken, Greeted pids queue c pipe taken ∧
      sys' = { sys.setChild .child1 c with pipe := pipe, taken := taken } := by
  obtain ⟨record, rest, carries, inPipe, same⟩ := List.forall₂_cons_right_iff.mp first.inPipe
  have bound := pids.bound .child2
  have pid : (pids.of .child2 : ℤ).bmod (2 ^ 32) = pids.of .child2 :=
    Int.bmod_eq_of_le (by omega) (by omega)
  simp only [PingPongState.childStep, first.pc, same, carries 0, pid] at moved
  cases moved
  refine ⟨_, _, _, ⟨rfl, ⟨rfl, rfl⟩, inPipe, ?_⟩, rfl⟩
  rw [first.took]
  rfl

/-- Before the first signal the children do nothing but the handshake. -/
theorem childStep_blocked (quiet : Quiet sys)
    (blocked : (sys.child w).pc = .notForked ∨ (sys.child w).pc = .readPid ∧ sys.pipe = [] ∨
      (sys.child w).pc = .readSig) : sys.childStep pids n w s = none := by
  rcases blocked with pc | ⟨pc, empty⟩ | pc
  · simp only [PingPongState.childStep, pc]
  · simp only [PingPongState.childStep, pc, empty]
  · simp only [PingPongState.childStep, pc, quiet.still w, Bool.false_eq_true, if_false]

theorem Asks.blocked (quiet : Quiet sys)
    (first : Asks pids [] (sys.child .child1) sys.pipe sys.taken) :
    sys.childStep pids n .child1 s = none :=
  childStep_blocked quiet (.inr (.inl ⟨first.pc, List.forall₂_nil_right_iff.mp first.inPipe⟩))

theorem Ready.blocked (quiet : Quiet sys) (second : Ready pids (sys.child .child2)) :
    sys.childStep pids n .child2 s = none :=
  childStep_blocked quiet (.inr (.inr second.1))

end Start

/-- Every step of a child keeps to the stages. -/
theorem Stage.child (bound : n + 2 < 10 ^ 14) (stage : Stage pids n sys)
    (moved : sys.childStep pids n w s = some sys') :
    Stage pids n sys' ∧ sys'.coalesced = sys.coalesced := by
  have other : Which.child2 ≠ .child1 := by decide
  cases stage with
  | fork1 at_ idle quiet =>
    rw [childStep_blocked quiet (.inl (idle w))] at moved
    cases moved
  | fork2 at_ idle quiet first =>
    cases w with
    | child1 => rw [first.blocked quiet] at moved; cases moved
    | child2 => rw [childStep_blocked quiet (.inl idle)] at moved; cases moved
  | initChild1 at_ second quiet first =>
    cases w with
    | child1 => rw [first.blocked quiet] at moved; cases moved
    | child2 => rw [second.blocked quiet] at moved; cases moved
  | filling second quiet at_ first =>
    cases w with
    | child1 =>
      rcases first with asks | greeted
      · obtain ⟨c, pipe, taken, greeted, rfl⟩ := asks.step moved
        refine ⟨.filling ?_ ⟨quiet.still, quiet.shown⟩ at_ (.inr ?_), rfl⟩
        · simpa only [child_setChild_of_ne other] using second
        · simpa only [child_setChild] using greeted
      · rw [childStep_blocked quiet (.inr (.inr greeted.pc))] at moved
        cases moved
    | child2 => rw [second.blocked quiet] at moved; cases moved
  | greeting past second first notified still shown =>
    cases w with
    | child1 =>
      obtain ⟨c, pipe, taken, greeted, rfl⟩ := first.step moved
      have begun := first_turn (n := n) { sys.setChild .child1 c with pipe := pipe, taken := taken }
        (by simpa only [child_setChild] using greeted)
        (by simpa only [child_setChild_of_ne other] using second)
        notified still shown
      exact ⟨.turns past begun.1 begun.2, rfl⟩
    | child2 =>
      simp only [PingPongState.childStep, second.1, still, Bool.false_eq_true, if_false] at moved
      cases moved
  | turns past knows turn_ =>
    obtain ⟨parent, known⟩ := childStep_frame (turn_.past w) moved
    obtain ⟨⟨u', turn'⟩, clean⟩ := turn_.step knows bound moved
    exact ⟨.turns (parent ▸ past) (known knows) turn', clean⟩

section Parent

/-- The parent fills the pipe. -/
theorem initPipe_ok {v : ℕ} (small : v < 10 ^ 14) (s : Buffer) (msg : String) (next : ParentPc)
    (sys : PingPongState) :
    ∃ record, Carries record v ∧
      sys.initPipe s v msg next = { sys with parent := next, pipe := sys.pipe ++ [record] } := by
  obtain ⟨record, written, carries⟩ := writeNumber_ok small s
  refine ⟨record, carries, ?_⟩
  simp only [PingPongState.initPipe, written]
  rfl

theorem begin_pid (pids : Pids) (v : ℕ) : Ready pids (Child.begin (pids.of .child1) v) := by
  have nonzero : (pids.of .child1 : ℤ) ≠ 0 := by
    have positive := pids.positive .child1
    omega
  exact ⟨if_neg nonzero, rfl, rfl⟩

/-- Behind its signal the parent only closes the pipe and waits. -/
theorem parentStep_past (past : sys.parent.Past) (moved : sys.parentStep pids s = some sys') :
    ∃ parent reaped, sys' = { sys with parent := parent, reaped := reaped } ∧ parent.Past := by
  cases at_ : sys.parent <;> rw [at_] at past <;> simp only [PingPongState.parentStep, at_] at moved
  case closeRead | closeWrite =>
    cases moved
    exact ⟨_, _, rfl, trivial⟩
  case wait =>
    split_ifs at moved with waiting blocked
    · cases moved
      exact ⟨_, _, rfl, past⟩
    · cases moved
      exact ⟨_, _, rfl, rfl⟩
  case exited => cases moved
  all_goals exact absurd past id

/-- Every step of the parent keeps to the stages. -/
theorem Stage.parent (stage : Stage pids n sys) (moved : sys.parentStep pids s = some sys') :
    Stage pids n sys' ∧ sys'.coalesced = sys.coalesced := by
  have other : Which.child2 ≠ .child1 := by decide
  cases stage with
  | fork1 at_ idle quiet inPipe took =>
    simp only [PingPongState.parentStep, at_] at moved
    cases moved
    refine ⟨.fork2 rfl ?_ ⟨quiet.still, quiet.shown⟩ ⟨?_, ?_, took⟩, rfl⟩
    · simpa only [child_setChild_of_ne other] using idle .child2
    · rw [child_setChild]
      rfl
    · exact List.forall₂_nil_right_iff.mpr inPipe
  | fork2 at_ idle quiet first =>
    simp only [PingPongState.parentStep, at_] at moved
    cases moved
    refine ⟨.initChild1 rfl ?_ ⟨quiet.still, quiet.shown⟩ ?_, rfl⟩
    · simpa only [child_setChild] using begin_pid pids _
    · simpa only [PingPongState.setChild, Function.update_of_ne other.symm] using first
  | initChild1 at_ second quiet first =>
    have small : pids.of .child2 < 10 ^ 14 := Nat.lt_trans (pids.bound .child2) (by decide)
    obtain ⟨record, carries, filled⟩ := initPipe_ok small s "init child1" .initSequence sys
    simp only [PingPongState.parentStep, at_, filled] at moved
    cases moved
    refine ⟨.filling second ⟨quiet.still, quiet.shown⟩ (.inl ⟨rfl, rfl⟩) (.inl ⟨first.pc, ?_, first.took⟩),
      rfl⟩
    exact List.rel_append first.inPipe (.cons carries .nil)
  | filling second quiet at_ first =>
    rcases at_ with ⟨at_, rfl⟩ | ⟨at_, rfl⟩
    · obtain ⟨record, carries, filled⟩ :=
        initPipe_ok (show 1 < 10 ^ 14 by decide) s "init sequence" .kill sys
      simp only [PingPongState.parentStep, at_, filled] at moved
      cases moved
      refine ⟨.filling second ⟨quiet.still, quiet.shown⟩ (.inr ⟨rfl, rfl⟩) ?_, rfl⟩
      rcases first with asks | greeted
      · exact .inl ⟨asks.pc, List.rel_append asks.inPipe (.cons carries .nil), asks.took⟩
      · exact .inr ⟨greeted.pc, greeted.knows,
          List.rel_append greeted.inPipe (.cons carries .nil), greeted.took⟩
    · have live : (sys.child .child1).pc.live = true := by
        rcases first with asks | greeted
        · rw [asks.pc]; rfl
        · rw [greeted.pc]; rfl
      have target := pids.which_of .child1
      simp only [PingPongState.parentStep, PingPongState.kill, at_, target, live, if_true, quiet.still,
        Bool.or_false] at moved
      cases moved
      have flag : Function.update sys.pending .child1 true .child1 = true := Function.update_self ..
      have still : Function.update sys.pending .child1 true .child2 = false := by
        rw [Function.update_of_ne other]
        exact quiet.still .child2
      rcases first with asks | greeted
      · exact ⟨.greeting trivial second asks flag still quiet.shown, rfl⟩
      · have begun := first_turn (n := n)
          { sys with
            parent := .closeRead
            pending := Function.update sys.pending .child1 true }
          greeted second flag still quiet.shown
        exact ⟨.turns trivial begun.1 begun.2, rfl⟩
  | greeting past second first notified still shown =>
    obtain ⟨parent, reaped, rfl, past'⟩ := parentStep_past past moved
    exact ⟨.greeting past' second first notified still shown, rfl⟩
  | turns past knows turn_ =>
    obtain ⟨parent, reaped, rfl, past'⟩ := parentStep_past past moved
    exact ⟨.turns past' knows turn_, rfl⟩

end Parent

/-- What holds in every run. -/
structure PingPongInv (pids : Pids) (n : ℕ) (sys : PingPongState) : Prop where
  stage : Stage pids n sys
  clean : sys.coalesced = false

theorem pingPongInv_reachable {allowed : PingPongState → PingPongAction → Prop}
    (bound : n + 2 < 10 ^ 14) (reachable : (pingPong pids n).Reachable allowed sys) :
    PingPongInv pids n sys := by
  apply reachable.invariant (PingPongInv pids n)
  · rintro _ ⟨v, rfl⟩
    exact ⟨.fork1 rfl (fun _ => rfl) ⟨fun _ => rfl, rfl⟩ rfl rfl, rfl⟩
  · intro sys sys' action _ inv moved
    cases action with
    | parent s =>
      obtain ⟨stage, clean⟩ := inv.stage.parent moved
      exact ⟨stage, clean.trans inv.clean⟩
    | child w s =>
      obtain ⟨stage, clean⟩ := inv.stage.child bound moved
      exact ⟨stage, clean.trans inv.clean⟩

/-- What was printed and taken is what the turns prescribe, as far as they have come. -/
theorem Stage.progress (stage : Stage pids n sys) :
    sys.printed <+: lines n ∧ ∃ count, sys.taken = takings pids count := by
  cases stage with
  | fork1 _ _ quiet _ took => exact ⟨quiet.shown ▸ List.nil_prefix, 0, took⟩
  | fork2 _ _ quiet first | initChild1 _ _ quiet first =>
    exact ⟨quiet.shown ▸ List.nil_prefix, 0, first.took⟩
  | filling _ quiet _ first =>
    refine ⟨quiet.shown ▸ List.nil_prefix, ?_⟩
    rcases first with asks | greeted
    · exact ⟨0, asks.took⟩
    · exact ⟨1, greeted.took⟩
  | greeting _ _ first _ _ shown => exact ⟨shown ▸ List.nil_prefix, 0, first.took⟩
  | turns _ _ turn_ =>
    cases turn_ with
    | sent _ _ _ _ _ took shown => exact ⟨shown ▸ List.take_prefix .., _, took⟩
    | took _ _ _ _ _ _ _ took shown => exact ⟨shown ▸ List.take_prefix .., _, took⟩
    | shown _ _ _ _ _ _ _ took shown => exact ⟨shown ▸ List.take_prefix .., _, took⟩
    | passed _ _ _ _ _ _ took shown => exact ⟨shown ▸ List.take_prefix .., _, took⟩

section Stuck

/-- What a child waits for that cannot take a step. -/
def PingPongState.Waits (sys : PingPongState) (w : Which) : Prop :=
  match (sys.child w).pc with
  | .readPid | .readRecord => sys.pipe = []
  | .readSig => sys.pending w = false
  | .print | .kill | .write | .check => False
  | .notForked | .exited _ | .fault _ => True

theorem waits_of_stuck (stuck : sys.childStep pids n w s = none) : sys.Waits w := by
  rw [PingPongState.Waits]
  cases at_ : (sys.child w).pc <;> simp only [PingPongState.childStep, at_] at stuck ⊢
  case readPid =>
    split at stuck
    · assumption
    · split at stuck
      · cases stuck
      · split at stuck <;> cases stuck
  case readRecord =>
    split at stuck
    · assumption
    · split at stuck <;> cases stuck
  case readSig =>
    split at stuck
    · cases stuck
    · next flag => exact Bool.eq_false_of_not_eq_true flag
  all_goals
    try split at stuck
    all_goals cases stuck

/-- A child at rest that cannot take a step and is not woken has had its last turn. -/
theorem Rested.stuck (rested : Rested n u (sys.child w)) (waits : sys.Waits w)
    (beyond : 0 < u ∧ n ≤ u ∨ sys.pending w = true) :
    (sys.child w).pc = .exited 0 ∧ 0 < u ∧ n ≤ u := by
  rw [PingPongState.Waits] at waits
  cases rested with
  | waits pc more =>
    simp only [pc] at waits
    rw [waits] at beyond
    rcases beyond with behind | flag
    · omega
    · cases flag
  | tests pc =>
    simp only [pc] at waits
  | gone pc beyond positive => exact ⟨pc, positive, beyond⟩

/-- When neither child can take a step, all lines are printed and both children have ended. -/
theorem Turn.stuck (waits : ∀ w, sys.Waits w) (turn_ : sys.AtTurn pids n u) :
    sys.printed = lines n ∧ ∀ w, (sys.child w).pc = .exited 0 := by
  have own := waits (turn (u + 1))
  cases turn_ with
  | sent inBound notified rested quiet inPipe took shown =>
    obtain ⟨record, pipe, _⟩ := inPipe
    have ended : (sys.child (turn (u + 1))).pc = .exited 0 ∧ 0 < u ∧ n ≤ u := by
      generalize flag : sys.pending (turn (u + 1)) = p at notified
      cases notified with
      | pending rested =>
        obtain ⟨pc, positive, beyond⟩ := rested.stuck own (.inr flag)
        exact ⟨pc, by omega, by omega⟩
      | woken pc =>
        simp only [PingPongState.Waits, pc] at own
        rw [pipe] at own
        cases own
      | gone pc beyond =>
        rw [limit] at beyond
        exact ⟨pc, by omega, by omega⟩
    have last := rested.stuck (waits (turn u)) (.inl ended.2)
    refine ⟨shown.trans (lines_take_of_le ended.2.2), fun w => ?_⟩
    rcases which_turn u w with rfl | rfl
    · exact ended.1
    · exact last.1
  | took _ pc | shown _ pc | passed _ pc => simp only [PingPongState.Waits, pc] at own

theorem Stage.stuck (stage : Stage pids n sys)
    (stuck : (pingPong pids n).Stuck sys) :
    sys.printed = lines n ∧ sys.parent = .exited 0 ∧ ∀ w, (sys.child w).pc = .exited 0 := by
  have main : sys.parentStep pids (fun _ => 0) = none := stuck (.parent fun _ => 0)
  have waits : ∀ w, sys.Waits w := fun w => waits_of_stuck (stuck (.child w fun _ => 0))
  cases stage with
  | fork1 at_ | fork2 at_ | initChild1 at_ =>
    simp only [PingPongState.parentStep, at_] at main
    cases main
  | filling _ _ at_ =>
    rcases at_ with ⟨at_, _⟩ | ⟨at_, _⟩
    · simp only [PingPongState.parentStep, at_] at main
      cases main
    · simp only [PingPongState.parentStep, at_] at main
      cases main
  | greeting _ _ first =>
    have asks := waits .child1
    simp only [PingPongState.Waits, first.pc] at asks
    have inPipe := first.inPipe
    rw [asks] at inPipe
    cases inPipe
  | turns past _ turn_ =>
    obtain ⟨printed, ended⟩ := turn_.stuck waits
    refine ⟨printed, ?_, ended⟩
    have both : sys.ended = 2 := by
      rw [PingPongState.ended, ended, ended]
      rfl
    cases at_ : sys.parent <;> rw [at_] at past <;>
      simp only [PingPongState.parentStep, at_, both] at main
    case wait =>
      split_ifs at main
    case exited => exact congrArg _ past
    case closeRead | closeWrite => cases main
    all_goals exact absurd past id

end Stuck

/-- In every run the lines printed are the first of all lines, the handshake takes the first record and
the children take the numbers in turn, no signal meets a pending one, and a run can only stop when all
lines are printed and all processes have ended. -/
theorem ping_pong_turns (pids : Pids) {n : ℕ} (bound : n + 2 < 10 ^ 14) {sys : PingPongState}
    (reachable : (pingPong pids n).Reachable (fun _ _ => True) sys) :
    sys.printed <+: lines n ∧ (∃ count, sys.taken = takings pids count) ∧ sys.coalesced = false ∧
      ((pingPong pids n).Stuck sys → sys.printed = lines n ∧ sys.parent = .exited 0 ∧
        ∀ w, (sys.child w).pc = .exited 0) := by
  have inv := pingPongInv_reachable bound reachable
  exact ⟨inv.stage.progress.1, inv.stage.progress.2, inv.clean, inv.stage.stuck⟩

/-- Process ids of two children. -/
def somePids : Pids where
  of
    | .child1 => 101
    | .child2 => 102
  positive w := by cases w <;> decide
  bound w := by cases w <;> decide
  distinct := by decide

/-- The first child has printed and woken the second one, which waits for the number two. -/
def twoWoken : List PingPongAction :=
  let parent : PingPongAction := .parent fun _ => 7
  let child1 : PingPongAction := .child .child1 fun _ => 7
  [parent, parent, parent, child1, parent, parent, child1, child1, child1, child1,
    .child .child2 fun _ => 7]

theorem ping_pong_turns_woken :
    ∃ sys, (pingPong somePids 2).Reachable (fun _ _ => True) sys ∧
      (sys.child .child2).pc = .readRecord ∧ sys.pipe = [] ∧ sys.printed = [.turn 1 1] ∧
      sys.printed <+: lines 2 := by
  obtain ⟨sys, ran, waits, empty, printed⟩ : ∃ sys, (pingPong somePids 2).run
      ⟨.fork1, fun _ => ⟨.notForked, 0, false, 0⟩, [], fun _ => false, 0, [], [], false⟩ twoWoken =
        some sys ∧ (sys.child .child2).pc = .readRecord ∧ sys.pipe = [] ∧ sys.printed = [.turn 1 1] :=
    ⟨_, rfl, rfl, rfl, rfl⟩
  have reachable : (pingPong somePids 2).Reachable (fun _ _ => True) sys :=
    .run (.start ⟨fun _ => 0, rfl⟩) (fun _ _ _ => trivial) ran
  exact ⟨sys, reachable, waits, empty, printed, (ping_pong_turns somePids (by decide) reachable).1⟩

end Hseos.Signal
