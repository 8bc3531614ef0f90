import Hseos.Signal.SequenceToken

/-! # The missed wake-up of the sequence

`wait_signal` tests `received` outside of `pause`. A handler that runs between the two sets the flag, and
the process sleeps all the same; the token is with it, so no other process will signal it again. Where no
handler runs there, the flag of a process that waits is clear, and a process with the token is awake.
-/

namespace Hseos.Signal

/-- No handler runs in a process between its test of `received` and its call of `pause`. -/
def Undisturbed {count : ℕ} (s : Sequence count) : SequenceAction count → Prop
  | .deliver none => s.parent.pc ≠ .wait .pause
  | .deliver (some i) => (s.children i).pc ≠ .wait .pause
  | .step _ | .die _ => True

/-- The test keeps a process with a set flag from sleeping. -/
theorem WaitPc.step_alert {at_ : WaitPc} {received received' : Bool} {next : Option WaitPc}
    (alert : at_ = .pause → received = false) (moved : at_.step received = some (received', next))
    (sleeps : next = some .pause ∨ next = some .paused) : received' = false := by
  cases at_ with
  | test =>
    cases moved
    cases received <;> simp_all
  | pause =>
    cases moved
    exact alert rfl
  | paused => cases moved
  | clear =>
    cases moved
    rfl

/-- A handler leaves no process in `pause`. -/
theorem SequenceParentPc.wake_sleeps {count : ℕ} {pc : SequenceParentPc count}
    (sleeps : pc.wake = .wait .pause ∨ pc.wake = .wait .paused) : pc = .wait .pause := by
  cases pc with
  | wait at_ => cases at_ <;> simp_all [SequenceParentPc.wake, WaitPc.wake]
  | _ => simp [SequenceParentPc.wake] at sleeps

theorem SequenceChildPc.wake_sleeps {pc : SequenceChildPc}
    (sleeps : pc.wake = .wait .pause ∨ pc.wake = .wait .paused) : pc = .wait .pause := by
  cases pc with
  | wait at_ => cases at_ <;> simp_all [SequenceChildPc.wake, WaitPc.wake]
  | _ => simp [SequenceChildPc.wake] at sleeps

/-- The parent is not about to sleep, or its flag is clear. -/
def SequenceParent.Alert {count : ℕ} (p : SequenceParent count) : Prop :=
  p.pc = .wait .pause ∨ p.pc = .wait .paused → p.received = false

/-- A child is not about to sleep, or its flag is clear. -/
def SequenceChild.Alert (c : SequenceChild) : Prop :=
  c.pc = .wait .pause ∨ c.pc = .wait .paused → c.received = false

theorem SequenceParent.Alert.awake {count : ℕ} {p : SequenceParent count} (pause : p.pc ≠ .wait .pause)
    (paused : p.pc ≠ .wait .paused) : p.Alert :=
  fun sleeps => (sleeps.elim pause paused).elim

theorem SequenceChild.Alert.awake {c : SequenceChild} (pause : c.pc ≠ .wait .pause)
    (paused : c.pc ≠ .wait .paused) : c.Alert :=
  fun sleeps => (sleeps.elim pause paused).elim

namespace Sequence

variable {count : ℕ} {limit : ℤ} {s s' : Sequence count} {i : Fin count}

/-- Some process is suspended in `pause` although its flag is set. -/
def Missed (s : Sequence count) : Prop :=
  (s.parent.pc = .wait .paused ∧ s.parent.received = true) ∨
    ∃ i, (s.children i).pc = .wait .paused ∧ (s.children i).received = true

/-- Every process is suspended and no signal is in flight. -/
def Asleep (s : Sequence count) : Prop :=
  (s.parent.pc = .wait .paused ∧ s.parent.pending = false) ∧
    ∀ i, ((s.children i).pc.live → (s.children i).pc = .wait .paused) ∧ (s.children i).pending = false

def Alert (s : Sequence count) : Prop := s.parent.Alert ∧ ∀ i, (s.children i).Alert

theorem Alert.setChild {c : SequenceChild} (alert : s.Alert) (new : c.Alert) : (s.setChild i c).Alert :=
  ⟨alert.1, forall_update_all new alert.2⟩

theorem Alert.setParent {p : SequenceParent count} (alert : s.Alert) (new : p.Alert) :
    Alert { s with parent := p } :=
  ⟨new, alert.2⟩

theorem Alert.childStep (alert : s.Alert) (moved : s.childStep i = some s') : s'.Alert := by
  cases pc : (s.children i).pc with
  | notForked | dead | fault =>
    simp only [Sequence.childStep, pc] at moved
    cases moved
  | getppid | load =>
    simp only [Sequence.childStep, pc] at moved
    cases moved
    exact alert.setChild (.awake (by rintro ⟨⟩) (by rintro ⟨⟩))
  | wait at_ =>
    simp only [Sequence.childStep, pc] at moved
    obtain ⟨⟨received, next⟩, stepped, rfl⟩ := Option.map_eq_some_iff.mp moved
    apply alert.setChild
    intro sleeps
    apply WaitPc.step_alert (fun same => alert.2 i (.inl (same ▸ pc))) stepped
    cases next with
    | none => simp at sleeps
    | some at' => simpa using sleeps
  | store value =>
    simp only [Sequence.childStep, pc] at moved
    split at moved
    · cases moved
      exact alert.setChild (.awake (by rintro ⟨⟩) (by rintro ⟨⟩))
    · cases moved
      have alert' := alert.setChild (i := i) (c := { s.children i with pc := .print value })
        (.awake (by rintro ⟨⟩) (by rintro ⟨⟩))
      exact ⟨alert'.1, alert'.2⟩
  | print value =>
    simp only [Sequence.childStep, pc] at moved
    cases moved
    have alert' := alert.setChild (i := i) (c := { s.children i with pc := .kill })
      (.awake (by rintro ⟨⟩) (by rintro ⟨⟩))
    exact ⟨alert'.1, alert'.2⟩
  | kill =>
    simp only [Sequence.childStep, pc] at moved
    have alert' := alert.setChild (i := i) (c := { s.children i with pc := .wait .test })
      (.awake (by rintro ⟨⟩) (by rintro ⟨⟩))
    cases moved
    split_ifs
    · rw [signalParent]
      split_ifs
      · exact alert'
      · exact alert'.setParent alert'.1
    · exact alert'

variable [NeZero count]

theorem Alert.parentStep (alert : s.Alert) (moved : s.parentStep limit = some s') : s'.Alert := by
  cases pc : s.parent.pc with
  | fork f =>
    simp only [Sequence.parentStep, pc] at moved
    split_ifs at moved with more
    · cases moved
      have alert' := alert.setChild (i := ⟨f, more⟩)
        (c := ⟨.getppid, s.parent.received, false, false, false⟩) (.awake (by rintro ⟨⟩) (by rintro ⟨⟩))
      exact alert'.setParent (.awake (by rintro ⟨⟩) (by rintro ⟨⟩))
    · cases moved
      exact alert.setParent (.awake (by rintro ⟨⟩) (by rintro ⟨⟩))
  | raise =>
    simp only [Sequence.parentStep, pc] at moved
    cases moved
    exact alert.setParent (.awake (by rintro ⟨⟩) (by rintro ⟨⟩))
  | raised =>
    simp only [Sequence.parentStep, pc] at moved
    split_ifs at moved
    cases moved
    exact alert.setParent (.awake (by rintro ⟨⟩) (by rintro ⟨⟩))
  | wait at_ =>
    simp only [Sequence.parentStep, pc] at moved
    obtain ⟨⟨received, next⟩, stepped, rfl⟩ := Option.map_eq_some_iff.mp moved
    apply alert.setParent
    intro sleeps
    apply WaitPc.step_alert (fun same => alert.1 (.inl (same ▸ pc))) stepped
    cases next with
    | none => simp at sleeps
    | some at' => simpa using sleeps
  | choose =>
    simp only [Sequence.parentStep, pc] at moved
    cases moved
    apply alert.setParent
    split_ifs
    · exact .awake (by rintro ⟨⟩) (by rintro ⟨⟩)
    · exact .awake (by rintro ⟨⟩) (by rintro ⟨⟩)
  | kill next =>
    simp only [Sequence.parentStep, pc] at moved
    cases moved
    have alert' := alert.setParent (p := { s.parent with pc := .wait .test })
      (.awake (by rintro ⟨⟩) (by rintro ⟨⟩))
    rw [signalChild]
    split_ifs
    · exact alert'.setChild (alert'.2 next)
    · exact alert'
  | killAll f =>
    simp only [Sequence.parentStep, pc] at moved
    split_ifs at moved with more
    · cases moved
      have alert' := alert.setChild (i := ⟨f, more⟩)
        (c := { s.children ⟨f, more⟩ with doomed := true }) (alert.2 ⟨f, more⟩)
      exact alert'.setParent (.awake (by rintro ⟨⟩) (by rintro ⟨⟩))
    · cases moved
      exact alert.setParent (.awake (by rintro ⟨⟩) (by rintro ⟨⟩))
  | exited =>
    simp only [Sequence.parentStep, pc] at moved
    cases moved

theorem alert_of_reachable (reachable : (sequencePrint count limit).Reachable Undisturbed s) :
    s.Alert := by
  apply reachable.invariant
  · rintro s rfl
    exact ⟨nofun, fun _ => nofun⟩
  · intro s s' a undisturbed alert moved
    cases a with
    | step p =>
      cases p with
      | none => exact alert.parentStep moved
      | some i => exact alert.childStep moved
    | deliver p =>
      cases p with
      | none =>
        simp only [sequencePrint, Sequence.step, parentHandler] at moved
        split_ifs at moved
        cases moved
        apply alert.setParent
        intro sleeps
        exact absurd (SequenceParentPc.wake_sleeps sleeps) undisturbed
      | some i =>
        simp only [sequencePrint, Sequence.step, childHandler] at moved
        split_ifs at moved
        cases moved
        apply alert.setChild
        intro sleeps
        exact absurd (SequenceChildPc.wake_sleeps sleeps) undisturbed
    | die i =>
      simp only [sequencePrint, Sequence.step] at moved
      split_ifs at moved
      cases moved
      exact alert.setChild (by simp [SequenceChild.Alert])

omit [NeZero count] in
/-- The token is with a process that is awake, or on its way. -/
theorem Phase.not_asleep (phase : s.Phase limit) (alert : s.Alert) : ¬s.Asleep := by
  rintro ⟨⟨paused, parentPending⟩, children⟩
  cases phase with
  | forking works => rw [works.at_] at paused; cases paused
  | parent works decides =>
    rw [works.at_] at paused
    cases decides <;> cases paused
  | toParent called =>
    cases called with
    | raised pc => rw [pc] at paused; cases paused
    | waits pc holds =>
      have one := holds.one
      rw [alert.1 (.inr paused), parentPending] at one
      cases one
  | @child k i pc works turn =>
    have asleep := (children i).1
    rw [works.at_] at asleep
    cases turn <;> exact absurd (asleep rfl) nofun
  | @toChild k i called =>
    have asleep := (children i).1 called.live
    cases called with
    | starts pc => rw [pc] at asleep; cases asleep
    | waits pc holds =>
      have one := holds.one
      rw [alert.2 i (.inr asleep), (children i).2] at one
      cases one
  | finishing works ends =>
    rw [works.at_] at paused
    obtain rfl | ⟨f, rfl⟩ := ends <;> cases paused

/-- A handler in between does harm: the process goes to sleep on its set flag. -/
theorem missed_of_disturbed {p : Option (Fin count)}
    (disturbed : ¬Undisturbed s (.deliver p)) (handled : s.step limit (.deliver p) = some s') :
    ∃ asleep, s'.step limit (.step p) = some asleep ∧ asleep.Missed := by
  cases p with
  | none =>
    have pc : s.parent.pc = .wait .pause := not_not.mp disturbed
    simp only [Sequence.step, parentHandler] at handled
    split_ifs at handled
    cases handled
    simp only [Sequence.step, Sequence.parentStep, pc, SequenceParentPc.wake, WaitPc.wake]
    exact ⟨_, rfl, .inl ⟨rfl, rfl⟩⟩
  | some i =>
    have pc : (s.children i).pc = .wait .pause := not_not.mp disturbed
    simp only [Sequence.step, childHandler] at handled
    split_ifs at handled
    cases handled
    simp only [Sequence.step, Sequence.childStep, children_setChild, pc, SequenceChildPc.wake, WaitPc.wake]
    exact ⟨_, rfl, .inr ⟨i, congrArg SequenceChild.pc children_setChild,
      congrArg SequenceChild.received children_setChild⟩⟩

end Sequence

/-- In every run in which no handler falls between a test of `received` and the call of `pause`, no
process sleeps on a set flag, and they do not all sleep. -/
theorem sequence_print_wakes {count : ℕ} [NeZero count] {limit : ℤ} {s : Sequence count}
    (positive : 1 ≤ limit) (int : limit < 2 ^ 31)
    (reachable : (sequencePrint count limit).Reachable Undisturbed s) :
    ¬s.Missed ∧ ¬(s.Asleep ∧ s.mem < limit) := by
  have alert := Sequence.alert_of_reachable reachable
  constructor
  · rintro (⟨paused, received⟩ | ⟨i, paused, received⟩)
    · exact absurd (received.symm.trans (alert.1 (.inr paused))) nofun
    · exact absurd (received.symm.trans (alert.2 i (.inr paused))) nofun
  · rintro ⟨asleep, -⟩
    exact (Sequence.phase_of_reachable (Int.le_of_lt positive) int reachable).not_asleep alert asleep

/-- The program before its first `fork`. -/
def sequenceStart : Sequence 4 :=
  ⟨⟨.fork 0, false, false, 0⟩, fun _ => ⟨.notForked, false, false, false, false⟩, 0, 0, []⟩

theorem sequence_print_wakes_raised :
    ∃ s, (sequencePrint 4 100).Reachable Undisturbed s ∧ s.parent.received = true ∧ ¬s.Missed := by
  obtain ⟨raised, ran, pc, pending⟩ : ∃ s, (sequencePrint 4 100).run sequenceStart
      (List.replicate 6 (.step none)) = some s ∧ s.parent.pc = .raised ∧ s.parent.pending = true :=
    ⟨_, rfl, rfl, rfl⟩
  have before : (sequencePrint 4 100).Reachable Undisturbed raised := by
    refine .run (.start rfl) ?_ ran
    intro s a member
    rw [List.eq_of_mem_replicate member]
    trivial
  have handled : (sequencePrint 4 100).step raised (.deliver none) = some
      { raised with parent := ⟨raised.parent.pc.wake, true, false, raised.parent.index⟩ } :=
    if_pos ⟨pending, by rw [pc]; nofun⟩
  have reachable := before.step (show Undisturbed raised (.deliver none) by rw [Undisturbed, pc]; nofun) handled
  exact ⟨_, reachable, rfl, (sequence_print_wakes (by decide) (by decide) reachable).1⟩

/-- The parent calls the first child and waits. -/
def callFirst : List (SequenceAction 4) :=
  [.step none, .step none, .step none, .step none, .step none, .step none, .deliver none, .step none,
    .step none, .step none, .step none, .step none, .step none, .step none]

/-- A child starts and waits. -/
def sleep (i : Fin 4) : List (SequenceAction 4) := [.step (some i), .step (some i), .step (some i)]

/-- The handler of the first child runs behind its test of `received`. -/
def missFirst : List (SequenceAction 4) :=
  callFirst ++ sleep 1 ++ sleep 2 ++ sleep 3 ++
    [.step (some 0), .step (some 0), .deliver (some 0), .step (some 0)]

/-- With the constants of the program, all processes can go to sleep before the first number. -/
theorem sequence_print_sleeps :
    ∃ s, (sequencePrint 4 100).Reachable (fun _ _ => True) s ∧ s.Missed ∧ s.Asleep ∧ s.mem < 100 := by
  obtain ⟨s, ran, missed, asleep, mem⟩ : ∃ s, (sequencePrint 4 100).run sequenceStart missFirst = some s ∧
      ((s.children 0).pc = .wait .paused ∧ (s.children 0).received = true) ∧ s.Asleep ∧ s.mem < 100 := by
    refine ⟨_, rfl, ⟨rfl, rfl⟩, ?_, by decide⟩
    refine ⟨⟨rfl, rfl⟩, ?_⟩
    decide
  exact ⟨s, .run (.start rfl) (fun _ _ _ => trivial) ran, .inr ⟨0, missed⟩, asleep, mem⟩

end Hseos.Signal
