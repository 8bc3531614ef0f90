import Hseos.Lib.Family
import Hseos.Signal.SequencePrint

/-! # The token of the sequence

The right to use the counter is a token: a signal in flight, a flag that is set, or a process between
`wait_signal` and its next signal. There is never more than one, so the accesses to the counter never
overlap, whatever the handlers interrupt.
-/

namespace Hseos.Signal

/-- A process in `wait_signal`, with the token on its way to it or without. -/
structure WaitPc.Holds (token : Bool) (at_ : WaitPc) (received pending : Bool) : Prop where
  one : received.toNat + pending.toNat = token.toNat
  cleared : at_ = .clear → received = true

namespace WaitPc

theorem holds_iff {token : Bool} {at_ : WaitPc} {received pending : Bool} :
    at_.Holds token received pending ↔
      received.toNat + pending.toNat = token.toNat ∧ (at_ = .clear → received = true) :=
  ⟨fun holds => ⟨holds.one, holds.cleared⟩, fun both => ⟨both.1, both.2⟩⟩

variable {at_ : WaitPc} {token received received' pending : Bool} {next : Option WaitPc}

theorem Holds.step (holds : at_.Holds token received pending)
    (moved : at_.step received = some (received', next)) :
    (∃ at', next = some at' ∧ at'.Holds token received' pending) ∨
      (next = none ∧ token = true ∧ received' = false ∧ pending = false) := by
  obtain ⟨one, cleared⟩ := holds
  cases at_ with
  | test =>
    cases moved
    refine .inl ⟨_, rfl, one, ?_⟩
    cases received <;> simp
  | pause =>
    cases moved
    exact .inl ⟨_, rfl, one, nofun⟩
  | paused => cases moved
  | clear =>
    cases moved
    rw [cleared rfl] at one
    cases token <;> cases pending <;> simp_all

/-- A handler only runs where the token was on its way. -/
theorem Holds.handler (holds : at_.Holds token received true) :
    token = true ∧ at_.wake.Holds true true false := by
  obtain ⟨one, cleared⟩ := holds
  refine ⟨?_, rfl, fun _ => rfl⟩
  cases token <;> cases received <;> simp_all

end WaitPc

/-- A child before or in `wait_signal`. -/
inductive SequenceChild.Waits (token : Bool) (c : SequenceChild) : Prop
  | starts (pc : c.pc = .getppid) (one : c.received.toNat + c.pending.toNat = token.toNat)
      (spared : c.doomed = false)
  | waits {at_ : WaitPc} (pc : c.pc = .wait at_) (holds : at_.Holds token c.received c.pending)
      (parent : c.parent = true) (spared : c.doomed = false)

/-- The parent in `raise` or `wait_signal`. -/
inductive SequenceParent.Waits {count : ℕ} (token : Bool) (p : SequenceParent count) : Prop
  | raised (pc : p.pc = .raised) (one : p.received.toNat + p.pending.toNat = token.toNat)
  | waits {at_ : WaitPc} (pc : p.pc = .wait at_) (holds : at_.Holds token p.received p.pending)

/-- A child that has left `wait_signal`. -/
structure SequenceChild.Works (pc : SequenceChildPc) (c : SequenceChild) : Prop where
  at_ : c.pc = pc
  received : c.received = false
  pending : c.pending = false
  parent : c.parent = true
  spared : c.doomed = false

/-- The parent has the token. -/
structure SequenceParent.Works {count : ℕ} (pc : SequenceParentPc count) (p : SequenceParent count) :
    Prop where
  at_ : p.pc = pc
  received : p.received = false
  pending : p.pending = false

/-- A child that will not get the token any more. -/
structure SequenceChild.Rests (c : SequenceChild) : Prop where
  received : c.received = false
  pending : c.pending = false
  at_ : c.pc = .getppid ∨ (∃ at_, c.pc = .wait at_ ∧ at_ ≠ .clear) ∨ c.pc = .dead

namespace Sequence

variable {count : ℕ} {limit : ℤ} {s s' : Sequence count} {i : Fin count} {token : Bool} {k : ℕ}

/-- The counter after `k` turns. -/
structure Counts (s : Sequence count) (k : ℕ) : Prop where
  mem : s.mem = k
  increments : s.increments = k
  printed : s.printed = (List.range k).map Nat.cast

theorem Counts.same {parent : SequenceParent count} {children : Fin count → SequenceChild}
    (counts : s.Counts k) : Counts { s with parent := parent, children := children } k :=
  ⟨counts.mem, counts.increments, counts.printed⟩

theorem children_setChild {c : SequenceChild} : (s.setChild i c).children i = c :=
  Function.update_self ..

theorem children_setChild_of_ne {c : SequenceChild} {j : Fin count} (other : j ≠ i) :
    (s.setChild i c).children j = s.children j :=
  Function.update_of_ne other ..

/-- The children that wait do not see what another child does. -/
theorem idle_setChild (idle : ∀ j ≠ i, (s.children j).Waits false) (c : SequenceChild) :
    ∀ j ≠ i, ((s.setChild i c).children j).Waits false :=
  forall_update_others c idle

/-- What a child with the token has done of its turn. -/
inductive Turn (s : Sequence count) (k : ℕ) : SequenceChildPc → Prop
  | load (counts : s.Counts k) : Turn s k .load
  | store (counts : s.Counts k) : Turn s k (.store k)
  | print (mem : s.mem = (k + 1 : ℕ)) (increments : s.increments = k + 1)
      (printed : s.printed = (List.range k).map Nat.cast) : Turn s k (.print k)
  | kill (counts : s.Counts (k + 1)) : Turn s k .kill

/-- What the parent with the token is about to do after `k` turns. -/
inductive Decides (limit : ℤ) (k : ℕ) : SequenceParentPc count → Prop
  | raise (bound : k ≤ limit) : Decides limit k .raise
  | choose (bound : k ≤ limit) : Decides limit k .choose
  | kill {next : Fin count} (bound : k < limit) : Decides limit k (.kill next)

/-- Where the token is. -/
inductive Phase (limit : ℤ) (s : Sequence count) : Prop
  | forking {f : ℕ} (parent : s.parent.Works (.fork f))
      (forked : ∀ j, j.val < f → (s.children j).Waits false)
      (others : ∀ j, f ≤ j.val → s.children j = ⟨.notForked, false, false, false, false⟩)
      (counts : s.Counts 0)
  | parent {k : ℕ} {pc : SequenceParentPc count} (works : s.parent.Works pc)
      (decides : Decides limit k pc) (idle : ∀ j, (s.children j).Waits false) (counts : s.Counts k)
  | toParent {k : ℕ} (called : s.parent.Waits true) (idle : ∀ j, (s.children j).Waits false)
      (counts : s.Counts k) (bound : k ≤ limit)
  | child {k : ℕ} {i : Fin count} {pc : SequenceChildPc} (works : (s.children i).Works pc)
      (turn : s.Turn k pc) (waits : s.parent.Waits false)
      (idle : ∀ j ≠ i, (s.children j).Waits false) (bound : k < limit)
  | toChild {k : ℕ} {i : Fin count} (called : (s.children i).Waits true) (waits : s.parent.Waits false)
      (idle : ∀ j ≠ i, (s.children j).Waits false) (counts : s.Counts k) (bound : k < limit)
  | finishing {k : ℕ} {pc : SequenceParentPc count} (works : s.parent.Works pc)
      (ends : pc = .exited ∨ ∃ f, pc = .killAll f) (rests : ∀ j, (s.children j).Rests)
      (counts : s.Counts k) (bound : k ≤ limit)

end Sequence

/-! ## Steps of a child -/

namespace SequenceChild

variable {count : ℕ} {s s' : Sequence count} {i : Fin count} {token : Bool}

theorem Waits.step (waits : (s.children i).Waits token) (up : s.parent.pc ≠ .exited)
    (moved : s.childStep i = some s') :
    ∃ c, s' = s.setChild i c ∧ (c.Waits token ∨ token = true ∧ c.Works .load) := by
  cases waits with
  | starts pc one spared =>
    simp only [Sequence.childStep, pc] at moved
    cases moved
    exact ⟨_, rfl, .inl (.waits rfl ⟨one, nofun⟩ (decide_eq_true up) spared)⟩
  | waits pc holds parent spared =>
    simp only [Sequence.childStep, pc, Option.map_eq_some_iff] at moved
    obtain ⟨⟨received, next⟩, stepped, rfl⟩ := moved
    obtain ⟨at', rfl, holds'⟩ | ⟨rfl, token, rfl, pending⟩ := holds.step stepped
    · exact ⟨_, rfl, .inl (.waits rfl holds' parent spared)⟩
    · exact ⟨_, rfl, .inr ⟨token, rfl, rfl, pending, parent, spared⟩⟩

theorem Waits.handler (waits : (s.children i).Waits token) (ran : s.childHandler i = some s') :
    token = true ∧ ∃ c, s' = s.setChild i c ∧ c.Waits true := by
  simp only [Sequence.childHandler] at ran
  split_ifs at ran with enabled
  obtain ⟨pending, -⟩ := enabled
  cases ran
  cases waits with
  | starts pc one spared =>
    have wake : (s.children i).pc.wake = .getppid := by rw [pc]; rfl
    refine ⟨?_, _, rfl, .starts wake rfl spared⟩
    rw [pending] at one
    cases token
    · cases (s.children i).received <;> simp at one
    · rfl
  | @waits at_ pc holds parent spared =>
    have wake : (s.children i).pc.wake = .wait at_.wake := by rw [pc]; rfl
    rw [pending] at holds
    exact ⟨holds.handler.1, _, rfl, .waits wake holds.handler.2 parent spared⟩

theorem Waits.spared {c : SequenceChild} (waits : c.Waits token) : c.doomed = false := by
  cases waits <;> assumption

theorem Waits.quiet {c : SequenceChild} (waits : c.Waits false) :
    c.received = false ∧ c.pending = false := by
  cases waits with
  | starts _ one | waits _ holds =>
    cases received : c.received <;> cases pending : c.pending <;> simp_all [WaitPc.holds_iff]

/-- The token is sent to a child. -/
theorem Waits.call {c : SequenceChild} (waits : c.Waits false) :
    SequenceChild.Waits true { c with pending := true } := by
  obtain ⟨received, -⟩ := waits.quiet
  cases waits with
  | starts pc one spared => exact .starts pc (by simp [received]) spared
  | waits pc holds parent spared =>
    exact .waits pc ⟨by simp [received], holds.cleared⟩ parent spared

theorem Waits.live {c : SequenceChild} (waits : c.Waits token) : c.pc.live = true := by
  cases waits with
  | starts pc | waits pc => rw [pc]; rfl

theorem Waits.rests {c : SequenceChild} (waits : c.Waits false) : c.Rests := by
  obtain ⟨received, pending⟩ := waits.quiet
  refine ⟨received, pending, ?_⟩
  cases waits with
  | starts pc => exact .inl pc
  | @waits at_ pc holds =>
    refine .inr (.inl ⟨at_, pc, ?_⟩)
    rintro rfl
    exact absurd (received.symm.trans (holds.cleared rfl)) nofun

theorem Rests.step (rests : (s.children i).Rests) (moved : s.childStep i = some s') :
    ∃ c, s' = s.setChild i c ∧ c.Rests := by
  obtain ⟨received, pending, pc | ⟨at_, pc, notClear⟩ | pc⟩ := rests
  · simp only [Sequence.childStep, pc] at moved
    cases moved
    exact ⟨_, rfl, received, pending, .inr (.inl ⟨_, rfl, nofun⟩)⟩
  · simp only [Sequence.childStep, pc, received] at moved
    cases at_ with
    | test | pause =>
      cases moved
      exact ⟨_, rfl, rfl, pending, .inr (.inl ⟨_, rfl, nofun⟩)⟩
    | paused => cases moved
    | clear => exact absurd rfl notClear
  · simp only [Sequence.childStep, pc] at moved
    cases moved

end SequenceChild

/-! ## Steps of the parent -/

namespace SequenceParent

variable {count : ℕ} [NeZero count] {limit : ℤ} {s s' : Sequence count} {token : Bool}

omit [NeZero count] in
theorem Waits.quiet {p : SequenceParent count} (waits : p.Waits false) :
    p.received = false ∧ p.pending = false := by
  cases waits with
  | raised _ one | waits _ holds =>
    cases received : p.received <;> cases pending : p.pending <;> simp_all [WaitPc.holds_iff]

omit [NeZero count] in
/-- The token is sent to the parent. -/
theorem Waits.call {p : SequenceParent count} (waits : p.Waits false) :
    SequenceParent.Waits true { p with pending := true } := by
  obtain ⟨received, -⟩ := waits.quiet
  cases waits with
  | raised pc one => exact .raised pc (by simp [received])
  | waits pc holds => exact .waits pc ⟨by simp [received], holds.cleared⟩

omit [NeZero count] in
theorem Waits.up {p : SequenceParent count} (waits : p.Waits token) : p.pc ≠ .exited := by
  cases waits with
  | raised pc | waits pc => rw [pc]; nofun

theorem Waits.step (waits : s.parent.Waits token) (moved : s.parentStep limit = some s') :
    ∃ p, s' = { s with parent := p } ∧ (p.Waits token ∨ token = true ∧ p.Works .choose) := by
  cases waits with
  | raised pc one =>
    simp only [Sequence.parentStep, pc] at moved
    split_ifs at moved
    cases moved
    exact ⟨_, rfl, .inl (.waits rfl ⟨one, nofun⟩)⟩
  | waits pc holds =>
    simp only [Sequence.parentStep, pc, Option.map_eq_some_iff] at moved
    obtain ⟨⟨received, next⟩, stepped, rfl⟩ := moved
    obtain ⟨at', rfl, holds'⟩ | ⟨rfl, token, rfl, pending⟩ := holds.step stepped
    · exact ⟨_, rfl, .inl (.waits rfl holds')⟩
    · exact ⟨_, rfl, .inr ⟨token, rfl, rfl, pending⟩⟩

omit [NeZero count] in
theorem Waits.handler (waits : s.parent.Waits true) (ran : s.parentHandler = some s') :
    ∃ p, s' = { s with parent := p } ∧ p.Waits true := by
  simp only [Sequence.parentHandler] at ran
  split_ifs at ran with enabled
  obtain ⟨pending, -⟩ := enabled
  cases ran
  cases waits with
  | raised pc one =>
    have wake : s.parent.pc.wake = .raised := by rw [pc]; rfl
    exact ⟨_, rfl, .raised wake rfl⟩
  | @waits at_ pc holds =>
    have wake : s.parent.pc.wake = .wait at_.wake := by rw [pc]; rfl
    rw [pending] at holds
    exact ⟨_, rfl, .waits wake holds.handler.2⟩

end SequenceParent

/-! ## Steps of the program -/

namespace Sequence

variable {count : ℕ} [NeZero count] {limit : ℤ} {s s' : Sequence count} {i : Fin count}

omit [NeZero count] in
theorem childHandler_pending (ran : s.childHandler i = some s') : (s.children i).pending = true := by
  simp only [childHandler] at ran
  split_ifs at ran with enabled
  exact enabled.1

omit [NeZero count] in
theorem parentHandler_pending (ran : s.parentHandler = some s') : s.parent.pending = true := by
  simp only [parentHandler] at ran
  split_ifs at ran with enabled
  exact enabled.1

omit [NeZero count] in
/-- Only a child that the token is on its way to can run its handler. -/
theorem Phase.childHandler (phase : s.Phase limit) (ran : s.childHandler i = some s') :
    s'.Phase limit := by
  have pending := childHandler_pending ran
  have busy (waits : (s.children i).Waits false) : False :=
    absurd (pending.symm.trans waits.quiet.2) nofun
  cases phase with
  | @forking f _ forked others =>
    rcases Nat.lt_or_ge i f with before | after
    · exact (busy (forked i before)).elim
    · rw [others i after] at pending
      cases pending
  | parent _ _ idle | toParent _ idle => exact (busy (idle i)).elim
  | @child k t pc works turn waits idle bound =>
    rcases eq_or_ne i t with rfl | other
    · exact absurd (pending.symm.trans works.pending) nofun
    · exact (busy (idle i other)).elim
  | @toChild k t called waits idle counts bound =>
    rcases eq_or_ne i t with rfl | other
    · obtain ⟨-, c, rfl, called'⟩ := called.handler ran
      refine .toChild (i := i) ?_ waits ?_ counts.same bound
      · rwa [children_setChild]
      · exact idle_setChild idle _
    · exact (busy (idle i other)).elim
  | finishing _ _ rests => exact absurd (pending.symm.trans (rests i).pending) nofun

omit [NeZero count] in
theorem Phase.parentHandler (phase : s.Phase limit) (ran : s.parentHandler = some s') :
    s'.Phase limit := by
  have pending := parentHandler_pending ran
  cases phase with
  | forking works | parent works | finishing works =>
    exact absurd (pending.symm.trans works.pending) nofun
  | child _ _ waits | toChild _ waits => exact absurd (pending.symm.trans waits.quiet.2) nofun
  | toParent called idle counts bound =>
    obtain ⟨p, rfl, called'⟩ := called.handler ran
    exact .toParent called' idle counts.same bound

omit [NeZero count] in
/-- A child without the token does not get past `wait_signal`. -/
theorem idle_step (waits : (s.children i).Waits false) (up : s.parent.pc ≠ .exited)
    (moved : s.childStep i = some s') : ∃ c, s' = s.setChild i c ∧ c.Waits false := by
  obtain ⟨c, changed, waits' | ⟨token, -⟩⟩ := waits.step up moved
  · exact ⟨c, changed, waits'⟩
  · cases token

omit [NeZero count] in
theorem Turn.same {parent : SequenceParent count} {children : Fin count → SequenceChild} {k : ℕ}
    {pc : SequenceChildPc} (turn : s.Turn k pc) :
    Turn { s with parent := parent, children := children } k pc := by
  cases turn with
  | load counts => exact .load counts.same
  | store counts => exact .store counts.same
  | print mem increments printed => exact .print mem increments printed
  | kill counts => exact .kill counts.same

omit [NeZero count] in
theorem childStep_store {value next : ℤ} (at_ : (s.children i).pc = .store value)
    (sum : intAdd value 1 = .ok next) :
    s.childStep i = some { s.setChild i { s.children i with pc := .print value } with
      mem := next, increments := s.increments + 1 } := by
  simp only [childStep, at_, sum]

omit [NeZero count] in
/-- A child with the token goes on with its turn or passes the token on. -/
theorem turn_step {k : ℕ} {pc : SequenceChildPc} (works : (s.children i).Works pc) (turn : s.Turn k pc)
    (int : limit < 2 ^ 31) (bound : k < limit) (waits : s.parent.Waits false)
    (idle : ∀ j ≠ i, (s.children j).Waits false) (moved : s.childStep i = some s') :
    s'.Phase limit := by
  obtain ⟨at_, received, pending, parent, spared⟩ := works
  cases turn with
  | load counts =>
    simp only [childStep, at_] at moved
    cases moved
    refine @Phase.child _ _ _ k i (.store k) ?_ (.store counts.same) waits (idle_setChild idle _) bound
    rw [children_setChild]
    exact ⟨by rw [counts.mem], received, pending, parent, spared⟩
  | store counts =>
    have next : intAdd (k : ℤ) 1 = .ok (k + 1) := intAdd_ok (by omega) (by omega)
    rw [childStep_store at_ next] at moved
    cases moved
    refine @Phase.child _ _ _ k i (.print k) ?_ (.print ?_ ?_ counts.printed) waits (idle_setChild idle _) bound
    · exact children_setChild.symm ▸ ⟨rfl, received, pending, parent, spared⟩
    · push_cast
      rfl
    · exact congrArg (· + 1) counts.increments
  | print mem increments printed =>
    simp only [childStep, at_] at moved
    cases moved
    refine @Phase.child _ _ _ k i .kill ?_ (.kill ⟨mem, increments, ?_⟩) waits (idle_setChild idle _) bound
    · exact children_setChild.symm ▸ ⟨rfl, received, pending, parent, spared⟩
    · simp [List.range_succ, printed]
  | kill counts =>
    simp only [childStep, at_, parent, if_true] at moved
    cases moved
    rw [signalParent, if_neg (show (s.setChild i _).parent.pc ≠ .exited from waits.up)]
    refine .toParent (k := k + 1) waits.call ?_ counts.same (by push_cast; omega)
    intro j
    rcases eq_or_ne j i with rfl | other
    · exact children_setChild.symm ▸
        .waits rfl ⟨by rw [received, pending]; rfl, nofun⟩ rfl spared
    · exact idle_setChild idle _ j other

omit [NeZero count] in
theorem Phase.childStep (int : limit < 2 ^ 31) (phase : s.Phase limit)
    (moved : s.childStep i = some s') : s'.Phase limit := by
  cases phase with
  | @forking f works forked others counts =>
    have up : s.parent.pc ≠ .exited := by rw [works.at_]; nofun
    rcases Nat.lt_or_ge i f with before | after
    · obtain ⟨c, rfl, waits'⟩ := idle_step (forked i before) up moved
      refine .forking works ?_ ?_ counts.same
      · exact forall_update (fun j : Fin count => j.val < f) (P := fun _ c => SequenceChild.Waits false c)
          (fun _ => waits') forked
      · intro j notForked
        have other : j ≠ i := by
          rintro rfl
          omega
        exact (children_setChild_of_ne other).trans (others j notForked)
    · simp only [Sequence.childStep, others i after] at moved
      cases moved
  | parent works decides idle counts =>
    obtain ⟨c, rfl, waits'⟩ := idle_step (idle i) (by rw [works.at_]; cases decides <;> nofun) moved
    exact .parent works decides (forall_update_all waits' idle) counts.same
  | toParent called idle counts bound =>
    obtain ⟨c, rfl, waits'⟩ := idle_step (idle i) called.up moved
    exact .toParent called (forall_update_all waits' idle) counts.same bound
  | @child k t pc works turn waits idle bound =>
    rcases eq_or_ne i t with rfl | other
    · exact turn_step works turn int bound waits idle moved
    · obtain ⟨c, rfl, waits'⟩ := idle_step (idle i other) waits.up moved
      refine .child (i := t) ?_ turn.same waits ?_ bound
      · rwa [children_setChild_of_ne other.symm]
      · exact forall_update (· ≠ t) (fun _ => waits') idle
  | @toChild k t called waits idle counts bound =>
    rcases eq_or_ne i t with rfl | other
    · obtain ⟨c, rfl, waits' | ⟨-, works⟩⟩ := called.step waits.up moved
      · refine .toChild (i := i) ?_ waits (idle_setChild idle c) counts.same bound
        rwa [children_setChild]
      · refine .child (i := i) ?_ (.load counts.same) waits (idle_setChild idle c) bound
        rwa [children_setChild]
    · obtain ⟨c, rfl, waits'⟩ := idle_step (idle i other) waits.up moved
      refine .toChild (i := t) ?_ waits ?_ counts.same bound
      · rwa [children_setChild_of_ne other.symm]
      · exact forall_update (· ≠ t) (fun _ => waits') idle
  | finishing works ends rests counts bound =>
    obtain ⟨c, rfl, rests'⟩ := (rests i).step moved
    exact .finishing works ends (forall_update_all rests' rests) counts.same bound

theorem Phase.parentStep (positive : 0 ≤ limit) (phase : s.Phase limit)
    (moved : s.parentStep limit = some s') : s'.Phase limit := by
  cases phase with
  | @forking f works forked others counts =>
    obtain ⟨at_, received, pending⟩ := works
    simp only [Sequence.parentStep, at_] at moved
    split_ifs at moved with more
    · cases moved
      refine .forking (f := f + 1) ⟨rfl, received, pending⟩ ?_ ?_ counts.same
      · intro j before
        rcases eq_or_ne j ⟨f, more⟩ with rfl | other
        · exact children_setChild.symm ▸ .starts rfl (by rw [received]; rfl) rfl
        · have earlier : j.val < f := by
            have apart : j.val ≠ f := fun same => other (Fin.ext same)
            omega
          exact (children_setChild_of_ne other).symm ▸ forked j earlier
      · intro j after
        have other : j ≠ ⟨f, more⟩ := by
          rintro rfl
          exact absurd after (Nat.not_succ_le_self f)
        exact (children_setChild_of_ne other).trans (others j (Nat.le_of_succ_le after))
    · cases moved
      refine .parent ⟨rfl, received, pending⟩ (.raise positive) ?_ counts.same
      intro j
      exact forked j (j.isLt.trans_le (Nat.le_of_not_lt more))
  | parent works decides idle counts =>
    obtain ⟨at_, received, pending⟩ := works
    cases decides with
    | raise bound =>
      simp only [Sequence.parentStep, at_] at moved
      cases moved
      exact .toParent (.raised rfl (by rw [received]; rfl)) idle counts.same bound
    | @choose bound =>
      simp only [Sequence.parentStep, at_] at moved
      cases moved
      split_ifs with more
      · rw [counts.mem] at more
        exact .parent ⟨rfl, received, pending⟩ (.kill more) idle counts.same
      · exact .finishing ⟨rfl, received, pending⟩ (.inr ⟨0, rfl⟩) (fun j => (idle j).rests)
          counts.same bound
    | @kill next bound =>
      simp only [Sequence.parentStep, at_] at moved
      cases moved
      rw [signalChild, if_pos (idle next).live]
      refine .toChild (i := next) ?_ (.waits rfl ⟨by rw [received, pending]; rfl, nofun⟩) ?_ counts.same bound
      · exact children_setChild.symm ▸ (idle next).call
      · exact idle_setChild (fun j _ => idle j) _
  | toParent called idle counts bound =>
    obtain ⟨p, rfl, called' | ⟨-, works⟩⟩ := called.step moved
    · exact .toParent called' idle counts.same bound
    · exact .parent works (.choose bound) idle counts.same
  | child works turn waits idle bound =>
    obtain ⟨p, rfl, waits' | ⟨token, -⟩⟩ := waits.step moved
    · exact .child works turn.same waits' idle bound
    · cases token
  | toChild called waits idle counts bound =>
    obtain ⟨p, rfl, waits' | ⟨token, -⟩⟩ := waits.step moved
    · exact .toChild called waits' idle counts.same bound
    · cases token
  | finishing works ends rests counts bound =>
    obtain ⟨at_, received, pending⟩ := works
    obtain rfl | ⟨f, rfl⟩ := ends
    · simp only [Sequence.parentStep, at_] at moved
      cases moved
    · simp only [Sequence.parentStep, at_] at moved
      split_ifs at moved with more
      · cases moved
        have doomed : SequenceChild.Rests { s.children ⟨f, more⟩ with doomed := true } :=
          ⟨(rests _).received, (rests _).pending, (rests _).at_⟩
        exact .finishing ⟨rfl, received, pending⟩ (.inr ⟨f + 1, rfl⟩)
          (forall_update_all doomed rests) counts.same bound
      · cases moved
        exact .finishing ⟨rfl, received, pending⟩ (.inl rfl) rests counts.same bound

omit [NeZero count] in
/-- Only children that will not get the token any more are killed. -/
theorem Phase.die (phase : s.Phase limit) (doomed : (s.children i).doomed = true) :
    (s.setChild i { s.children i with pc := .dead }).Phase limit := by
  have spare (waits : (s.children i).Waits false) : False :=
    absurd (doomed.symm.trans waits.spared) nofun
  cases phase with
  | @forking f _ forked others =>
    rcases Nat.lt_or_ge i f with before | after
    · exact (spare (forked i before)).elim
    · rw [others i after] at doomed
      cases doomed
  | parent _ _ idle | toParent _ idle => exact (spare (idle i)).elim
  | @child k t pc works turn waits idle =>
    rcases eq_or_ne i t with rfl | other
    · exact absurd (doomed.symm.trans works.spared) nofun
    · exact (spare (idle i other)).elim
  | @toChild k t called waits idle =>
    rcases eq_or_ne i t with rfl | other
    · exact absurd (doomed.symm.trans called.spared) nofun
    · exact (spare (idle i other)).elim
  | finishing works ends rests counts bound =>
    have dead : SequenceChild.Rests { s.children i with pc := .dead } :=
      ⟨(rests i).received, (rests i).pending, .inr (.inr rfl)⟩
    exact .finishing works ends (forall_update_all dead rests) counts.same bound

theorem phase_of_reachable {allowed : Sequence count → SequenceAction count → Prop}
    (positive : 0 ≤ limit) (int : limit < 2 ^ 31)
    (reachable : (sequencePrint count limit).Reachable allowed s) : s.Phase limit := by
  apply reachable.invariant
  · rintro s rfl
    exact .forking ⟨rfl, rfl, rfl⟩ (fun _ before => absurd before (Nat.not_lt_zero _)) (fun _ _ => rfl)
      ⟨rfl, rfl, rfl⟩
  · intro s s' a _ phase moved
    cases a with
    | step p =>
      cases p with
      | none => exact phase.parentStep positive moved
      | some i => exact phase.childStep int moved
    | deliver p =>
      cases p with
      | none => exact phase.parentHandler moved
      | some i => exact phase.childHandler moved
    | die i =>
      simp only [sequencePrint, Sequence.step] at moved
      split_ifs at moved with enabled
      cases moved
      exact phase.die enabled.1

end Sequence

/-! ## Counting the tokens -/

/-- The parent has left `wait_signal` and not sent its next `SIGUSR1`. -/
def SequenceParentPc.between {count : ℕ} : SequenceParentPc count → Bool
  | .choose | .kill _ | .killAll _ => true
  | .fork _ | .raise | .raised | .wait _ | .exited => false

/-- A child has left `wait_signal` and not sent its next `SIGUSR1`. -/
def SequenceChildPc.between : SequenceChildPc → Bool
  | .load | .store _ | .print _ | .kill => true
  | .notForked | .getppid | .wait _ | .dead | .fault _ => false

def SequenceParent.tokens {count : ℕ} (p : SequenceParent count) : ℕ :=
  p.pc.between.toNat + p.received.toNat + p.pending.toNat

def SequenceChild.tokens (c : SequenceChild) : ℕ :=
  c.pc.between.toNat + c.received.toNat + c.pending.toNat

/-- The processes between `wait_signal` and their next signal, the flags that are set and the signals in
flight. -/
def Sequence.tokens {count : ℕ} (s : Sequence count) : ℕ :=
  s.parent.tokens + ∑ i, (s.children i).tokens

theorem SequenceChild.Waits.tokens {token : Bool} {c : SequenceChild} (waits : c.Waits token) :
    c.tokens = token.toNat := by
  cases waits with
  | starts pc one => simpa [SequenceChild.tokens, pc, SequenceChildPc.between] using one
  | waits pc holds => simpa [SequenceChild.tokens, pc, SequenceChildPc.between] using holds.one

theorem SequenceParent.Waits.tokens {count : ℕ} {token : Bool} {p : SequenceParent count}
    (waits : p.Waits token) : p.tokens = token.toNat := by
  cases waits with
  | raised pc one => simpa [SequenceParent.tokens, pc, SequenceParentPc.between] using one
  | waits pc holds => simpa [SequenceParent.tokens, pc, SequenceParentPc.between] using holds.one

theorem SequenceChild.Works.tokens {pc : SequenceChildPc} {c : SequenceChild} (works : c.Works pc) :
    c.tokens ≤ 1 := by
  rw [SequenceChild.tokens, works.received, works.pending]
  exact Bool.toNat_le _

theorem SequenceParent.Works.tokens {count : ℕ} {pc : SequenceParentPc count}
    {p : SequenceParent count} (works : p.Works pc) : p.tokens ≤ 1 := by
  rw [SequenceParent.tokens, works.received, works.pending]
  exact Bool.toNat_le _

theorem SequenceChild.Rests.tokens {c : SequenceChild} (rests : c.Rests) : c.tokens = 0 := by
  obtain ⟨received, pending, pc | ⟨at_, pc, -⟩ | pc⟩ := rests <;>
    simp [SequenceChild.tokens, pc, SequenceChildPc.between, received, pending]

namespace Sequence

variable {count : ℕ} {limit : ℤ} {s : Sequence count}

theorem Phase.tokens (phase : s.Phase limit) : s.tokens ≤ 1 := by
  have none (idle : ∀ i, (s.children i).tokens = 0) : s.tokens = s.parent.tokens := by
    rw [Sequence.tokens, Finset.sum_eq_zero fun i _ => idle i, Nat.add_zero]
  have one (i : Fin count) (waits : s.parent.Waits false)
      (idle : ∀ j ≠ i, (s.children j).Waits false) : s.tokens = (s.children i).tokens := by
    rw [Sequence.tokens, waits.tokens, Fintype.sum_eq_single i fun j other => (idle j other).tokens]
    exact Nat.zero_add _
  cases phase with
  | @forking f works forked others =>
    rw [none]
    · exact works.tokens
    · intro i
      rcases Nat.lt_or_ge i f with before | after
      · exact (forked i before).tokens
      · rw [others i after]
        rfl
  | parent works _ idle =>
    rw [none fun i => (idle i).tokens]
    exact works.tokens
  | toParent called idle =>
    rw [none fun i => (idle i).tokens, called.tokens]
    exact le_rfl
  | child works _ waits idle =>
    rw [one _ waits idle]
    exact works.tokens
  | toChild called waits idle =>
    rw [one _ waits idle, called.tokens]
    exact le_rfl
  | finishing works _ rests =>
    rw [none fun i => (rests i).tokens]
    exact works.tokens

theorem Phase.printed (positive : 0 ≤ limit) (phase : s.Phase limit) :
    s.mem = s.increments ∧ ∃ k : ℕ, s.printed = (List.range k).map Nat.cast ∧ k ≤ limit := by
  have settled {k : ℕ} (counts : s.Counts k) (bound : k ≤ limit) :
      s.mem = s.increments ∧ ∃ k : ℕ, s.printed = (List.range k).map Nat.cast ∧ k ≤ limit :=
    ⟨by rw [counts.mem, counts.increments], k, counts.printed, bound⟩
  cases phase with
  | forking _ _ _ counts => exact settled counts positive
  | parent _ decides _ counts =>
    cases decides with
    | raise bound | choose bound => exact settled counts bound
    | kill bound => exact settled counts bound.le
  | toParent _ _ counts bound | finishing _ _ _ counts bound => exact settled counts bound
  | toChild _ _ _ counts bound => exact settled counts bound.le
  | child _ turn _ _ bound =>
    cases turn with
    | load counts | store counts => exact settled counts bound.le
    | kill counts => exact settled counts (by push_cast; omega)
    | print mem increments printed => exact ⟨by rw [mem, increments], _, printed, bound.le⟩

end Sequence

/-- In every run there is one token at most, no increment is lost, and the children print the numbers
from zero on in order, all of them below the limit. -/
theorem sequence_print_token {count : ℕ} [NeZero count] {limit : ℤ} {s : Sequence count}
    (positive : 1 ≤ limit) (int : limit < 2 ^ 31)
    (reachable : (sequencePrint count limit).Reachable (fun _ _ => True) s) :
    s.tokens ≤ 1 ∧ s.mem = s.increments ∧
      ∃ k : ℕ, s.printed = (List.range k).map Nat.cast ∧ k ≤ limit := by
  have nonnegative : 0 ≤ limit := Int.le_of_lt positive
  have phase := Sequence.phase_of_reachable nonnegative int reachable
  exact ⟨phase.tokens, phase.printed nonnegative⟩

/-- The parent calls the first child, whose handler runs while it waits in `pause`. -/
def firstTurn (i : Fin 2) : List (SequenceAction 2) :=
  [.step none, .step none, .step none, .step none, .deliver none, .step none, .step none, .step none,
    .step none, .step none, .step (some i), .step (some i), .step (some i), .deliver (some i),
    .step (some i), .step (some i), .step (some i), .step (some i), .step (some i)]

theorem sequence_print_token_first :
    ∃ s, (sequencePrint 2 100).Reachable (fun _ _ => True) s ∧ s.mem = 1 ∧ s.printed = [0] ∧
      s.tokens ≤ 1 := by
  obtain ⟨s, ran, mem, printed⟩ : ∃ s, (sequencePrint 2 100).run
      ⟨⟨.fork 0, false, false, 0⟩, fun _ => ⟨.notForked, false, false, false, false⟩, 0, 0, []⟩
        (firstTurn 0) = some s ∧ s.mem = 1 ∧ s.printed = [0] :=
    ⟨_, rfl, rfl, rfl⟩
  have reachable : (sequencePrint 2 100).Reachable (fun _ _ => True) s :=
    .run (.start rfl) (fun _ _ _ => trivial) ran
  exact ⟨s, reachable, mem, printed, (sequence_print_token (by decide) (by decide) reachable).1⟩

end Hseos.Signal
