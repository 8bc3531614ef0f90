import Mathlib.Logic.Relation
import Mathlib.Data.List.Basic
import Mathlib.Algebra.BigOperators.Group.List.Basic
import Mathlib.Algebra.GroupWithZero.Nat

/-! # Executable labelled machines and their invariants

A machine gives the states it may start in and, for every action of one of its parties, the state
that action leads to, or nothing when the action is not enabled. All nondeterminism is in the
choice of the action, so a schedule is a list of actions and can be run. `Reachable` restricts the
actions a run may take in each state; properties of every interleaving are stated with it.
Invariants are proved from one step and lifted to every run once, in `Reachable.invariant`.
-/

namespace Hseos

/-- A transition system whose steps are labelled by actions and can be evaluated. -/
structure Machine (State Action : Type*) where
  start : State → Prop
  step : State → Action → Option State

namespace Machine

variable {State Action : Type*} (m : Machine State Action)

/-- Perform a schedule; nothing when one of its actions is not enabled. -/
def run : State → List Action → Option State
  | s, [] => some s
  | s, a :: rest => (m.step s a).bind fun next => run next rest

/-- The states that runs visit which take an action only where it is allowed. -/
inductive Reachable (allowed : State → Action → Prop) : State → Prop
  | start {s : State} (initial : m.start s) : Reachable allowed s
  | step {s s' : State} {a : Action} (before : Reachable allowed s) (permitted : allowed s a)
      (moved : m.step s a = some s') : Reachable allowed s'

/-- Every action of a schedule satisfies this in the state it is taken in, as far as the schedule can be run. -/
def AllSteps (holds : State → Action → Prop) : State → List Action → Prop
  | _, [] => True
  | s, a :: rest => holds s a ∧ ∀ s', m.step s a = some s' → AllSteps holds s' rest

/-- No action of any party is enabled. -/
def Stuck (s : State) : Prop := ∀ a, m.step s a = none

variable {m} {allowed : State → Action → Prop}

theorem run_append (s : State) (first second : List Action) :
    m.run s (first ++ second) = (m.run s first).bind fun middle => m.run middle second := by
  induction first generalizing s with
  | nil => rfl
  | cons a rest ih =>
    rw [List.cons_append, run, run, Option.bind_assoc]
    exact congrArg _ (funext ih)

/-- A property that every step preserves still holds after a run. -/
theorem run_preserves (Inv : State → Prop) (preserved : ∀ s s' a, Inv s → m.step s a = some s' → Inv s')
    {s s' : State} {schedule : List Action} (inv : Inv s) (ran : m.run s schedule = some s') : Inv s' := by
  induction schedule generalizing s with
  | nil =>
    cases ran
    exact inv
  | cons a rest ih =>
    obtain ⟨next, moved, remaining⟩ := Option.bind_eq_some_iff.mp ran
    exact ih (preserved s next a inv moved) remaining

/-- A property of the start states that every allowed step preserves holds in every run. -/
theorem Reachable.invariant (Inv : State → Prop) (initial : ∀ s, m.start s → Inv s)
    (preserved : ∀ s s' a, allowed s a → Inv s → m.step s a = some s' → Inv s')
    {s : State} (reachable : m.Reachable allowed s) : Inv s := by
  induction reachable with
  | start started => exact initial _ started
  | step _ permitted moved ih => exact preserved _ _ _ permitted ih moved

theorem Reachable.mono {allowed' : State → Action → Prop} (weaker : ∀ s a, allowed s a → allowed' s a) {s : State}
    (reachable : m.Reachable allowed s) : m.Reachable allowed' s := by
  induction reachable with
  | start initial => exact .start initial
  | step _ permitted moved ih => exact .step ih (weaker _ _ permitted) moved

/-- A schedule of actions that are allowed everywhere leads from a reachable state to another. -/
theorem Reachable.run {s s' : State} {schedule : List Action} (reachable : m.Reachable allowed s)
    (permitted : ∀ s, ∀ a ∈ schedule, allowed s a) (ran : m.run s schedule = some s') :
    m.Reachable allowed s' := by
  induction schedule generalizing s with
  | nil => cases ran; exact reachable
  | cons a rest ih =>
    obtain ⟨next, moved, remaining⟩ := Option.bind_eq_some_iff.mp ran
    exact ih (.step reachable (permitted s a List.mem_cons_self) moved)
      (fun s other member => permitted s other (List.mem_cons_of_mem _ member)) remaining

/-- A schedule whose actions are allowed where they are taken leads from a reachable state to another. -/
theorem Reachable.run_of_allSteps {s s' : State} {schedule : List Action} (reachable : m.Reachable allowed s)
    (permitted : m.AllSteps allowed s schedule) (ran : m.run s schedule = some s') :
    m.Reachable allowed s' := by
  induction schedule generalizing s with
  | nil => cases ran; exact reachable
  | cons a rest ih =>
    obtain ⟨next, moved, remaining⟩ := Option.bind_eq_some_iff.mp ran
    exact ih (.step reachable permitted.1 moved) (permitted.2 next moved) remaining

theorem allSteps_cons_none {s : State} {a : Action} {rest : List Action} (stops : m.step s a = none) :
    m.AllSteps allowed s (a :: rest) ↔ allowed s a := by
  rw [AllSteps, stops]
  exact and_iff_left nofun

theorem allSteps_cons_some {s next : State} {a : Action} {rest : List Action} (moved : m.step s a = some next) :
    m.AllSteps allowed s (a :: rest) ↔ allowed s a ∧ m.AllSteps allowed next rest := by
  rw [AllSteps, moved]
  apply and_congr_right
  intro _
  constructor
  · intro others
    exact others next rfl
  · rintro permitted _ ⟨⟩
    exact permitted

/-- Whether the actions of a schedule are allowed can be computed by running it. -/
instance AllSteps.decidable [∀ s a, Decidable (allowed s a)] (s : State) :
    (schedule : List Action) → Decidable (m.AllSteps allowed s schedule)
  | [] => .isTrue trivial
  | a :: rest =>
      match moved : m.step s a with
      | none => decidable_of_iff (allowed s a) (allSteps_cons_none moved).symm
      | some next =>
          have := decidable next rest
          decidable_of_iff (allowed s a ∧ m.AllSteps allowed next rest) (allSteps_cons_some moved).symm

/-- Where a step that lowers a measure is allowed in every reachable state that is not final, each reachable
state has a schedule that leads to a final one. -/
theorem Reachable.exists_run {final : State → Prop} (measure : State → ℕ)
    (progress : ∀ s, m.Reachable allowed s → ¬final s →
      ∃ a s', allowed s a ∧ m.step s a = some s' ∧ measure s' < measure s)
    {s : State} (reachable : m.Reachable allowed s) :
    ∃ schedule s', m.run s schedule = some s' ∧ m.Reachable allowed s' ∧ final s' := by
  by_cases done : final s
  · exact ⟨[], s, rfl, reachable, done⟩
  · obtain ⟨a, next, permitted, moved, less⟩ := progress s reachable done
    obtain ⟨schedule, s', ran, reached, ended⟩ :=
      Reachable.exists_run measure progress (.step reachable permitted moved)
    refine ⟨a :: schedule, s', ?_, reached, ended⟩
    rw [Machine.run, moved, Option.bind_some, ran]
termination_by measure s

/-- Where a step that lowers a measure is allowed in every reachable state that is not final, a final
state is reachable. -/
theorem Reachable.exists_final {final : State → Prop} (measure : State → ℕ)
    (progress : ∀ s, m.Reachable allowed s → ¬final s →
      ∃ a s', allowed s a ∧ m.step s a = some s' ∧ measure s' < measure s)
    {s : State} (reachable : m.Reachable allowed s) : ∃ s', m.Reachable allowed s' ∧ final s' := by
  obtain ⟨-, s', -, reached, ended⟩ := reachable.exists_run measure progress
  exact ⟨s', reached, ended⟩

/-- Where each step is paid for, by the work that is left or by what it costs in addition, a schedule is not
longer than both together. -/
theorem length_le_of_work (work : State → ℕ) (extra : Action → ℕ)
    (paid : ∀ s s' a, m.step s a = some s' → work s' + 1 ≤ work s + extra a) {s s' : State} {schedule : List Action}
    (ran : m.run s schedule = some s') : schedule.length + work s' ≤ work s + (schedule.map extra).sum := by
  induction schedule generalizing s with
  | nil =>
    cases ran
    simp
  | cons a rest ih =>
    obtain ⟨next, moved, remaining⟩ := Option.bind_eq_some_iff.mp ran
    have one := paid s next a moved
    have others := ih remaining
    rw [List.length_cons, List.map_cons, List.sum_cons]
    omega

/-- The same where some actions cost as much as each other in addition, and the others nothing. -/
theorem length_le_of_countP (work : State → ℕ) (costs : Action → Bool) (extra : ℕ)
    (paid : ∀ s s' a, m.step s a = some s' → work s' + 1 ≤ work s + if costs a then extra else 0) {s s' : State}
    {schedule : List Action} (ran : m.run s schedule = some s') :
    schedule.length + work s' ≤ work s + extra * schedule.countP costs := by
  have bound := length_le_of_work work _ paid ran
  have sum : (schedule.map fun a => if costs a then extra else 0).sum = extra * schedule.countP costs := by
    clear bound ran
    induction schedule with
    | nil => rfl
    | cons a rest ih =>
      rw [List.map_cons, List.sum_cons, ih, List.countP_cons, Nat.mul_add]
      split_ifs <;> omega
  rwa [sum] at bound

/-- Where a step adds at most one entry to a log, every prefix of it was the log of a state before. -/
theorem Reachable.exists_prefix {α : Type*} (log : State → List α) (initial : ∀ s, m.start s → log s = [])
    (grows : ∀ s s' a, m.step s a = some s' → log s' = log s ∨ ∃ entry, log s' = log s ++ [entry])
    {s : State} (reachable : m.Reachable allowed s) {before : List α} (le : before <+: log s) :
    ∃ s', m.Reachable allowed s' ∧ log s' = before := by
  induction reachable with
  | @start s started =>
    rw [initial s started] at le
    exact ⟨s, .start started, (initial s started).trans (List.prefix_nil.mp le).symm⟩
  | @step s s' a reached permitted moved ih =>
    obtain same | ⟨entry, more⟩ := grows s s' a moved
    · exact ih (same ▸ le)
    · rw [more] at le
      obtain rfl | less := List.prefix_concat_iff.mp le
      · exact ⟨s', .step reached permitted moved, more⟩
      · exact ih less

section Observed

variable {Event : Type*}

/-- What is observed of the actions of a schedule, as far as it can be run. -/
def observed (m : Machine State Action) (observe : State → Action → List Event) : State → List Action → List Event
  | _, [] => []
  | s, a :: rest =>
    observe s a ++
      match m.step s a with
      | none => []
      | some next => observed m observe next rest

theorem observed_cons (observe : State → Action → List Event) {s next : State} {a : Action}
    (moved : m.step s a = some next) (rest : List Action) :
    m.observed observe s (a :: rest) = observe s a ++ m.observed observe next rest := by
  rw [observed, moved]

theorem filter_observed (observe : State → Action → List Event) (p : Event → Bool) (s : State)
    (schedule : List Action) :
    (m.observed observe s schedule).filter p = m.observed (fun s a => (observe s a).filter p) s schedule := by
  induction schedule generalizing s with
  | nil => rfl
  | cons a rest ih =>
    rw [observed, observed, List.filter_append]
    cases m.step s a with
    | none => rfl
    | some next => exact congrArg _ (ih next)

theorem map_observed {Event' : Type*} (observe : State → Action → List Event) (f : Event → Event') (s : State)
    (schedule : List Action) :
    (m.observed observe s schedule).map f = m.observed (fun s a => (observe s a).map f) s schedule := by
  induction schedule generalizing s with
  | nil => rfl
  | cons a rest ih =>
    rw [observed, observed, List.map_append]
    cases m.step s a with
    | none => rfl
    | some next => exact congrArg _ (ih next)

/-- Two observations of a run agree, but for what the one of them is still behind the other. -/
theorem observed_pending (Inv : State → Prop) (preserved : ∀ s s' a, Inv s → m.step s a = some s' → Inv s')
    {first second : State → Action → List Event} (pending : State → List Event)
    (agree : ∀ s s' a, Inv s → m.step s a = some s' → pending s ++ first s a = second s a ++ pending s')
    {s s' : State} {schedule : List Action} (inv : Inv s) (ran : m.run s schedule = some s') :
    pending s ++ m.observed first s schedule = m.observed second s schedule ++ pending s' := by
  induction schedule generalizing s with
  | nil =>
    cases ran
    exact List.append_nil _
  | cons a rest ih =>
    obtain ⟨next, moved, remaining⟩ := Option.bind_eq_some_iff.mp ran
    rw [observed_cons _ moved, observed_cons _ moved, ← List.append_assoc, agree s next a inv moved,
      List.append_assoc, ih (preserved s next a inv moved) remaining, List.append_assoc]

end Observed

/-- Where a property is kept by every step that meets a condition, and spoiled for good by any other one, the last
state of a run has it exactly if all steps of the run meet the condition. -/
theorem holds_iff_allSteps (good spoiled : State → Prop) {keeps : State → Action → Prop}
    (kept : ∀ s s' a, good s → m.step s a = some s' → keeps s a → good s')
    (lost : ∀ s s' a, good s → m.step s a = some s' → ¬keeps s a → spoiled s')
    (stays : ∀ s s' a, spoiled s → m.step s a = some s' → spoiled s') (apart : ∀ s, spoiled s → ¬good s)
    {s s' : State} {schedule : List Action} (holds : good s) (ran : m.run s schedule = some s') :
    good s' ↔ m.AllSteps keeps s schedule := by
  induction schedule generalizing s with
  | nil =>
    cases ran
    exact iff_of_true holds trivial
  | cons a rest ih =>
    obtain ⟨next, moved, remaining⟩ := Option.bind_eq_some_iff.mp ran
    by_cases keeping : keeps s a
    · have later := ih (kept s next a holds moved keeping) remaining
      exact later.trans ((allSteps_cons_some moved).trans (and_iff_right keeping)).symm
    · have spoiled' := run_preserves spoiled stays (lost s next a holds moved keeping) remaining
      exact iff_of_false (apart s' spoiled') fun all => keeping all.1

theorem allSteps_true (s : State) (schedule : List Action) : m.AllSteps (fun _ _ => True) s schedule := by
  induction schedule generalizing s with
  | nil => trivial
  | cons a rest ih => exact ⟨trivial, fun next _ => ih next⟩

/-- Where a condition on a step decides a property of it, and keeps the invariant this rests on, the property
holds along a schedule exactly if the condition does. Of all steps something may be assumed. -/
theorem allSteps_iff_of {assumed holds condition : State → Action → Prop} (Inv : State → Prop)
    (decides : ∀ s a, Inv s → assumed s a → (holds s a ↔ condition s a))
    (preserved : ∀ s s' a, Inv s → assumed s a → condition s a → m.step s a = some s' → Inv s')
    {s : State} (inv : Inv s) {schedule : List Action} (permitted : m.AllSteps assumed s schedule) :
    m.AllSteps holds s schedule ↔ m.AllSteps condition s schedule := by
  induction schedule generalizing s with
  | nil => exact Iff.rfl
  | cons a rest ih =>
    rw [AllSteps, AllSteps, decides s a inv permitted.1]
    apply and_congr_right
    intro met
    apply forall₂_congr
    intro s' moved
    exact ih (preserved s s' a inv permitted.1 met moved) (permitted.2 s' moved)

/-- The same with nothing assumed. -/
theorem allSteps_iff {holds condition : State → Action → Prop} (Inv : State → Prop)
    (decides : ∀ s a, Inv s → (holds s a ↔ condition s a))
    (preserved : ∀ s s' a, Inv s → condition s a → m.step s a = some s' → Inv s')
    {s : State} (inv : Inv s) (schedule : List Action) :
    m.AllSteps holds s schedule ↔ m.AllSteps condition s schedule :=
  allSteps_iff_of Inv (fun s a inv _ => decides s a inv) (fun s s' a inv _ => preserved s s' a inv) inv
    (allSteps_true s schedule)

end Machine

end Hseos
