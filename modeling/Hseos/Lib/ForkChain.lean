import Hseos.Lib.Machine
import Mathlib.Data.List.Forall2

/-! # Chains of processes

A process forks, and its child may fork again; a process that waits goes on when its child has exited, and at once
if it has none. Each process forks at most once with success, so the processes are a chain, kept here with the
youngest one first. They take their steps in any order; where a step has more than one outcome the schedule
chooses it.

If a process that has forked does nothing but wait, all effects are those of one process at a time: the
youngest one goes on until it exits, and then its parent does. `ForkChain.invariant` is the induction rule that
follows: what the parents will go on with is a stack, and only the process on its top is looked at.
-/

namespace Hseos

/-- What a process does next. -/
inductive ProcessMove (Shared Local : Type*) where
  | run (shared : Shared) (l : Local)
  | fork (parent child : Local)
  | wait (l : Local)
  | exit (shared : Shared)

/-- The code of the processes, and the state in which the first one starts. -/
structure ForkChain (Shared Local Choice : Type*) where
  initial : Shared
  root : Local
  move : Choice → Shared → Local → Option (ProcessMove Shared Local)

namespace ForkChain

variable {Shared Local Choice Frame : Type*}

/-- What the processes share, and the processes, of which those that have exited have no state any more. -/
structure State (Shared Local : Type*) where
  shared : Shared
  processes : List (Option Local)

/-- The child of the process behind these younger ones does not run, or there is none. -/
def childDone (younger : List (Option Local)) : Bool := younger.getLast?.all Option.isNone

variable (p : ForkChain Shared Local Choice)

/-- The step of the process behind `k` younger ones. -/
def step (s : State Shared Local) (action : ℕ × Choice) : Option (State Shared Local) :=
  let younger := s.processes.take action.1
  let older := s.processes.drop (action.1 + 1)
  match s.processes[action.1]? with
  | none | some none => none
  | some (some l) =>
    match p.move action.2 s.shared l with
    | none => none
    | some (.run shared l) => some ⟨shared, younger ++ some l :: older⟩
    | some (.fork parent child) =>
        if younger = [] then some ⟨s.shared, some child :: some parent :: older⟩ else none
    | some (.wait l) => if childDone younger then some ⟨s.shared, younger ++ some l :: older⟩ else none
    | some (.exit shared) => some ⟨shared, younger ++ none :: older⟩

/-- All runs of the processes. -/
def machine : Machine (State Shared Local) (ℕ × Choice) where
  start s := s = ⟨p.initial, [some p.root]⟩
  step := p.step

variable {p} {s s' : State Shared Local} {action : ℕ × Choice}

/-- What a step does, with the processes split at the one that takes it. -/
theorem step_cases (moved : p.step s action = some s') :
    ∃ younger l older, s.processes[action.1]? = some (some l) ∧ s.processes = younger ++ some l :: older ∧
      younger.length = action.1 ∧
      ((∃ shared l', p.move action.2 s.shared l = some (.run shared l') ∧
          s' = ⟨shared, younger ++ some l' :: older⟩) ∨
        (∃ parent child, p.move action.2 s.shared l = some (.fork parent child) ∧ younger = [] ∧
          s' = ⟨s.shared, some child :: some parent :: older⟩) ∨
        (∃ l', p.move action.2 s.shared l = some (.wait l') ∧ s' = ⟨s.shared, younger ++ some l' :: older⟩ ∧
          childDone younger = true) ∨
        ∃ shared, p.move action.2 s.shared l = some (.exit shared) ∧ s' = ⟨shared, younger ++ none :: older⟩) := by
  simp only [step] at moved
  split at moved
  · cases moved
  · cases moved
  · rename_i l here
    refine ⟨s.processes.take action.1, l, s.processes.drop (action.1 + 1), here, ?_, ?_, ?_⟩
    · obtain ⟨inside, same⟩ := List.getElem?_eq_some_iff.mp here
      rw [← same, List.getElem_cons_drop, List.take_append_drop]
    · obtain ⟨inside, -⟩ := List.getElem?_eq_some_iff.mp here
      exact List.length_take_of_le (Nat.le_of_lt inside)
    · split at moved
      · cases moved
      · rename_i shared l' move
        cases moved
        exact .inl ⟨shared, l', move, rfl⟩
      · rename_i parent child move
        split_ifs at moved with youngest
        cases moved
        exact .inr (.inl ⟨parent, child, move, youngest, rfl⟩)
      · rename_i l' move
        split_ifs at moved with done
        cases moved
        exact .inr (.inr (.inl ⟨l', move, rfl, done⟩))
      · rename_i shared move
        cases moved
        exact .inr (.inr (.inr ⟨shared, move, rfl⟩))

/-- A process among those that have exited, one that may go on, and those that wait is of the last two kinds. -/
theorem split_cases {m : ℕ} {top l : Local} {below : List Local} {younger older : List (Option Local)}
    (same : List.replicate m none ++ some top :: below.map some = younger ++ some l :: older) :
    (younger = List.replicate m none ∧ l = top ∧ older = below.map some) ∨
      ∃ between rest, below = between ++ l :: rest ∧
        younger = List.replicate m none ++ some top :: between.map some ∧ older = rest.map some := by
  induction m generalizing younger with
  | zero =>
    cases younger with
    | nil =>
      cases same
      exact .inl ⟨rfl, rfl, rfl⟩
    | cons first younger =>
      simp only [List.replicate_zero, List.nil_append, List.cons_append, List.cons.injEq] at same
      obtain ⟨rfl, same⟩ := same
      obtain ⟨between, later, rfl, rfl, split⟩ := List.map_eq_append_iff.mp same
      obtain ⟨w, rest, rfl, here, rfl⟩ := List.map_eq_cons_iff.mp split
      cases here
      exact .inr ⟨between, rest, rfl, rfl, rfl⟩
  | succ m ih =>
    rw [List.replicate_succ, List.cons_append] at same
    cases younger with
    | nil => cases same
    | cons first younger =>
      rw [List.cons_append, List.cons.injEq] at same
      obtain ⟨rfl, same⟩ := same
      obtain ⟨rfl, rfl, rfl⟩ | ⟨between, rest, rfl, rfl, rfl⟩ := ih same
      · exact .inl ⟨rfl, rfl, rfl⟩
      · exact .inr ⟨between, rest, rfl, rfl, rfl⟩

/-- A process behind one that runs has to wait for it, or for one that waits itself. -/
theorem childDone_below (m : ℕ) (top : Local) (between : List Local) :
    childDone (List.replicate m none ++ some top :: between.map some) = false := by
  rw [childDone, List.getLast?_append_of_ne_nil _ (List.cons_ne_nil _ _), ← List.map_cons, List.getLast?_map]
  cases last : (top :: between).getLast? with
  | none => cases List.getLast?_eq_none_iff.mp last
  | some w => rfl

/-- Where related lists are split at an element of the first one, the second one is split at its partner. -/
theorem forall₂_split {α β : Type*} {R : α → β → Prop} {before after : List α} {a : α} {l : List β}
    (related : List.Forall₂ R (before ++ a :: after) l) :
    ∃ before' b after', l = before' ++ b :: after' ∧ List.Forall₂ R before before' ∧ R a b ∧
      List.Forall₂ R after after' := by
  induction before generalizing l with
  | nil =>
    obtain ⟨b, after', here, later, rfl⟩ := List.forall₂_cons_left_iff.mp related
    exact ⟨[], b, after', rfl, .nil, here, later⟩
  | cons first before ih =>
    obtain ⟨b, rest, here, later, rfl⟩ := List.forall₂_cons_left_iff.mp related
    obtain ⟨before', b', after', rfl, front, middle, back⟩ := ih later
    exact ⟨b :: before', b', after', rfl, .cons here front, middle, back⟩

section Order

variable (Parked : Local → Frame → Prop) (Top : Shared → List Frame → Bool → Local → Prop) (Final : Shared → Prop)

/-- What a move of the process on the top of the stack leads to. A process that has forked leaves its frame on the
stack; where a process exits, its parent goes on with the frame below. -/
def Leads (shared : Shared) (stack : List Frame) (resumed : Bool) : ProcessMove Shared Local → Prop
  | .run shared l => Top shared stack resumed l
  | .fork parent child => resumed = false ∧ ∃ f, Parked parent f ∧ Top shared (f :: stack) false child
  | .wait l => Top shared stack resumed l
  | .exit shared =>
      match stack with
      | [] => Final shared
      | f :: stack => ∀ w, Parked w f → Top shared stack true w

/-- What a process that has forked does before its child has exited: nothing that others see. -/
def Idles (shared : Shared) (f : Frame) : ProcessMove Shared Local → Prop
  | .run shared' w => shared' = shared ∧ Parked w f
  | .wait _ => True
  | .fork _ _ | .exit _ => False

/-- What is kept while the processes go on one at a time, if each takes only the steps it is permitted: a
process that has forked keeps what it will go on with, its frame, and waits; the one on the top of the stack of
frames does what it does in the shared data. It may have gone on behind a child that has exited, and then it
does not fork. -/
structure Discipline (p : ForkChain Shared Local Choice) (permits : ℕ → Choice → Local → Prop) :
    Prop where
  root : Top p.initial [] false p.root
  top : ∀ {choice shared stack resumed l move}, permits stack.length choice l → Top shared stack resumed l →
    p.move choice shared l = some move → Leads Parked Top Final shared stack resumed move
  parked : ∀ {choice shared w f move}, Parked w f → p.move choice shared w = some move →
    Idles Parked shared f move

end Order

/-- The process that takes the step is permitted to take it; the first number is how many processes are older. -/
def Permitted (permits : ℕ → Choice → Local → Prop) (s : State Shared Local) (action : ℕ × Choice) : Prop :=
  ∀ l, s.processes[action.1]? = some (some l) → permits (s.processes.length - 1 - action.1) action.2 l

/-- The processes that have exited, the one that goes on, and those that wait; or all have exited. -/
inductive Ordered (Parked : Local → Frame → Prop) (Top : Shared → List Frame → Bool → Local → Prop)
    (Final : Shared → Prop) : State Shared Local → Prop
  | running {shared : Shared} {m : ℕ} {top : Local} {below : List Local} {stack : List Frame} {resumed : Bool}
      (parked : List.Forall₂ Parked below stack) (here : Top shared stack resumed top)
      (first : resumed = false → m = 0) :
      Ordered Parked Top Final ⟨shared, List.replicate m none ++ some top :: below.map some⟩
  | exited {shared : Shared} (m : ℕ) (final : Final shared) : Ordered Parked Top Final ⟨shared, List.replicate m none⟩

variable {permits : ℕ → Choice → Local → Prop} {Parked : Local → Frame → Prop}
variable {Top : Shared → List Frame → Bool → Local → Prop} {Final : Shared → Prop}

/-- Each step keeps the order. -/
theorem Ordered.step (discipline : Discipline Parked Top Final p permits) (ordered : Ordered Parked Top Final s)
    (permitted : Permitted permits s action) (moved : p.step s action = some s') : Ordered Parked Top Final s' := by
  obtain ⟨younger, l, older, mover, split, position, what⟩ := step_cases moved
  have permits' := permitted l mover
  rw [← position, split, List.length_append, List.length_cons,
    show younger.length + (older.length + 1) - 1 - younger.length = older.length by omega] at permits'
  cases ordered with
  | exited m final =>
    have member : some l ∈ younger ++ some l :: older := List.mem_append_right _ List.mem_cons_self
    rw [← split] at member
    cases List.eq_of_mem_replicate member
  | @running shared m top below stack resumed parked here first =>
    obtain ⟨rfl, rfl, rfl⟩ | ⟨between, rest, rfl, rfl, rfl⟩ := split_cases split
    · obtain ⟨shared', l', move, rfl⟩ | ⟨parent, child, move, youngest, rfl⟩ | ⟨l', move, rfl, -⟩ |
        ⟨shared', move, rfl⟩ := what
      all_goals
        rw [List.length_map, parked.length_eq] at permits'
        have leads := discipline.top permits' here move
      · exact .running parked leads first
      · obtain ⟨-, f, parked', here'⟩ := leads
        exact .running (m := 0) (.cons parked' parked) here' fun _ => rfl
      · exact .running parked leads first
      · -- the parent of a process that exits is the next one to go on
        have longer : List.replicate m none ++ none :: below.map some =
            List.replicate (m + 1) (none : Option Local) ++ below.map some := by
          rw [List.replicate_succ', List.append_assoc]
          rfl
        rw [longer]
        cases parked with
        | nil =>
          rw [List.map_nil, List.append_nil]
          exact .exited _ leads
        | cons parked' parked =>
          exact .running parked (leads _ parked') nofun
    · -- a process that waits goes on by itself without effect
      obtain ⟨frames, f, frames', rfl, front, middle, back⟩ := forall₂_split parked
      obtain ⟨shared', l', move, rfl⟩ | ⟨parent, child, move, -, -⟩ | ⟨l', move, -, done⟩ |
        ⟨shared', move, rfl⟩ := what
      all_goals have idles := discipline.parked middle move
      · obtain ⟨rfl, parked'⟩ := idles
        have again : List.Forall₂ Parked (between ++ l' :: rest) (frames ++ f :: frames') :=
          List.rel_append front (.cons parked' back)
        have whole : List.replicate m none ++ some top :: (between ++ l' :: rest).map some =
            (List.replicate m none ++ some top :: between.map some) ++ some l' :: rest.map some := by
          rw [List.map_append, List.map_cons, List.append_assoc, List.cons_append]
        rw [← whole]
        exact .running again here first
      · cases idles
      · rw [childDone_below] at done
        cases done
      · cases idles

/-- In every run the processes that have forked wait for the one that goes on. -/
theorem ordered_of_reachable (discipline : Discipline Parked Top Final p permits)
    (reachable : p.machine.Reachable (Permitted permits) s) : Ordered Parked Top Final s := by
  apply reachable.invariant
  · rintro s rfl
    exact .running (m := 0)  .nil discipline.root fun _ => rfl
  · intro s s' action permitted ordered moved
    exact ordered.step discipline permitted moved

/-- All processes have exited. -/
def Ended (s : State Shared Local) : Prop := ∀ l ∈ s.processes, l = none

theorem Ordered.final (ordered : Ordered Parked Top Final s) (ended : Ended s) : Final s.shared := by
  cases ordered with
  | running =>
    cases ended _ (List.mem_append_right _ List.mem_cons_self)
  | exited m final => exact final

section Progress

variable (cost : Shared → ℕ) (weight : Local → ℕ)

/-- The move leaves less to do than there was. -/
def Lowers (shared : Shared) (l : Local) : ProcessMove Shared Local → Prop
  | .run shared' l' => cost shared' + weight l' < cost shared + weight l
  | .fork parent child => weight parent + weight child < weight l
  | .wait l' => weight l' < weight l
  | .exit shared' => cost shared' < cost shared + weight l

/-- How much the processes have still to do. -/
def rank (s : State Shared Local) : ℕ := cost s.shared + (s.processes.map fun l => l.elim 0 weight).sum

variable {cost weight}

theorem getElem?_top {m : ℕ} {top : Local} {older : List (Option Local)} :
    (List.replicate m none ++ some top :: older)[m]? = some (some top) := by
  rw [List.getElem?_append_right (Nat.le_of_eq List.length_replicate), List.length_replicate, Nat.sub_self]
  rfl

/-- The step of the youngest process that has not exited. -/
theorem step_top {choice : Choice} {shared : Shared} {m : ℕ} {top : Local} {move : ProcessMove Shared Local}
    (older : List (Option Local)) (moves : p.move choice shared top = some move)
    (first : (∃ parent child, move = .fork parent child) → m = 0) (lowers : Lowers cost weight shared top move) :
    ∃ s', p.step ⟨shared, List.replicate m none ++ some top :: older⟩ (m, choice) = some s' ∧
      rank cost weight s' < rank cost weight ⟨shared, List.replicate m none ++ some top :: older⟩ := by
  have younger : (List.replicate m none ++ some top :: older).take m = List.replicate m none :=
    List.take_left' (List.length_replicate)
  have behind : (List.replicate m none ++ some top :: older).drop (m + 1) = older := by
    rw [List.drop_append, List.length_replicate, Nat.add_sub_cancel_left,
      List.drop_of_length_le (by rw [List.length_replicate]; exact Nat.le_succ m)]
    rfl
  simp only [step, getElem?_top, younger, behind, moves]
  cases move with
  | run shared' l' =>
    refine ⟨_, rfl, ?_⟩
    simp only [Lowers] at lowers
    simp only [rank, List.map_append, List.map_cons, List.sum_append, List.sum_cons, Option.elim]
    omega
  | fork parent child =>
    cases first ⟨parent, child, rfl⟩
    refine ⟨_, if_pos rfl, ?_⟩
    simp only [Lowers] at lowers
    simp only [rank, List.replicate_zero, List.nil_append, List.map_cons, List.sum_cons, Option.elim]
    omega
  | wait l' =>
    have done : childDone (List.replicate m (none : Option Local)) = true := by
      cases m with
      | zero => rfl
      | succ m =>
        rw [childDone, List.replicate_succ', List.getLast?_concat]
        rfl
    refine ⟨_, if_pos done, ?_⟩
    simp only [Lowers] at lowers
    simp only [rank, List.map_append, List.map_cons, List.sum_append, List.sum_cons, Option.elim]
    omega
  | exit shared' =>
    refine ⟨_, rfl, ?_⟩
    simp only [Lowers] at lowers
    simp only [rank, List.map_append, List.map_cons, List.sum_append, List.sum_cons, Option.elim]
    omega

/-- Where the process on the top always has a move that leaves less to do, a state in which all processes have
exited can be reached. -/
theorem reachable_ended (discipline : Discipline Parked Top Final p permits)
    (progress : ∀ {shared stack resumed l}, Top shared stack resumed l →
      ∃ choice move, permits stack.length choice l ∧ p.move choice shared l = some move ∧
        Lowers cost weight shared l move)
    (reachable : p.machine.Reachable (Permitted permits) s) :
    ∃ schedule s', p.machine.run s schedule = some s' ∧ p.machine.Reachable (Permitted permits) s' ∧ Ended s' := by
  apply Machine.Reachable.exists_run (rank cost weight) ?_ reachable
  intro s reachable unfinished
  cases ordered_of_reachable discipline reachable with
  | @running shared m top below stack resumed parked here first =>
    obtain ⟨choice, move, permits', moves, lowers⟩ := progress here
    have forks : (∃ parent child, move = .fork parent child) → m = 0 := by
      rintro ⟨parent, child, rfl⟩
      exact first (discipline.top permits' here moves).1
    obtain ⟨s', moved, less⟩ := step_top (below.map some) moves forks lowers
    refine ⟨(m, choice), s', ?_, moved, less⟩
    intro l mover
    rw [getElem?_top] at mover
    cases mover
    simp only [List.length_append, List.length_replicate, List.length_cons, List.length_map, parked.length_eq]
    rw [show m + (stack.length + 1) - 1 - m = stack.length by omega]
    exact permits'
  | exited m final =>
    apply absurd _ unfinished
    intro l member
    exact List.eq_of_mem_replicate member

/-- All processes can come to their end then, and what they leave is one of the final results. -/
theorem exists_ended (discipline : Discipline Parked Top Final p permits)
    (progress : ∀ {shared stack resumed l}, Top shared stack resumed l →
      ∃ choice move, permits stack.length choice l ∧ p.move choice shared l = some move ∧
        Lowers cost weight shared l move)
    (reachable : p.machine.Reachable (Permitted permits) s) :
    ∃ schedule s', p.machine.run s schedule = some s' ∧ Ended s' ∧ Final s'.shared := by
  obtain ⟨schedule, s', ran, reached, ended⟩ := reachable_ended discipline progress reachable
  exact ⟨schedule, s', ran, ended, (ordered_of_reachable discipline reached).final ended⟩

end Progress

section Outcomes

/-! What the processes leave, where a fork that fails is the last one. -/

/-- What each fork may do, by the number of processes before it: succeed, or fail for a reason. -/
abbrev Outcomes (Reason : Type*) := ℕ → Option Reason → Prop

variable {Reason Result : Type*} (count : ℕ) (full : Result) (cut : ℕ → Reason → Result)

/-- The full result of this many forks, or what is left where one of them has failed. -/
def Leaves (x : Result) : Prop := x = full ∨ ∃ k reason, k < count ∧ x = cut k reason

/-- What these outcomes of the forks leave. -/
inductive Left (outcomes : Outcomes Reason) : Result → Prop
  | all (forked : ∀ k < count, outcomes k none) : Left outcomes full
  | failed {k : ℕ} {reason : Reason} (inside : k < count) (fails : outcomes k (some reason))
      (forked : ∀ j < k, outcomes j none) : Left outcomes (cut k reason)

variable {count full cut}

theorem Left.leaves {outcomes : Outcomes Reason} {x : Result} (left : Left count full cut outcomes x) :
    Leaves count full cut x := by
  cases left with
  | all => exact .inl rfl
  | failed inside => exact .inr ⟨_, _, inside, rfl⟩

/-- Where no fork fails, or one of them always does, only one result is left. -/
theorem Leaves.exists_outcomes {x : Result} (leaves : Leaves count full cut x) :
    ∃ outcomes : Outcomes Reason, (∀ k, ∃ failure, outcomes k failure) ∧
      ∀ y, Left count full cut outcomes y → y = x := by
  obtain rfl | ⟨k, reason, inside, rfl⟩ := leaves
  · refine ⟨fun _ failure => failure = none, fun _ => ⟨none, rfl⟩, ?_⟩
    intro y left
    cases left with
    | all => rfl
    | failed _ fails => cases fails
  · refine ⟨fun j failure => failure = if j = k then some reason else none, fun _ => ⟨_, rfl⟩, ?_⟩
    intro y left
    cases left with
    | all forked =>
      have forked := forked k inside
      rw [if_pos rfl] at forked
      cases forked
    | @failed j other _ fails =>
      by_cases same : j = k
      · rw [if_pos same] at fails
        cases fails
        rw [same]
      · rw [if_neg same] at fails
        cases fails

/-- Where the outcomes of the forks decide what is left, and the processes can come to their end with all of them,
all these results are left by some run, and no others. -/
theorem exists_left_iff (result : Shared → Result) (permits : Outcomes Reason → ℕ → Choice → Local → Prop)
    (anything : ∀ k choice l, permits (fun _ _ => True) k choice l)
    (decided : ∀ s, p.machine.Reachable (Permitted (permits fun _ _ => True)) s → Ended s →
      Left count full cut (fun _ _ => True) (result s.shared))
    (ends : ∀ outcomes : Outcomes Reason, (∀ k, ∃ failure, outcomes k failure) →
      ∃ schedule s', p.machine.run ⟨p.initial, [some p.root]⟩ schedule = some s' ∧ Ended s' ∧
        Left count full cut outcomes (result s'.shared)) (x : Result) :
    (∃ s, p.machine.Reachable (fun _ _ => True) s ∧ Ended s ∧ result s.shared = x) ↔ Leaves count full cut x := by
  constructor
  · rintro ⟨s, reachable, ended, rfl⟩
    exact (decided s (reachable.mono fun _ _ _ _ _ => anything _ _ _) ended).leaves
  · intro leaves
    obtain ⟨outcomes, possible, only⟩ := leaves.exists_outcomes
    obtain ⟨schedule, s, ran, ended, left⟩ := ends outcomes possible
    exact ⟨s, .run (.start rfl) (fun _ _ _ => trivial) ran, ended, only _ left⟩

end Outcomes

end ForkChain

end Hseos
