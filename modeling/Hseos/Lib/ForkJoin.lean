import Hseos.Lib.Family
import Hseos.Lib.Machine
import Mathlib.Algebra.Order.BigOperators.Group.Finset

/-! # A main thread and its workers

The main thread follows a script: it works on the data it shares with its workers, creates a worker, or
joins one, for which it waits until the worker has returned. A worker that was created takes its steps in
any order with those of the others and of the main thread; where a step has more than one outcome the
schedule chooses it.
-/

namespace Hseos

/-- An operation of the main thread. -/
inductive MainOp (ι Shared : Type*) where
  | run (f : Shared → Shared)
  | create (t : ι)
  | join (t : ι)

/-- Every worker is created once, and before it is joined. -/
def MainOp.WellFormed {ι Shared : Type*} : List ι → List (MainOp ι Shared) → Prop
  | _, [] => True
  | created, .run _ :: rest => WellFormed created rest
  | created, .create t :: rest => t ∉ created ∧ WellFormed (t :: created) rest
  | created, .join t :: rest => t ∈ created ∧ WellFormed created rest

/-- The code of the main thread, the shared data it starts with, and the function the workers run. -/
structure ForkJoin (ι Shared Local Choice : Type*) where
  script : List (MainOp ι Shared)
  wellFormed : MainOp.WellFormed [] script
  initial : Shared
  entry : Local
  work : ι → Choice → Shared → Local → Option (Shared × Local)
  returned : Local → Bool
  work_of_returned : ∀ t choice shared l, returned l = true → work t choice shared l = none

namespace ForkJoin

variable {ι Shared Local Choice : Type*}

/-- The shared data, the workers that were created, and what the main thread has still to do. -/
structure State (ι Shared Local : Type*) where
  shared : Shared
  worker : ι → Option Local
  main : List (MainOp ι Shared)

inductive Action (ι Choice : Type*) where
  | main
  | work (t : ι) (choice : Choice)

variable [DecidableEq ι] (p : ForkJoin ι Shared Local Choice)

def mainStep (s : State ι Shared Local) : Option (State ι Shared Local) :=
  match s.main with
  | [] => none
  | .run f :: rest => some { s with shared := f s.shared, main := rest }
  | .create t :: rest =>
      if (s.worker t).isNone then
        some { s with worker := Function.update s.worker t (some p.entry), main := rest }
      else none
  | .join t :: rest => if (s.worker t).any p.returned then some { s with main := rest } else none

def workStep (t : ι) (choice : Choice) (s : State ι Shared Local) : Option (State ι Shared Local) :=
  (s.worker t).bind fun l =>
    (p.work t choice s.shared l).map fun (shared, l) =>
      { s with shared := shared, worker := Function.update s.worker t (some l) }

/-- All runs of the main thread with its workers. -/
def machine : Machine (State ι Shared Local) (Action ι Choice) where
  start s := s = ⟨p.initial, fun _ => none, p.script⟩
  step s
    | .main => p.mainStep s
    | .work t choice => p.workStep t choice s

/-- Where a worker is; one that was not created is at its beginning. -/
def place (s : State ι Shared Local) (t : ι) : Local := (s.worker t).getD p.entry

variable {p} {s s' : State ι Shared Local} {t : ι} {choice : Choice}
variable {allowed : State ι Shared Local → Action ι Choice → Prop}

/-- What a step of the main thread does. -/
theorem mainStep_cases (moved : p.mainStep s = some s') :
    (∃ f rest, s.main = .run f :: rest ∧ s' = { s with shared := f s.shared, main := rest }) ∨
    (∃ t rest, s.main = .create t :: rest ∧ s.worker t = none ∧
      s' = { s with worker := Function.update s.worker t (some p.entry), main := rest }) ∨
    (∃ t rest l, s.main = .join t :: rest ∧ s.worker t = some l ∧ p.returned l = true ∧
      s' = { s with main := rest }) := by
  simp only [mainStep] at moved
  split at moved
  · cases moved
  · rename_i f rest head
    cases moved
    exact .inl ⟨f, rest, head, rfl⟩
  · rename_i t rest head
    split_ifs at moved with absent
    cases moved
    exact .inr (.inl ⟨t, rest, head, Option.isNone_iff_eq_none.mp absent, rfl⟩)
  · rename_i t rest head
    split_ifs at moved with joined
    cases moved
    cases here : s.worker t with
    | none =>
      rw [here] at joined
      cases joined
    | some l =>
      rw [here] at joined
      exact .inr (.inr ⟨t, rest, l, head, here, joined, rfl⟩)

/-- What a step of a worker does. -/
theorem workStep_cases (moved : p.workStep t choice s = some s') :
    ∃ l shared l', s.worker t = some l ∧ p.work t choice s.shared l = some (shared, l') ∧
      s' = { s with shared := shared, worker := Function.update s.worker t (some l') } := by
  obtain ⟨l, here, rest⟩ := Option.bind_eq_some_iff.mp moved
  obtain ⟨⟨shared, l'⟩, worked, rfl⟩ := Option.map_eq_some_iff.mp rest
  exact ⟨l, shared, l', here, worked, rfl⟩

omit [DecidableEq ι] in
theorem place_of_worker {l : Local} (here : s.worker t = some l) : p.place s t = l := by
  rw [place, here, Option.getD_some]

/-- Creating a worker does not move it. -/
theorem place_create (absent : s.worker t = none) (rest : List (MainOp ι Shared)) :
    p.place { s with worker := Function.update s.worker t (some p.entry), main := rest } = p.place s := by
  funext u
  simp only [place, Function.update_apply]
  split_ifs with same
  · rw [same, absent]
    rfl
  · rfl

theorem place_work (shared : Shared) (l : Local) :
    p.place { s with shared := shared, worker := Function.update s.worker t (some l) } =
      Function.update (p.place s) t l := by
  funext u
  simp only [place, Function.update_apply]
  split_ifs <;> rfl

/-- What holds of the shared data and the places of the workers at the beginning, and is kept by the steps of
the workers and by what the main thread runs, holds in every run. -/
theorem invariant (Inv : Shared → (ι → Local) → Prop) (initial : Inv p.initial fun _ => p.entry)
    (works : ∀ shared place t choice shared' l, Inv shared place →
      p.work t choice shared (place t) = some (shared', l) → Inv shared' (Function.update place t l))
    (runs : ∀ f, .run f ∈ p.script → ∀ shared place, Inv shared place → Inv (f shared) place)
    (reachable : p.machine.Reachable allowed s) : s.main <:+ p.script ∧ Inv s.shared (p.place s) := by
  apply reachable.invariant
  · rintro s rfl
    exact ⟨List.suffix_rfl, initial⟩
  · rintro s s' a - ⟨suffix, inv⟩ moved
    cases a with
    | main =>
      obtain ⟨f, rest, head, rfl⟩ | ⟨t, rest, head, absent, rfl⟩ | ⟨t, rest, l, head, -, -, rfl⟩ :=
        mainStep_cases moved
      all_goals rw [head] at suffix
      · have member : .run f ∈ p.script := suffix.subset List.mem_cons_self
        exact ⟨(List.suffix_cons _ _).trans suffix, runs f member _ _ inv⟩
      · rw [place_create absent]
        exact ⟨(List.suffix_cons _ _).trans suffix, inv⟩
      · exact ⟨(List.suffix_cons _ _).trans suffix, inv⟩
    | work t choice =>
      obtain ⟨l, shared, l', here, worked, rfl⟩ := workStep_cases moved
      rw [place_work]
      rw [← place_of_worker (p := p) here] at worked
      exact ⟨suffix, works _ _ _ _ _ _ inv worked⟩

/-- A worker that the main thread has joined has returned. -/
theorem joined (reachable : p.machine.Reachable allowed s) (member : .join t ∈ p.script) :
    .join t ∈ s.main ∨ ∃ l, s.worker t = some l ∧ p.returned l = true := by
  apply reachable.invariant
  · rintro s rfl
    exact .inl member
  · rintro s s' a - (ahead | ⟨l, here, returned⟩) moved
    all_goals cases a
    · obtain ⟨f, rest, head, rfl⟩ | ⟨u, rest, head, -, rfl⟩ | ⟨u, rest, l, head, here, returned, rfl⟩ :=
        mainStep_cases moved
      all_goals rw [head, List.mem_cons] at ahead
      · exact .inl (ahead.resolve_left nofun)
      · exact .inl (ahead.resolve_left nofun)
      · obtain same | later := ahead
        · cases same
          exact .inr ⟨l, here, returned⟩
        · exact .inl later
    · obtain ⟨l, shared, l', -, -, rfl⟩ := workStep_cases moved
      exact .inl ahead
    · obtain ⟨f, rest, head, rfl⟩ | ⟨u, rest, head, absent, rfl⟩ | ⟨u, rest, l, head, -, -, rfl⟩ :=
        mainStep_cases moved
      · exact .inr ⟨l, here, returned⟩
      · have other : t ≠ u := by
          rintro rfl
          cases here.symm.trans absent
        exact .inr ⟨l, (Function.update_of_ne other _ _).trans here, returned⟩
      · exact .inr ⟨_, here, returned⟩
    · rename_i u choice
      obtain ⟨l', shared, l'', there, worked, rfl⟩ := workStep_cases moved
      have other : t ≠ u := by
        rintro rfl
        cases here.symm.trans there
        cases (p.work_of_returned t choice s.shared l returned).symm.trans worked
      exact .inr ⟨l, (Function.update_of_ne other _ _).trans here, returned⟩

/-- A main thread that works on the shared data after it has joined all workers leaves them as the result. -/
theorem last_run (before : List (MainOp ι Shared)) {last : Shared → Shared}
    (script : p.script = before ++ [.run last]) (joins : ∀ t, .join t ∈ before)
    (reachable : p.machine.Reachable allowed s) (ended : s.main = []) :
    ∃ s₀, p.machine.Reachable allowed s₀ ∧ s₀.main = [.run last] ∧ s.shared = last s₀.shared ∧
      ∀ t, p.returned (p.place s₀ t) = true := by
  have inside (t : ι) : MainOp.join t ∈ p.script := script ▸ List.mem_append_left _ (joins t)
  have returns {s : State ι Shared Local} (reachable : p.machine.Reachable allowed s)
      (none : ∀ t, .join t ∉ s.main) (t : ι) : ∃ l, s.worker t = some l ∧ p.returned l = true :=
    (joined reachable (inside t)).resolve_left (none t)
  induction reachable with
  | start started =>
    cases started
    simp [script] at ended
  | @step s s' a reached permitted moved ih =>
    have suffix := (invariant (fun _ _ => True) trivial (fun _ _ _ _ _ _ _ _ => trivial)
      (fun _ _ _ _ _ => trivial) reached).1
    rw [script] at suffix
    cases a with
    | main =>
      -- the operation behind which nothing is left is the last one of the script
      have only {op : MainOp ι Shared} {rest : List (MainOp ι Shared)} (head : s.main = op :: rest)
          (empty : rest = []) : op = .run last := by
        rw [head, empty] at suffix
        have same := suffix.getLast (by simp)
        simpa using same
      obtain ⟨f, rest, head, rfl⟩ | ⟨t, rest, head, -, rfl⟩ | ⟨t, rest, l, head, -, -, rfl⟩ :=
        mainStep_cases moved
      · cases only head ended
        cases ended
        refine ⟨s, reached, head, rfl, ?_⟩
        intro t
        obtain ⟨l, here, returned⟩ := returns reached (by simp [head]) t
        rw [place_of_worker here]
        exact returned
      · cases only head ended
      · cases only head ended
    | work t choice =>
      -- all workers have returned
      obtain ⟨l, shared, l', here, worked, rfl⟩ := workStep_cases moved
      obtain ⟨l'', here', returned⟩ := returns reached (by simp [show s.main = [] from ended]) t
      cases here.symm.trans here'
      cases (p.work_of_returned t choice s.shared l returned).symm.trans worked

omit [DecidableEq ι] in
/-- Where only the last operation of the rest of a script is a run, nothing is left behind a run. -/
theorem eq_nil_of_run {f last : Shared → Shared} {later middle : List (MainOp ι Shared)} (quiet : ∀ f, .run f ∉ middle)
    (suffix : .run f :: later <:+ middle ++ [.run last]) : later = [] := by
  by_contra unfinished
  obtain ⟨before, split⟩ := suffix
  obtain ⟨between, op, rfl⟩ := (List.eq_nil_or_concat later).resolve_left unfinished
  rw [List.concat_eq_append, ← List.cons_append, ← List.append_assoc] at split
  obtain ⟨split, -⟩ := List.append_inj' split rfl
  exact quiet f (split ▸ List.mem_append_right _ List.mem_cons_self)

section Rest

/-! What the workers leave alone, where the main thread runs something at its end, and maybe at its beginning. -/

variable {R : Type*} (rest : Shared → R) (act : R → R) {first last : Shared → Shared} (middle : List (MainOp ι Shared))
variable (quiet : ∀ f, .run f ∉ middle)
variable (keeps : ∀ t choice shared l shared' l', p.work t choice shared l = some (shared', l') →
  rest shared' = rest shared)
include quiet keeps

theorem rest_step {r : R} {a : Action ι Choice} (suffix : s.main <:+ middle ++ [.run last])
    (same : s.main ≠ [] → rest s.shared = r) (moved : p.machine.step s a = some s') :
    s'.main <:+ middle ++ [.run last] ∧ (s'.main ≠ [] → rest s'.shared = r) := by
  cases a with
  | main =>
    obtain ⟨f, later, head, rfl⟩ | ⟨t, later, head, -, rfl⟩ | ⟨t, later, l, head, -, -, rfl⟩ :=
      mainStep_cases moved
    all_goals
      rw [head] at suffix same
      refine ⟨(List.suffix_cons _ _).trans suffix, ?_⟩
    · intro unfinished
      exact absurd (eq_nil_of_run quiet suffix) unfinished
    · exact fun _ => same (List.cons_ne_nil _ _)
    · exact fun _ => same (List.cons_ne_nil _ _)
  | work t choice =>
    obtain ⟨l, shared, l', -, worked, rfl⟩ := workStep_cases moved
    rw [← keeps _ _ _ _ _ _ worked] at same
    exact ⟨suffix, same⟩

theorem rest_of_unfinished (script : p.script = middle ++ [.run last]) (reachable : p.machine.Reachable allowed s)
    (unfinished : s.main ≠ []) : rest s.shared = rest p.initial := by
  have inv : s.main <:+ middle ++ [.run last] ∧ (s.main ≠ [] → rest s.shared = rest p.initial) := by
    apply reachable.invariant
    · rintro s rfl
      exact ⟨script ▸ List.suffix_rfl, fun _ => rfl⟩
    · rintro s s' a - ⟨suffix, same⟩ moved
      exact rest_step rest middle quiet keeps suffix same moved
  exact inv.2 unfinished

theorem rest_behind_first (script : p.script = .run first :: (middle ++ [.run last]))
    (acts : ∀ shared, rest (first shared) = act (rest shared)) (reachable : p.machine.Reachable allowed s) :
    (s.main = p.script ∧ rest s.shared = rest p.initial) ∨
      s.main <:+ middle ++ [.run last] ∧ (s.main ≠ [] → rest s.shared = act (rest p.initial)) := by
  apply reachable.invariant
  · rintro s rfl
    exact .inl ⟨rfl, rfl⟩
  · intro s s' a _ before moved
    obtain ⟨main, same⟩ | ⟨suffix, same⟩ := before
    · cases a with
      | main =>
        obtain ⟨f, later, head, rfl⟩ | ⟨t, later, head, -, rfl⟩ | ⟨t, later, l, head, -, -, rfl⟩ :=
          mainStep_cases moved
        all_goals
          rw [head, script] at main
          cases main
        refine .inr ⟨List.suffix_rfl, fun _ => ?_⟩
        rw [acts, same]
      | work t choice =>
        obtain ⟨l, shared, l', -, worked, rfl⟩ := workStep_cases moved
        rw [← keeps _ _ _ _ _ _ worked] at same
        exact .inl ⟨main, same⟩
    · exact .inr (rest_step rest middle quiet keeps suffix same moved)

end Rest

/-- The workers that exist are those created so far, and the rest of the script fits them. -/
theorem wellFormed_rest (reachable : p.machine.Reachable allowed s) :
    ∃ created, (∀ t, s.worker t = none ↔ t ∉ created) ∧ MainOp.WellFormed created s.main := by
  apply reachable.invariant
  · rintro s rfl
    exact ⟨[], fun t => iff_of_true rfl List.not_mem_nil, p.wellFormed⟩
  · rintro s s' a - ⟨created, none_iff, fits⟩ moved
    cases a with
    | main =>
      obtain ⟨f, rest, head, rfl⟩ | ⟨t, rest, head, -, rfl⟩ | ⟨t, rest, l, head, -, -, rfl⟩ :=
        mainStep_cases moved
      all_goals rw [head] at fits
      · exact ⟨created, none_iff, fits⟩
      · refine ⟨t :: created, ?_, fits.2⟩
        intro u
        simp only [Function.update_apply, List.mem_cons, not_or]
        split_ifs with same
        · exact iff_of_false nofun fun absent => absent.1 same
        · rw [none_iff u]
          exact (and_iff_right same).symm
      · exact ⟨created, none_iff, fits.2⟩
    | work t choice =>
      obtain ⟨l, shared, l', here, -, rfl⟩ := workStep_cases moved
      refine ⟨created, ?_, fits⟩
      intro u
      rw [← none_iff u]
      simp only [Function.update_apply]
      split_ifs with same
      · rw [same, here]
        exact iff_of_false nofun nofun
      · exact Iff.rfl

/-- The main thread can go on unless it waits for a worker that has not returned. -/
theorem mainStep_or_waits (reachable : p.machine.Reachable allowed s) (unfinished : s.main ≠ []) :
    (∃ s', p.mainStep s = some s') ∨ ∃ t l, s.worker t = some l ∧ p.returned l = false := by
  obtain ⟨created, none_iff, fits⟩ := wellFormed_rest reachable
  match head : s.main with
  | [] => exact absurd head unfinished
  | .run f :: rest => exact .inl ⟨_, by rw [mainStep, head]⟩
  | .create t :: rest =>
    rw [head] at fits
    have absent := (none_iff t).mpr fits.1
    exact .inl ⟨_, by simp only [mainStep, head, absent, Option.isNone_none, if_true]; rfl⟩
  | .join t :: rest =>
    rw [head] at fits
    cases here : s.worker t with
    | none => exact absurd fits.1 ((none_iff t).mp here)
    | some l =>
      cases returned : p.returned l with
      | false => exact .inr ⟨t, l, here, returned⟩
      | true => exact .inl ⟨_, by simp only [mainStep, head, here, Option.any_some, returned, if_true]; rfl⟩

section Progress

variable [Fintype ι] (left : Local → ℕ)

/-- How much the main thread and the workers have still to do, by a count for each worker. -/
def rank (p : ForkJoin ι Shared Local Choice) (s : State ι Shared Local) : ℕ :=
  s.main.length + ∑ t, left (p.place s t)

variable {left}

theorem rank_work {shared : Shared} {l : Local} (less : left l < left (p.place s t)) :
    rank left p { s with shared := shared, worker := Function.update s.worker t (some l) } < rank left p s := by
  rw [rank, rank, place_work]
  apply Nat.add_lt_add_left
  apply Finset.sum_lt_sum
  · intro u _
    rw [Function.update_apply]
    split_ifs with same
    · rw [same]
      exact less.le
    · exact le_rfl
  · exact ⟨t, Finset.mem_univ t, by rwa [Function.update_self]⟩

/-- Every step of the main thread lowers the rank. -/
theorem rank_main (moved : p.mainStep s = some s') : rank left p s' < rank left p s := by
  obtain ⟨f, rest, head, rfl⟩ | ⟨t, rest, head, absent, rfl⟩ | ⟨t, rest, l, head, -, -, rfl⟩ :=
    mainStep_cases moved
  all_goals simp only [rank, head, List.length_cons]
  · exact Nat.add_lt_add_right (Nat.lt_succ_self _) _
  · rw [place_create absent]
    exact Nat.add_lt_add_right (Nat.lt_succ_self _) _
  · exact Nat.add_lt_add_right (Nat.lt_succ_self _) _

variable (left) in
/-- Where some worker can come closer to its end whenever one has not returned, the main thread can always
come to its end. -/
theorem exists_ended (progress : ∀ s, p.machine.Reachable (fun _ _ => True) s →
      ∀ t l, s.worker t = some l → p.returned l = false →
        ∃ u choice shared l₀ l', s.worker u = some l₀ ∧ p.work u choice s.shared l₀ = some (shared, l') ∧
          left l' < left l₀)
    (reachable : p.machine.Reachable (fun _ _ => True) s) :
    ∃ schedule s', p.machine.run s schedule = some s' ∧ s'.main = [] := by
  suffices ends : ∃ schedule s', p.machine.run s schedule = some s' ∧ p.machine.Reachable (fun _ _ => True) s' ∧
      s'.main = [] by
    obtain ⟨schedule, s', ran, -, ended⟩ := ends
    exact ⟨schedule, s', ran, ended⟩
  apply Machine.Reachable.exists_run (rank left p) _ reachable
  intro s reachable unfinished
  obtain ⟨s', moved⟩ | ⟨t, l, here, working⟩ := mainStep_or_waits reachable unfinished
  · exact ⟨.main, s', trivial, moved, rank_main moved⟩
  · obtain ⟨u, choice, shared, l₀, l', there, worked, less⟩ := progress s reachable t l here working
    have moved : p.workStep u choice s =
        some { s with shared := shared, worker := Function.update s.worker u (some l') } :=
      Option.bind_eq_some_iff.mpr ⟨l₀, there, Option.map_eq_some_iff.mpr ⟨_, worked, rfl⟩⟩
    rw [← place_of_worker (p := p) there] at less
    exact ⟨.work u choice, _, trivial, moved, rank_work less⟩

end Progress

end ForkJoin

end Hseos
