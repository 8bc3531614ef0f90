import Hseos.CppThread.SemaphoreProgress
import Mathlib.Tactic.IntervalCases

/-! # The threads of `run_semaphore`

The main thread takes the two units that a semaphore has, creates a thread that releases one, takes that one, prints
`ok`, and asks for a fourth. The sleep of the other thread puts its call at any place of the interleaving.
-/

namespace Hseos.CppThread

/-- The two threads. -/
inductive RunSemaphoreThread where
  | main
  | th
deriving DecidableEq

instance : Fintype RunSemaphoreThread := ⟨{.main, .th}, by rintro (_ | _) <;> decide⟩

/-- Where the main thread is, before or in its calls of `acquire`, which are numbered from zero. -/
inductive RunSemaphorePc where
  | acquire (n : ℕ)
  | acquiring (n : ℕ)
  | create
  | print
  | join
  | finished
deriving DecidableEq

/-- What comes behind each call of `acquire`. -/
def RunSemaphorePc.behind : ℕ → RunSemaphorePc
  | 0 => .acquire 1
  | 1 => .create
  | 2 => .print
  | _ => .join

/-- The other thread is still to be created. -/
def RunSemaphorePc.isAlone : RunSemaphorePc → Bool
  | .acquire n | .acquiring n => n ≤ 1
  | .create => true
  | .print | .join | .finished => false

/-- Where the thread is that `run_semaphore` creates. -/
inductive SemaphoreReleaserPc where
  | notCreated
  | release
  | releasing
  | returned
deriving DecidableEq

structure RunSemaphoreState where
  sem : SemaphoreState RunSemaphoreThread
  main : RunSemaphorePc
  th : SemaphoreReleaserPc
  printed : List String

/-- A statement of a thread, or a step of the call that it is in. -/
inductive RunSemaphoreAction where
  | main
  | th
  | call (a : SemaphoreAction RunSemaphoreThread)

/-- A wake-up for no reason. -/
def RunSemaphoreAction.isWake : RunSemaphoreAction → Bool
  | .call (.wake _) => true
  | .main | .th | .call _ => false

namespace RunSemaphoreState

def mainStep (s : RunSemaphoreState) : Option RunSemaphoreState :=
  match s.main with
  | .acquire n => (s.sem.step (.acquire .main)).map fun sem => { s with sem := sem, main := .acquiring n }
  | .acquiring n => if s.sem.pc .main = .outside then some { s with main := .behind n } else none
  | .create => some { s with main := .acquire 2, th := .release }
  | .print => some { s with main := .acquire 3, printed := s.printed ++ ["ok"] }
  | .join => if s.th = .returned then some { s with main := .finished } else none
  | .finished => none

def thStep (s : RunSemaphoreState) : Option RunSemaphoreState :=
  match s.th with
  | .notCreated | .returned => none
  | .release => (s.sem.step (.release .th)).map fun sem => { s with sem := sem, th := .releasing }
  | .releasing => if s.sem.pc .th = .outside then some { s with th := .returned } else none

def step (s : RunSemaphoreState) : RunSemaphoreAction → Option RunSemaphoreState
  | .main => s.mainStep
  | .th => s.thStep
  | .call (.acquire _) | .call (.release _) => none
  | .call a => (s.sem.step a).map fun sem => { s with sem := sem }

end RunSemaphoreState

/-- All runs of `run_semaphore`. -/
def runSemaphore : Machine RunSemaphoreState RunSemaphoreAction where
  start s := s = ⟨⟨fun _ => .outside, 2, .init, 0, 0⟩, .acquire 0, .notCreated, []⟩
  step := RunSemaphoreState.step

namespace RunSemaphoreState

variable {s s' : RunSemaphoreState}

/-- What a call of `acquire` that has begun may still be at, with the units it has taken. -/
inductive Acquiring : SemaphorePc → ℕ → Prop
  | lock : Acquiring .acquireLock 0
  | test : Acquiring .test 0
  | wait : Acquiring .wait 0
  | decrement : Acquiring .decrement 0
  | unlock : Acquiring .acquireUnlock 1
  | outside : Acquiring .outside 1

inductive Releasing : SemaphorePc → ℕ → Prop
  | lock : Releasing .releaseLock 0
  | increment : Releasing .increment 0
  | notify : Releasing .notify 1
  | unlock : Releasing .releaseUnlock 1
  | outside : Releasing .outside 1

/-- How far the main thread is: the place in its call, the units it has taken, and what it has printed. -/
inductive MainAt : RunSemaphorePc → SemaphorePc → ℕ → List String → Prop
  | acquire (n : ℕ) (le : n ≤ 3) : MainAt (.acquire n) .outside n (if n ≤ 2 then [] else ["ok"])
  | acquiring (n : ℕ) (le : n ≤ 3) {pc : SemaphorePc} {taken : ℕ} (calls : Acquiring pc taken) :
      MainAt (.acquiring n) pc (n + taken) (if n ≤ 2 then [] else ["ok"])
  | create : MainAt .create .outside 2 []
  | print : MainAt .print .outside 3 []
  | join : MainAt .join .outside 4 ["ok"]
  | finished : MainAt .finished .outside 4 ["ok"]

/-- How far the other thread is, and whether it has been created. -/
inductive ThAt : SemaphoreReleaserPc → SemaphorePc → ℕ → Prop
  | notCreated : ThAt .notCreated .outside 0
  | release : ThAt .release .outside 0
  | releasing {pc : SemaphorePc} {released : ℕ} (calls : Releasing pc released) : ThAt .releasing pc released
  | returned : ThAt .returned .outside 1

structure Placed (s : RunSemaphoreState) : Prop where
  reachable : (semaphore RunSemaphoreThread 2).Reachable (fun _ _ => True) s.sem
  main : MainAt s.main (s.sem.pc .main) s.sem.acquires s.printed
  th : ThAt s.th (s.sem.pc .th) s.sem.releases
  created : s.th = .notCreated ↔ s.main.isAlone = true

section Calls

variable {sem sem' : SemaphoreState RunSemaphoreThread} {t : RunSemaphoreThread} {units : ℕ}

theorem reachable_step {a : SemaphoreAction RunSemaphoreThread}
    (reachable : (semaphore RunSemaphoreThread 2).Reachable (fun _ _ => True) sem) (moved : sem.step a = some sem') :
    (semaphore RunSemaphoreThread 2).Reachable (fun _ _ => True) sem' :=
  reachable.step trivial moved

/-- A step of a call of `acquire`. -/
theorem Acquiring.step (calls : Acquiring (sem.pc t) units) (moved : sem.threadStep t = some sem') :
    ∃ units', Acquiring (sem'.pc t) units' ∧ sem'.acquires + units = sem.acquires + units' ∧
      sem'.releases = sem.releases ∧ ∀ u, u ≠ t → sem'.pc u = sem.pc u := by
  simp only [SemaphoreState.threadStep] at moved
  cases at_ : sem.pc t with
  | outside | notify => simp [at_] at moved
  | releaseLock | increment | releaseUnlock =>
    rw [at_] at calls
    cases calls
  | acquireLock | wait | acquireUnlock =>
    rw [at_] at calls
    cases calls
    simp only [at_, SemaphoreState.after, Option.map_eq_some_iff] at moved
    obtain ⟨m, -, rfl⟩ := moved
    refine ⟨_, ?_, rfl, rfl, fun u other => Function.update_of_ne other _ _⟩
    simp only [SemaphoreState.setPc, Function.update_self]
    constructor
  | test =>
    rw [at_] at calls
    cases calls
    simp only [at_] at moved
    split_ifs at moved
    · obtain ⟨m, -, rfl⟩ := Option.map_eq_some_iff.mp moved
      refine ⟨0, ?_, rfl, rfl, fun u other => Function.update_of_ne other _ _⟩
      simp only [SemaphoreState.setPc, Function.update_self]
      exact .wait
    · cases moved
      refine ⟨0, ?_, rfl, rfl, fun u other => Function.update_of_ne other _ _⟩
      simp only [SemaphoreState.setPc, Function.update_self]
      exact .decrement
  | decrement =>
    rw [at_] at calls
    cases calls
    simp only [at_] at moved
    cases moved
    refine ⟨1, ?_, rfl, rfl, fun u other => Function.update_of_ne other _ _⟩
    simp only [SemaphoreState.setPc, Function.update_self]
    exact .unlock

/-- A step of a call of `release`. -/
theorem Releasing.step (calls : Releasing (sem.pc t) units) (moved : sem.threadStep t = some sem') :
    ∃ units', Releasing (sem'.pc t) units' ∧ sem'.releases + units = sem.releases + units' ∧
      sem'.acquires = sem.acquires ∧ ∀ u, u ≠ t → sem'.pc u = sem.pc u := by
  simp only [SemaphoreState.threadStep] at moved
  cases at_ : sem.pc t with
  | outside | notify => simp [at_] at moved
  | acquireLock | test | wait | decrement | acquireUnlock =>
    rw [at_] at calls
    cases calls
  | releaseLock | releaseUnlock =>
    rw [at_] at calls
    cases calls
    simp only [at_, SemaphoreState.after, Option.map_eq_some_iff] at moved
    obtain ⟨m, -, rfl⟩ := moved
    refine ⟨_, ?_, rfl, rfl, fun u other => Function.update_of_ne other _ _⟩
    simp only [SemaphoreState.setPc, Function.update_self]
    constructor
  | increment =>
    rw [at_] at calls
    cases calls
    simp only [at_] at moved
    cases moved
    refine ⟨1, ?_, rfl, rfl, fun u other => Function.update_of_ne other _ _⟩
    simp only [SemaphoreState.setPc, Function.update_self]
    exact .notify

theorem Releasing.notifyOne {choice : Option RunSemaphoreThread} (calls : Releasing (sem.pc t) units)
    (moved : sem.step (.notifyOne t choice) = some sem') :
    Releasing (sem'.pc t) units ∧ sem'.releases = sem.releases ∧ sem'.acquires = sem.acquires ∧
      ∀ u, u ≠ t → sem'.pc u = sem.pc u := by
  simp only [SemaphoreState.step] at moved
  split_ifs at moved with at_
  obtain ⟨m, -, rfl⟩ := Option.map_eq_some_iff.mp moved
  rw [at_] at calls
  cases calls
  refine ⟨?_, rfl, rfl, fun u other => Function.update_of_ne other _ _⟩
  simp only [SemaphoreState.setPc, Function.update_self]
  exact .unlock

end Calls

theorem MainAt.step {main : RunSemaphorePc} {printed : List String} {sem sem' : SemaphoreState RunSemaphoreThread}
    (at_ : MainAt main (sem.pc .main) sem.acquires printed) (moved : sem.threadStep .main = some sem') :
    MainAt main (sem'.pc .main) sem'.acquires printed ∧ sem'.pc .th = sem.pc .th ∧ sem'.releases = sem.releases := by
  generalize here : sem.pc .main = pc, units : sem.acquires = n at at_
  cases at_ with
  | acquire | create | print | join | finished => simp [SemaphoreState.threadStep, here] at moved
  | @acquiring n le pc taken calls =>
    obtain ⟨taken', calls', more, same, others⟩ := Acquiring.step (here ▸ calls) moved
    have sum : sem'.acquires = n + taken' := by omega
    rw [sum]
    exact ⟨.acquiring n le calls', others .th (by decide), same⟩

theorem ThAt.step {th : SemaphoreReleaserPc} {sem sem' : SemaphoreState RunSemaphoreThread}
    (at_ : ThAt th (sem.pc .th) sem.releases) (moved : sem.threadStep .th = some sem') :
    ThAt th (sem'.pc .th) sem'.releases ∧ sem'.pc .main = sem.pc .main ∧ sem'.acquires = sem.acquires := by
  generalize here : sem.pc .th = pc, units : sem.releases = n at at_
  cases at_ with
  | notCreated | release | returned => simp [SemaphoreState.threadStep, here] at moved
  | @releasing pc released calls =>
    obtain ⟨released', calls', more, same, others⟩ := Releasing.step (here ▸ calls) moved
    have sum : sem'.releases = released' := by omega
    rw [sum]
    exact ⟨.releasing calls', others .main (by decide), same⟩

/-- A notification is part of the call of `release`. -/
theorem Placed.notifyOne (placed : s.Placed) {t : RunSemaphoreThread} {choice : Option RunSemaphoreThread}
    {sem' : SemaphoreState RunSemaphoreThread} (moved : s.sem.step (.notifyOne t choice) = some sem') :
    MainAt s.main (sem'.pc .main) sem'.acquires s.printed ∧ ThAt s.th (sem'.pc .th) sem'.releases := by
  have here : s.sem.pc t = .notify := by
    simp only [SemaphoreState.step] at moved
    split_ifs at moved with here
    exact here
  cases t with
  | main =>
    have at_ := placed.main
    generalize s.main = place, s.sem.acquires = n, s.printed = printed at at_
    rw [here] at at_
    cases at_ with
    | acquiring n le calls => cases calls
  | th =>
    have at_ := placed.th
    generalize place_eq : s.th = place, pc_eq : s.sem.pc .th = pc, units : s.sem.releases = n at at_
    cases at_ with
    | notCreated | release | returned => cases here.symm.trans pc_eq
    | releasing calls =>
      obtain ⟨calls', released, same, others⟩ := Releasing.notifyOne (pc_eq ▸ calls) moved
      rw [others .main (by decide), same, released, units]
      exact ⟨placed.main, .releasing calls'⟩

theorem Placed.mainStep (placed : s.Placed) (moved : s.mainStep = some s') : s'.Placed := by
  obtain ⟨reachable, main, th, created⟩ := placed
  simp only [RunSemaphoreState.mainStep] at moved
  generalize here : s.main = place, pc_eq : s.sem.pc .main = pc, units : s.sem.acquires = n,
    text : s.printed = printed at main
  cases main with
  | acquire n le =>
    simp only [here] at moved
    obtain ⟨sem, began, rfl⟩ := Option.map_eq_some_iff.mp moved
    have reachable' := reachable_step reachable began
    simp only [SemaphoreState.step, pc_eq, if_true] at began
    cases began
    refine ⟨reachable', ?_, th, ?_⟩
    · simp only [SemaphoreState.setPc, Function.update_self, units, text]
      exact .acquiring n le .lock
    · rw [created, here]
      rfl
  | @acquiring n le pc taken calls =>
    simp only [here] at moved
    split_ifs at moved with outside
    cases moved
    rw [pc_eq] at outside
    subst outside
    cases calls
    refine ⟨reachable, ?_, th, ?_⟩
    · simp only [pc_eq, units, text]
      interval_cases n
      · exact .acquire 1 (by decide)
      · exact .create
      · exact .print
      · exact .join
    · rw [created, here]
      interval_cases n <;> rfl
  | create =>
    simp only [here] at moved
    cases moved
    refine ⟨reachable, ?_, ?_, ?_⟩
    · simp only [pc_eq, units, text]
      exact .acquire 2 (by decide)
    · have not_yet : s.th = .notCreated := created.mpr (by rw [here]; rfl)
      rw [not_yet] at th
      generalize s.sem.pc .th = pc, s.sem.releases = n at th
      cases th
      exact .release
    · apply iff_of_false <;> rintro ⟨⟩
  | print =>
    simp only [here] at moved
    cases moved
    refine ⟨reachable, ?_, th, ?_⟩
    · simp only [pc_eq, units, text]
      exact .acquire 3 le_rfl
    · rw [created, here]
      rfl
  | join =>
    simp only [here] at moved
    split_ifs at moved with returned
    cases moved
    refine ⟨reachable, ?_, th, ?_⟩
    · simp only [pc_eq, units, text]
      exact .finished
    · rw [created, here]
      rfl
  | finished =>
    simp only [here] at moved
    cases moved

theorem Placed.thStep (placed : s.Placed) (moved : s.thStep = some s') : s'.Placed := by
  obtain ⟨reachable, main, th, created⟩ := placed
  simp only [RunSemaphoreState.thStep] at moved
  generalize here : s.th = place, pc_eq : s.sem.pc .th = pc, units : s.sem.releases = n at th
  have alone : place ≠ .notCreated → ¬s.main.isAlone = true := by
    intro different
    rw [← created, here]
    exact different
  cases th with
  | notCreated | returned =>
    simp only [here] at moved
    cases moved
  | release =>
    simp only [here] at moved
    obtain ⟨sem, began, rfl⟩ := Option.map_eq_some_iff.mp moved
    have reachable' := reachable_step reachable began
    simp only [SemaphoreState.step, pc_eq, if_true] at began
    cases began
    refine ⟨reachable', main, ?_, iff_of_false (by rintro ⟨⟩) (alone (by decide))⟩
    simp only [SemaphoreState.setPc, Function.update_self, units]
    exact .releasing .lock
  | releasing calls =>
    simp only [here] at moved
    split_ifs at moved with outside
    cases moved
    rw [pc_eq] at outside
    subst outside
    cases calls
    refine ⟨reachable, main, ?_, iff_of_false (by rintro ⟨⟩) (alone (by decide))⟩
    simp only [pc_eq, units]
    exact .returned

theorem Placed.step {a : RunSemaphoreAction} (placed : s.Placed) (moved : s.step a = some s') : s'.Placed := by
  cases a with
  | main => exact placed.mainStep moved
  | th => exact placed.thStep moved
  | call a =>
    cases a with
    | acquire t | release t => cases moved
    | step t =>
      obtain ⟨sem, moves, rfl⟩ := Option.map_eq_some_iff.mp moved
      have reachable := reachable_step placed.reachable moves
      cases t with
      | main =>
        obtain ⟨main, th, same⟩ := placed.main.step moves
        refine ⟨reachable, main, ?_, placed.created⟩
        simp only [th, same]
        exact placed.th
      | th =>
        obtain ⟨th, main, same⟩ := placed.th.step moves
        refine ⟨reachable, ?_, th, placed.created⟩
        simp only [main, same]
        exact placed.main
    | notifyOne t choice =>
      obtain ⟨sem, moves, rfl⟩ := Option.map_eq_some_iff.mp moved
      obtain ⟨main, th⟩ := placed.notifyOne moves
      exact ⟨reachable_step placed.reachable moves, main, th, placed.created⟩
    | wake t =>
      obtain ⟨sem, moves, rfl⟩ := Option.map_eq_some_iff.mp moved
      have reachable := reachable_step placed.reachable moves
      obtain ⟨m, -, rfl⟩ := Option.map_eq_some_iff.mp moves
      exact ⟨reachable, placed.main, placed.th, placed.created⟩

theorem placed_of_reachable (reachable : runSemaphore.Reachable (fun _ _ => True) s) : s.Placed := by
  apply reachable.invariant
  · rintro s rfl
    refine ⟨.start ⟨by decide, rfl⟩, .acquire 0 (Nat.zero_le 3), .notCreated, ?_⟩
    exact iff_of_true rfl rfl
  · intro s s' a _ placed moved
    exact placed.step moved

theorem MainAt.printed {main : RunSemaphorePc} {pc : SemaphorePc} {units : ℕ} {printed : List String}
    (at_ : MainAt main pc units printed) : printed = [] ∨ printed = ["ok"] ∧ 3 ≤ units := by
  cases at_ with
  | acquire n le | acquiring n le calls =>
    split_ifs with early
    · exact .inl rfl
    · exact .inr ⟨rfl, by omega⟩
  | create | print => exact .inl rfl
  | join | finished => exact .inr ⟨rfl, by decide⟩

theorem MainAt.blocked {main : RunSemaphorePc} {pc : SemaphorePc} {units : ℕ} {printed : List String}
    (at_ : MainAt main pc units printed) (few : units ≤ 3) : main ≠ .join ∧ main ≠ .finished := by
  cases at_ with
  | acquire | acquiring | create | print => exact ⟨nofun, nofun⟩
  | join | finished => omega

theorem ThAt.le {th : SemaphoreReleaserPc} {pc : SemaphorePc} {released : ℕ} (at_ : ThAt th pc released) :
    released ≤ 1 := by
  cases at_ with
  | notCreated | release | returned => decide
  | releasing calls => cases calls <;> decide

/-- There are three units at most, so the main thread does not get a fourth one. -/
theorem Placed.blocked (placed : s.Placed) :
    (s.printed = [] ∨ s.printed = ["ok"] ∧ s.sem.releases = 1) ∧ s.main ≠ .join ∧ s.main ≠ .finished := by
  have bounded := (SemaphoreState.balanced_of_reachable placed.reachable).bounded
  have released := placed.th.le
  obtain ⟨no_join, no_end⟩ := placed.main.blocked (by omega)
  refine ⟨?_, no_join, no_end⟩
  obtain nothing | ⟨ok, units⟩ := placed.main.printed
  · exact .inl nothing
  · exact .inr ⟨ok, by omega⟩

/-- Where the other thread has nothing left to do, it has released its unit and returned, unless the main thread
has yet to create it. -/
theorem ThAt.ended (at_ : ThAt s.th (s.sem.pc .th) s.sem.releases)
    (rests : s.sem.pc .th = .outside ∨ s.sem.pc .th = .wait) (stops : s.step .th = none) :
    s.th = .notCreated ∨ s.th = .returned ∧ s.sem.releases = 1 := by
  simp only [RunSemaphoreState.step, RunSemaphoreState.thStep] at stops
  generalize here : s.th = th, pc_eq : s.sem.pc .th = pc, units : s.sem.releases = n at at_
  rw [pc_eq] at rests
  cases at_ with
  | notCreated => exact .inl rfl
  | release => simp [here, SemaphoreState.step, pc_eq] at stops
  | returned => exact .inr ⟨rfl, rfl⟩
  | releasing calls =>
    cases calls with
    | outside => simp [here, pc_eq] at stops
    | lock | increment | notify | unlock => simp at rests

/-- Where nothing is left to do, the main thread sleeps in its fourth call. -/
theorem Placed.asleep (placed : s.Placed) (quiescent : ∀ a, a.isWake = false → s.step a = none) :
    s.printed = ["ok"] ∧ s.th = .returned ∧ s.main = .acquiring 3 ∧ .main ∈ s.sem.monitor.asleep := by
  have balanced := SemaphoreState.balanced_of_reachable placed.reachable
  have sem_quiescent : ∀ a, a.isOwn = true → s.sem.step a = none := by
    intro a own
    cases a with
    | acquire t | release t | wake t => cases own
    | step t => exact Option.map_eq_none_iff.mp (quiescent (.call (.step t)) rfl)
    | notifyOne t choice => exact Option.map_eq_none_iff.mp (quiescent (.call (.notifyOne t choice)) rfl)
  obtain ⟨rests, no_units⟩ := SemaphoreState.asleep_of_quiescent balanced
    (SemaphoreState.waits_of_reachable placed.reachable) sem_quiescent
  have th_ended := placed.th.ended ((rests .th).imp_right And.left) (quiescent .th rfl)
  obtain ⟨no_join, no_end⟩ := placed.blocked.2
  have main_stops := quiescent .main rfl
  have main := placed.main
  simp only [RunSemaphoreState.step, RunSemaphoreState.mainStep] at main_stops
  generalize here : s.main = place, pc_eq : s.sem.pc .main = pc, units : s.sem.acquires = n,
    text : s.printed = printed at main
  cases main with
  | acquire n le => simp [here, SemaphoreState.step, pc_eq] at main_stops
  | create | print => simp [here] at main_stops
  | join => exact absurd here no_join
  | finished => exact absurd here no_end
  | @acquiring n le pc taken calls =>
    simp only [here] at main_stops
    split_ifs at main_stops with inside
    obtain ⟨waits, sleeps⟩ := (rests .main).resolve_left inside
    rw [pc_eq] at waits
    subst waits
    cases calls
    have none := no_units ⟨.main, pc_eq⟩
    have counted := balanced.counted
    have bounded := balanced.bounded
    have released := placed.th.le
    have n_eq : n = 2 + s.sem.releases := by omega
    obtain not_yet | ⟨returned, one⟩ := th_ended
    · have alone := placed.created.mp not_yet
      rw [here, RunSemaphorePc.isAlone, decide_eq_true_eq] at alone
      omega
    · obtain rfl : n = 3 := by omega
      exact ⟨rfl, returned, rfl, sleeps⟩

/-- What the statements of the main thread still cost, with the calls that are to come and the thread that it
creates. -/
def mainWork : RunSemaphorePc → ℕ
  | .acquire 0 => 39
  | .acquiring 0 => 33
  | .acquire 1 => 32
  | .acquiring 1 => 26
  | .create => 25
  | .acquire 2 => 16
  | .acquiring 2 => 10
  | .print => 9
  | .acquire _ => 8
  | .acquiring _ => 2
  | .join => 1
  | .finished => 0

def thWork : SemaphoreReleaserPc → ℕ
  | .release => 8
  | .releasing => 1
  | .notCreated | .returned => 0

def work (s : RunSemaphoreState) : ℕ := mainWork s.main + thWork s.th + s.sem.work

theorem mainWork_acquire (n : ℕ) : mainWork (.acquire n) = mainWork (.acquiring n) + 6 := by
  rcases n with _ | _ | _ | n <;> rfl

theorem mainWork_behind (n : ℕ) : mainWork (.behind n) + 1 = mainWork (.acquiring n) := by
  rcases n with _ | _ | _ | n <;> rfl

theorem work_step (s s' : RunSemaphoreState) (a : RunSemaphoreAction) (moved : s.step a = some s') :
    s'.work + 1 ≤ s.work + if a.isWake then 3 else 0 := by
  cases a with
  | main =>
    simp only [RunSemaphoreState.step, RunSemaphoreState.mainStep] at moved
    rw [RunSemaphoreAction.isWake, if_neg nofun, work, work]
    cases here : s.main with
    | acquire n =>
      simp only [here] at moved
      obtain ⟨sem, began, rfl⟩ := Option.map_eq_some_iff.mp moved
      have paid : sem.work + 1 ≤ s.sem.work + 6 := SemaphoreState.work_step _ _ _ began
      rw [mainWork_acquire]
      change mainWork (.acquiring n) + thWork s.th + sem.work + 1 ≤ _
      omega
    | acquiring n =>
      simp only [here] at moved
      split_ifs at moved
      cases moved
      have less := mainWork_behind n
      change mainWork (.behind n) + thWork s.th + s.sem.work + 1 ≤ _
      omega
    | create =>
      simp only [here] at moved
      cases moved
      change 16 + 8 + s.sem.work + 1 ≤ 25 + _ + _ + 0
      omega
    | print =>
      simp only [here] at moved
      cases moved
      change 8 + thWork s.th + s.sem.work + 1 ≤ 9 + _ + _ + 0
      omega
    | join =>
      simp only [here] at moved
      split_ifs at moved
      cases moved
      change 0 + thWork s.th + s.sem.work + 1 ≤ 1 + _ + _ + 0
      omega
    | finished =>
      simp only [here] at moved
      cases moved
  | th =>
    simp only [RunSemaphoreState.step, RunSemaphoreState.thStep] at moved
    rw [RunSemaphoreAction.isWake, if_neg nofun, work, work]
    cases here : s.th with
    | notCreated | returned =>
      simp only [here] at moved
      cases moved
    | release =>
      simp only [here] at moved
      obtain ⟨sem, began, rfl⟩ := Option.map_eq_some_iff.mp moved
      have paid : sem.work + 1 ≤ s.sem.work + 7 := SemaphoreState.work_step _ _ _ began
      change mainWork s.main + 1 + sem.work + 1 ≤ _ + 8 + _ + 0
      omega
    | releasing =>
      simp only [here] at moved
      split_ifs at moved
      cases moved
      change mainWork s.main + 0 + s.sem.work + 1 ≤ _ + 1 + _ + 0
      omega
  | call a =>
    cases a with
    | acquire t | release t => cases moved
    | step t | notifyOne t choice =>
      obtain ⟨sem, moves, rfl⟩ := Option.map_eq_some_iff.mp moved
      have paid : sem.work + 1 ≤ s.sem.work + 0 := SemaphoreState.work_step _ _ _ moves
      change mainWork s.main + thWork s.th + sem.work + 1 ≤ mainWork s.main + thWork s.th + s.sem.work + 0
      omega
    | wake t =>
      obtain ⟨sem, moves, rfl⟩ := Option.map_eq_some_iff.mp moved
      have paid : sem.work + 1 ≤ s.sem.work + 3 := SemaphoreState.work_step _ _ _ moves
      rw [RunSemaphoreAction.isWake, if_pos rfl, work, work]
      change mainWork s.main + thWork s.th + sem.work + 1 ≤ _
      omega

end RunSemaphoreState

open RunSemaphoreState

/-- However the threads interleave and wake up for no reason, there are at most 39 steps and three more for each
such wake-up. `ok` is printed once, behind the release, and the main thread never leaves its fourth call of
`acquire`: where nothing is left to do it sleeps there, `ok` has been printed, and the other thread has
returned. -/
theorem run_semaphore_sleeps {s s' : RunSemaphoreState} {schedule : List RunSemaphoreAction}
    (started : runSemaphore.start s) (ran : runSemaphore.run s schedule = some s') :
    schedule.length ≤ 39 + 3 * schedule.countP RunSemaphoreAction.isWake ∧
      (s'.printed = [] ∨ s'.printed = ["ok"] ∧ s'.sem.releases = 1) ∧ s'.main ≠ .join ∧ s'.main ≠ .finished ∧
      ((∀ a, a.isWake = false → s'.step a = none) →
        s'.printed = ["ok"] ∧ s'.th = .returned ∧ s'.main = .acquiring 3 ∧ .main ∈ s'.sem.monitor.asleep) := by
  have reachable : runSemaphore.Reachable (fun _ _ => True) s' := .run (.start started) (fun _ _ _ => trivial) ran
  have placed := placed_of_reachable reachable
  obtain ⟨printed, no_join, no_end⟩ := placed.blocked
  refine ⟨?_, printed, no_join, no_end, placed.asleep⟩
  have bound := Machine.length_le_of_countP work _ _ work_step ran
  have total : s.work = 39 := by
    cases started
    rfl
  omega

/-- A call of `acquire` of the main thread that finds a unit, with its return. -/
def acquired : List RunSemaphoreAction :=
  [.main, .call (.step .main), .call (.step .main), .call (.step .main), .call (.step .main), .main]

/-- The main thread sleeps in its third call until the other thread wakes it. -/
def sleepsTwice : List RunSemaphoreAction :=
  acquired ++ acquired ++
    [.main, .main, .call (.step .main), .call (.step .main), .th, .call (.step .th), .call (.step .th),
      .call (.notifyOne .th (some .main)), .call (.step .th), .th, .call (.step .main), .call (.step .main),
      .call (.step .main), .call (.step .main), .main, .main, .main, .call (.step .main), .call (.step .main)]

theorem run_semaphore_sleeps_twice :
    ∃ s', runSemaphore.run ⟨⟨fun _ => .outside, 2, .init, 0, 0⟩, .acquire 0, .notCreated, []⟩ sleepsTwice = some s' ∧
      s'.printed = ["ok"] ∧ s'.th = .returned ∧ s'.main = .acquiring 3 := by
  obtain ⟨s', ran, quiescent⟩ : ∃ s', runSemaphore.run
      ⟨⟨fun _ => .outside, 2, .init, 0, 0⟩, .acquire 0, .notCreated, []⟩ sleepsTwice = some s' ∧
        ∀ a, a.isWake = false → s'.step a = none := by
    refine ⟨_, rfl, ?_⟩
    intro a own
    cases a with
    | main | th => rfl
    | call a =>
      cases a with
      | acquire t | release t => rfl
      | step t | notifyOne t choice => cases t <;> rfl
      | wake t => cases own
  obtain ⟨-, -, -, -, sleeps⟩ := run_semaphore_sleeps rfl ran
  obtain ⟨ok, returned, fourth, -⟩ := sleeps quiescent
  exact ⟨s', ran, ok, returned, fourth⟩

end Hseos.CppThread
