import Hseos.Lib.Family
import Hseos.Lib.Machine

/-! # The spin lock

The lock is an atomic `int` that is zero while the lock is free. `try_lock` exchanges a zero for a one, and may
fail for no reason; `lock` tries until it succeeds; `release` stores a zero, whoever calls it.

Any threads call these functions any number of times, and each access to the `int` is a step. A thread holds
the lock from the exchange that gave it the lock to the store with which it releases it.
-/

namespace Hseos.CppThread

/-- `compare_exchange_weak(target, 1)` with a `target` of zero: its result, and the `int` behind it. -/
def compareExchangeWeak (spurious : Bool) (locked : ℕ) : Bool × ℕ :=
  if locked = 0 ∧ spurious = false then (true, 1) else (false, locked)

/-- Where a thread is in a function of the lock. -/
inductive SpinPc where
  | outside
  | lock
  | tryLock
  | release
deriving DecidableEq

/-- The lock, and the threads with those that hold it. -/
structure SpinState (ι : Type*) where
  locked : ℕ
  pc : ι → SpinPc
  mine : ι → Bool

/-- A thread calls a function, exchanges the `int`, maybe in vain, or stores its zero. -/
inductive SpinAction (ι : Type*) where
  | lock (t : ι)
  | tryLock (t : ι)
  | release (t : ι)
  | exchange (t : ι) (spurious : Bool)
  | store (t : ι)

variable {ι : Type*} [DecidableEq ι]

namespace SpinState

def setPc (t : ι) (pc : SpinPc) (s : SpinState ι) : SpinState ι := { s with pc := Function.update s.pc t pc }

/-- A thread returns from a function and holds the lock behind it, or does not. -/
def leave (t : ι) (locked : ℕ) (mine : Bool) (s : SpinState ι) : SpinState ι :=
  ⟨locked, Function.update s.pc t .outside, Function.update s.mine t mine⟩

def step (s : SpinState ι) : SpinAction ι → Option (SpinState ι)
  | .lock t => if s.pc t = .outside then some (s.setPc t .lock) else none
  | .tryLock t => if s.pc t = .outside then some (s.setPc t .tryLock) else none
  | .release t => if s.pc t = .outside then some (s.setPc t .release) else none
  | .exchange t spurious =>
      match s.pc t, compareExchangeWeak spurious s.locked with
      | .lock, (true, locked) | .tryLock, (true, locked) => some (s.leave t locked true)
      | .lock, (false, locked) => some { s with locked := locked }
      | .tryLock, (false, locked) => some (s.leave t locked (s.mine t))
      | .outside, _ | .release, _ => none
  | .store t => if s.pc t = .release then some (s.leave t 0 false) else none

end SpinState

/-- All runs of threads that use a lock. -/
def spinLock (ι : Type*) [DecidableEq ι] : Machine (SpinState ι) (SpinAction ι) where
  start s := s = ⟨0, fun _ => .outside, fun _ => false⟩
  step := SpinState.step

/-- Only a thread that holds the lock calls `release`. -/
def ReleasesOwn (s : SpinState ι) (a : SpinAction ι) : Prop := ∀ t, a = .release t → s.mine t = true

namespace SpinState

variable {s s' : SpinState ι} {a : SpinAction ι} {t : ι}

/-- What a step does: a thread calls a function, takes the lock when it is free, fails to, or releases it. -/
theorem step_cases (moved : s.step a = some s') :
    (∃ t pc, s.pc t = .outside ∧ (pc = .release → a = .release t) ∧ s' = s.setPc t pc) ∨
    (∃ t, s.locked = 0 ∧ s' = s.leave t 1 true) ∨
    (s' = s ∨ ∃ t, s' = s.leave t s.locked (s.mine t)) ∨
    ∃ t, s.pc t = .release ∧ s' = s.leave t 0 false := by
  cases a with
  | lock t | tryLock t | release t =>
    simp only [step] at moved
    split_ifs at moved with outside
    cases moved
    exact .inl ⟨t, _, outside, by simp, rfl⟩
  | exchange t spurious =>
    simp only [step, compareExchangeWeak] at moved
    split_ifs at moved with free
    all_goals
      cases here : s.pc t
      all_goals
        simp only [here] at moved
        cases moved
    · exact .inr (.inl ⟨t, free.1, rfl⟩)
    · exact .inr (.inl ⟨t, free.1, rfl⟩)
    · exact .inr (.inr (.inl (.inl rfl)))
    · exact .inr (.inr (.inl (.inr ⟨t, rfl⟩)))
  | store t =>
    simp only [step] at moved
    split_ifs at moved with here
    cases moved
    exact .inr (.inr (.inr ⟨t, here, rfl⟩))

/-- The `int` is one while one thread holds the lock, and zero while none does; who releases it holds it. -/
structure Exclusive (s : SpinState ι) : Prop where
  locked : s.locked = 0 ∧ (∀ t, s.mine t = false) ∨ s.locked = 1 ∧ ∃ t, ∀ u, s.mine u = true ↔ u = t
  releases : ∀ t, s.pc t = .release → s.mine t = true

/-- A thread that leaves a function as it has come to it changes nobody's lock. -/
theorem Exclusive.leave_same (exclusive : s.Exclusive) (t : ι) : (s.leave t s.locked (s.mine t)).Exclusive := by
  refine ⟨?_, ?_⟩
  · simp only [leave, Function.update_eq_self]
    exact exclusive.locked
  · intro u
    simp only [leave, Function.update_eq_self, Function.update_apply]
    split_ifs
    · nofun
    · exact exclusive.releases u

theorem Exclusive.step (exclusive : s.Exclusive) (own : ReleasesOwn s a) (moved : s.step a = some s') :
    s'.Exclusive := by
  obtain ⟨t, pc, -, releases, rfl⟩ | ⟨t, free, rfl⟩ | (rfl | ⟨t, rfl⟩) | ⟨t, here, rfl⟩ := step_cases moved
  · refine ⟨exclusive.locked, ?_⟩
    intro u
    simp only [setPc, Function.update_apply]
    split_ifs with same
    · intro pc_release
      rw [same]
      exact own t (releases pc_release)
    · exact exclusive.releases u
  · obtain ⟨-, none⟩ | ⟨taken, -⟩ := exclusive.locked
    · refine ⟨.inr ⟨rfl, t, ?_⟩, ?_⟩
      · intro u
        simp only [leave, Function.update_apply]
        split_ifs with same
        · exact iff_of_true rfl same
        · rw [none u]
          exact iff_of_false nofun same
      · intro u
        simp only [leave, Function.update_apply]
        split_ifs
        · exact fun _ => rfl
        · exact exclusive.releases u
    · omega
  · exact exclusive
  · exact exclusive.leave_same t
  · have mine := exclusive.releases t here
    obtain ⟨-, none⟩ | ⟨-, owner, only⟩ := exclusive.locked
    · cases (none t).symm.trans mine
    · have is_owner := (only t).mp mine
      refine ⟨.inl ⟨rfl, ?_⟩, ?_⟩
      · intro u
        simp only [leave, Function.update_apply]
        split_ifs with same
        · rfl
        · exact Bool.eq_false_of_not_eq_true fun other => same (((only u).mp other).trans is_owner.symm)
      · intro u
        simp only [leave, Function.update_apply]
        split_ifs with same
        · nofun
        · exact exclusive.releases u

theorem exclusive_of_reachable (reachable : (spinLock ι).Reachable ReleasesOwn s) : s.Exclusive := by
  apply reachable.invariant
  · rintro s rfl
    exact ⟨.inl ⟨rfl, fun _ => rfl⟩, nofun⟩
  · intro s s' a own exclusive moved
    exact exclusive.step own moved

end SpinState

/-- Where only threads that hold the lock release it, at most one holds it, the `int` is zero while none does,
and an exchange succeeds then, unless for no reason, and at no other time. -/
theorem spin_lock_exclusive {s : SpinState ι} (reachable : (spinLock ι).Reachable ReleasesOwn s) :
    (∀ t u, s.mine t = true → s.mine u = true → t = u) ∧ (s.locked = 0 ↔ ∀ t, s.mine t = false) ∧
      ∀ t, s.pc t = .lock ∨ s.pc t = .tryLock → ∀ spurious, ∃ s', s.step (.exchange t spurious) = some s' ∧
        (s' = s.leave t 1 true ∧ (∀ u, s.mine u = false) ∧ spurious = false ∨
          s'.mine = s.mine ∧ ((∃ u, s.mine u = true) ∨ spurious = true)) := by
  have exclusive := SpinState.exclusive_of_reachable reachable
  have free_iff : s.locked = 0 ↔ ∀ t, s.mine t = false := by
    obtain ⟨free, none⟩ | ⟨taken, owner, only⟩ := exclusive.locked
    · exact iff_of_true free none
    · refine iff_of_false (by omega) fun none => ?_
      cases (none owner).symm.trans ((only owner).mpr rfl)
  refine ⟨?_, free_iff, ?_⟩
  · intro t u first second
    obtain ⟨-, none⟩ | ⟨-, owner, only⟩ := exclusive.locked
    · cases (none t).symm.trans first
    · exact ((only t).mp first).trans ((only u).mp second).symm
  · intro t calls spurious
    by_cases succeeds : s.locked = 0 ∧ spurious = false
    · refine ⟨s.leave t 1 true, ?_, .inl ⟨rfl, free_iff.mp succeeds.1, succeeds.2⟩⟩
      rcases calls with here | here <;> simp [SpinState.step, compareExchangeWeak, here, succeeds]
    · have vain : (∃ u, s.mine u = true) ∨ spurious = true := by
        rw [not_and_or, free_iff, not_forall] at succeeds
        simpa only [Bool.not_eq_false] using succeeds
      rcases calls with here | here
      · exact ⟨s, by simp [SpinState.step, compareExchangeWeak, here, succeeds], .inr ⟨rfl, vain⟩⟩
      · refine ⟨s.leave t s.locked (s.mine t), ?_, .inr ⟨Function.update_eq_self t s.mine, vain⟩⟩
        simp [SpinState.step, compareExchangeWeak, here, succeeds]

/-- One thread has the lock, and the other one tries to get it. -/
theorem spin_lock_exclusive_tried :
    ∃ s, (spinLock Bool).Reachable ReleasesOwn s ∧ s.mine true = true ∧ s.pc false = .tryLock ∧
      ∃ s', s.step (.exchange false false) = some s' ∧ s'.mine = s.mine := by
  let schedule : List (SpinAction Bool) := [.lock true, .tryLock false, .exchange true true, .exchange true false]
  obtain ⟨s, ran, mine, tries⟩ : ∃ s, (spinLock Bool).run ⟨0, fun _ => .outside, fun _ => false⟩ schedule = some s ∧
      s.mine true = true ∧ s.pc false = .tryLock :=
    ⟨_, rfl, rfl, rfl⟩
  have reachable : (spinLock Bool).Reachable ReleasesOwn s := by
    refine .run (.start rfl) ?_ ran
    rintro s a member t rfl
    simp [schedule] at member
  obtain ⟨s', moved, ⟨-, none, -⟩ | ⟨same, -⟩⟩ := (spin_lock_exclusive reachable).2.2 false (.inr tries) false
  · cases (none true).symm.trans mine
  · exact ⟨s, reachable, mine, tries, s', moved, same⟩

/-- A thread that releases the lock of another one can take it as well. -/
theorem shared_of_foreign_release {s : SpinState ι} {t u : ι} (mine : s.mine u = true) (other : t ≠ u)
    (outside : s.pc t = .outside) :
    ∃ s', (spinLock ι).run s [.release t, .store t, .lock t, .exchange t false] = some s' ∧
      s'.mine u = true ∧ s'.mine t = true := by
  let released := (s.setPc t .release).leave t 0 false
  have first : s.step (.release t) = some (s.setPc t .release) := if_pos outside
  have second : (s.setPc t .release).step (.store t) = some released := if_pos (Function.update_self ..)
  have third : released.step (.lock t) = some (released.setPc t .lock) := if_pos (Function.update_self ..)
  have fourth : (released.setPc t .lock).step (.exchange t false) = some ((released.setPc t .lock).leave t 1 true) := by
    simp [SpinState.step, compareExchangeWeak, SpinState.setPc, released, SpinState.leave]
  refine ⟨(released.setPc t .lock).leave t 1 true, ?_, ?_, Function.update_self ..⟩
  · simp only [Machine.run, spinLock, first, second, third, fourth, Option.bind_some]
  · simp [SpinState.leave, SpinState.setPc, released, other.symm, mine]

/-! ## The threads of `run_atomic` -/

/-- Where the main thread is in `run_atomic`. -/
inductive RunAtomicPc where
  | lock
  | tryFirst
  | trySecond
  | release
  | tryThird
  | tryFourth
  | create
  | lockAgain
  | join
  | finished
deriving DecidableEq

/-- Where the thread is that `run_atomic` creates; it releases the lock. -/
inductive ReleaserPc where
  | notCreated
  | release
  | returned
deriving DecidableEq

structure RunAtomicState where
  locked : ℕ
  main : RunAtomicPc
  th : ReleaserPc
  printed : List Bool

inductive RunAtomicAction where
  | main (spurious : Bool)
  | th

namespace RunAtomicState

/-- `s.try_lock()`, printed, with what comes behind it. -/
def tryAndPrint (spurious : Bool) (next : RunAtomicPc) (s : RunAtomicState) : RunAtomicState :=
  let (result, locked) := compareExchangeWeak spurious s.locked
  { s with locked := locked, main := next, printed := s.printed ++ [result] }

/-- One exchange of `s.lock()`, with what comes behind the last one. -/
def lock (spurious : Bool) (next : RunAtomicPc) (s : RunAtomicState) : RunAtomicState :=
  let (result, locked) := compareExchangeWeak spurious s.locked
  if result then { s with locked := locked, main := next } else { s with locked := locked }

def mainStep (spurious : Bool) (s : RunAtomicState) : Option RunAtomicState :=
  match s.main with
  | .lock => some (s.lock spurious .tryFirst)
  | .tryFirst => some (s.tryAndPrint spurious .trySecond)
  | .trySecond => some (s.tryAndPrint spurious .release)
  | .release => some { s with locked := 0, main := .tryThird }
  | .tryThird => some (s.tryAndPrint spurious .tryFourth)
  | .tryFourth => some (s.tryAndPrint spurious .create)
  | .create => some { s with main := .lockAgain, th := .release }
  | .lockAgain => some (s.lock spurious .join)
  | .join => if s.th = .returned then some { s with main := .finished } else none
  | .finished => none

def step (s : RunAtomicState) : RunAtomicAction → Option RunAtomicState
  | .main spurious => s.mainStep spurious
  | .th => if s.th = .release then some { s with locked := 0, th := .returned } else none

end RunAtomicState

/-- All runs of `run_atomic`. -/
def runAtomic : Machine RunAtomicState RunAtomicAction where
  start s := s = ⟨0, .lock, .notCreated, []⟩
  step := RunAtomicState.step

namespace RunAtomicState

/-- What is printed and stored at each point; the last two exchanges may both fail for no reason, but do not both
succeed. -/
inductive Phase : RunAtomicState → Prop
  | lock : Phase ⟨0, .lock, .notCreated, []⟩
  | tryFirst : Phase ⟨1, .tryFirst, .notCreated, []⟩
  | trySecond : Phase ⟨1, .trySecond, .notCreated, [false]⟩
  | release : Phase ⟨1, .release, .notCreated, [false, false]⟩
  | tryThird : Phase ⟨0, .tryThird, .notCreated, [false, false]⟩
  | tryFourth (a : Bool) : Phase ⟨if a then 1 else 0, .tryFourth, .notCreated, [false, false, a]⟩
  | create (a b : Bool) (once : ¬(a = true ∧ b = true)) :
      Phase ⟨if a || b then 1 else 0, .create, .notCreated, [false, false, a, b]⟩
  | both (a b : Bool) (once : ¬(a = true ∧ b = true)) :
      Phase ⟨if a || b then 1 else 0, .lockAgain, .release, [false, false, a, b]⟩
  | released (a b : Bool) (once : ¬(a = true ∧ b = true)) :
      Phase ⟨0, .lockAgain, .returned, [false, false, a, b]⟩
  | overtaken : Phase ⟨1, .join, .release, [false, false, false, false]⟩
  | locked (a b : Bool) (once : ¬(a = true ∧ b = true)) : Phase ⟨1, .join, .returned, [false, false, a, b]⟩
  | unlocked : Phase ⟨0, .join, .returned, [false, false, false, false]⟩
  | ended (a b : Bool) (once : ¬(a = true ∧ b = true)) : Phase ⟨1, .finished, .returned, [false, false, a, b]⟩
  | endedUnlocked : Phase ⟨0, .finished, .returned, [false, false, false, false]⟩

theorem Phase.step {s s' : RunAtomicState} {action : RunAtomicAction} (phase : Phase s)
    (moved : s.step action = some s') : Phase s' := by
  cases action with
  | main spurious =>
    cases phase with
    | lock =>
      cases spurious <;> cases moved
      · exact .tryFirst
      · exact .lock
    | tryFirst => cases spurious <;> cases moved <;> exact .trySecond
    | trySecond => cases spurious <;> cases moved <;> exact .release
    | release =>
      cases moved
      exact .tryThird
    | tryThird =>
      cases spurious <;> cases moved
      · exact .tryFourth true
      · exact .tryFourth false
    | tryFourth a =>
      cases a <;> cases spurious <;> cases moved
      · exact .create false true (by decide)
      · exact .create false false (by decide)
      · exact .create true false (by decide)
      · exact .create true false (by decide)
    | create a b once =>
      cases moved
      exact .both a b once
    | both a b once =>
      cases a <;> cases b <;> cases spurious <;> cases moved
      · exact .overtaken
      all_goals exact .both _ _ once
    | released a b once =>
      cases spurious <;> cases moved
      · exact .locked a b once
      · exact .released a b once
    | overtaken => cases moved
    | locked a b once =>
      cases moved
      exact .ended a b once
    | unlocked =>
      cases moved
      exact .endedUnlocked
    | ended | endedUnlocked => cases moved
  | th =>
    cases phase with
    | both a b once =>
      cases moved
      exact .released a b once
    | overtaken =>
      cases moved
      exact .unlocked
    | lock | tryFirst | trySecond | release | tryThird | tryFourth | create | released | locked | unlocked | ended
      | endedUnlocked => cases moved

theorem phase_of_reachable {s : RunAtomicState} (reachable : runAtomic.Reachable (fun _ _ => True) s) : Phase s := by
  apply reachable.invariant
  · rintro s rfl
    exact .lock
  · intro s s' a _ phase moved
    exact phase.step moved

/-- How far the main thread and the one it creates still are from their ends. -/
def left (s : RunAtomicState) : ℕ :=
  (match s.main with
    | .lock => 11
    | .tryFirst => 10
    | .trySecond => 9
    | .release => 8
    | .tryThird => 7
    | .tryFourth => 6
    | .create => 5
    | .lockAgain => 3
    | .join => 2
    | .finished => 0) +
  match s.th with
    | .release => 1
    | .notCreated | .returned => 0

/-- Some thread comes closer to its end, by an exchange that does not fail for no reason or by the store of the
other thread. -/
theorem Phase.progress {s : RunAtomicState} (phase : Phase s) (unfinished : s.main ≠ .finished) :
    ∃ action s', s.step action = some s' ∧ s'.left < s.left := by
  cases phase with
  | both a b once | overtaken => exact ⟨.th, _, rfl, by simp [left]⟩
  | lock | tryFirst | trySecond | release | tryThird | tryFourth | create | released | locked | unlocked =>
    exact ⟨.main false, _, rfl, by simp [left, RunAtomicState.lock, tryAndPrint, compareExchangeWeak]⟩
  | ended | endedUnlocked => exact absurd rfl unfinished

theorem exists_finished {s : RunAtomicState} (reachable : runAtomic.Reachable (fun _ _ => True) s) :
    ∃ schedule s', runAtomic.run s schedule = some s' ∧ runAtomic.Reachable (fun _ _ => True) s' ∧
      s'.main = .finished := by
  apply Machine.Reachable.exists_run left _ reachable
  intro s reachable unfinished
  obtain ⟨a, s', moved, less⟩ := (phase_of_reachable reachable).progress unfinished
  exact ⟨a, s', trivial, moved, less⟩

end RunAtomicState

/-- However often an exchange fails for no reason, `run_atomic` prints that `try_lock` fails twice while the
lock is taken, and succeeds at most once behind its release. The main thread ends with the lock taken,
unless both tries failed and the other thread has released the lock that it took then. It can always come to
its end. -/
theorem run_atomic_prints {s : RunAtomicState} (reachable : runAtomic.Reachable (fun _ _ => True) s) :
    (∃ a b, ¬(a = true ∧ b = true) ∧ s.printed <+: [false, false, a, b] ∧
      (s.main = .finished → s.printed = [false, false, a, b] ∧
        (s.locked = 1 ∨ s.locked = 0 ∧ a = false ∧ b = false))) ∧
      ∃ schedule s', runAtomic.run s schedule = some s' ∧ s'.main = .finished := by
  constructor
  · cases RunAtomicState.phase_of_reachable reachable with
    | lock | tryFirst => exact ⟨false, false, by decide, by simp, nofun⟩
    | trySecond | release | tryThird => exact ⟨false, false, by decide, by simp, nofun⟩
    | tryFourth a => exact ⟨a, false, by simp, by simp, nofun⟩
    | create a b once | both a b once | released a b once | locked a b once => exact ⟨a, b, once, by simp, nofun⟩
    | overtaken | unlocked => exact ⟨false, false, by decide, List.prefix_rfl, nofun⟩
    | ended a b once => exact ⟨a, b, once, List.prefix_rfl, fun _ => ⟨rfl, .inl rfl⟩⟩
    | endedUnlocked => exact ⟨false, false, by decide, List.prefix_rfl, fun _ => ⟨rfl, .inr ⟨rfl, rfl, rfl⟩⟩⟩
  · obtain ⟨schedule, s', ran, -, finished⟩ := RunAtomicState.exists_finished reachable
    exact ⟨schedule, s', ran, finished⟩

/-- Both tries fail for no reason, and the lock that the main thread takes then is released by the other
thread. -/
def overtakenRun : List RunAtomicAction :=
  [.main true, .main false, .main false, .main false, .main false, .main true, .main true, .main false, .main false,
    .th, .main false]

theorem run_atomic_prints_overtaken :
    ∃ s, runAtomic.Reachable (fun _ _ => True) s ∧ s.main = .finished ∧ s.locked = 0 ∧
      s.printed = [false, false, false, false] := by
  obtain ⟨s, ran, finished, unlocked⟩ : ∃ s, runAtomic.run ⟨0, .lock, .notCreated, []⟩ overtakenRun = some s ∧
      s.main = .finished ∧ s.locked = 0 :=
    ⟨_, rfl, rfl, rfl⟩
  have reachable : runAtomic.Reachable (fun _ _ => True) s := .run (.start rfl) (fun _ _ _ => trivial) ran
  obtain ⟨a, b, -, -, ends⟩ := (run_atomic_prints reachable).1
  obtain ⟨printed, locked | ⟨-, rfl, rfl⟩⟩ := ends finished
  · omega
  · exact ⟨s, reachable, finished, unlocked, printed⟩

end Hseos.CppThread
