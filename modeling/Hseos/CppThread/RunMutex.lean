import Hseos.Lib.AddingThreads
import Hseos.Pthread.CountMain

/-! # Two threads that count under a mutex

The threads of `run_mutex` add one to a counter, 1024 times each; a guard takes the mutex for each of these
additions. The number of additions is a parameter.
-/

namespace Hseos.CppThread

open Pthread (Thread)

namespace RunMutex

/-- The counter, the owner of the mutex, and what was printed. -/
structure State where
  counter : ℕ
  m : Option Thread
  printed : List String

/-- Where a thread is in `worker`: at the head of its loop, before it has the guard, with it, between the load
and the store of the addition, and where the guard is destroyed. -/
inductive Pc where
  | loop (i : ℕ)
  | lock (i : ℕ)
  | load (i : ℕ)
  | store (i value : ℕ)
  | unlock (i : ℕ)
  | returned
deriving DecidableEq

/-- One step of `worker`. -/
def worker (n : ℕ) (t : Thread) (s : State) : Pc → Option (State × Pc)
  | .loop i => if i < n then some (s, .lock i) else some (s, .returned)
  | .lock i => if s.m = none then some ({ s with m := some t }, .load i) else none
  | .load i => some (s, .store i s.counter)
  | .store i value => some ({ s with counter := wordAdd 64 value 1 }, .unlock i)
  | .unlock i => some ({ s with m := none }, .loop (i + 1))
  | .returned => none

def Pc.isReturned : Pc → Bool
  | .returned => true
  | .loop _ | .lock _ | .load _ | .store _ _ | .unlock _ => false

def State.print (s : State) : State := { s with printed := s.printed ++ [toString s.counter ++ "\n"] }

/-- `run_mutex`. -/
def program (n : ℕ) : ForkJoin Thread State Pc Unit where
  script := [.create .th1, .create .th2, .join .th1, .join .th2, .run State.print]
  wellFormed := by simp [MainOp.WellFormed]
  initial := ⟨0, none, []⟩
  entry := .loop 0
  work t _ s := worker n t s
  returned := Pc.isReturned
  work_of_returned _ _ _ l returned := by
    cases l with
    | returned => rfl
    | loop | lock | load | store | unlock => cases returned

variable {n : ℕ} {t : Thread} {s s' : State} {pc pc' : Pc}

/-- The thread has the mutex. -/
def Pc.holds : Pc → Bool
  | .load _ | .store _ _ | .unlock _ => true
  | .loop _ | .lock _ | .returned => false

/-- The additions that a thread has not stored. -/
def Pc.adder (n : ℕ) : Pc → Adder
  | .loop i | .lock i | .load i => ⟨n - i, none⟩
  | .store i value => ⟨n - i, some value⟩
  | .unlock i => ⟨n - (i + 1), none⟩
  | .returned => ⟨0, none⟩

/-- A thread adds in its loop only. -/
def Pc.Inside (n : ℕ) : Pc → Prop
  | .loop i => i ≤ n
  | .lock i | .load i | .store i _ | .unlock i => i < n
  | .returned => True

/-- The steps that a thread has at most before it. -/
def Pc.left (n : ℕ) : Pc → ℕ
  | .loop i => 5 * (n - i) + 1
  | .lock i => 5 * (n - i)
  | .load i => 5 * (n - i) - 1
  | .store i _ => 5 * (n - i) - 2
  | .unlock i => 5 * (n - i) - 3
  | .returned => 0

theorem worker_turn (inside : pc.Inside n) (worked : worker n t s pc = some (s', pc')) :
    pc'.Inside n ∧ ForkJoin.LockTurn t s.m pc.holds s'.m pc'.holds ∧
      (pc.adder n ≠ pc'.adder n → pc.holds = true) ∧
      Adder.Turn (2 ^ 64) 1 s.counter (pc.adder n) s'.counter (pc'.adder n) := by
  cases pc with
  | loop i =>
    simp only [worker] at worked
    split_ifs at worked with more
    · cases worked
      exact ⟨more, .keep _ _, fun changes => absurd rfl changes, .quiet _ _⟩
    · cases worked
      have none : n - i = 0 := Nat.sub_eq_zero_of_le (Nat.le_of_not_lt more)
      simp only [Pc.adder, none]
      exact ⟨trivial, .keep _ _, fun changes => absurd rfl changes, .quiet _ _⟩
  | lock i =>
    simp only [worker] at worked
    split_ifs at worked with free
    cases worked
    rw [free]
    exact ⟨inside, .take, fun changes => absurd rfl changes, .quiet _ _⟩
  | load i =>
    cases worked
    obtain ⟨l, left⟩ := Nat.exists_eq_add_one_of_ne_zero (Nat.sub_pos_of_lt inside).ne'
    refine ⟨inside, .keep _ _, fun _ => rfl, ?_⟩
    simp only [Pc.adder, left]
    exact .load _ l
  | store i value =>
    cases worked
    obtain ⟨l, left⟩ := Nat.exists_eq_add_one_of_ne_zero (Nat.sub_pos_of_lt inside).ne'
    have less : n - (i + 1) = l := by omega
    refine ⟨inside, .keep _ _, fun _ => rfl, ?_⟩
    simp only [Pc.adder, left, less]
    exact .store _ value l
  | unlock i =>
    cases worked
    exact ⟨inside, .release _, fun _ => rfl, .quiet _ _⟩
  | returned => cases worked

/-- The threads print nothing. -/
theorem worker_printed (worked : worker n t s pc = some (s', pc')) : s'.printed = s.printed := by
  cases pc with
  | loop i | lock i =>
    simp only [worker] at worked
    split_ifs at worked <;> cases worked <;> rfl
  | load i | store i value | unlock i =>
    cases worked
    rfl
  | returned => cases worked

/-- A thread goes on when the mutex is free or its own. -/
theorem worker_goes (t : Thread) (s : State) (inside : pc.Inside n) (running : pc.isReturned = false)
    (open_ : s.m = none ∨ pc.holds = true) :
    ∃ choice s' pc', (program n).work t choice s pc = some (s', pc') ∧ pc'.left n < pc.left n := by
  cases pc with
  | loop i =>
    by_cases more : i < n
    · exact ⟨(), _, .lock i, if_pos more, Nat.lt_succ_self _⟩
    · exact ⟨(), _, .returned, if_neg more, Nat.succ_pos _⟩
  | lock i =>
    obtain free | has := open_
    · refine ⟨(), _, .load i, if_pos free, ?_⟩
      simp only [Pc.left, Pc.Inside] at inside ⊢
      omega
    · cases has
  | load i =>
    refine ⟨(), _, .store i s.counter, rfl, ?_⟩
    simp only [Pc.left, Pc.Inside] at inside ⊢
    omega
  | store i value =>
    refine ⟨(), _, .unlock i, rfl, ?_⟩
    simp only [Pc.left, Pc.Inside] at inside ⊢
    omega
  | unlock i =>
    refine ⟨(), _, .loop (i + 1), rfl, ?_⟩
    simp only [Pc.left, Pc.Inside] at inside ⊢
    omega
  | returned => cases running

/-- In every run at most one thread has the mutex, and no addition is lost. -/
theorem locked_of_reachable {s : ForkJoin.State Thread State Pc}
    (reachable : (program n).machine.Reachable (fun _ _ => True) s) :
    (∀ t, ((program n).place s t).Inside n) ∧
      (∀ t, s.shared.m = some t ↔ ((program n).place s t).holds = true) ∧
      ∃ a : Additions Thread, a.Exact n ∧
        Additions.Counts (2 ^ 64) 1 s.shared.counter (fun t => ((program n).place s t).adder n) a := by
  refine ForkJoin.exact_of_locked State.counter (Pc.adder n) State.m Pc.holds (Pc.Inside n) rfl rfl rfl rfl
    (Nat.zero_le n) ?_ ?_ ?_ reachable
  · intro pc loaded
    cases pc with
    | loop | lock | load | unlock | returned => exact absurd rfl loaded
    | store => rfl
  · intro shared pc t _ shared' pc' inside worked
    exact worker_turn inside worked
  · intro f member shared
    simp only [program, List.mem_cons, List.not_mem_nil, or_false, MainOp.run.injEq, reduceCtorEq,
      false_or] at member
    rw [member]
    exact ⟨rfl, rfl⟩

/-- When both threads have returned, the counter is the number of all additions. -/
theorem counted_of_ended {s : ForkJoin.State Thread State Pc}
    (reachable : (program n).machine.Reachable (fun _ _ => True) s) (ended : s.main = []) :
    s.shared.printed = [toString (2 * n % 2 ^ 64) ++ "\n"] := by
  let middle : List (MainOp Thread State) := [.create .th1, .create .th2, .join .th1, .join .th2]
  obtain ⟨s₀, reachable₀, main, result, returned⟩ :=
    ForkJoin.last_run middle rfl (by rintro (_ | _) <;> simp [middle]) reachable ended
  have quiet : ∀ f, .run f ∉ middle := by simp [middle]
  have printed := ForkJoin.rest_of_unfinished State.printed middle quiet
    (fun _ _ _ _ _ _ worked => worker_printed worked) rfl reachable₀ (by rw [main]; exact List.cons_ne_nil _ _)
  obtain ⟨-, -, a, exact_, counts⟩ := locked_of_reachable reachable₀
  have cell := counts.of_done exact_ ?_
  · rw [Nat.one_mul, show Fintype.card Thread = 2 from rfl] at cell
    rw [result, State.print, printed, cell]
    rfl
  · intro t
    have back := returned t
    generalize (program n).place s₀ t = pc at back
    cases pc with
    | returned => rfl
    | loop | lock | load | store | unlock => cases back

end RunMutex

/-- The threads of `run_mutex` are never at their counter at the same time, the number that is printed is that of
all additions, and whatever the threads have done, the function can always come to its end. -/
theorem run_mutex_counts_all {n : ℕ} {s : ForkJoin.State Thread RunMutex.State RunMutex.Pc}
    (reachable : (RunMutex.program n).machine.Reachable (fun _ _ => True) s) :
    (∀ t u, ((RunMutex.program n).place s t).holds = true → ((RunMutex.program n).place s u).holds = true →
        t = u) ∧
      (s.main = [] → s.shared.printed = [toString (2 * n % 2 ^ 64) ++ "\n"]) ∧
      ∃ schedule s', (RunMutex.program n).machine.run s schedule = some s' ∧ s'.main = [] := by
  have owner_iff := (RunMutex.locked_of_reachable reachable).2.1
  refine ⟨?_, RunMutex.counted_of_ended reachable, ?_⟩
  · intro t u first second
    exact Option.some_inj.mp (((owner_iff t).mpr first).symm.trans ((owner_iff u).mpr second))
  · apply ForkJoin.exists_ended_of_locked RunMutex.State.m RunMutex.Pc.holds (RunMutex.Pc.Inside n)
      (RunMutex.Pc.left n) rfl ?_ ?_ ?_ reachable
    · intro pc back
      cases pc with
      | returned => rfl
      | loop | lock | load | store | unlock => cases back
    · intro t s pc inside running open_
      exact RunMutex.worker_goes t s inside running open_
    · intro s reachable
      have locked := RunMutex.locked_of_reachable reachable
      exact ⟨locked.1, locked.2.1⟩

/-- The second thread waits for the mutex of the first one. -/
def oneAfterTheOther : List (ForkJoin.Action Thread Unit) :=
  [.main, .main, .work .th2 (), .work .th1 (), .work .th1 (), .work .th1 (), .work .th1 (), .work .th1 (),
    .work .th2 (), .work .th2 (), .work .th2 (), .work .th2 (), .work .th2 (), .work .th1 (), .main, .main, .main]

theorem run_mutex_counts_both :
    ∃ s, (RunMutex.program 1).machine.Reachable (fun _ _ => True) s ∧ s.main = [] ∧ s.shared.printed = ["2\n"] := by
  obtain ⟨s, ran, ended⟩ : ∃ s, (RunMutex.program 1).machine.run
      ⟨⟨0, none, []⟩, fun _ => none, (RunMutex.program 1).script⟩ oneAfterTheOther = some s ∧ s.main = [] :=
    ⟨_, rfl, rfl⟩
  have reachable : (RunMutex.program 1).machine.Reachable (fun _ _ => True) s :=
    .run (.start rfl) (fun _ _ _ => trivial) ran
  exact ⟨s, reachable, ended, (run_mutex_counts_all reachable).2.1 ended⟩

end Hseos.CppThread
