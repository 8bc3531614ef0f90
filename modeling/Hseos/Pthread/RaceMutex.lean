import Hseos.Lib.AddingThreads
import Hseos.Pthread.CountMain

/-! # Two threads that count under a spin lock

Both threads call `mutate` on one counter, ten million times each; a thread takes the spin lock before its
loop and releases it behind it. A thread that finds the lock taken tries again, which is no step. The number
of calls is a parameter. The mutex of `struct State` is not used.
-/

namespace Hseos.Pthread

namespace RaceMutex

/-- `struct State` with the owner of its spin lock, and what `main` has printed. -/
structure State where
  x : ℕ
  spinLock : Option Thread
  printed : List String

def State.print (text : String) (s : State) : State := { s with printed := s.printed ++ [text] }

/-- Where a thread is in `thread_func`, or in `mutate` with the value loaded. -/
inductive Pc where
  | lock
  | loop (i : ℕ)
  | store (i value : ℕ)
  | unlock
  | returned
deriving DecidableEq

/-- One step of `thread_func`. -/
def threadFunc (n : ℕ) (t : Thread) (s : State) : Pc → Option (State × Pc)
  | .lock => if s.spinLock = none then some ({ s with spinLock := some t }, .loop 0) else none
  | .loop i => if i < n then some (s, .store i s.x) else some (s, .unlock)
  | .store i value => some ({ s with x := wordAdd 64 value 1 }, .loop (i + 1))
  | .unlock => some ({ s with spinLock := none }, .returned)
  | .returned => none

def Pc.isReturned : Pc → Bool
  | .returned => true
  | .lock | .loop _ | .store _ _ | .unlock => false

/-- The program. -/
def program (n : ℕ) : ForkJoin Thread State Pc Unit where
  script := countMain (State.print "main\n") fun s => s.print (countLine s.x)
  wellFormed := countMain_wellFormed _ _
  initial := ⟨0, none, []⟩
  entry := .lock
  work t _ s := threadFunc n t s
  returned := Pc.isReturned
  work_of_returned _ _ _ l returned := by
    cases l with
    | returned => rfl
    | lock | loop | store | unlock => cases returned

variable {n : ℕ} {t : Thread} {s s' : State} {pc pc' : Pc}

/-- The thread has the spin lock. -/
def Pc.holds : Pc → Bool
  | .loop _ | .store _ _ | .unlock => true
  | .lock | .returned => false

/-- The calls of `mutate` that a thread has not finished. -/
def Pc.adder (n : ℕ) : Pc → Adder
  | .lock => ⟨n, none⟩
  | .loop i => ⟨n - i, none⟩
  | .store i value => ⟨n - i, some value⟩
  | .unlock | .returned => ⟨0, none⟩

/-- A thread calls `mutate` in its loop only. -/
def Pc.Inside (n : ℕ) : Pc → Prop
  | .loop i => i ≤ n
  | .store i _ => i < n
  | .lock | .unlock | .returned => True

/-- The steps that a thread has at most before it. -/
def Pc.left (n : ℕ) : Pc → ℕ
  | .lock => 2 * n + 3
  | .loop i => 2 * (n - i) + 2
  | .store i _ => 2 * (n - i) + 1
  | .unlock => 1
  | .returned => 0

theorem threadFunc_turn (inside : pc.Inside n) (worked : threadFunc n t s pc = some (s', pc')) :
    pc'.Inside n ∧ ForkJoin.LockTurn t s.spinLock pc.holds s'.spinLock pc'.holds ∧
      (pc.adder n ≠ pc'.adder n → pc.holds = true) ∧
      Adder.Turn (2 ^ 64) 1 s.x (pc.adder n) s'.x (pc'.adder n) := by
  cases pc with
  | lock =>
    simp only [threadFunc] at worked
    split_ifs at worked with free
    cases worked
    rw [free]
    exact ⟨Nat.zero_le n, .take, fun changes => absurd rfl changes, .quiet _ _⟩
  | loop i =>
    simp only [threadFunc] at worked
    split_ifs at worked with more
    · cases worked
      obtain ⟨l, left⟩ := Nat.exists_eq_add_one_of_ne_zero (Nat.sub_pos_of_lt more).ne'
      refine ⟨more, .keep _ _, fun _ => rfl, ?_⟩
      simp only [Pc.adder, left]
      exact .load _ l
    · cases worked
      have none : n - i = 0 := Nat.sub_eq_zero_of_le (Nat.le_of_not_lt more)
      refine ⟨trivial, .keep _ _, fun _ => rfl, ?_⟩
      simp only [Pc.adder, none]
      exact .quiet _ _
  | store i value =>
    cases worked
    obtain ⟨l, left⟩ := Nat.exists_eq_add_one_of_ne_zero (Nat.sub_pos_of_lt inside).ne'
    have less : n - (i + 1) = l := by omega
    refine ⟨inside, .keep _ _, fun _ => rfl, ?_⟩
    simp only [Pc.adder, left, less]
    exact .store _ value l
  | unlock =>
    cases worked
    exact ⟨trivial, .release _, fun _ => rfl, .quiet _ _⟩
  | returned => cases worked

/-- The threads print nothing. -/
theorem threadFunc_printed (worked : threadFunc n t s pc = some (s', pc')) : s'.printed = s.printed := by
  cases pc with
  | lock | loop i =>
    simp only [threadFunc] at worked
    split_ifs at worked <;> cases worked <;> rfl
  | store i value | unlock =>
    cases worked
    rfl
  | returned => cases worked

/-- A thread goes on when the lock is free or its own. -/
theorem threadFunc_goes (t : Thread) (s : State) (inside : pc.Inside n) (running : pc.isReturned = false)
    (open_ : s.spinLock = none ∨ pc.holds = true) :
    ∃ choice s' pc', (program n).work t choice s pc = some (s', pc') ∧ pc'.left n < pc.left n := by
  cases pc with
  | lock =>
    obtain free | has := open_
    · exact ⟨(), _, .loop 0, if_pos free, Nat.lt_succ_self _⟩
    · cases has
  | loop i =>
    by_cases more : i < n
    · exact ⟨(), _, .store i s.x, if_pos more, Nat.lt_succ_self _⟩
    · exact ⟨(), _, .unlock, if_neg more, by simp only [Pc.left]; omega⟩
  | store i value =>
    refine ⟨(), _, .loop (i + 1), rfl, ?_⟩
    simp only [Pc.left, Pc.Inside] at inside ⊢
    omega
  | unlock => exact ⟨(), _, .returned, rfl, Nat.zero_lt_one⟩
  | returned => cases running

/-- In every run at most one thread has the lock, and no call of `mutate` is lost. -/
theorem locked_of_reachable {s : ForkJoin.State Thread State Pc}
    (reachable : (program n).machine.Reachable (fun _ _ => True) s) :
    (∀ t, ((program n).place s t).Inside n) ∧
      (∀ t, s.shared.spinLock = some t ↔ ((program n).place s t).holds = true) ∧
      ∃ a : Additions Thread, a.Exact n ∧
        Additions.Counts (2 ^ 64) 1 s.shared.x (fun t => ((program n).place s t).adder n) a := by
  refine ForkJoin.exact_of_locked State.x (Pc.adder n) State.spinLock Pc.holds (Pc.Inside n) rfl rfl rfl rfl
    trivial ?_ ?_ ?_ reachable
  · intro pc loaded
    cases pc with
    | lock | loop | unlock | returned => exact absurd rfl loaded
    | store => rfl
  · intro shared pc t _ shared' pc' inside worked
    exact threadFunc_turn inside worked
  · intro f member shared
    simp only [program, countMain, List.mem_cons, List.not_mem_nil, or_false, MainOp.run.injEq,
      reduceCtorEq, false_or] at member
    rcases member with rfl | rfl <;> exact ⟨rfl, rfl⟩

/-- When both threads have returned, the counter is the number of all calls. -/
theorem counted_of_ended {s : ForkJoin.State Thread State Pc}
    (reachable : (program n).machine.Reachable (fun _ _ => True) s) (ended : s.main = []) :
    s.shared.printed = ["main\n", countLine (2 * n % 2 ^ 64)] := by
  obtain ⟨s₀, reachable₀, result, printed, returned⟩ :=
    countMain_ended State.printed (fun printed => printed ++ ["main\n"]) rfl (fun _ => rfl)
      (fun _ _ _ _ _ _ worked => threadFunc_printed worked) reachable ended
  obtain ⟨-, -, a, exact_, counts⟩ := locked_of_reachable reachable₀
  have cell := counts.of_done exact_ ?_
  · rw [Nat.one_mul, show Fintype.card Thread = 2 from rfl] at cell
    rw [result, State.print, printed, cell]
    rfl
  · intro t
    have back := returned t
    generalize (program n).place s₀ t = pc at back
    cases pc with
    | returned => rfl
    | lock | loop | store | unlock => cases back

end RaceMutex

/-- Two threads that count under the spin lock are never in their loops at the same time, `main` prints the
number of all calls, and whatever the threads have done, it can always come to its end. -/
theorem race_mutex_counts_all {n : ℕ} {s : ForkJoin.State Thread RaceMutex.State RaceMutex.Pc}
    (reachable : (RaceMutex.program n).machine.Reachable (fun _ _ => True) s) :
    (∀ t u, ((RaceMutex.program n).place s t).holds = true → ((RaceMutex.program n).place s u).holds = true →
        t = u) ∧
      (s.main = [] → s.shared.printed = ["main\n", countLine (2 * n % 2 ^ 64)]) ∧
      ∃ schedule s', (RaceMutex.program n).machine.run s schedule = some s' ∧ s'.main = [] := by
  have owner_iff := (RaceMutex.locked_of_reachable reachable).2.1
  refine ⟨?_, RaceMutex.counted_of_ended reachable, ?_⟩
  · intro t u first second
    exact Option.some_inj.mp (((owner_iff t).mpr first).symm.trans ((owner_iff u).mpr second))
  · apply ForkJoin.exists_ended_of_locked RaceMutex.State.spinLock RaceMutex.Pc.holds (RaceMutex.Pc.Inside n)
      (RaceMutex.Pc.left n) rfl ?_ ?_ ?_ reachable
    · intro pc back
      cases pc with
      | returned => rfl
      | lock | loop | store | unlock => cases back
    · intro t s pc inside running open_
      exact RaceMutex.threadFunc_goes t s inside running open_
    · intro s reachable
      have locked := RaceMutex.locked_of_reachable reachable
      exact ⟨locked.1, locked.2.1⟩

/-- One thread waits for the lock while the other one counts. -/
def oneAfterTheOther : List (ForkJoin.Action Thread Unit) :=
  [.main, .main, .main, .work .th2 (), .work .th2 (), .work .th2 (), .work .th2 (), .work .th2 (), .work .th1 (),
    .work .th1 (), .work .th1 (), .work .th1 (), .work .th1 (), .main, .main, .main]

theorem race_mutex_counts_both :
    ∃ s, (RaceMutex.program 1).machine.Reachable (fun _ _ => True) s ∧ s.main = [] ∧
      s.shared.printed = ["main\n", "main 2\n"] := by
  obtain ⟨s, ran, ended⟩ : ∃ s, (RaceMutex.program 1).machine.run
      ⟨⟨0, none, []⟩, fun _ => none, (RaceMutex.program 1).script⟩ oneAfterTheOther = some s ∧ s.main = [] :=
    ⟨_, rfl, rfl⟩
  have reachable : (RaceMutex.program 1).machine.Reachable (fun _ _ => True) s :=
    .run (.start rfl) (fun _ _ _ => trivial) ran
  exact ⟨s, reachable, ended, (race_mutex_counts_all reachable).2.1 ended⟩

end Hseos.Pthread
