import Hseos.Lib.AddingThreads
import Hseos.Pthread.CountMain

/-! # Two threads that count without a lock

`main` creates two threads that call `mutate` on one counter, a thousand million times each, and prints the
counter after it has joined both. The load and the store of an increment are steps of their own, and nothing
keeps the other thread from coming between them. The number of calls is a parameter.
-/

namespace Hseos.Pthread

namespace Race

/-- Where a thread is in `thread_func`: at the head of its loop, or in `mutate` with the value loaded. -/
inductive Pc where
  | loop (i : ℕ)
  | store (i value : ℕ)
  | returned
deriving DecidableEq

/-- One step of `thread_func`. -/
def threadFunc (n : ℕ) (s : Counter) : Pc → Option (Counter × Pc)
  | .loop i => if i < n then some (s, .store i s.x) else some (s, .returned)
  | .store i value => some ({ s with x := wordAdd 64 value 1 }, .loop (i + 1))
  | .returned => none

def Pc.isReturned : Pc → Bool
  | .returned => true
  | .loop _ | .store _ _ => false

/-- The program. -/
def program (n : ℕ) : ForkJoin Thread Counter Pc Unit where
  script := countMain (Counter.print "main\n") fun s => s.print (countLine s.x)
  wellFormed := countMain_wellFormed _ _
  initial := ⟨0, []⟩
  entry := .loop 0
  work _ _ s := threadFunc n s
  returned := Pc.isReturned
  work_of_returned _ _ _ l returned := by
    cases l with
    | returned => rfl
    | loop | store => cases returned

variable {n : ℕ} {s s' : Counter} {pc pc' : Pc}

/-- The calls of `mutate` that a thread has not finished. -/
def Pc.adder (n : ℕ) : Pc → Adder
  | .loop i => ⟨n - i, none⟩
  | .store i value => ⟨n - i, some value⟩
  | .returned => ⟨0, none⟩

/-- A thread calls `mutate` in its loop only. -/
def Pc.Inside (n : ℕ) : Pc → Prop
  | .loop i => i ≤ n
  | .store i _ => i < n
  | .returned => True

theorem threadFunc_turn (inside : pc.Inside n) (worked : threadFunc n s pc = some (s', pc')) :
    pc'.Inside n ∧ Adder.Turn (2 ^ 64) 1 s.x (pc.adder n) s'.x (pc'.adder n) := by
  cases pc with
  | loop i =>
    simp only [threadFunc] at worked
    split_ifs at worked with more
    · cases worked
      refine ⟨more, ?_⟩
      obtain ⟨l, left⟩ := Nat.exists_eq_add_one_of_ne_zero (Nat.sub_pos_of_lt more).ne'
      simp only [Pc.adder, left]
      exact .load _ l
    · cases worked
      have none : n - i = 0 := Nat.sub_eq_zero_of_le (Nat.le_of_not_lt more)
      refine ⟨trivial, ?_⟩
      simp only [Pc.adder, none]
      exact .quiet _ _
  | store i value =>
    cases worked
    obtain ⟨l, left⟩ := Nat.exists_eq_add_one_of_ne_zero (Nat.sub_pos_of_lt inside).ne'
    have less : n - (i + 1) = l := by omega
    refine ⟨inside, ?_⟩
    simp only [Pc.adder, left, less]
    exact .store _ value l
  | returned => cases worked

/-- The threads print nothing. -/
theorem threadFunc_printed (worked : threadFunc n s pc = some (s', pc')) : s'.printed = s.printed := by
  cases pc with
  | loop i =>
    simp only [threadFunc] at worked
    split_ifs at worked <;> cases worked <;> rfl
  | store i value =>
    cases worked
    rfl
  | returned => cases worked

/-- Each turn of a thread's additions is a step of the thread. -/
theorem threadFunc_of_turn {x : ℕ} {a : Adder} (inside : pc.Inside n)
    (turn : Adder.Turn (2 ^ 64) 1 s.x (pc.adder n) x a) (changes : pc.adder n ≠ a) :
    ∃ s' pc', threadFunc n s pc = some (s', pc') ∧ s'.x = x ∧ pc'.adder n = a ∧ s'.printed = s.printed ∧
      pc'.Inside n ∧ pc'.isReturned = false := by
  cases pc with
  | loop i =>
    simp only [Pc.adder] at turn changes
    generalize left : n - i = l at turn changes
    cases turn with
    | quiet => exact absurd rfl changes
    | load l =>
      have more : i < n := by omega
      refine ⟨s, .store i s.x, if_pos more, rfl, ?_, rfl, more, rfl⟩
      simp only [Pc.adder, left]
  | store i value =>
    simp only [Pc.adder] at turn changes
    generalize left : n - i = l at turn changes
    cases turn with
    | quiet => exact absurd rfl changes
    | store v l =>
      refine ⟨_, .loop (i + 1), rfl, rfl, ?_, rfl, inside, rfl⟩
      simp only [Pc.adder, Adder.mk.injEq, and_true]
      omega
  | returned =>
    simp only [Pc.adder] at turn changes
    generalize left : 0 = l at turn changes
    cases turn with
    | quiet => exact absurd rfl changes
    | load l => cases left

/-- In every run the counter is that of a run of the additions. -/
theorem additions_of_reachable {s : ForkJoin.State Thread Counter Pc}
    (reachable : (program n).machine.Reachable (fun _ _ => True) s) :
    (∀ t, ((program n).place s t).Inside n) ∧
      ∃ a, (Additions.machine Thread n).Reachable (fun _ _ => True) a ∧
        Additions.Counts (2 ^ 64) 1 s.shared.x (fun t => ((program n).place s t).adder n) a := by
  refine ForkJoin.additions_of_reachable _ _ Counter.x (Pc.adder n) (fun _ place => ∀ t, (place t).Inside n) _
    rfl rfl (fun _ => Nat.zero_le n) ?_ ?_ (fun _ _ _ _ _ _ _ _ _ _ _ => trivial) reachable
  · intro shared place t _ shared' l inside worked
    obtain ⟨inside', turn⟩ := threadFunc_turn (inside t) worked
    exact ⟨forall_update_all inside' inside, turn⟩
  · intro f member shared place inside
    refine ⟨inside, ?_⟩
    simp only [program, countMain, List.mem_cons, List.not_mem_nil, or_false, MainOp.run.injEq,
      reduceCtorEq, false_or] at member
    rcases member with rfl | rfl <;> rfl

/-- When both threads have returned, the counter is the sum of additions of which all have been stored. -/
theorem counted_of_ended {s : ForkJoin.State Thread Counter Pc} (small : 2 * n < 2 ^ 64)
    (reachable : (program n).machine.Reachable (fun _ _ => True) s) (ended : s.main = []) :
    ∃ v, min n 2 ≤ v ∧ v ≤ 2 * n ∧ s.shared.printed = ["main\n", countLine v] := by
  obtain ⟨s₀, reachable₀, result, printed, returned⟩ :=
    countMain_ended Counter.printed (fun printed => printed ++ ["main\n"]) rfl (fun _ => rfl)
      (fun _ _ _ _ _ _ worked => threadFunc_printed worked) reachable ended
  obtain ⟨-, a, reached, counts⟩ := additions_of_reachable reachable₀
  have raced := Additions.raced_of_reachable reached
  have done : a.Done := by
    intro t
    rw [← counts.left t]
    have back := returned t
    generalize (program n).place s₀ t = pc at back
    cases pc with
    | returned => rfl
    | loop | store => cases back
  have upper := raced.upper
  rw [Additions.missing_of_done done, Nat.add_zero, show Fintype.card Thread = 2 from rfl] at upper
  have cell := counts.cell
  rw [Nat.one_mul, Nat.mod_eq_of_lt (by omega)] at cell
  refine ⟨a.cell, raced.final done, upper, ?_⟩
  rw [result, Counter.print, printed, cell]
  rfl

/-- Two threads at the end of their loops return, and `main` prints the counter. -/
theorem run_end {s : ForkJoin.State Thread Counter Pc} {i j : ℕ} (first : s.worker .th1 = some (.loop i))
    (second : s.worker .th2 = some (.loop j)) (beyond : n ≤ i) (beyond' : n ≤ j)
    (main : s.main = (program n).script.drop 3) :
    ∃ s', (program n).machine.run s [.work .th1 (), .work .th2 (), .main, .main, .main] = some s' ∧
      s'.main = [] ∧ s'.shared.printed = s.shared.printed ++ [countLine s.shared.x] := by
  obtain ⟨shared, worker, main⟩ := s
  cases main
  simp only at first second
  have stops : ¬i < n := by omega
  have stops' : ¬j < n := by omega
  have other : Thread.th2 ≠ Thread.th1 := nofun
  refine ⟨⟨shared.print (countLine shared.x),
    Function.update (Function.update worker .th1 (some .returned)) .th2 (some .returned), []⟩, ?_, rfl, rfl⟩
  simp [Machine.run, ForkJoin.machine, ForkJoin.workStep, ForkJoin.mainStep, program, countMain, threadFunc,
    first, second, stops, stops', other, Pc.isReturned]

/-- Each count between these bounds is printed in some run. -/
theorem count_attained {v : ℕ} (positive : 0 < n) (small : 2 * n < 2 ^ 64) (least : min n 2 ≤ v) (most : v ≤ 2 * n) :
    ∃ s, (program n).machine.Reachable (fun _ _ => True) s ∧ s.main = [] ∧
      s.shared.printed = ["main\n", countLine v] := by
  have only (t : Thread) : t ≠ .th1 ↔ t = .th2 := by cases t <;> simp
  obtain ⟨schedule, ran⟩ := Additions.attained only positive least most
  -- `main` creates both threads before they take their first step
  obtain ⟨s₀, started, shared, working, main⟩ : ∃ s₀, (program n).machine.run
      ⟨⟨0, []⟩, fun _ => none, (program n).script⟩ [.main, .main, .main] = some s₀ ∧
        s₀.shared = ⟨0, ["main\n"]⟩ ∧ (∀ t, s₀.worker t = some (.loop 0)) ∧ s₀.main = (program n).script.drop 3 := by
    refine ⟨_, rfl, rfl, ?_, rfl⟩
    rintro (_ | _) <;> rfl
  have reachable₀ : (program n).machine.Reachable (fun _ _ => True) s₀ :=
    .run (.start rfl) (fun _ _ _ => trivial) started
  have place (t : Thread) : (program n).place s₀ t = .loop 0 := ForkJoin.place_of_worker (working t)
  have counts : Additions.Counts (2 ^ 64) 1 s₀.shared.x (fun t => ((program n).place s₀ t).adder n)
      ⟨0, fun _ => ⟨n, none⟩⟩ := by
    refine ⟨?_, ?_, ?_⟩
    · rw [shared]
      rfl
    · intro t
      rw [place]
      rfl
    · intro t
      rw [place]
      rfl
  obtain ⟨s₁, reachable₁, main₁, printed₁, working₁, counts₁⟩ :=
    ForkJoin.replay Counter.x (Pc.adder n) Counter.printed (fun pc => pc.Inside n ∧ pc.isReturned = false)
      (fun t shared pc x a inside turn changes => ⟨(), threadFunc_of_turn inside.1 turn changes⟩)
      (.start rfl) ran reachable₀ (fun t => ⟨.loop 0, working t, Nat.zero_le n, rfl⟩) counts
  have loops (t : Thread) : ∃ i, s₁.worker t = some (.loop i) ∧ n ≤ i := by
    obtain ⟨pc, here, inside, running⟩ := working₁ t
    have left := counts₁.left t
    have loaded := counts₁.loaded t
    simp only [ForkJoin.place_of_worker here] at left loaded
    cases pc with
    | loop i => exact ⟨i, here, by simpa [Pc.adder, Nat.sub_eq_zero_iff_le] using left⟩
    | store i value => cases loaded
    | returned => cases running
  obtain ⟨i, first, beyond⟩ := loops .th1
  obtain ⟨j, second, beyond'⟩ := loops .th2
  obtain ⟨s₂, ran₂, ended, printed⟩ := run_end first second beyond beyond' (main₁.trans main)
  refine ⟨s₂, .run reachable₁ (fun _ _ _ => trivial) ran₂, ended, ?_⟩
  have cell : s₁.shared.x = v := by
    rw [counts₁.cell, Nat.one_mul]
    exact Nat.mod_eq_of_lt (show v < 2 ^ 64 by omega)
  rw [printed, printed₁, shared, cell]
  rfl

end Race

/-- Two threads that count without a lock, each `n` times, can leave every count from two on that is not above
`2 * n` (and one, if each counts once), and no other one; so `main` prints one of these. -/
theorem race_prints_iff {n : ℕ} (positive : 0 < n) (small : 2 * n < 2 ^ 31) (printed : List String) :
    (∃ s, (Race.program n).machine.Reachable (fun _ _ => True) s ∧ s.main = [] ∧ s.shared.printed = printed) ↔
      ∃ v, min n 2 ≤ v ∧ v ≤ 2 * n ∧ printed = ["main\n", "main " ++ toString v ++ "\n"] := by
  have line {v : ℕ} (most : v ≤ 2 * n) : countLine v = "main " ++ toString v ++ "\n" := by
    rw [countLine, Int.bmod_eq_of_le (by omega) (by omega)]
    rfl
  constructor
  · rintro ⟨s, reachable, ended, rfl⟩
    obtain ⟨v, least, most, same⟩ := Race.counted_of_ended (by omega) reachable ended
    exact ⟨v, least, most, by rw [same, line most]⟩
  · rintro ⟨v, least, most, rfl⟩
    obtain ⟨s, reachable, ended, same⟩ := Race.count_attained positive (by omega) least most
    exact ⟨s, reachable, ended, by rw [same, line most]⟩

/-- The program prints `main 2` after some of its runs. -/
theorem race_prints_two :
    ∃ s, (Race.program 1000000000).machine.Reachable (fun _ _ => True) s ∧ s.main = [] ∧
      s.shared.printed = ["main\n", "main 2\n"] :=
  (race_prints_iff (by decide) (by decide) _).mpr ⟨2, by decide, by decide, by decide⟩

end Hseos.Pthread
