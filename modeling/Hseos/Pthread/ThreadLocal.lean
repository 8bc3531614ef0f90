import Hseos.Lib.AddingThreads
import Hseos.Pthread.CountMain
import Mathlib.Tactic.IntervalCases

/-! # Two threads that count in a thread-local variable

Each thread has its own `tmp`, counts in it a thousand million times, and adds the count to the counter that it
shares with the other one. Nothing keeps the two additions apart, and `main` changes the processor number
while the first thread may read it. The number of calls of `mutate` is a parameter.
-/

namespace Hseos.Pthread.ThreadLocal

/-- `struct State`, the `tmp` of `main`, and what was printed. -/
structure State where
  x : ℕ
  cpuId : ℕ
  mainTmp : ℕ
  printed : List String

def State.print (text : String) (s : State) : State := { s with printed := s.printed ++ [text] }

/-- A line `tmp: %d`. -/
def tmpLine (tmp : ℕ) : String := "tmp: " ++ toString ((tmp : ℤ).bmod (2 ^ 32)) ++ "\n"

inductive Pc where
  | print
  | setAffinity
  | clear
  | loop (i : ℕ)
  | load
  | store (value : ℕ)
  | returned
deriving DecidableEq

/-- Where a thread is in `thread_func`, its `tmp`, and the processor it runs on. -/
structure Local where
  pc : Pc
  tmp : ℕ
  cpu : Option ℕ

/-- One step of `thread_func`. -/
def threadFunc (n : ℕ) (s : State) (l : Local) : Option (State × Local) :=
  match l.pc with
  | .print => some (s.print (tmpLine l.tmp), { l with pc := .setAffinity })
  | .setAffinity => some (s, { l with pc := .clear, cpu := some s.cpuId })
  | .clear => some (s, { l with pc := .loop 0, tmp := 0 })
  | .loop i =>
      if i < n then some (s, { l with pc := .loop (i + 1), tmp := wordAdd 64 l.tmp 1 })
      else some (s, { l with pc := .load })
  | .load => some (s, { l with pc := .store s.x })
  | .store value => some ({ s with x := wordAdd 64 value l.tmp }, { l with pc := .returned })
  | .returned => none

/-- The code of `main`. -/
def script : List (MainOp Thread State) :=
  [.run fun s => { s with mainTmp := 16 }, .run (State.print "main\n"),
    .run fun s => s.print ("main " ++ tmpLine s.mainTmp), .create .th1,
    .run fun s => { s with cpuId := s.cpuId + 1 }, .create .th2, .join .th1, .join .th2,
    .run fun s => s.print (countLine s.x)]

def Local.isReturned (l : Local) : Bool := l.pc = .returned

/-- The program. -/
def program (n : ℕ) : ForkJoin Thread State Local Unit where
  script := script
  wellFormed := by simp [script, MainOp.WellFormed]
  initial := ⟨0, 0, 0, []⟩
  entry := ⟨.print, 0, none⟩
  work _ _ s := threadFunc n s
  returned := Local.isReturned
  work_of_returned _ _ _ l returned := by
    rw [threadFunc, of_decide_eq_true returned]

variable {n : ℕ} {s s' : State} {l l' : Local}

/-- The addition to the counter, if it has not been stored. -/
def Local.adder (l : Local) : Adder :=
  match l.pc with
  | .print | .setAffinity | .clear | .loop _ | .load => ⟨1, none⟩
  | .store value => ⟨1, some value⟩
  | .returned => ⟨0, none⟩

/-- What a thread has in its `tmp`. -/
def Local.Counted (n : ℕ) (l : Local) : Prop :=
  match l.pc with
  | .print => l.tmp = 0
  | .setAffinity | .clear | .returned => True
  | .loop i => i ≤ n ∧ l.tmp = i
  | .load | .store _ => l.tmp = n

theorem threadFunc_turn (small : n < 2 ^ 64) (counted : l.Counted n) (worked : threadFunc n s l = some (s', l')) :
    l'.Counted n ∧ Adder.Turn (2 ^ 64) n s.x l.adder s'.x l'.adder := by
  obtain ⟨pc, tmp, cpu⟩ := l
  cases pc with
  | print | setAffinity =>
    cases worked
    exact ⟨trivial, .quiet _ _⟩
  | clear =>
    cases worked
    exact ⟨⟨Nat.zero_le n, rfl⟩, .quiet _ _⟩
  | loop i =>
    obtain ⟨bound, same⟩ := counted
    simp only at same
    simp only [threadFunc] at worked
    split_ifs at worked with more
    · cases worked
      refine ⟨⟨more, ?_⟩, .quiet _ _⟩
      rw [same]
      exact wordAdd_of_lt (by omega)
    · cases worked
      refine ⟨?_, .quiet _ _⟩
      simp only [Local.Counted]
      omega
  | load =>
    cases worked
    exact ⟨counted, .load _ 0⟩
  | store value =>
    cases worked
    simp only [Local.Counted] at counted
    rw [counted]
    exact ⟨trivial, .store _ value 0⟩
  | returned => cases worked

/-- In every run the counter is that of a run of one addition each. -/
theorem additions_of_reachable {s : ForkJoin.State Thread State Local} (small : n < 2 ^ 64)
    (reachable : (program n).machine.Reachable (fun _ _ => True) s) :
    (∀ t, ((program n).place s t).Counted n) ∧
      ∃ a, (Additions.machine Thread 1).Reachable (fun _ _ => True) a ∧
        Additions.Counts (2 ^ 64) n s.shared.x (fun t => ((program n).place s t).adder) a := by
  refine ForkJoin.additions_of_reachable _ _ State.x Local.adder (fun _ place => ∀ t, (place t).Counted n) _
    rfl rfl (fun _ => rfl) ?_ ?_ (fun _ _ _ _ _ _ _ _ _ _ _ => trivial) reachable
  · intro shared place t _ shared' l counted worked
    obtain ⟨counted', turn⟩ := threadFunc_turn small (counted t) worked
    exact ⟨forall_update_all counted' counted, turn⟩
  · intro f member shared place counted
    refine ⟨counted, ?_⟩
    simp only [program, script, List.mem_cons, List.not_mem_nil, or_false, MainOp.run.injEq,
      reduceCtorEq, false_or] at member
    rcases member with rfl | rfl | rfl | rfl | rfl <;> rfl

/-- A thread has printed its `tmp`. -/
def Local.hasPrinted (l : Local) : Bool := l.pc ≠ .print

/-- How many of the threads that exist have printed their `tmp`. -/
def lines (worker : Thread → Option Local) : ℕ :=
  ((worker .th1).map fun l => l.hasPrinted.toNat).getD 0 + ((worker .th2).map fun l => l.hasPrinted.toNat).getD 0

/-- What holds behind the first `k` operations of `main`. -/
structure Progress (k : ℕ) (s : ForkJoin.State Thread State Local) : Prop where
  main : s.main = script.drop k
  bound : k ≤ 9
  mainTmp : 0 < k → s.shared.mainTmp = 16
  cpuId : s.shared.cpuId = if k ≤ 4 then 0 else 1
  first : s.worker .th1 ≠ none → 4 ≤ k
  second : s.worker .th2 ≠ none → 6 ≤ k
  printed : k ≤ 8 → s.shared.printed =
    ["main\n", "main tmp: 16\n"].take (k - 1) ++ List.replicate (lines s.worker) "tmp: 0\n"

theorem tmpLine_zero : tmpLine 0 = "tmp: 0\n" := by decide

/-- A thread prints a zero, and goes on without printing. -/
theorem threadFunc_printed (counted : l.Counted n) (worked : threadFunc n s l = some (s', l')) :
    s'.mainTmp = s.mainTmp ∧ s'.cpuId = s.cpuId ∧ ∃ k, l'.hasPrinted.toNat = l.hasPrinted.toNat + k ∧
      s'.printed = s.printed ++ List.replicate k "tmp: 0\n" := by
  obtain ⟨pc, tmp, cpu⟩ := l
  cases pc with
  | print =>
    cases worked
    simp only [Local.Counted] at counted
    refine ⟨rfl, rfl, 1, rfl, ?_⟩
    rw [counted, tmpLine_zero]
    rfl
  | loop i =>
    simp only [threadFunc] at worked
    split_ifs at worked
    all_goals
      cases worked
      exact ⟨rfl, rfl, 0, rfl, (List.append_nil _).symm⟩
  | setAffinity | clear | load | store =>
    cases worked
    exact ⟨rfl, rfl, 0, rfl, (List.append_nil _).symm⟩
  | returned => cases worked

theorem Progress.work {k : ℕ} {s s' : ForkJoin.State Thread State Local} {t : Thread} (progress : Progress k s)
    (counted : ((program n).place s t).Counted n) (moved : (program n).workStep t () s = some s') :
    Progress k s' := by
  obtain ⟨l, shared, l', here, worked, rfl⟩ := ForkJoin.workStep_cases moved
  rw [ForkJoin.place_of_worker here] at counted
  obtain ⟨mainTmp, cpuId, more, line, printed⟩ := threadFunc_printed counted worked
  have exists_iff (u : Thread) : Function.update s.worker t (some l') u ≠ none ↔ s.worker u ≠ none := by
    rw [Function.update_apply]
    split_ifs with same
    · rw [same, here]
      exact iff_of_true nofun nofun
    · exact Iff.rfl
  refine ⟨progress.main, progress.bound, ?_, ?_, ?_, ?_, ?_⟩
  · exact fun later => mainTmp.trans (progress.mainTmp later)
  · exact cpuId.trans progress.cpuId
  · exact fun created => progress.first ((exists_iff .th1).mp created)
  · exact fun created => progress.second ((exists_iff .th2).mp created)
  · intro unfinished
    have total : lines (Function.update s.worker t (some l')) = lines s.worker + more := by
      cases t <;> simp [lines, here, line] <;> omega
    rw [total, List.replicate_add, ← List.append_assoc, ← progress.printed unfinished]
    exact printed

/-- A thread that has just been created has printed nothing. -/
theorem lines_create {worker : Thread → Option Local} {t : Thread} (absent : worker t = none) :
    lines (Function.update worker t (some (program n).entry)) = lines worker := by
  cases t <;> simp [lines, absent, program, Local.hasPrinted]

theorem Progress.mainStep {k : ℕ} {s s' : ForkJoin.State Thread State Local} (progress : Progress k s)
    (moved : (program n).mainStep s = some s') : Progress (k + 1) s' := by
  obtain ⟨main, bound, mainTmp, cpuId, first, second, printed⟩ := progress
  obtain ⟨shared, worker, later⟩ := s
  simp only at main cpuId first second mainTmp printed
  subst main
  have no_lines (few : k < 4) : lines worker = 0 := by
    have absent : worker .th1 = none := by
      by_contra created
      exact absurd (first created) (by omega)
    have absent' : worker .th2 = none := by
      by_contra created
      exact absurd (second created) (by omega)
    rw [lines, absent, absent']
    rfl
  have first' (created : worker .th1 ≠ none) : 4 ≤ k + 1 := (first created).trans (Nat.le_succ k)
  have second' (created : worker .th2 ≠ none) : 6 ≤ k + 1 := (second created).trans (Nat.le_succ k)
  interval_cases k
  -- one operation of the script after the other
  · cases moved
    exact ⟨rfl, by decide, fun _ => rfl, cpuId, first', second', fun _ => printed (by decide)⟩
  · cases moved
    refine ⟨rfl, by decide, fun _ => mainTmp (by decide), cpuId, first', second', fun _ => ?_⟩
    have before := printed (by decide)
    rw [no_lines (by decide)] at before ⊢
    simp [State.print, before]
  · cases moved
    refine ⟨rfl, by decide, fun _ => mainTmp (by decide), cpuId, first', second', fun _ => ?_⟩
    have before := printed (by decide)
    rw [no_lines (by decide)] at before ⊢
    have line : "main " ++ tmpLine 16 = "main tmp: 16\n" := by decide
    simp [State.print, before, mainTmp, line]
  · simp only [ForkJoin.mainStep, script, List.drop_succ_cons, List.drop_zero] at moved
    split_ifs at moved with absent
    cases moved
    refine ⟨rfl, by decide, fun _ => mainTmp (by decide), cpuId, fun _ => le_rfl, second', fun _ => ?_⟩
    rw [lines_create (Option.isNone_iff_eq_none.mp absent)]
    exact printed (by decide)
  · cases moved
    refine ⟨rfl, by decide, fun _ => mainTmp (by decide), ?_, first', second', fun _ => printed (by decide)⟩
    exact congrArg (· + 1) cpuId
  · simp only [ForkJoin.mainStep, script, List.drop_succ_cons, List.drop_zero] at moved
    split_ifs at moved with absent
    cases moved
    refine ⟨rfl, by decide, fun _ => mainTmp (by decide), cpuId, first', fun _ => le_rfl, fun _ => ?_⟩
    rw [lines_create (Option.isNone_iff_eq_none.mp absent)]
    exact printed (by decide)
  · simp only [ForkJoin.mainStep, script, List.drop_succ_cons, List.drop_zero] at moved
    split_ifs at moved
    cases moved
    exact ⟨rfl, by decide, fun _ => mainTmp (by decide), cpuId, first', second', fun _ => printed (by decide)⟩
  · simp only [ForkJoin.mainStep, script, List.drop_succ_cons, List.drop_zero] at moved
    split_ifs at moved
    cases moved
    exact ⟨rfl, by decide, fun _ => mainTmp (by decide), cpuId, first', second', fun _ => printed (by decide)⟩
  · cases moved
    exact ⟨rfl, by decide, fun _ => mainTmp (by decide), cpuId, first', second', fun beyond => absurd beyond (by decide)⟩
  · cases moved

theorem progress_of_reachable {s : ForkJoin.State Thread State Local} (small : n < 2 ^ 64)
    (reachable : (program n).machine.Reachable (fun _ _ => True) s) : ∃ k, Progress k s := by
  induction reachable with
  | start started =>
    cases started
    exact ⟨0, rfl, by decide, nofun, rfl, nofun, nofun, fun _ => rfl⟩
  | @step s s' a before _ moved ih =>
    obtain ⟨k, progress⟩ := ih
    cases a with
    | main => exact ⟨k + 1, progress.mainStep moved⟩
    | work t choice => exact ⟨k, progress.work ((additions_of_reachable small before).1 t) moved⟩

/-- When both threads have returned, both have printed a zero, and one addition or both are in the counter. -/
theorem counted_of_ended {s : ForkJoin.State Thread State Local} (small : n < 2 ^ 64)
    (reachable : (program n).machine.Reachable (fun _ _ => True) s) (ended : s.main = []) :
    ∃ v, 1 ≤ v ∧ v ≤ 2 ∧ s.shared.printed =
      ["main\n", "main tmp: 16\n", "tmp: 0\n", "tmp: 0\n", countLine (n * v % 2 ^ 64)] := by
  obtain ⟨s₀, reachable₀, main, result, returned⟩ :=
    ForkJoin.last_run script.dropLast rfl (by rintro (_ | _) <;> simp [script]) reachable ended
  obtain ⟨k, progress⟩ := progress_of_reachable small reachable₀
  obtain ⟨-, a, reached, counts⟩ := additions_of_reachable small reachable₀
  have last : k = 8 := by
    have length := congrArg List.length (progress.main.symm.trans main)
    simp only [List.length_drop, script, List.length_cons, List.length_nil] at length
    omega
  have pc (t : Thread) : ((program n).place s₀ t).pc = .returned := of_decide_eq_true (returned t)
  have raced := Additions.raced_of_reachable reached
  have done : a.Done := by
    intro t
    rw [← counts.left t, Local.adder, pc t]
  have upper := raced.upper
  rw [Additions.missing_of_done done, Nat.add_zero, show Fintype.card Thread = 2 from rfl] at upper
  have both : lines s₀.worker = 2 := by
    have each (t : Thread) : (s₀.worker t).map (fun l => l.hasPrinted.toNat) = some 1 := by
      have here := pc t
      cases worker : s₀.worker t with
      | none =>
        rw [ForkJoin.place, worker] at here
        cases here
      | some l =>
        rw [ForkJoin.place_of_worker worker] at here
        simp [Local.hasPrinted, here]
    rw [lines, each, each]
    rfl
  have printed := progress.printed last.le
  rw [last, both] at printed
  refine ⟨a.cell, raced.final done, by omega, ?_⟩
  rw [result, State.print, printed, counts.cell]
  rfl

theorem workStep_of {s : ForkJoin.State Thread State Local} {t : Thread} {shared : State} (here : s.worker t = some l)
    (worked : threadFunc n s.shared l = some (shared, l')) :
    (program n).workStep t () s =
      some { s with shared := shared, worker := Function.update s.worker t (some l') } :=
  Option.bind_eq_some_iff.mpr ⟨l, here, Option.map_eq_some_iff.mpr ⟨_, worked, rfl⟩⟩

/-- A thread counts in its own `tmp` and leaves the others alone. -/
theorem run_loop {k i : ℕ} {cpu : Option ℕ} {s : ForkJoin.State Thread State Local} {t : Thread} (small : n < 2 ^ 64)
    (total : i + k = n) (here : s.worker t = some ⟨.loop i, i, cpu⟩) :
    (program n).machine.run s (List.replicate (k + 1) (.work t ())) =
      some { s with worker := Function.update s.worker t (some ⟨.load, n, cpu⟩) } := by
  induction k generalizing i s with
  | zero =>
    have worked : threadFunc n s.shared ⟨.loop i, i, cpu⟩ = some (s.shared, ⟨.load, n, cpu⟩) := by
      rw [← total, Nat.add_zero]
      exact if_neg (lt_irrefl i)
    change ((program n).workStep t () s).bind _ = _
    rw [workStep_of here worked]
    rfl
  | succ k ih =>
    have worked : threadFunc n s.shared ⟨.loop i, i, cpu⟩ = some (s.shared, ⟨.loop (i + 1), i + 1, cpu⟩) := by
      refine (if_pos (show i < n by omega)).trans ?_
      rw [show wordAdd 64 i 1 = i + 1 from wordAdd_of_lt (by omega)]
    rw [List.replicate_succ]
    change ((program n).workStep t () s).bind _ = _
    rw [workStep_of here worked, Option.bind_some, ih (i := i + 1) (by omega) (Function.update_self ..)]
    rw [Function.update_idem]

/-- A thread prints its `tmp` and counts, up to its addition to the counter. -/
theorem run_to_load {s : ForkJoin.State Thread State Local} {t : Thread} (small : n < 2 ^ 64)
    (here : s.worker t = some (program n).entry) :
    (program n).machine.run s (List.replicate (n + 4) (.work t ())) =
      some ⟨s.shared.print "tmp: 0\n",
        Function.update s.worker t (some ⟨.load, n, some s.shared.cpuId⟩), s.main⟩ := by
  have printed : threadFunc n s.shared (program n).entry =
      some (s.shared.print "tmp: 0\n", ⟨.setAffinity, 0, none⟩) := by
    rw [← tmpLine_zero]
    rfl
  rw [show n + 4 = n + 1 + 1 + 1 + 1 from rfl, List.replicate_succ, List.replicate_succ, List.replicate_succ]
  change ((program n).workStep t () s).bind _ = _
  rw [workStep_of here printed, Option.bind_some]
  change ((program n).workStep t () _).bind _ = _
  rw [workStep_of (Function.update_self ..) rfl, Option.bind_some]
  change ((program n).workStep t () _).bind _ = _
  rw [workStep_of (Function.update_self ..) rfl, Option.bind_some,
    run_loop small (Nat.zero_add n) (Function.update_self ..)]
  simp only [Function.update_idem]
  rfl

/-- A thread has counted, and adds its count to the counter or has done so. -/
def Local.Adds (n : ℕ) (l : Local) : Prop :=
  match l.pc with
  | .load | .store _ => l.tmp = n
  | .returned => True
  | .print | .setAffinity | .clear | .loop _ => False

/-- Each turn of the addition is a step of a thread that has counted. -/
theorem threadFunc_of_turn {x : ℕ} {a : Adder} (adds : l.Adds n)
    (turn : Adder.Turn (2 ^ 64) n s.x l.adder x a) (changes : l.adder ≠ a) :
    ∃ s' l', threadFunc n s l = some (s', l') ∧ s'.x = x ∧ l'.adder = a ∧ s'.printed = s.printed ∧ l'.Adds n := by
  obtain ⟨pc, tmp, cpu⟩ := l
  cases pc with
  | print | setAffinity | clear | loop => cases adds
  | load =>
    cases turn with
    | quiet => exact absurd rfl changes
    | load => exact ⟨s, ⟨.store s.x, tmp, cpu⟩, rfl, rfl, rfl, rfl, adds⟩
  | store value =>
    cases turn with
    | quiet => exact absurd rfl changes
    | store =>
      simp only [Local.Adds] at adds
      rw [← adds]
      exact ⟨_, ⟨.returned, tmp, cpu⟩, rfl, rfl, rfl, rfl, trivial⟩
  | returned =>
    cases turn with
    | quiet => exact absurd rfl changes

/-- Both counts are printed in some run. -/
theorem count_attained {v : ℕ} (small : n < 2 ^ 64) (least : 1 ≤ v) (most : v ≤ 2) :
    ∃ s, (program n).machine.Reachable (fun _ _ => True) s ∧ s.main = [] ∧ s.shared.printed =
      ["main\n", "main tmp: 16\n", "tmp: 0\n", "tmp: 0\n", countLine (n * v % 2 ^ 64)] := by
  have only (t : Thread) : t ≠ .th1 ↔ t = .th2 := by cases t <;> simp
  obtain ⟨schedule, ran⟩ := Additions.attained only Nat.zero_lt_one least most
  -- `main` creates both threads, and these count one after the other
  have line : "main " ++ tmpLine 16 = "main tmp: 16\n" := by decide
  obtain ⟨s₀, reachable₀, shared, main, working⟩ : ∃ s₀, (program n).machine.Reachable (fun _ _ => True) s₀ ∧
      s₀.shared = ⟨0, 1, 16, ["main\n", "main tmp: 16\n", "tmp: 0\n", "tmp: 0\n"]⟩ ∧ s₀.main = script.drop 6 ∧
        ∀ t, s₀.worker t = some ⟨.load, n, some 1⟩ := by
    have created : (program n).machine.run ⟨(program n).initial, fun _ => none, script⟩ (List.replicate 6 .main) =
        some ⟨⟨0, 1, 16, ["main\n", "main tmp: 16\n"]⟩,
          Function.update (Function.update (fun _ => none) .th1 (some (program n).entry)) .th2
            (some (program n).entry), script.drop 6⟩ := by
      rw [← line]
      rfl
    refine ⟨_, .run (.run (.run (.start rfl) (fun _ _ _ => trivial) created) (fun _ _ _ => trivial)
      (run_to_load (t := .th1) small rfl)) (fun _ _ _ => trivial) (run_to_load (t := .th2) small rfl), rfl, rfl, ?_⟩
    rintro (_ | _) <;> rfl
  have place (t : Thread) : (program n).place s₀ t = ⟨.load, n, some 1⟩ := ForkJoin.place_of_worker (working t)
  have counts : Additions.Counts (2 ^ 64) n s₀.shared.x (fun t => ((program n).place s₀ t).adder)
      ⟨0, fun _ => ⟨1, none⟩⟩ := by
    refine ⟨?_, ?_, ?_⟩
    · rw [shared]
      rfl
    · intro t
      rw [place]
      rfl
    · intro t
      rw [place]
      rfl
  obtain ⟨s₁, reachable₁, main₁, printed₁, working₁, counts₁⟩ :=
    ForkJoin.replay State.x Local.adder State.printed (Local.Adds n)
      (fun t shared l x a adds turn changes => ⟨(), threadFunc_of_turn adds turn changes⟩)
      (.start rfl) ran reachable₀ (fun t => ⟨_, working t, rfl⟩) counts
  have returned (t : Thread) : (s₁.worker t).any Local.isReturned = true := by
    obtain ⟨l, here, -⟩ := working₁ t
    have left := counts₁.left t
    simp only [ForkJoin.place_of_worker here, Local.adder] at left
    rw [here, Option.any_some, Local.isReturned, decide_eq_true_iff]
    split at left <;> first | assumption | cases left
  -- `main` joins both and prints the counter
  obtain ⟨shared₁, worker₁, later⟩ := s₁
  cases main₁.trans main
  have ended : (program n).machine.run ⟨shared₁, worker₁, script.drop 6⟩ [.main, .main, .main] =
      some ⟨shared₁.print (countLine shared₁.x), worker₁, []⟩ := by
    have first := returned .th1
    have second := returned .th2
    simp only at first second
    simp [Machine.run, ForkJoin.machine, ForkJoin.mainStep, program, script, first, second]
  refine ⟨_, .run reachable₁ (fun _ _ _ => trivial) ended, rfl, ?_⟩
  have cell : shared₁.x = n * v % 2 ^ 64 := counts₁.cell
  rw [State.print, show shared₁.printed = _ from printed₁, shared, cell]
  rfl

end Hseos.Pthread.ThreadLocal

namespace Hseos.Pthread

/-- Each thread finds a zero in its `tmp`, whatever the others have put into theirs; the counter that `main`
prints is the count of one thread or of both, and both happen. -/
theorem thread_local_prints_iff {n : ℕ} (small : 2 * n < 2 ^ 31) (printed : List String) :
    (∃ s, (ThreadLocal.program n).machine.Reachable (fun _ _ => True) s ∧ s.main = [] ∧
        s.shared.printed = printed) ↔
      ∃ v, (v = n ∨ v = 2 * n) ∧ printed =
        ["main\n", "main tmp: 16\n", "tmp: 0\n", "tmp: 0\n", "main " ++ toString v ++ "\n"] := by
  have line {v : ℕ} (most : v ≤ 2 * n) : countLine (v % 2 ^ 64) = "main " ++ toString v ++ "\n" := by
    rw [Nat.mod_eq_of_lt (by omega), countLine, Int.bmod_eq_of_le (by omega) (by omega)]
    rfl
  constructor
  · rintro ⟨s, reachable, ended, rfl⟩
    obtain ⟨v, least, most, same⟩ := ThreadLocal.counted_of_ended (by omega) reachable ended
    have cases_ : n * v = n ∨ n * v = 2 * n := by
      obtain rfl | rfl : v = 1 ∨ v = 2 := by omega
      · exact .inl (Nat.mul_one n)
      · exact .inr (Nat.mul_comm n 2)
    exact ⟨n * v, cases_, by rw [same, line (by omega)]⟩
  · rintro ⟨v, rfl | rfl, rfl⟩
    · obtain ⟨s, reachable, ended, same⟩ :=
        ThreadLocal.count_attained (n := v) (v := 1) (by omega) le_rfl (by decide)
      exact ⟨s, reachable, ended, by rw [same, Nat.mul_one, line (by omega)]⟩
    · obtain ⟨s, reachable, ended, same⟩ :=
        ThreadLocal.count_attained (n := n) (v := 2) (by omega) (by decide) le_rfl
      exact ⟨s, reachable, ended, by rw [same, Nat.mul_comm, line le_rfl]⟩

/-- The count of one thread may be all that is printed. -/
theorem thread_local_prints_one :
    ∃ s, (ThreadLocal.program 1000000000).machine.Reachable (fun _ _ => True) s ∧ s.main = [] ∧ s.shared.printed =
      ["main\n", "main tmp: 16\n", "tmp: 0\n", "tmp: 0\n", "main 1000000000\n"] :=
  (thread_local_prints_iff (by decide) _).mpr ⟨1000000000, .inl rfl, by decide⟩

end Hseos.Pthread
