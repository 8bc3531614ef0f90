import Hseos.Lib.ForkJoin
import Hseos.Lib.Word

/-! # A main thread that prints what two threads have counted

The programs that let two threads raise one counter have the same `main`: it creates both, joins both and
prints the counter as an `int`.
-/

namespace Hseos.Pthread

/-- The threads that `main` creates. -/
inductive Thread where
  | th1
  | th2
deriving DecidableEq

instance : Nonempty Thread := ⟨.th1⟩

instance : Fintype Thread := ⟨{.th1, .th2}, fun t => by cases t <;> decide⟩

/-- The counter of `struct State`, and what `main` has printed. -/
structure Counter where
  x : ℕ
  printed : List String

def Counter.print (text : String) (s : Counter) : Counter := { s with printed := s.printed ++ [text] }

/-- The line `main %d` with the counter as an `int`. -/
def countLine (x : ℕ) : String := "main " ++ toString ((x : ℤ).bmod (2 ^ 32)) ++ "\n"

/-- The code of `main`. -/
def countMain {Shared : Type*} (start result : Shared → Shared) : List (MainOp Thread Shared) :=
  [.run start, .create .th1, .create .th2, .join .th1, .join .th2, .run result]

theorem countMain_wellFormed {Shared : Type*} (start result : Shared → Shared) :
    MainOp.WellFormed [] (countMain start result) := by
  simp [countMain, MainOp.WellFormed]

/-- What `main` leaves: its result for the shared data at the time when both threads had returned. -/
theorem countMain_ended {Shared Local Choice R : Type*} {p : ForkJoin Thread Shared Local Choice}
    {start result : Shared → Shared} {s : ForkJoin.State Thread Shared Local} (rest : Shared → R) (act : R → R)
    (script : p.script = countMain start result) (acts : ∀ shared, rest (start shared) = act (rest shared))
    (keeps : ∀ t choice shared l shared' l', p.work t choice shared l = some (shared', l') →
      rest shared' = rest shared)
    (reachable : p.machine.Reachable (fun _ _ => True) s) (ended : s.main = []) :
    ∃ s₀, p.machine.Reachable (fun _ _ => True) s₀ ∧ s.shared = result s₀.shared ∧
      rest s₀.shared = act (rest p.initial) ∧ ∀ t, p.returned (p.place s₀ t) = true := by
  obtain ⟨s₀, reachable₀, main, shared, returned⟩ :=
    ForkJoin.last_run [.run start, .create .th1, .create .th2, .join .th1, .join .th2] script
      (by rintro (_ | _) <;> simp) reachable ended
  refine ⟨s₀, reachable₀, shared, ?_, returned⟩
  let middle : List (MainOp Thread Shared) := [.create .th1, .create .th2, .join .th1, .join .th2]
  have quiet : ∀ f, .run f ∉ middle := by simp [middle]
  have before := ForkJoin.rest_behind_first rest act middle quiet keeps script acts reachable₀
  rw [main, script] at before
  have later := before.resolve_left fun first => absurd (congrArg List.length first.1) (by simp [countMain])
  exact later.2 (List.cons_ne_nil _ _)

end Hseos.Pthread
