import Hseos.Lib.ForkChain
import Hseos.Lib.Stdio

/-! # Numbers printed by a chain of processes

`main` prints the numbers from one on, each in a process of its own: a process prints a number, empties its buffer
and forks; it waits for its child, which goes on with the next number. Where a fork fails, `check_result` prints
why, and the loop ends. The model begins when `scanf` has read `n`.
-/

namespace Hseos.Fork

namespace RecursiveFork

open Stdio

inductive Pc where
  | loop (i : ℤ)
  | flush (i : ℤ)
  | fork (i : ℤ)
  | next (i : ℤ)
  | wait
  | exit
deriving DecidableEq

/-- Where a process is in `main`, and what its buffer has. -/
structure Local where
  pc : Pc
  pending : Text

/-- How much a `printf` lets out at once, and why a `fork` fails, if it does. -/
structure Choice where
  early : ℕ
  failure : Option String

/-- The text `%d%c` of a number. -/
def number (n i : ℤ) : Text := decimal i ++ ascii (if i = n then "\n" else " ")

/-- One step of a process. The loop counter is an `int`. -/
def move (n : ℤ) (choice : Choice) (out : Text) (l : Local) : Option (ProcessMove Text Local) :=
  match l.pc with
  | .loop i =>
      if i ≤ n then
        let (out, pending) := printf choice.early out l.pending (number n i)
        some (.run out ⟨.flush i, pending⟩)
      else some (.run out { l with pc := .wait })
  | .flush i => some (.run (out ++ l.pending) ⟨.fork i, []⟩)
  | .fork i =>
      match choice.failure with
      | none => some (.fork { l with pc := .wait } { l with pc := .next i })
      | some reason =>
          let (out, pending) := printf choice.early out l.pending (errorLine "fork" reason)
          some (.run out ⟨.wait, pending⟩)
  | .next i => if i + 1 < 2 ^ 31 then some (.run out { l with pc := .loop (i + 1) }) else none
  | .wait => some (.wait { l with pc := .exit })
  | .exit => some (.exit (out ++ l.pending))

/-- The program. -/
def program (n : ℤ) : ForkChain Text Local Choice where
  initial := []
  root := ⟨.loop 1, []⟩
  move := move n

/-- The text of the first `k` numbers. -/
def counted (n : ℤ) (k : ℕ) : Text := (List.range k).flatMap fun i : ℕ => number n (i + 1)

/-- The forks of a process are among these. -/
def permits (outcomes : ForkChain.Outcomes String) (older : ℕ) (choice : Choice) (l : Local) : Prop :=
  ∀ i, l.pc = .fork i → outcomes older choice.failure

theorem permits_of_ne {outcomes : ForkChain.Outcomes String} {older : ℕ} {choice : Choice} {l : Local}
    (different : ∀ i, l.pc ≠ .fork i) : permits outcomes older choice l :=
  fun i same => absurd same (different i)

/-- What is printed before a fork that fails, and the error. -/
def cut (n : ℤ) (k : ℕ) (reason : String) : Text := counted n (k + 1) ++ errorLine "fork" reason

/-- What the processes leave with these outcomes of their forks. -/
abbrev Printed (n : ℤ) (outcomes : ForkChain.Outcomes String) (text : Text) : Prop :=
  ForkChain.Left n.toNat (counted n n.toNat) (cut n) outcomes text

/-- A process that has forked has nothing in its buffer. -/
def Parked (l : Local) (_ : Unit) : Prop := l = ⟨.wait, []⟩

/-- What the process that goes on has printed, with a process that waits for each number before. -/
inductive Top (n : ℤ) (outcomes : ForkChain.Outcomes String) : Text → List Unit → Bool → Local → Prop
  | loop {stack : List Unit} (inside : stack.length ≤ n.toNat) (forked : ∀ j < stack.length, outcomes j none) :
      Top n outcomes (counted n stack.length) stack false ⟨.loop (stack.length + 1), []⟩
  | flush {out pending : Text} {stack : List Unit} (inside : stack.length < n.toNat)
      (forked : ∀ j < stack.length, outcomes j none) (text : out ++ pending = counted n (stack.length + 1)) :
      Top n outcomes out stack false ⟨.flush (stack.length + 1), pending⟩
  | fork {stack : List Unit} (inside : stack.length < n.toNat) (forked : ∀ j < stack.length, outcomes j none) :
      Top n outcomes (counted n (stack.length + 1)) stack false ⟨.fork (stack.length + 1), []⟩
  | next {stack : List Unit} (positive : 0 < stack.length) (inside : stack.length ≤ n.toNat)
      (forked : ∀ j < stack.length, outcomes j none) :
      Top n outcomes (counted n stack.length) stack false ⟨.next stack.length, []⟩
  | wait {out pending : Text} {stack : List Unit} {resumed : Bool} (text : Printed n outcomes (out ++ pending)) :
      Top n outcomes out stack resumed ⟨.wait, pending⟩
  | exit {out pending : Text} {stack : List Unit} {resumed : Bool} (text : Printed n outcomes (out ++ pending)) :
      Top n outcomes out stack resumed ⟨.exit, pending⟩

variable {n : ℤ} {outcomes : ForkChain.Outcomes String}

theorem counted_succ (n : ℤ) (k : ℕ) : counted n (k + 1) = counted n k ++ number n (k + 1) := by
  simp [counted, List.range_succ]

/-- A number comes behind those before it, and an error behind the number that its process has printed. -/
theorem discipline (n : ℤ) (outcomes : ForkChain.Outcomes String) :
    ForkChain.Discipline Parked (Top n outcomes) (Printed n outcomes) (program n) (permits outcomes) where
  root := @Top.loop n outcomes [] (Nat.zero_le _) fun j none => absurd none (Nat.not_lt_zero j)
  top := by
    intro choice out stack resumed l m permitted here moved
    cases here with
    | loop inside forked =>
      simp only [program, move] at moved
      split_ifs at moved with more
      · cases moved
        refine .flush (by omega) forked ?_
        rw [printf_append, List.append_nil, counted_succ]
      · cases moved
        have last : stack.length = n.toNat := by omega
        refine .wait ?_
        rw [List.append_nil, last]
        exact .all (last ▸ forked)
    | flush inside forked text =>
      cases moved
      rw [text]
      exact .fork inside forked
    | fork inside forked =>
      have outcome := permitted _ rfl
      simp only [program, move] at moved
      cases failure : choice.failure with
      | none =>
        rw [failure] at moved outcome
        cases moved
        refine ⟨rfl, (), rfl, @Top.next n outcomes (() :: stack) (Nat.succ_pos _) inside ?_⟩
        intro j below
        obtain less | same := Nat.lt_succ_iff_lt_or_eq.mp below
        · exact forked j less
        · exact same ▸ outcome
      | some reason =>
        rw [failure] at moved outcome
        cases moved
        refine .wait ?_
        rw [printf_append, List.append_nil]
        exact .failed inside outcome forked
    | next positive inside forked =>
      simp only [program, move] at moved
      split_ifs at moved with small
      cases moved
      exact .loop inside forked
    | wait text =>
      cases moved
      exact .exit text
    | exit text =>
      cases moved
      cases stack with
      | nil => exact text
      | cons f stack =>
        -- the parent has nothing in its buffer
        rintro w rfl
        refine .wait ?_
        rwa [List.append_nil]
  parked := by
    rintro choice out _ f m rfl moved
    cases moved
    trivial

/-- The steps that a process and those behind it have at most before them. -/
def weight (n : ℤ) (l : Local) : ℕ :=
  match l.pc with
  | .loop i => 6 * (n + 1 - i).toNat + 3
  | .flush i => 6 * (n + 1 - i).toNat + 2
  | .fork i => 6 * (n + 1 - i).toNat + 1
  | .next i => 6 * (n + 1 - i).toNat - 2
  | .wait => 2
  | .exit => 1

theorem progress (small : n < 2 ^ 31 - 1) (possible : ∀ k, ∃ failure, outcomes k failure) {out : Text}
    {stack : List Unit} {resumed : Bool} {l : Local} (here : Top n outcomes out stack resumed l) :
    ∃ choice move, permits outcomes stack.length choice l ∧ (program n).move choice out l = some move ∧
      ForkChain.Lowers (fun _ => 0) (weight n) out l move := by
  cases here with
  | loop inside forked =>
    by_cases more : (stack.length + 1 : ℤ) ≤ n
    · refine ⟨⟨0, none⟩, _, permits_of_ne (by rintro i ⟨⟩), if_pos more, ?_⟩
      simp only [ForkChain.Lowers, weight]
      omega
    · refine ⟨⟨0, none⟩, _, permits_of_ne (by rintro i ⟨⟩), if_neg more, ?_⟩
      simp only [ForkChain.Lowers, weight]
      omega
  | flush inside forked text =>
    refine ⟨⟨0, none⟩, _, permits_of_ne (by rintro i ⟨⟩), rfl, ?_⟩
    simp only [ForkChain.Lowers, weight]
    omega
  | fork inside forked =>
    obtain ⟨failure, outcome⟩ := possible stack.length
    have permitted : permits outcomes stack.length ⟨0, failure⟩ ⟨.fork (stack.length + 1), []⟩ := fun _ _ => outcome
    cases failure with
    | none =>
      refine ⟨_, _, permitted, rfl, ?_⟩
      simp only [ForkChain.Lowers, weight]
      omega
    | some reason =>
      refine ⟨_, _, permitted, rfl, ?_⟩
      simp only [ForkChain.Lowers, weight]
      omega
  | next positive inside forked =>
    have next : (stack.length : ℤ) + 1 < 2 ^ 31 := by omega
    have goes : (program n).move ⟨0, none⟩ (counted n stack.length) ⟨.next stack.length, []⟩ =
        some (.run (counted n stack.length) ⟨.loop (stack.length + 1), []⟩) := by
      simp only [program, move, if_pos next]
    refine ⟨⟨0, none⟩, _, permits_of_ne (by rintro i ⟨⟩), goes, ?_⟩
    simp only [ForkChain.Lowers, weight]
    omega
  | wait text => exact ⟨⟨0, none⟩, _, permits_of_ne (by rintro i ⟨⟩), rfl, Nat.lt_succ_self _⟩
  | exit text => exact ⟨⟨0, none⟩, _, permits_of_ne (by rintro i ⟨⟩), rfl, Nat.zero_lt_one⟩

theorem counted_start {j k : ℕ} (le : j ≤ k) : counted n j <+: counted n k := by
  obtain ⟨l, rfl⟩ := Nat.exists_eq_add_of_le le
  simp [counted, List.range_add]

/-- The numbers, or those up to a fork that has failed and the error. -/
def Leaves (n : ℤ) (text : Text) : Prop :=
  text = counted n n.toNat ∨
    ∃ (k : ℕ) (reason : String), k < n.toNat ∧ text = counted n (k + 1) ++ errorLine "fork" reason

theorem Top.begins {out : Text} {stack : List Unit} {resumed : Bool} {l : Local}
    (here : Top n outcomes out stack resumed l) : ∃ text, Leaves n text ∧ out <+: text := by
  cases here with
  | loop inside | fork inside | next _ inside => exact ⟨_, .inl rfl, counted_start inside⟩
  | flush inside _ text => exact ⟨_, .inl rfl, (text ▸ List.prefix_append _ _).trans (counted_start inside)⟩
  | wait text | exit text => exact ⟨_, text.leaves, List.prefix_append _ _⟩

end RecursiveFork

/-- In every order of their steps, the processes print the numbers from one to `n` in order, up to a fork that
fails, behind which there is the error. Each of these texts is left by some run, and whatever the processes have
done, they can come to their end. -/
theorem recursive_fork_prints_iff {n : ℤ} (small : n < 2 ^ 31 - 1) :
    (∀ s, (RecursiveFork.program n).machine.Reachable (fun _ _ => True) s →
        (∃ text, RecursiveFork.Leaves n text ∧ s.shared <+: text) ∧
          ∃ schedule s', (RecursiveFork.program n).machine.run s schedule = some s' ∧ ForkChain.Ended s') ∧
      ∀ text, (∃ s, (RecursiveFork.program n).machine.Reachable (fun _ _ => True) s ∧ ForkChain.Ended s ∧
        s.shared = text) ↔ RecursiveFork.Leaves n text := by
  have anything (k : ℕ) (choice : RecursiveFork.Choice) (l : RecursiveFork.Local) :
      RecursiveFork.permits (fun _ _ => True) k choice l := fun _ _ => trivial
  constructor
  · intro s reachable
    have permitted : (RecursiveFork.program n).machine.Reachable
        (ForkChain.Permitted (RecursiveFork.permits fun _ _ => True)) s :=
      reachable.mono fun _ _ _ _ _ => anything _ _ _
    constructor
    · cases ForkChain.ordered_of_reachable (RecursiveFork.discipline n _) permitted with
      | running _ here => exact here.begins
      | exited _ printed => exact ⟨_, printed.leaves, List.prefix_rfl⟩
    · obtain ⟨schedule, s', ran, ended, -⟩ := ForkChain.exists_ended (RecursiveFork.discipline n _)
        (RecursiveFork.progress small fun _ => ⟨none, trivial⟩) permitted
      exact ⟨schedule, s', ran, ended⟩
  · apply ForkChain.exists_left_iff (fun text => text) RecursiveFork.permits anything
    · intro s reachable ended
      exact (ForkChain.ordered_of_reachable (RecursiveFork.discipline n _) reachable).final ended
    · intro outcomes possible
      exact ForkChain.exists_ended (RecursiveFork.discipline n outcomes) (RecursiveFork.progress small possible)
        (.start rfl)

/-- The first process cannot fork. -/
theorem recursive_fork_prints_error :
    ∃ s, (RecursiveFork.program 2).machine.Reachable (fun _ _ => True) s ∧ ForkChain.Ended s ∧
      s.shared = Stdio.ascii "1 fork error: Resource temporarily unavailable\n" := by
  apply ((recursive_fork_prints_iff (by decide)).2 _).mpr
  exact .inr ⟨0, "Resource temporarily unavailable", by decide, by decide⟩

end Hseos.Fork
