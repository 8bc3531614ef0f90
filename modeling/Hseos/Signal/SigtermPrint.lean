import Hseos.Lib.Machine
import Mathlib.Data.List.Count
import Mathlib.Data.List.Infix

/-! # Signals that are acknowledged

Two programs print `received` after a signal. One has SIGTERM blocked but for its `sigsuspend`; the handler may run
before it is blocked, and then the flag is looked at behind the next signal only. The other one polls its flag with
SIGTERM unblocked, and the handler may run between any two of its steps.
-/

namespace Hseos.Signal

section Masked

/-- A line of the program that blocks the signal: of its handler, of its loop, and with what `strerror`
returns. -/
inductive TermLine where
  | sig
  | received
  | error
deriving DecidableEq

inductive TermPc where
  | signal
  | sigprocmask
  | sigsuspend
  | test
  | clear
  | print
  | sleep
  | strerror
  | killed
deriving DecidableEq

/-- The program behind its first line, with the pending signal. -/
structure SigtermPrint where
  pc : TermPc
  received : Bool
  pending : Bool
  lines : List TermLine

inductive TermAction where
  | send
  | deliver
  | main

namespace SigtermPrint

def handler (s : SigtermPrint) : SigtermPrint :=
  { s with received := true, pending := false, lines := s.lines ++ [.sig] }

/-- One step of `main`, which `sigsuspend` stops, or the delivery of the signal where it is not blocked. -/
def step (s : SigtermPrint) : TermAction → Option SigtermPrint
  | .send => some { s with pending := true }
  | .deliver =>
      if s.pending then
        match s.pc with
        | .signal => some { s with pc := .killed }
        | .sigprocmask => some s.handler
        | .sigsuspend => some { s.handler with pc := .test }
        | .test | .clear | .print | .sleep | .strerror | .killed => none
      else none
  | .main =>
      match s.pc with
      | .signal => some { s with pc := .sigprocmask }
      | .sigprocmask => some { s with pc := .sigsuspend }
      | .sigsuspend | .killed => none
      | .test => some { s with pc := if s.received then .clear else .sigsuspend }
      | .clear => some { s with pc := .print, received := false }
      | .print => some { s with pc := .sleep, lines := s.lines ++ [.received] }
      | .sleep => some { s with pc := .strerror }
      | .strerror => some { s with pc := .sigsuspend, lines := s.lines ++ [.error] }

end SigtermPrint

/-- All orders of the steps and the signals. -/
def sigtermPrint : Machine SigtermPrint TermAction where
  start s := s = ⟨.signal, false, false, []⟩
  step := SigtermPrint.step

namespace SigtermPrint

variable {s s' : SigtermPrint} {early acknowledged : ℕ}

/-- The lines for signals before the mask, and for those that `sigsuspend` has waited for. -/
def lines_ (early acknowledged : ℕ) : List TermLine :=
  List.replicate early .sig ++ (List.replicate acknowledged [TermLine.sig, .received, .error]).flatten

theorem lines_early (early : ℕ) : lines_ early 0 ++ [.sig] = lines_ (early + 1) 0 := by
  simp [lines_, List.replicate_succ']

theorem lines_acknowledged (early acknowledged : ℕ) :
    lines_ early acknowledged ++ [.sig] ++ [.received] ++ [.error] = lines_ early (acknowledged + 1) := by
  simp [lines_, List.replicate_succ']

/-- The lines behind those of the signals that are done with. -/
inductive Prints : SigtermPrint → Prop
  | early {pc : TermPc} {received pending : Bool} (early : ℕ) (before : pc = .signal ∨ pc = .sigprocmask ∨ pc = .killed) :
      Prints ⟨pc, received, pending, lines_ early 0⟩
  | waits {received pending : Bool} (early acknowledged : ℕ) :
      Prints ⟨.sigsuspend, received, pending, lines_ early acknowledged⟩
  | test {pending : Bool} (early acknowledged : ℕ) :
      Prints ⟨.test, true, pending, lines_ early acknowledged ++ [.sig]⟩
  | owes {pc : TermPc} {received pending : Bool} (early acknowledged : ℕ) (owes : pc = .clear ∨ pc = .print) :
      Prints ⟨pc, received, pending, lines_ early acknowledged ++ [.sig]⟩
  | sleeps {pc : TermPc} {received pending : Bool} (early acknowledged : ℕ) (sleeps : pc = .sleep ∨ pc = .strerror) :
      Prints ⟨pc, received, pending, lines_ early acknowledged ++ [.sig] ++ [.received]⟩

theorem Prints.step {a : TermAction} (prints : Prints s) (moved : s.step a = some s') : Prints s' := by
  cases prints with
  | @early pc received pending early before =>
    cases a with
    | send =>
      cases moved
      exact .early early before
    | deliver =>
      simp only [SigtermPrint.step] at moved
      split_ifs at moved
      rcases before with rfl | rfl | rfl
      · cases moved
        exact .early early (.inr (.inr rfl))
      · cases moved
        simp only [handler, lines_early]
        exact .early (early + 1) (.inr (.inl rfl))
      · cases moved
    | main =>
      rcases before with rfl | rfl | rfl
      · cases moved
        exact .early early (.inr (.inl rfl))
      · cases moved
        exact .waits early 0
      · cases moved
  | waits early acknowledged =>
    cases a with
    | send =>
      cases moved
      exact .waits early acknowledged
    | deliver =>
      simp only [SigtermPrint.step] at moved
      split_ifs at moved
      cases moved
      exact .test early acknowledged
    | main => cases moved
  | test early acknowledged =>
    cases a with
    | send =>
      cases moved
      exact .test early acknowledged
    | deliver =>
      simp only [SigtermPrint.step] at moved
      split_ifs at moved
    | main =>
      cases moved
      exact .owes early acknowledged (.inl rfl)
  | owes early acknowledged owes =>
    cases a with
    | send =>
      cases moved
      exact .owes early acknowledged owes
    | deliver =>
      simp only [SigtermPrint.step] at moved
      split_ifs at moved
      rcases owes with rfl | rfl <;> cases moved
    | main =>
      rcases owes with rfl | rfl
      · cases moved
        exact .owes early acknowledged (.inr rfl)
      · cases moved
        exact .sleeps early acknowledged (.inl rfl)
  | sleeps early acknowledged sleeps =>
    cases a with
    | send =>
      cases moved
      exact .sleeps early acknowledged sleeps
    | deliver =>
      simp only [SigtermPrint.step] at moved
      split_ifs at moved
      rcases sleeps with rfl | rfl <;> cases moved
    | main =>
      rcases sleeps with rfl | rfl
      · cases moved
        exact .sleeps early acknowledged (.inr rfl)
      · cases moved
        simp only [lines_acknowledged]
        exact .waits early (acknowledged + 1)

/-- A step prints at most one line. -/
theorem step_lines {a : TermAction} (moved : s.step a = some s') :
    s'.lines = s.lines ∨ ∃ line, s'.lines = s.lines ++ [line] := by
  cases a with
  | send =>
    cases moved
    exact .inl rfl
  | deliver =>
    simp only [step] at moved
    split_ifs at moved
    split at moved <;> cases moved
    · exact .inl rfl
    · exact .inr ⟨_, rfl⟩
    · exact .inr ⟨_, rfl⟩
  | main =>
    simp only [step] at moved
    split at moved <;> cases moved
    · exact .inl rfl
    · exact .inl rfl
    · exact .inl rfl
    · exact .inl rfl
    · exact .inr ⟨_, rfl⟩
    · exact .inl rfl
    · exact .inr ⟨_, rfl⟩

/-- Signals come before the mask. -/
theorem reachable_early (early : ℕ) :
    sigtermPrint.Reachable (fun _ _ => True) ⟨.sigprocmask, 0 < early, false, lines_ early 0⟩ := by
  induction early with
  | zero => exact .step (a := .main) (.start rfl) trivial rfl
  | succ early ih =>
    have ran : sigtermPrint.run ⟨.sigprocmask, 0 < early, false, lines_ early 0⟩ [.send, .deliver] =
        some ⟨.sigprocmask, true, false, lines_ early 0 ++ [.sig]⟩ := rfl
    rw [lines_early] at ran
    rw [decide_eq_true early.succ_pos]
    exact ih.run (fun _ _ _ => trivial) ran

/-- Signals come to `sigsuspend`. -/
theorem reachable_waits (early acknowledged : ℕ) : ∃ received,
    sigtermPrint.Reachable (fun _ _ => True) ⟨.sigsuspend, received, false, lines_ early acknowledged⟩ := by
  induction acknowledged with
  | zero => exact ⟨_, .step (a := .main) (reachable_early early) trivial rfl⟩
  | succ acknowledged ih =>
    obtain ⟨received, reachable⟩ := ih
    have ran : sigtermPrint.run ⟨.sigsuspend, received, false, lines_ early acknowledged⟩
        [.send, .deliver, .main, .main, .main, .main, .main] = some ⟨.sigsuspend, false, false,
          lines_ early acknowledged ++ [.sig] ++ [.received] ++ [.error]⟩ := rfl
    rw [lines_acknowledged] at ran
    exact ⟨false, reachable.run (fun _ _ _ => trivial) ran⟩

theorem Prints.begins (prints : Prints s) : ∃ early acknowledged, s.lines <+: lines_ early acknowledged := by
  cases prints with
  | early early => exact ⟨early, 0, List.prefix_rfl⟩
  | waits early acknowledged => exact ⟨early, acknowledged, List.prefix_rfl⟩
  | test early acknowledged | owes early acknowledged | sleeps early acknowledged =>
    refine ⟨early, acknowledged + 1, ?_⟩
    rw [← lines_acknowledged]
    simp

end SigtermPrint

/-- The program that blocks the signal prints `received` once for each signal that `sigsuspend` has waited for,
and never for those that came before: these are the texts it can have printed, whenever the signals come. -/
theorem sigterm_print_prints_iff (lines : List TermLine) :
    (∃ s, sigtermPrint.Reachable (fun _ _ => True) s ∧ s.lines = lines) ↔
      ∃ early acknowledged, lines <+: List.replicate early .sig ++
        (List.replicate acknowledged [TermLine.sig, .received, .error]).flatten := by
  constructor
  · rintro ⟨s, reachable, rfl⟩
    have prints : SigtermPrint.Prints s := by
      apply reachable.invariant
      · rintro s rfl
        exact .early 0 (.inl rfl)
      · intro s s' a _ prints moved
        exact prints.step moved
    exact prints.begins
  · rintro ⟨early, acknowledged, begins⟩
    obtain ⟨received, reachable⟩ := SigtermPrint.reachable_waits early acknowledged
    apply reachable.exists_prefix SigtermPrint.lines _ _ begins
    · rintro s rfl
      rfl
    · intro s s' a moved
      exact SigtermPrint.step_lines moved

end Masked

section Polling

/-- What happens in the program that polls: a run of the handler, and the lines of the loop. -/
inductive PollEvent where
  | handler
  | received
  | error
deriving DecidableEq

inductive PollPc where
  | signal
  | test
  | clear
  | print
  | sleep
  | strerror
  | killed
deriving DecidableEq

structure SigtermPoll where
  pc : PollPc
  received : Bool
  log : List PollEvent

/-- A step of `main`, where `sleep` returns zero when its time has come; or the handler, with whether the
`sleep` that it interrupts has a second left. -/
inductive PollAction where
  | main
  | handler (left : Bool)

namespace SigtermPoll

def step (s : SigtermPoll) : PollAction → Option SigtermPoll
  | .main =>
      match s.pc with
      | .signal => some { s with pc := .test }
      | .test => some { s with pc := if s.received then .clear else .test }
      | .clear => some { s with pc := .print, received := false }
      | .print => some { s with pc := .sleep, log := s.log ++ [.received] }
      | .sleep => some { s with pc := .test }
      | .strerror => some { s with pc := .sleep, log := s.log ++ [.error] }
      | .killed => none
  | .handler left =>
      match s.pc with
      | .signal => some { s with pc := .killed }
      | .sleep =>
          some { s with pc := if left then .strerror else .test, received := true, log := s.log ++ [.handler] }
      | .test | .clear | .print | .strerror => some { s with received := true, log := s.log ++ [.handler] }
      | .killed => none

end SigtermPoll

/-- All orders of the steps and the signals. -/
def sigtermPoll : Machine SigtermPoll PollAction where
  start s := s = ⟨.signal, false, []⟩
  step := SigtermPoll.step

namespace SigtermPoll

variable {s s' : SigtermPoll}

/-- The handler has run behind the last line `received`. -/
def Owes (s : SigtermPoll) : Prop := .handler ∈ s.log.reverse.takeWhile (· ≠ .received)

/-- The flag is set, or the loop has seen it and not printed its line. -/
def Knows (s : SigtermPoll) : Prop :=
  s.received = true ∧ s.pc ≠ .signal ∧ s.pc ≠ .killed ∨ s.pc = .clear ∨ s.pc = .print

/-- The lines that were printed and those that the program knows of. -/
def lines (s : SigtermPoll) : ℕ :=
  s.log.count .received +
    match s.pc with
    | .clear => 1
    | .print => 1 + s.received.toNat
    | .signal | .test | .sleep | .strerror | .killed => s.received.toNat

/-- A signal is not forgotten, and a line is not printed without one. -/
structure Acknowledges (s : SigtermPoll) : Prop where
  fresh : s.pc = .signal ∨ s.pc = .killed → s.log = []
  knows : s.Owes → s.Knows
  clear : s.pc = .clear → s.received = true
  bounded : s.lines ≤ s.log.count .handler

theorem owes_error (pc : PollPc) (received : Bool) (log : List PollEvent) :
    Owes ⟨pc, received, log ++ [.error]⟩ ↔ Owes ⟨pc, received, log⟩ := by
  simp [Owes]

theorem not_owes_received (pc : PollPc) (received : Bool) (log : List PollEvent) :
    ¬Owes ⟨pc, received, log ++ [.received]⟩ := by
  simp [Owes]

theorem Acknowledges.step {a : PollAction} (acknowledges : s.Acknowledges) (moved : s.step a = some s') :
    s'.Acknowledges := by
  obtain ⟨pc, received, log⟩ := s
  obtain ⟨fresh, knows, clear, bounded⟩ := acknowledges
  cases a with
  | main =>
    cases pc with
    | signal =>
      obtain rfl : log = [] := fresh (.inl rfl)
      cases moved
      exact ⟨by simp, nofun, nofun, bounded⟩
    | test =>
      cases moved
      cases received with
      | true => exact ⟨by simp, fun _ => .inr (.inl rfl), fun _ => rfl, bounded⟩
      | false => exact ⟨by simp, knows, nofun, bounded⟩
    | clear =>
      cases moved
      refine ⟨by simp, fun _ => .inr (.inr rfl), nofun, ?_⟩
      simpa [lines] using bounded
    | print =>
      cases moved
      refine ⟨by simp, fun owes => absurd owes (not_owes_received _ _ _), nofun, ?_⟩
      simp only [lines, List.count_append, List.count_singleton_self] at bounded ⊢
      simp only [List.count_singleton, beq_iff_eq, reduceCtorEq, if_false]
      omega
    | sleep =>
      cases moved
      refine ⟨by simp, ?_, nofun, bounded⟩
      intro owes
      simpa [Knows] using knows owes
    | strerror =>
      cases moved
      refine ⟨by simp, ?_, nofun, ?_⟩
      · intro owes
        simpa [Knows] using knows ((owes_error ..).mp owes)
      · simpa [lines] using bounded
    | killed => cases moved
  | handler left =>
    cases pc with
    | signal =>
      obtain rfl : log = [] := fresh (.inl rfl)
      cases moved
      exact ⟨fun _ => rfl, nofun, nofun, bounded⟩
    | test | clear | print | strerror =>
      cases moved
      refine ⟨by simp, fun _ => .inl ⟨rfl, nofun, nofun⟩, fun _ => rfl, ?_⟩
      simp only [lines, List.count_append, List.count_singleton_self] at bounded ⊢
      simp only [List.count_singleton, beq_iff_eq, reduceCtorEq, if_false, Bool.toNat_true]
      omega
    | sleep =>
      cases moved
      cases left
      all_goals
        refine ⟨by simp, fun _ => .inl ⟨rfl, nofun, nofun⟩, fun _ => rfl, ?_⟩
        simp only [lines, List.count_append, List.count_singleton_self] at bounded ⊢
        simp only [List.count_singleton, beq_iff_eq, reduceCtorEq, if_false, Bool.toNat_true, if_true,
          Bool.false_eq_true]
        omega
    | killed => cases moved

theorem acknowledges_of_reachable (reachable : sigtermPoll.Reachable (fun _ _ => True) s) : s.Acknowledges := by
  apply reachable.invariant
  · rintro s rfl
    exact ⟨fun _ => rfl, nofun, nofun, le_rfl⟩
  · intro s s' a _ acknowledges moved
    exact acknowledges.step moved

/-- Without another signal the loop comes to its line. -/
theorem Knows.exists_run (knows : s.Knows) :
    ∃ n s' errors, sigtermPoll.run s (List.replicate n .main) = some s' ∧
      s'.log = s.log ++ List.replicate errors .error ++ [.received] ∧ ¬s'.Owes := by
  obtain ⟨pc, received, log⟩ := s
  have owes := not_owes_received .sleep false
  cases pc with
  | signal | killed => simp [Knows] at knows
  | test =>
    obtain rfl : received = true := by simpa [Knows] using knows
    exact ⟨3, ⟨.sleep, false, log ++ [.received]⟩, 0, rfl, by simp, owes log⟩
  | clear => exact ⟨2, ⟨.sleep, false, log ++ [.received]⟩, 0, rfl, by simp, owes log⟩
  | print => exact ⟨1, ⟨.sleep, received, log ++ [.received]⟩, 0, rfl, by simp, not_owes_received _ _ _⟩
  | sleep =>
    obtain rfl : received = true := by simpa [Knows] using knows
    exact ⟨4, ⟨.sleep, false, log ++ [.received]⟩, 0, rfl, by simp, owes log⟩
  | strerror =>
    obtain rfl : received = true := by simpa [Knows] using knows
    exact ⟨5, ⟨.sleep, false, log ++ [.error] ++ [.received]⟩, 1, rfl, rfl, owes (log ++ [.error])⟩

end SigtermPoll

/-- Wherever the handler runs, the program that polls is left with a set flag or with its line before it: when
the handler has run behind the last line `received`, the loop prints another one by itself. It does not print
more of these lines than there were runs of the handler. -/
theorem sigterm_poll_acknowledges {s : SigtermPoll} (reachable : sigtermPoll.Reachable (fun _ _ => True) s) :
    s.log.count .received ≤ s.log.count .handler ∧
      (s.Owes → ∃ n s' errors, sigtermPoll.run s (List.replicate n .main) = some s' ∧
        s'.log = s.log ++ List.replicate errors .error ++ [.received] ∧ ¬s'.Owes) := by
  have acknowledges := SigtermPoll.acknowledges_of_reachable reachable
  constructor
  · exact (Nat.le_add_right _ _).trans acknowledges.bounded
  · intro owes
    exact (acknowledges.knows owes).exists_run

/-- The handler runs between the test of the flag and its reset, and again while the program sleeps. -/
theorem sigterm_poll_acknowledges_two : ∃ s, sigtermPoll.Reachable (fun _ _ => True) s ∧ s.Owes ∧
    s.log = [.handler, .handler, .received, .handler] ∧ s.log.count .received ≤ s.log.count .handler := by
  obtain ⟨s, ran, log⟩ : ∃ s, sigtermPoll.run ⟨.signal, false, []⟩ [.main, .handler false, .main, .handler false, .main,
      .main, .handler true] = some s ∧ s.log = [.handler, .handler, .received, .handler] := ⟨_, rfl, rfl⟩
  have reachable : sigtermPoll.Reachable (fun _ _ => True) s := .run (.start rfl) (fun _ _ _ => trivial) ran
  refine ⟨s, reachable, ?_, log, (sigterm_poll_acknowledges reachable).1⟩
  rw [SigtermPoll.Owes, log]
  decide

end Polling

end Hseos.Signal
