import Hseos.Lib.Machine
import Mathlib.Data.Finset.Basic
import Mathlib.Data.Finset.Insert

/-! # Signal readers that share one slot

`sr_acquire` blocks the signals of a reader and sets their handler, `sr_release` restores the mask from before and
then the default handling, and `sr_read` waits with the mask from before. All readers of the program share
`sr_exists` and `sr_last_signal`: a handler that runs outside of `sr_read`, as when a pending signal is
unblocked in `sr_release`, leaves its signal for whichever `sr_read` comes next.

A signal that arrives is pending, once. The handler of an unblocked one may run between any two steps of the program
and of other handlers, with the signal itself blocked. A signal that does not have the handler may be ignored;
where it ends the program, the run ends.
-/

namespace Hseos.SharedReaders

variable {ι : Type*} [DecidableEq ι]

/-- What the history of a program shows; the latest event comes first. -/
inductive Event (ι : Type*) where
  | acquired (reader : ι)
  | delivered (signal : ℕ)
  | returned (reader : ι) (signal : ℕ)
deriving DecidableEq

/-- Where the program is in `sr_read`, and whether a handler has run in `sigsuspend`. -/
inductive ReadPlace where
  | test
  | suspended (interrupted : Bool)
  | clear
  | fetch
deriving DecidableEq

/-- The function the program is in, for the reader it was called with; the loops that set how signals are handled
have come to `i`. -/
inductive Pc (ι : Type*) where
  | outside
  | acquiring (reader : ι) (i : ℕ)
  | releasing (reader : ι) (i : ℕ)
  | reading (reader : ι) (place : ReadPlace)
deriving DecidableEq

/-- The reader that `sr_read` was called with. -/
def Pc.reader : Pc ι → Option ι
  | .reading r _ => some r
  | .outside | .acquiring .. | .releasing .. => none

/-- A call of `sr_sighandler`, and whether it has set `sr_exists`. -/
structure Handler where
  sig : ℕ
  stored : Bool
deriving DecidableEq

/-- The program with its blocked signals, those that have the handler and those that are pending, the handlers that
run (the innermost first), `old_set` of each reader, and the variables. -/
structure Program (ι : Type*) where
  pc : Pc ι
  mask : Finset ℕ
  caught : Finset ℕ
  pending : Finset ℕ
  running : List Handler
  oldSet : ι → Finset ℕ
  srExists : Bool
  srLastSignal : ℕ
  log : List (Event ι)

inductive Action (ι : Type*) where
  | arrive (sig : ℕ)
  | ignore (sig : ℕ)
  | deliver (sig : ℕ)
  | handle
  | acquire (reader : ι)
  | release (reader : ι)
  | read (reader : ι)
  | step

/-- `_NSIG`. -/
def nsig : ℕ := 65

/-- `SIGKILL` and `SIGSTOP`, which are neither blocked nor caught. -/
def uncatchable : Finset ℕ := {9, 19}

namespace Program

/-- The signals that are blocked now: `sigsuspend` replaces the mask, and a handler adds its own signal. -/
def blocked (p : Program ι) : Finset ℕ :=
  (match p.pc with
    | .reading r (.suspended _) => p.oldSet r
    | .outside | .acquiring .. | .releasing .. | .reading .. => p.mask) ∪ (p.running.map Handler.sig).toFinset

/-- `signal(sig, &sr_sighandler)` or `signal(sig, SIG_DFL)`. -/
def signal (p : Program ι) (sig : ℕ) (handler : Bool) : Program ι :=
  { p with caught :=
      if sig ∈ uncatchable then p.caught else if handler then insert sig p.caught else p.caught.erase sig }

/-- The handler of an unblocked signal starts, and `sigsuspend` is to return. -/
def deliver (p : Program ι) (sig : ℕ) : Option (Program ι) :=
  if sig ∈ p.pending ∧ sig ∈ p.caught ∧ sig ∉ p.blocked then
    some { p with
      pending := p.pending.erase sig, running := ⟨sig, false⟩ :: p.running, log := .delivered sig :: p.log
      pc := match p.pc with
        | .reading r (.suspended _) => .reading r (.suspended true)
        | pc => pc }
  else none

/-- One step of `sr_sighandler`. -/
def srSighandler (p : Program ι) : Option (Program ι) :=
  match p.running with
  | [] => none
  | ⟨sig, false⟩ :: rest => some { p with srExists := true, running := ⟨sig, true⟩ :: rest }
  | ⟨sig, true⟩ :: rest => some { p with srLastSignal := sig, running := rest }

variable (targetSet : ι → Finset ℕ)

/-- `sigprocmask` of `sr_acquire`. -/
def srAcquire (p : Program ι) (r : ι) : Program ι :=
  { p with
    pc := .acquiring r 1, mask := p.mask ∪ (targetSet r \ uncatchable),
    oldSet := Function.update p.oldSet r p.mask, log := .acquired r :: p.log }

/-- `sigprocmask` of `sr_release`. -/
def srRelease (p : Program ι) (r : ι) : Program ι := { p with pc := .releasing r 1, mask := p.oldSet r }

/-- One step of `sr_read`. -/
def srRead (p : Program ι) (r : ι) : ReadPlace → Option (Program ι)
  | .test => some { p with pc := .reading r (if p.srExists then .clear else .suspended false) }
  | .suspended interrupted => if interrupted then some { p with pc := .reading r .test } else none
  | .clear => some { p with pc := .reading r .fetch, srExists := false }
  | .fetch => some { p with pc := .outside, log := .returned r p.srLastSignal :: p.log }

/-- The next step of the function the program is in. -/
def next (p : Program ι) : Option (Program ι) :=
  match p.pc with
  | .outside => none
  | .acquiring r i =>
      some (if i < nsig then { (if i ∈ targetSet r then p.signal i true else p) with pc := .acquiring r (i + 1) }
        else { p with pc := .outside })
  | .releasing r i =>
      some (if i < nsig then { (if i ∈ targetSet r then p.signal i false else p) with pc := .releasing r (i + 1) }
        else { p with pc := .outside })
  | .reading r place => p.srRead r place

/-- A function is called when the last one has returned and no handler runs. -/
def call (p : Program ι) (called : Program ι) : Option (Program ι) :=
  if p.pc = .outside ∧ p.running = [] then some called else none

def step (p : Program ι) : Action ι → Option (Program ι)
  | .arrive sig => some { p with pending := insert sig p.pending }
  | .ignore sig => if sig ∈ p.caught then none else some { p with pending := p.pending.erase sig }
  | .deliver sig => p.deliver sig
  | .handle => p.srSighandler
  | .acquire r => p.call (p.srAcquire targetSet r)
  | .release r => p.call (p.srRelease r)
  | .read r => p.call { p with pc := .reading r .test }
  | .step => if p.running = [] then p.next targetSet else none

end Program

/-- All histories of calls and signals, from a program that has not used a reader. -/
def readers (targetSet : ι → Finset ℕ) : Machine (Program ι) (Action ι) where
  start p := ∃ mask pending oldSet, p = ⟨.outside, mask, ∅, pending, [], oldSet, false, 0, []⟩
  step := Program.step targetSet

/-- What has happened since the latest `sr_acquire` of a reader. -/
def since (r : ι) (log : List (Event ι)) : List (Event ι) := log.takeWhile (· ≠ .acquired r)

/-- The signal belongs to the reader and was delivered after the latest `sr_acquire` of it. -/
def Recent (targetSet : ι → Finset ℕ) (log : List (Event ι)) (r : ι) (sig : ℕ) : Prop :=
  sig ∈ targetSet r ∧ .acquired r ∈ log ∧ .delivered sig ∈ since r log

instance (targetSet : ι → Finset ℕ) (log : List (Event ι)) (r : ι) (sig : ℕ) :
    Decidable (Recent targetSet log r sig) := instDecidableAnd

/-- `sr_read` is called on an acquired reader, with no signal left by a handler but one that is its own and recent;
and it is interrupted by handlers of its own signals only. -/
def Undisturbed (targetSet : ι → Finset ℕ) (p : Program ι) : Action ι → Prop
  | .read r => .acquired r ∈ p.log ∧ (p.srExists = true → Recent targetSet p.log r p.srLastSignal)
  | .deliver sig => ∀ r ∈ p.pc.reader, p.running = [] → sig ∈ targetSet r
  | .arrive _ | .ignore _ | .handle | .acquire _ | .release _ | .step => True

instance (targetSet : ι → Finset ℕ) (p : Program ι) : DecidablePred (Undisturbed targetSet p) := fun a =>
  match a with
  | .read _ => instDecidableAnd
  | .deliver _ => Option.decidableForallMem _
  | .arrive _ | .ignore _ | .handle | .acquire _ | .release _ | .step => instDecidableTrue

section Log

variable {targetSet : ι → Finset ℕ} {log later past : List (Event ι)} {e : Event ι} {r : ι} {sig : ℕ}

/-- A signal stays recent until the reader is acquired again. -/
theorem Recent.cons (recent : Recent targetSet log r sig) (other : e ≠ .acquired r) :
    Recent targetSet (e :: log) r sig := by
  obtain ⟨own, acquired, delivered⟩ := recent
  refine ⟨own, List.mem_cons_of_mem _ acquired, ?_⟩
  rw [since, List.takeWhile_cons_of_pos (by simpa using other)]
  exact List.mem_cons_of_mem _ delivered

theorem Recent.delivered (own : sig ∈ targetSet r) (acquired : .acquired r ∈ log) :
    Recent targetSet (.delivered sig :: log) r sig := by
  refine ⟨own, List.mem_cons_of_mem _ acquired, ?_⟩
  rw [since, List.takeWhile_cons_of_pos (by simp)]
  exact List.mem_cons_self

/-- Every signal that was returned was recent. -/
def Correct (targetSet : ι → Finset ℕ) : List (Event ι) → Prop
  | [] => True
  | .returned r sig :: past => Recent targetSet past r sig ∧ Correct targetSet past
  | .acquired _ :: past | .delivered _ :: past => Correct targetSet past

theorem Correct.recent (correct : Correct targetSet (later ++ .returned r sig :: past)) :
    Recent targetSet past r sig := by
  induction later with
  | nil => exact correct.1
  | cons e later ih =>
    apply ih
    cases e with
    | returned => exact correct.2
    | acquired => exact correct
    | delivered => exact correct

end Log

omit [DecidableEq ι] in
theorem Pc.exists_place {pc : Pc ι} {r : ι} (inside : r ∈ pc.reader) : ∃ place, pc = .reading r place := by
  cases pc with
  | reading r' place =>
    cases inside
    exact ⟨place, rfl⟩
  | outside | acquiring | releasing => cases inside

namespace Program

variable {targetSet : ι → Finset ℕ} {p p' : Program ι} {r : ι} {place : ReadPlace} {sig : ℕ}

/-- The signal that `sr_read` finds in the variables, if it finds one, is recent. -/
def Stored (targetSet : ι → Finset ℕ) (p : Program ι) (r : ι) : ReadPlace → Prop
  | .test | .suspended _ => p.srExists = true → Recent targetSet p.log r p.srLastSignal
  | .clear | .fetch => Recent targetSet p.log r p.srLastSignal

/-- In `sr_read` the signal of the outermost handler, which is stored last, is recent. -/
structure Reading (targetSet : ι → Finset ℕ) (p : Program ι) (r : ι) (place : ReadPlace) : Prop where
  acquired : .acquired r ∈ p.log
  outermost : ∀ h, p.running.getLast? = some h → Recent targetSet p.log r h.sig
  stored : p.running = [] → p.Stored targetSet r place

structure Sound (targetSet : ι → Finset ℕ) (p : Program ι) : Prop where
  correct : Correct targetSet p.log
  reading : ∀ r place, p.pc = .reading r place → p.Reading targetSet r place

/-- A handler that starts in `sr_read`. -/
theorem Reading.deliver {place' : ReadPlace} (reading : p.Reading targetSet r place)
    (own : p.running = [] → sig ∈ targetSet r) (pc : Pc ι) (pending : Finset ℕ) :
    Reading targetSet { p with
      pc := pc, pending := pending, running := ⟨sig, false⟩ :: p.running
      log := .delivered sig :: p.log } r place' := by
  refine ⟨List.mem_cons_of_mem _ reading.acquired, ?_, nofun⟩
  intro h last
  cases running : p.running with
  | nil =>
    simp only [running, List.getLast?_singleton, Option.some_inj] at last
    rw [← last]
    exact .delivered (own running) reading.acquired
  | cons inner rest =>
    simp only [running, List.getLast?_cons_cons] at last
    exact (reading.outermost h (running ▸ last)).cons nofun

/-- A handler that sets `sr_exists` still is to store its signal. -/
theorem Reading.set {rest : List Handler} (reading : p.Reading targetSet r place)
    (innermost : p.running = ⟨sig, false⟩ :: rest) :
    Reading targetSet { p with srExists := true, running := ⟨sig, true⟩ :: rest } r place := by
  obtain ⟨acquired, outermost, -⟩ := reading
  rw [innermost] at outermost
  refine ⟨acquired, ?_, nofun⟩
  intro h last
  cases rest with
  | nil =>
    cases last
    exact outermost ⟨sig, false⟩ rfl
  | cons outer rest => exact outermost h last

/-- A handler stores its signal: the outermost one leaves what `sr_read` may return. -/
theorem Reading.store {rest : List Handler} (reading : p.Reading targetSet r place)
    (innermost : p.running = ⟨sig, true⟩ :: rest) :
    Reading targetSet { p with srLastSignal := sig, running := rest } r place := by
  obtain ⟨acquired, outermost, -⟩ := reading
  rw [innermost] at outermost
  cases rest with
  | nil =>
    have recent : Recent targetSet p.log r sig := outermost ⟨sig, true⟩ rfl
    refine ⟨acquired, nofun, fun _ => ?_⟩
    cases place with
    | test => exact fun _ => recent
    | suspended => exact fun _ => recent
    | clear => exact recent
    | fetch => exact recent
  | cons outer rest => exact ⟨acquired, outermost, nofun⟩

theorem Sound.deliver (sound : p.Sound targetSet) (undisturbed : Undisturbed targetSet p (.deliver sig))
    (moved : p.deliver sig = some p') : p'.Sound targetSet := by
  obtain ⟨-, leads⟩ := Option.ite_none_right_eq_some.mp moved
  cases leads
  refine ⟨sound.correct, ?_⟩
  intro r place at_
  cases pc : p.pc with
  | outside => simp [pc] at at_
  | acquiring => simp [pc] at at_
  | releasing => simp [pc] at at_
  | reading r' place' =>
    have own := undisturbed r' (congrArg Pc.reader pc)
    have same : r' = r := by cases place' <;> simp only [pc, Pc.reading.injEq] at at_ <;> exact at_.1
    subst same
    exact (sound.reading r' place' pc).deliver own _ _

theorem Sound.srSighandler (sound : p.Sound targetSet) (moved : p.srSighandler = some p') : p'.Sound targetSet := by
  simp only [Program.srSighandler] at moved
  split at moved
  · cases moved
  · rename_i sig rest innermost
    cases moved
    exact ⟨sound.correct, fun r place at_ => (sound.reading r place at_).set innermost⟩
  · rename_i sig rest innermost
    cases moved
    exact ⟨sound.correct, fun r place at_ => (sound.reading r place at_).store innermost⟩

/-- The steps of `sr_read`, while no handler runs. -/
theorem Sound.srRead (sound : p.Sound targetSet) (alone : p.running = []) (at_ : p.pc = .reading r place)
    (moved : p.srRead r place = some p') : p'.Sound targetSet := by
  obtain ⟨acquired, outermost, stored⟩ := sound.reading r place at_
  cases place with
  | test =>
    cases moved
    refine ⟨sound.correct, ?_⟩
    rintro r place ⟨⟩
    refine ⟨acquired, outermost, fun _ => ?_⟩
    cases found : p.srExists with
    | false => exact nofun
    | true => exact stored alone found
  | suspended interrupted =>
    simp only [Program.srRead] at moved
    split_ifs at moved
    cases moved
    refine ⟨sound.correct, ?_⟩
    rintro r place ⟨⟩
    exact ⟨acquired, outermost, stored⟩
  | clear =>
    cases moved
    refine ⟨sound.correct, ?_⟩
    rintro r place ⟨⟩
    exact ⟨acquired, outermost, stored⟩
  | fetch =>
    cases moved
    exact ⟨⟨stored alone, sound.correct⟩, nofun⟩

theorem Sound.next (sound : p.Sound targetSet) (alone : p.running = []) (moved : p.next targetSet = some p') :
    p'.Sound targetSet := by
  simp only [Program.next] at moved
  split at moved
  · cases moved
  · cases moved
    split_ifs <;> exact ⟨sound.correct, nofun⟩
  · cases moved
    split_ifs <;> exact ⟨sound.correct, nofun⟩
  · rename_i r place at_
    exact sound.srRead alone at_ moved

theorem Sound.step {a : Action ι} (sound : p.Sound targetSet) (undisturbed : Undisturbed targetSet p a)
    (moved : p.step targetSet a = some p') : p'.Sound targetSet := by
  cases a with
  | arrive sig =>
    cases moved
    refine ⟨sound.correct, fun r place at_ => ?_⟩
    obtain ⟨acquired, outermost, stored⟩ := sound.reading r place at_
    exact ⟨acquired, outermost, stored⟩
  | ignore sig =>
    obtain ⟨-, leads⟩ := Option.ite_none_left_eq_some.mp moved
    cases leads
    refine ⟨sound.correct, fun r place at_ => ?_⟩
    obtain ⟨acquired, outermost, stored⟩ := sound.reading r place at_
    exact ⟨acquired, outermost, stored⟩
  | deliver sig => exact sound.deliver undisturbed moved
  | handle => exact sound.srSighandler moved
  | acquire r =>
    obtain ⟨-, leads⟩ := Option.ite_none_right_eq_some.mp moved
    cases leads
    exact ⟨sound.correct, nofun⟩
  | release r =>
    obtain ⟨-, leads⟩ := Option.ite_none_right_eq_some.mp moved
    cases leads
    exact ⟨sound.correct, nofun⟩
  | read r =>
    obtain ⟨⟨-, alone⟩, leads⟩ := Option.ite_none_right_eq_some.mp moved
    cases leads
    refine ⟨sound.correct, ?_⟩
    rintro r place ⟨⟩
    refine ⟨undisturbed.1, ?_, fun _ => undisturbed.2⟩
    intro h last
    rw [alone] at last
    cases last
  | step =>
    obtain ⟨alone, leads⟩ := Option.ite_none_right_eq_some.mp moved
    exact sound.next alone leads

/-- A signal that `sr_read` has found is returned, if no other comes. -/
theorem exists_returned (targetSet : ι → Finset ℕ) (p : Program ι) (alone : p.running = [])
    (at_ : p.pc = .reading r place) (found : p.srExists = true ∨ place = .clear ∨ place = .fetch)
    (awake : place ≠ .suspended false) :
    ∃ schedule p', (readers targetSet).run p schedule = some p' ∧ p'.log = .returned r p.srLastSignal :: p.log := by
  obtain ⟨pc, mask, caught, pending, running, oldSet, srExists, srLastSignal, log⟩ := p
  cases at_
  cases alone
  cases place with
  | test =>
    obtain rfl : srExists = true := by simpa using found
    exact ⟨[.step, .step, .step], _, rfl, rfl⟩
  | suspended interrupted =>
    obtain rfl : srExists = true := by simpa using found
    cases interrupted with
    | false => exact absurd rfl awake
    | true => exact ⟨[.step, .step, .step, .step], _, rfl, rfl⟩
  | clear => exact ⟨[.step, .step], _, rfl, rfl⟩
  | fetch => exact ⟨[.step], _, rfl, rfl⟩

/-- After a step that disturbs the `sr_read` of an acquired reader, it may return a signal that is not recent. -/
theorem returns_of_disturbed {a : Action ι} (acquired : ∀ r, a = .read r → .acquired r ∈ p.log)
    (disturbed : ¬Undisturbed targetSet p a) (moved : p.step targetSet a = some p') :
    ∃ schedule p'' r sig past, (readers targetSet).run p' schedule = some p'' ∧
      p''.log = .returned r sig :: past ∧ ¬Recent targetSet past r sig := by
  cases a with
  | read r =>
    obtain ⟨⟨-, alone⟩, leads⟩ := Option.ite_none_right_eq_some.mp moved
    rw [Undisturbed, not_and, Classical.not_imp] at disturbed
    obtain ⟨unread, stale⟩ := disturbed (acquired r rfl)
    cases leads
    obtain ⟨schedule, p'', ran, returned⟩ :=
      exists_returned targetSet { p with pc := .reading r .test } alone rfl (.inl unread) nofun
    exact ⟨schedule, p'', r, _, _, ran, returned, stale⟩
  | deliver sig =>
    obtain ⟨-, leads⟩ := Option.ite_none_right_eq_some.mp moved
    cases leads
    simp only [Undisturbed, not_forall] at disturbed
    obtain ⟨r, inside, alone, foreign⟩ := disturbed
    obtain ⟨place, at_⟩ := Pc.exists_place inside
    obtain ⟨place', at', awake⟩ : ∃ place', (match p.pc with
        | .reading r (.suspended _) => Pc.reading r (.suspended true)
        | pc => pc) = .reading r place' ∧ place' ≠ .suspended false := by
      rw [at_]
      cases place with
      | suspended => exact ⟨_, rfl, nofun⟩
      | test | clear | fetch => exact ⟨_, rfl, nofun⟩
    obtain ⟨schedule, p'', ran, returned⟩ := exists_returned targetSet { p with
        pc := .reading r place', pending := p.pending.erase sig, running := [], srExists := true,
        srLastSignal := sig, log := .delivered sig :: p.log } rfl rfl (.inl rfl) awake
    refine ⟨.handle :: .handle :: schedule, p'', r, sig, _, ?_, returned, fun recent => foreign recent.1⟩
    rw [alone, at']
    exact ran
  | arrive | ignore | handle | acquire | release | step => exact absurd trivial disturbed

end Program

/-- No signal is blocked or pending at first. -/
def fresh : Program Unit := ⟨.outside, ∅, ∅, ∅, [], fun _ => ∅, false, 0, []⟩

end Hseos.SharedReaders
