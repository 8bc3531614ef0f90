import Hseos.Lib.Machine
import Mathlib.Data.Finset.Basic
import Mathlib.Data.Finset.Insert

/-! # Reading signals one by one

A reader blocks the signals of its target set and waits for them in `sigsuspend`, with the mask from
before. The handler stores the signal in `sr_last_signal`, and `sr_read` returns it. There is room for
one signal only: a second handler that runs in the same `sigsuspend` overwrites the first signal.

A blocked signal that arrives becomes pending, once. `sigsuspend` runs the handlers of the pending
signals that its mask does not block, in any order, and returns when one has run and none is left; signals
may arrive in the meantime. A signal outside of the target set has no handler and does not concern the
reader.
-/

namespace Hseos.Signal

/-- The masks of a `signal_reader_t` that was acquired. -/
structure SignalReader where
  targetSet : Finset ℕ
  oldSet : Finset ℕ

/-- Where the program is in `sr_read`, and whether a handler has run in `sigsuspend`. -/
inductive ReadPc where
  | outside
  | test
  | suspended (interrupted : Bool)
  | clear
  | fetch
deriving DecidableEq

/-- The program with its pending signals and its variables, the signals whose handler has run and those
that `sr_read` has returned. -/
structure ReaderState where
  pc : ReadPc
  pending : Finset ℕ
  srExists : Bool
  srLastSignal : ℕ
  handled : List ℕ
  returned : List ℕ

/-- A signal arrives or is handled, or the program calls `sr_read` or goes on in it. -/
inductive ReaderAction where
  | arrive (signal : ℕ)
  | handle (signal : ℕ)
  | call
  | step

namespace ReaderState

/-- `sr_sighandler`. -/
def srSighandler (sig : ℕ) (p : ReaderState) : ReaderState :=
  { p with srExists := true, srLastSignal := sig, handled := p.handled ++ [sig] }

/-- One step of `sr_read`. -/
def srRead (reader : SignalReader) (p : ReaderState) : Option ReaderState :=
  match p.pc with
  | .outside => none
  | .test => some { p with pc := if p.srExists then .clear else .suspended false }
  | .suspended interrupted =>
      if interrupted ∧ p.pending ⊆ reader.oldSet then some { p with pc := .test } else none
  | .clear => some { p with pc := .fetch, srExists := false }
  | .fetch => some { p with pc := .outside, returned := p.returned ++ [p.srLastSignal] }

def step (reader : SignalReader) (p : ReaderState) : ReaderAction → Option ReaderState
  | .arrive signal =>
      some (if signal ∈ reader.targetSet then { p with pending := insert signal p.pending } else p)
  | .handle signal =>
      match p.pc with
      | .suspended _ =>
        if signal ∈ p.pending \ reader.oldSet then
          some ({ p with pc := .suspended true, pending := p.pending.erase signal }.srSighandler signal)
        else none
      | .outside | .test | .clear | .fetch => none
  | .call =>
      match p.pc with
      | .outside => some { p with pc := .test }
      | .test | .suspended _ | .clear | .fetch => none
  | .step => p.srRead reader

/-- The delivered signal that the reader has not returned yet. -/
def unread (p : ReaderState) : Option ℕ :=
  if p.srExists ∨ p.pc = .fetch then some p.srLastSignal else none

/-- A signal was handled as often as it was returned, and once more while it is unread. -/
def Counted (p : ReaderState) (signal : ℕ) : Prop :=
  p.handled.count signal = p.returned.count signal + if p.unread = some signal then 1 else 0

end ReaderState

/-- All runs behind `sr_acquire`, with the signals that have arrived since they were blocked. -/
def sigReader (reader : SignalReader) : Machine ReaderState ReaderAction where
  start p := ∃ pending ⊆ reader.targetSet, p = ⟨.outside, pending, false, 0, [], []⟩
  step := ReaderState.step reader

/-- A handler runs only when the last signal has been read. -/
def OneAtATime (p : ReaderState) : ReaderAction → Prop
  | .handle _ => p.srExists = false
  | .arrive _ | .call | .step => True

namespace ReaderState

variable {reader : SignalReader} {p p' : ReaderState} {a : ReaderAction} {signal : ℕ}

/-- Every handled signal but the unread one was returned, in the same order, and `sr_exists` is set and
cleared where `sr_read` expects it. -/
structure InOrder (p : ReaderState) : Prop where
  handled : p.handled = p.returned ++ p.unread.toList
  exists_at_clear : p.pc = .clear → p.srExists = true
  cleared_at_fetch : p.pc = .fetch → p.srExists = false

theorem InOrder.step (ordered : p.InOrder) (allowed : OneAtATime p a) (moved : p.step reader a = some p') :
    p'.InOrder := by
  obtain ⟨handled, atClear, atFetch⟩ := ordered
  cases a with
  | arrive signal =>
    cases moved
    split_ifs
    · exact ⟨handled, atClear, atFetch⟩
    · exact ⟨handled, atClear, atFetch⟩
  | handle signal =>
    simp only [ReaderState.step] at moved
    split at moved
    · rename_i interrupted pc
      split_ifs at moved
      cases moved
      have none : p.unread = none := if_neg (by simp [show p.srExists = false from allowed, pc])
      rw [none, Option.toList_none, List.append_nil] at handled
      refine ⟨?_, nofun, nofun⟩
      simp [srSighandler, unread, handled]
    all_goals cases moved
  | call =>
    simp only [ReaderState.step] at moved
    split at moved
    · rename_i pc
      cases moved
      refine ⟨?_, nofun, nofun⟩
      simpa [unread, pc] using handled
    all_goals cases moved
  | step =>
    simp only [ReaderState.step, srRead] at moved
    split at moved
    · cases moved
    · rename_i pc
      cases moved
      cases found : p.srExists
      · refine ⟨?_, nofun, nofun⟩
        simpa [unread, pc, found] using handled
      · refine ⟨?_, fun _ => rfl, nofun⟩
        simpa [unread, pc, found] using handled
    · rename_i interrupted pc
      split_ifs at moved
      cases moved
      refine ⟨?_, nofun, nofun⟩
      simpa [unread, pc] using handled
    · rename_i pc
      cases moved
      refine ⟨?_, nofun, fun _ => rfl⟩
      simpa [unread, atClear pc] using handled
    · rename_i pc
      cases moved
      refine ⟨?_, nofun, nofun⟩
      simpa [unread, pc, atFetch pc] using handled

theorem inOrder_of_reachable (reachable : (sigReader reader).Reachable OneAtATime p) : p.InOrder := by
  apply reachable.invariant
  · rintro p ⟨pending, -, rfl⟩
    exact ⟨rfl, nofun, nofun⟩
  · intro p p' a allowed ordered moved
    exact ordered.step allowed moved

theorem InOrder.counted (ordered : p.InOrder) (signal : ℕ) : p.Counted signal := by
  rw [Counted, ordered.handled, List.count_append]
  cases p.unread with
  | none => simp
  | some last => simp [List.count_singleton]

/-- A second handler that runs before the first signal has been read drops a signal. -/
theorem not_counted_of_overwritten (counted : ∀ signal, p.Counted signal) (unread : p.srExists = true)
    (handled : p.step reader (.handle signal) = some p') : ¬∀ signal, p'.Counted signal := by
  simp only [ReaderState.step] at handled
  split at handled
  · split_ifs at handled
    cases handled
    intro counted'
    have before := counted p.srLastSignal
    have after := counted' p.srLastSignal
    simp [Counted, srSighandler, ReaderState.unread, unread, List.count_append, List.count_singleton] at before after
    omega
  all_goals cases handled

end ReaderState

/-- In every run in which a handler runs only when the last signal has been read, each signal was handled
as often as it was returned, and once more while the reader holds it unread. -/
theorem sr_read_counts {reader : SignalReader} {p : ReaderState}
    (reachable : (sigReader reader).Reachable OneAtATime p) :
    ∀ signal ∈ reader.targetSet, p.handled.count signal =
      p.returned.count signal + if p.unread = some signal then 1 else 0 := by
  intro signal _
  exact (ReaderState.inOrder_of_reachable reachable).counted signal

/-- `SIGUSR1` and `SIGUSR2`. -/
def userSignals : SignalReader := ⟨{10, 12}, ∅⟩

theorem sr_read_counts_one :
    ∃ p, (sigReader userSignals).Reachable OneAtATime p ∧ p.unread = some 10 ∧
      p.handled.count 10 = p.returned.count 10 + 1 := by
  obtain ⟨p, p', ran, clear, handled, unread⟩ : ∃ p p', (sigReader userSignals).run
      ⟨.outside, {10}, false, 0, [], []⟩ [.call, .step] = some p ∧ p.srExists = false ∧
        (sigReader userSignals).step p (.handle 10) = some p' ∧ p'.unread = some 10 :=
    ⟨_, _, rfl, rfl, rfl, rfl⟩
  have waiting : (sigReader userSignals).Reachable OneAtATime p := by
    refine .run (.start ⟨{10}, by decide, rfl⟩) ?_ ran
    intro q a member
    rcases List.mem_pair.mp member with rfl | rfl <;> trivial
  have reachable := waiting.step (show OneAtATime p (.handle 10) from clear) handled
  have counts := sr_read_counts reachable 10 (by decide)
  rw [unread, if_pos rfl] at counts
  exact ⟨p', reachable, unread, counts⟩

/-- Both signals are pending when the program waits; the first one is never returned. -/
def bothPending : List ReaderAction :=
  [.arrive 10, .arrive 12, .call, .step, .handle 10, .handle 12, .step, .step, .step, .step]

theorem sr_read_drops :
    ∃ p, (sigReader userSignals).Reachable (fun _ _ => True) p ∧ 10 ∈ userSignals.targetSet ∧
      p.handled.count 10 = 1 ∧ p.returned.count 10 = 0 ∧ p.unread = none := by
  obtain ⟨p, ran, handled, returned, unread⟩ : ∃ p, (sigReader userSignals).run
      ⟨.outside, ∅, false, 0, [], []⟩ bothPending = some p ∧ p.handled.count 10 = 1 ∧
        p.returned.count 10 = 0 ∧ p.unread = none :=
    ⟨_, rfl, rfl, rfl, rfl⟩
  exact ⟨p, .run (.start ⟨∅, by decide, rfl⟩) (fun _ _ _ => trivial) ran, by decide, handled, returned, unread⟩

end Hseos.Signal
