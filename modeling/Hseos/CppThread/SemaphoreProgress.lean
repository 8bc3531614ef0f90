import Hseos.CppThread.Semaphore
import Mathlib.Algebra.Order.BigOperators.Group.Finset

/-! # Progress of the semaphore

What the threads do by themselves in the calls they have begun comes to an end: a sleeper is woken once for each unit
that is released, or for no reason. When nothing is left to do, the threads that are still in a call sleep in
`acquire`, and there is no unit for them.
-/

namespace Hseos.CppThread

variable {ι : Type*} [DecidableEq ι]

/-- The steps that a thread has before it in its call at most, unless it is woken. -/
def SemaphorePc.remaining : SemaphorePc → ℕ
  | .outside => 0
  | .acquireLock => 5
  | .test => 4
  | .wait => 3
  | .decrement => 2
  | .acquireUnlock => 1
  | .releaseLock => 6
  | .increment => 5
  | .notify => 4
  | .releaseUnlock => 1

/-- What the calls and the wake-ups for no reason cost in addition, with their own steps. -/
def SemaphoreAction.extra : SemaphoreAction ι → ℕ
  | .acquire _ => 6
  | .release _ => 7
  | .wake _ => 3
  | .step _ | .notifyOne _ _ => 0

/-- The action is part of a call that has begun, and no wake-up for no reason. -/
def SemaphoreAction.isOwn : SemaphoreAction ι → Bool
  | .step _ | .notifyOne _ _ => true
  | .acquire _ | .release _ | .wake _ => false

namespace SemaphoreState

variable {initial : ℕ} {s s' : SemaphoreState ι} {t : ι} {pc : SemaphorePc} {m : Monitor ι}

/-- Exactly the threads at `wait` are asleep or woken. -/
def Waits (s : SemaphoreState ι) : Prop := ∀ t, s.pc t = .wait ↔ t ∈ s.monitor.waiting

/-- A step changes the place of one thread, and the threads that wait with it. -/
structure Moves (s s' : SemaphoreState ι) (a : SemaphoreAction ι) (t : ι) (pc : SemaphorePc) : Prop where
  moves : s'.pc = Function.update s.pc t pc
  others : ∀ u, u ≠ t → (u ∈ s'.monitor.waiting ↔ u ∈ s.monitor.waiting)
  waits : (s.pc t = .wait ↔ t ∈ s.monitor.waiting) → (pc = .wait ↔ t ∈ s'.monitor.waiting)
  paid : pc.remaining + 2 * s'.monitor.woken.card + 1 ≤
    (s.pc t).remaining + 2 * s.monitor.woken.card + a.extra

/-- A thread moves between two places that are not `wait`. -/
theorem Moves.goes {a : SemaphoreAction ι} {before : SemaphorePc} (at_ : s.pc t = before)
    (moves : s'.pc = Function.update s.pc t pc) (apart : before ≠ .wait ∧ pc ≠ .wait)
    (same : s'.monitor.waiting = s.monitor.waiting)
    (paid : pc.remaining + 2 * s'.monitor.woken.card + 1 ≤
      before.remaining + 2 * s.monitor.woken.card + a.extra) : s.Moves s' a t pc := by
  subst at_
  refine ⟨moves, fun u _ => by rw [same], fun waits => ?_, paid⟩
  rw [same, ← waits]
  exact iff_of_false apart.2 apart.1

theorem threadStep_moves (moved : s.threadStep t = some s') : ∃ pc, s.Moves s' (.step t) t pc := by
  simp only [SemaphoreState.threadStep] at moved
  cases at_ : s.pc t with
  | outside | notify => simp [at_] at moved
  | acquireLock | releaseLock =>
    simp only [at_, after, Option.map_eq_some_iff] at moved
    obtain ⟨m, locked, rfl⟩ := moved
    obtain ⟨same, woken⟩ := Monitor.waiting_lock locked
    refine ⟨_, .goes at_ rfl (by decide) same ?_⟩
    change _ + 2 * m.woken.card + 1 ≤ _
    rw [woken, SemaphorePc.remaining, SemaphorePc.remaining]
    omega
  | acquireUnlock | releaseUnlock =>
    simp only [at_, after, Option.map_eq_some_iff] at moved
    obtain ⟨m, unlocked, rfl⟩ := moved
    obtain ⟨same, woken⟩ := Monitor.waiting_unlock unlocked
    refine ⟨_, .goes at_ rfl (by decide) same ?_⟩
    change _ + 2 * m.woken.card + 1 ≤ _
    rw [woken, SemaphorePc.remaining, SemaphorePc.remaining]
    omega
  | wait =>
    simp only [at_, after, Option.map_eq_some_iff] at moved
    obtain ⟨m, locked, rfl⟩ := moved
    obtain ⟨fewer, woken⟩ := Monitor.waiting_relock locked
    refine ⟨.test, rfl, ?_, ?_, ?_⟩
    · intro u other
      change u ∈ m.waiting ↔ _
      rw [fewer, Finset.mem_erase]
      exact and_iff_right other
    · intro _
      change _ ↔ t ∈ m.waiting
      rw [fewer]
      exact iff_of_false (by decide) (Finset.notMem_erase t _)
    · rw [at_, SemaphorePc.remaining, SemaphorePc.remaining]
      change 4 + 2 * m.woken.card + 1 ≤ _
      omega
  | test =>
    simp only [at_] at moved
    split_ifs at moved
    · obtain ⟨m, waited, rfl⟩ := Option.map_eq_some_iff.mp moved
      obtain ⟨more, woken⟩ := Monitor.waiting_wait waited
      refine ⟨.wait, rfl, ?_, ?_, ?_⟩
      · intro u other
        change u ∈ m.waiting ↔ _
        rw [more, Finset.mem_insert]
        exact or_iff_right other
      · intro _
        change _ ↔ t ∈ m.waiting
        rw [more]
        exact iff_of_true rfl (Finset.mem_insert_self t _)
      · rw [at_, SemaphorePc.remaining, SemaphorePc.remaining]
        change 3 + 2 * m.woken.card + 1 ≤ _
        rw [woken]
        omega
    · cases moved
      refine ⟨_, .goes at_ rfl (by decide) rfl ?_⟩
      change _ + 2 * s.monitor.woken.card + 1 ≤ _
      rw [SemaphorePc.remaining, SemaphorePc.remaining]
      omega
  | decrement | increment =>
    simp only [at_] at moved
    cases moved
    refine ⟨_, .goes at_ rfl (by decide) rfl ?_⟩
    change _ + 2 * s.monitor.woken.card + 1 ≤ _
    rw [SemaphorePc.remaining, SemaphorePc.remaining]
    omega

theorem step_moves {a : SemaphoreAction ι} (moved : s.step a = some s') : ∃ t pc, s.Moves s' a t pc := by
  cases a with
  | acquire t | release t =>
    simp only [SemaphoreState.step] at moved
    split_ifs at moved with outside
    cases moved
    refine ⟨t, _, .goes outside rfl (by decide) rfl ?_⟩
    change _ + 2 * s.monitor.woken.card + 1 ≤ _
    rw [SemaphorePc.remaining, SemaphorePc.remaining, SemaphoreAction.extra]
    omega
  | step t => exact ⟨t, threadStep_moves moved⟩
  | notifyOne t choice =>
    simp only [SemaphoreState.step] at moved
    split_ifs at moved with at_
    obtain ⟨m, notified, rfl⟩ := Option.map_eq_some_iff.mp moved
    obtain ⟨same, woken⟩ := Monitor.waiting_notifyOne notified
    refine ⟨t, .releaseUnlock, .goes at_ rfl (by decide) same ?_⟩
    rw [SemaphorePc.remaining, SemaphorePc.remaining]
    change 1 + 2 * m.woken.card + 1 ≤ _
    omega
  | wake t =>
    obtain ⟨m, woke, rfl⟩ := Option.map_eq_some_iff.mp moved
    have same := Monitor.waiting_wake woke
    have woken := Monitor.card_wake woke
    refine ⟨t, s.pc t, (Function.update_eq_self t s.pc).symm, fun u _ => by rw [same], fun waits => ?_, ?_⟩
    · rw [same]
      exact waits
    · change _ + 2 * m.woken.card + 1 ≤ _
      rw [SemaphoreAction.extra]
      omega

theorem Waits.step {a : SemaphoreAction ι} (waits : s.Waits) (moved : s.step a = some s') : s'.Waits := by
  obtain ⟨t, pc, moves⟩ := step_moves moved
  intro u
  rw [moves.moves]
  by_cases here : u = t
  · rw [here, Function.update_self]
    exact moves.waits (waits t)
  · rw [Function.update_of_ne here, moves.others u here]
    exact waits u

theorem waits_of_reachable {allowed : SemaphoreState ι → SemaphoreAction ι → Prop}
    (reachable : (semaphore ι initial).Reachable allowed s) : s.Waits := by
  apply reachable.invariant
  · rintro s ⟨-, rfl⟩ t
    exact iff_of_false nofun (Finset.notMem_empty t)
  · intro s s' a _ waits moved
    exact waits.step moved

/-- A thread that has the mutex can go on. -/
theorem exists_own_of_owner (used : s.monitor.Used SemaphorePc.holds SemaphorePc.attends s.pc s.counter)
    (owner : s.monitor.owner = some t) : ∃ a, a.isOwn = true ∧ (s.step a).isSome := by
  have holds := (used.owner_iff t).mp owner
  cases at_ : s.pc t with
  | outside | acquireLock | wait | releaseLock =>
    rw [at_] at holds
    cases holds
  | test =>
    obtain ⟨m, waited⟩ := Monitor.exists_wait owner
    refine ⟨.step t, rfl, ?_⟩
    by_cases empty : s.counter = 0
    · simp [SemaphoreState.step, threadStep, at_, empty, after, waited]
    · simp [SemaphoreState.step, threadStep, at_, empty]
  | decrement | increment => exact ⟨.step t, rfl, by simp [SemaphoreState.step, threadStep, at_]⟩
  | acquireUnlock | releaseUnlock =>
    obtain ⟨m, unlocked⟩ := Monitor.exists_unlock owner
    exact ⟨.step t, rfl, by simp [SemaphoreState.step, threadStep, at_, after, unlocked]⟩
  | notify =>
    obtain ⟨choice, m, notified⟩ := s.monitor.exists_notifyOne
    exact ⟨.notifyOne t choice, rfl, by simp [SemaphoreState.step, at_, after, notified]⟩

/-- Where no call goes on, the threads that are in one sleep, and there is no unit. -/
theorem asleep_of_quiescent (balanced : s.Balanced initial) (waits : s.Waits)
    (quiescent : ∀ a, a.isOwn = true → s.step a = none) :
    (∀ t, s.pc t = .outside ∨ s.pc t = .wait ∧ t ∈ s.monitor.asleep) ∧
      ((∃ t, s.pc t = .wait) → s.counter = 0) := by
  have free : s.monitor.owner = none := by
    cases owner : s.monitor.owner with
    | none => rfl
    | some t =>
      obtain ⟨a, own, moves⟩ := exists_own_of_owner balanced.used owner
      rw [quiescent a own] at moves
      cases moves
  have not_woken : ∀ t, t ∉ s.monitor.woken := by
    intro t woken
    have at_ : s.pc t = .wait := (waits t).mpr (Finset.mem_union_right _ woken)
    obtain ⟨m, locked⟩ := Monitor.exists_relock free woken
    have stops := quiescent (.step t) rfl
    simp [SemaphoreState.step, threadStep, at_, after, locked] at stops
  have asleep : ∀ t, s.pc t = .wait → t ∈ s.monitor.asleep := by
    intro t at_
    exact (Finset.mem_union.mp ((waits t).mp at_)).resolve_right (not_woken t)
  constructor
  · intro t
    have not_holds : ¬(s.pc t).holds = true := by
      rw [← balanced.owner_iff t, free]
      exact (Option.some_ne_none t).symm
    have stops := quiescent (.step t) rfl
    cases at_ : s.pc t with
    | outside => exact .inl rfl
    | wait => exact .inr ⟨rfl, asleep t at_⟩
    | acquireLock | releaseLock =>
      have outside : t ∉ s.monitor.waiting := by
        rw [← waits t, at_]
        decide
      obtain ⟨m, locked⟩ := Monitor.exists_lock free outside
      simp [SemaphoreState.step, threadStep, at_, after, locked] at stops
    | test | decrement | acquireUnlock | increment | notify | releaseUnlock =>
      rw [at_] at not_holds
      exact absurd rfl not_holds
  · rintro ⟨t, at_⟩
    have served := balanced.used.served_free free ⟨t, asleep t at_⟩
    rw [Finset.eq_empty_of_forall_notMem not_woken, Finset.card_empty] at served
    omega

section Work

variable [Fintype ι]

/-- The steps that the calls have before them which have begun. -/
def work (s : SemaphoreState ι) : ℕ := ∑ t, (s.pc t).remaining + 2 * s.monitor.woken.card

theorem work_step (s s' : SemaphoreState ι) (a : SemaphoreAction ι) (moved : s.step a = some s') :
    s'.work + 1 ≤ s.work + a.extra := by
  obtain ⟨t, pc, moves⟩ := step_moves moved
  have paid := moves.paid
  have others : ∀ u ∈ Finset.univ.erase t, (s'.pc u).remaining = (s.pc u).remaining := by
    intro u member
    rw [moves.moves, Function.update_of_ne (Finset.ne_of_mem_erase member)]
  have here : s'.pc t = pc := by rw [moves.moves, Function.update_self]
  rw [work, work, ← Finset.add_sum_erase _ (fun u => (s'.pc u).remaining) (Finset.mem_univ t),
    ← Finset.add_sum_erase _ (fun u => (s.pc u).remaining) (Finset.mem_univ t), Finset.sum_congr rfl others, here]
  omega

end Work

end SemaphoreState

/-- In every run there are at most six steps for each call of `acquire` and seven for each call of `release`,
with the call itself, and three for each wake-up for no reason. Where no call goes on, each thread is outside
the two functions or sleeps in `acquire`, and it sleeps only if there is no unit. -/
theorem semaphore_progress [Fintype ι] {initial : ℕ} {s s' : SemaphoreState ι} {schedule : List (SemaphoreAction ι)}
    (started : (semaphore ι initial).start s) (ran : (semaphore ι initial).run s schedule = some s') :
    schedule.length ≤ (schedule.map SemaphoreAction.extra).sum ∧
      ((∀ a, a.isOwn = true → s'.step a = none) →
        (∀ t, s'.pc t = .outside ∨ s'.pc t = .wait ∧ t ∈ s'.monitor.asleep) ∧
          ((∃ t, s'.pc t = .wait) → s'.counter = 0)) := by
  have reachable : (semaphore ι initial).Reachable (fun _ _ => True) s' :=
    .run (.start started) (fun _ _ _ => trivial) ran
  constructor
  · have bound := Machine.length_le_of_work SemaphoreState.work _ SemaphoreState.work_step ran
    have nothing : s.work = 0 := by
      obtain ⟨-, rfl⟩ := started
      simp [SemaphoreState.work, SemaphorePc.remaining, Monitor.init]
    omega
  · intro quiescent
    exact SemaphoreState.asleep_of_quiescent (SemaphoreState.balanced_of_reachable reachable)
      (SemaphoreState.waits_of_reachable reachable) quiescent

/-- A thread goes to sleep in three steps, and then nothing is left to do. -/
theorem semaphore_progress_asleep :
    ∃ s', (semaphore Bool 0).run ⟨fun _ => .outside, 0, .init, 0, 0⟩ [.acquire true, .step true, .step true] =
        some s' ∧ [SemaphoreAction.acquire true, .step true, .step true].length ≤ 6 ∧
      (s'.pc true = .outside ∨ s'.pc true = .wait ∧ true ∈ s'.monitor.asleep) ∧
      ((∃ t, s'.pc t = .wait) → s'.counter = 0) := by
  obtain ⟨s', ran, quiescent⟩ : ∃ s', (semaphore Bool 0).run ⟨fun _ => .outside, 0, .init, 0, 0⟩
      [.acquire true, .step true, .step true] = some s' ∧ ∀ a, a.isOwn = true → s'.step a = none := by
    refine ⟨_, rfl, ?_⟩
    intro a own
    cases a with
    | acquire t | release t | wake t => cases own
    | step t | notifyOne t choice => cases t <;> rfl
  have progress := semaphore_progress ⟨by decide, rfl⟩ ran
  exact ⟨s', ran, progress.1, (progress.2 quiescent).1 true, (progress.2 quiescent).2⟩

end Hseos.CppThread
