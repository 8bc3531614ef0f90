import Hseos.Lib.Family
import Hseos.Lib.Machine
import Hseos.Lib.Monitor
import Hseos.Lib.Word

/-! # The semaphore

A semaphore is a counter under a mutex with a condition variable. Any threads call `acquire` and
`release` any number of times. Taking and releasing the mutex, each access to the counter, going to sleep
and the notification are steps of their own; the destructor of a guard releases the mutex. A sleeper may
wake up for no reason, and a thread that comes later may take the mutex before one that was woken.
-/

namespace Hseos.CppThread

/-- Where a thread is in `acquire` or `release`. -/
inductive SemaphorePc where
  | outside
  | acquireLock
  | test
  | wait
  | decrement
  | acquireUnlock
  | releaseLock
  | increment
  | notify
  | releaseUnlock
deriving DecidableEq

/-- The threads, the semaphore, and how often the counter was decremented and incremented. -/
structure SemaphoreState (ι : Type*) [DecidableEq ι] where
  pc : ι → SemaphorePc
  counter : ℕ
  monitor : Monitor ι
  acquires : ℕ
  releases : ℕ

/-- A thread calls a function or goes on in it, notifies a sleeper, or wakes up for no reason. -/
inductive SemaphoreAction (ι : Type*) where
  | acquire (t : ι)
  | release (t : ι)
  | step (t : ι)
  | notifyOne (t : ι) (choice : Option ι)
  | wake (t : ι)

variable {ι : Type*} [DecidableEq ι]

namespace SemaphoreState

def setPc (t : ι) (pc : SemaphorePc) (s : SemaphoreState ι) : SemaphoreState ι :=
  { s with pc := Function.update s.pc t pc }

/-- A thread goes on with the mutex and the condition variable as they are after an operation. -/
def after (t : ι) (pc : SemaphorePc) (operation : Option (Monitor ι)) (s : SemaphoreState ι) :
    Option (SemaphoreState ι) :=
  operation.map fun m => { s.setPc t pc with monitor := m }

/-- One step of `acquire` or `release`, but for the notification. -/
def threadStep (t : ι) (s : SemaphoreState ι) : Option (SemaphoreState ι) :=
  match s.pc t with
  | .outside | .notify => none
  | .acquireLock => s.after t .test (s.monitor.lock t)
  | .test =>
      if s.counter = 0 then s.after t .wait (s.monitor.wait t) else some (s.setPc t .decrement)
  | .wait => s.after t .test (s.monitor.relock t)
  | .decrement =>
      some { s.setPc t .acquireUnlock with
        counter := wordSub 64 s.counter 1, acquires := s.acquires + 1 }
  | .acquireUnlock => s.after t .outside (s.monitor.unlock t)
  | .releaseLock => s.after t .increment (s.monitor.lock t)
  | .increment =>
      some { s.setPc t .notify with
        counter := wordAdd 64 s.counter 1, releases := s.releases + 1 }
  | .releaseUnlock => s.after t .outside (s.monitor.unlock t)

def step (s : SemaphoreState ι) : SemaphoreAction ι → Option (SemaphoreState ι)
  | .acquire t => if s.pc t = .outside then some (s.setPc t .acquireLock) else none
  | .release t => if s.pc t = .outside then some (s.setPc t .releaseLock) else none
  | .step t => s.threadStep t
  | .notifyOne t choice =>
      if s.pc t = .notify then s.after t .releaseUnlock (s.monitor.notifyOne choice) else none
  | .wake t => (s.monitor.wake t).map fun m => { s with monitor := m }

end SemaphoreState

/-- All runs of threads that use a semaphore with this initial count, a `size_t`. -/
def semaphore (ι : Type*) [DecidableEq ι] (initial : ℕ) :
    Machine (SemaphoreState ι) (SemaphoreAction ι) where
  start s := initial < 2 ^ 64 ∧ s = ⟨fun _ => .outside, initial, .init, 0, 0⟩
  step := SemaphoreState.step

/-- The thread has the mutex. -/
def SemaphorePc.holds : SemaphorePc → Bool
  | .test | .decrement | .acquireUnlock | .increment | .notify | .releaseUnlock => true
  | .outside | .acquireLock | .wait | .releaseLock => false

/-- How many units the thread is about to take or to notify a sleeper of. -/
def SemaphorePc.attends : SemaphorePc → ℕ
  | .test | .decrement | .notify => 1
  | .outside | .acquireLock | .wait | .acquireUnlock | .releaseLock | .increment | .releaseUnlock => 0

namespace SemaphoreState

variable {initial : ℕ} {s s' : SemaphoreState ι} {t : ι} {pc : SemaphorePc}

/-- The units that the owner of the mutex attends to. -/
def attended (s : SemaphoreState ι) : ℕ := (s.monitor.owner.map fun t => (s.pc t).attends).getD 0

/-- The counter is the number of units, and no sleeper misses one. -/
structure Balanced (initial : ℕ) (s : SemaphoreState ι) : Prop where
  owner_iff : ∀ t, s.monitor.owner = some t ↔ (s.pc t).holds
  served : s.monitor.Served s.counter s.attended
  positive : ∀ t, s.pc t = .decrement → s.counter ≠ 0
  bounded : s.acquires ≤ initial + s.releases
  counted : s.counter = (initial + s.releases - s.acquires) % 2 ^ 64

/-- The state behind a step of a thread. -/
def move (t : ι) (pc : SemaphorePc) (counter : ℕ) (monitor : Monitor ι) (acquires releases : ℕ)
    (s : SemaphoreState ι) : SemaphoreState ι :=
  ⟨Function.update s.pc t pc, counter, monitor, acquires, releases⟩

/-- The mutex and the condition variable are used as they should be. -/
theorem Balanced.used (balanced : s.Balanced initial) :
    s.monitor.Used SemaphorePc.holds SemaphorePc.attends s.pc s.counter :=
  ⟨balanced.owner_iff, balanced.served⟩

section move

variable {counter acquires releases : ℕ} {m : Monitor ι}

/-- What a step of a thread has to keep. -/
theorem Balanced.move (balanced : s.Balanced initial)
    (used : m.Used SemaphorePc.holds SemaphorePc.attends (Function.update s.pc t pc) counter)
    (positive : pc = .decrement → counter ≠ 0) (kept : counter = s.counter ∨ (s.pc t).holds = true)
    (bounded : acquires ≤ initial + releases)
    (counted : counter = (initial + releases - acquires) % 2 ^ 64) :
    (s.move t pc counter m acquires releases).Balanced initial := by
  refine ⟨used.owner_iff, used.served, ?_, bounded, counted⟩
  intro u
  simp only [SemaphoreState.move, Function.update_apply]
  split_ifs with same
  · exact positive
  · intro at_
    obtain rfl | has := kept
    · exact balanced.positive u at_
    · exact absurd (balanced.used.unique (by rw [at_]; rfl) has) same

/-- A thread that does not have the mutex goes on without it. -/
theorem Balanced.walks (balanced : s.Balanced initial) (before : (s.pc t).holds = false)
    (behind : pc.holds = false) : (s.setPc t pc).Balanced initial := by
  apply balanced.move (balanced.used.walks before behind) ?_ (.inl rfl) balanced.bounded balanced.counted
  rintro rfl
  cases behind

/-- A thread takes the mutex. -/
theorem Balanced.takes (balanced : s.Balanced initial)
    (taken : s.monitor.owner = none ∧ m.owner = some t) (holds : pc.holds = true)
    (waits : pc ≠ .decrement) (served : m.Served s.counter pc.attends) :
    Balanced initial { s.setPc t pc with monitor := m } :=
  balanced.move (balanced.used.takes taken holds served) (fun at_ => absurd at_ waits) (.inl rfl)
    balanced.bounded balanced.counted

/-- The owner of the mutex leaves it. -/
theorem Balanced.leaves (balanced : s.Balanced initial) (before : (s.pc t).holds = true)
    (left : m.owner = none) (behind : pc.holds = false) (served : m.Served s.counter 0) :
    Balanced initial { s.setPc t pc with monitor := m } := by
  apply balanced.move (balanced.used.leaves before left behind served) ?_ (.inl rfl) balanced.bounded
    balanced.counted
  rintro rfl
  cases behind

/-- The owner of the mutex goes on with it. -/
theorem Balanced.works (balanced : s.Balanced initial) (before : (s.pc t).holds = true)
    (same : m.owner = s.monitor.owner) (holds : pc.holds = true) (served : m.Served counter pc.attends)
    (positive : pc = .decrement → counter ≠ 0) (bounded : acquires ≤ initial + releases)
    (counted : counter = (initial + releases - acquires) % 2 ^ 64) :
    (s.move t pc counter m acquires releases).Balanced initial :=
  balanced.move (balanced.used.works before same holds served) positive (.inr before) bounded counted

end move

/-- A thread that has taken a unit leaves none less for those woken. -/
theorem Balanced.decrement (balanced : s.Balanced initial) (at_ : s.pc t = .decrement) :
    (s.move t .acquireUnlock (wordSub 64 s.counter 1) s.monitor (s.acquires + 1) s.releases).Balanced
      initial := by
  have some_ := balanced.positive t at_
  have counted := balanced.counted
  have bounded := balanced.bounded
  have less : wordSub 64 s.counter 1 = s.counter - 1 := wordSub_of_le (by omega) (by omega)
  refine balanced.works (by rw [at_]; rfl) rfl rfl ?_ (by nofun) (by omega) ?_
  · intro sleeps
    have before := balanced.used.served_owned at_ rfl sleeps
    simp only [SemaphorePc.attends] at before ⊢
    omega
  · rw [less]
    omega

/-- The thread that adds a unit attends to it. -/
theorem Balanced.increment (balanced : s.Balanced initial) (at_ : s.pc t = .increment) :
    (s.move t .notify (wordAdd 64 s.counter 1) s.monitor s.acquires (s.releases + 1)).Balanced
      initial := by
  have counted := balanced.counted
  have bounded := balanced.bounded
  have sum : wordAdd 64 s.counter 1 = (s.counter + 1) % 2 ^ 64 := rfl
  refine balanced.works (by rw [at_]; rfl) rfl rfl ?_ (by nofun) (by omega) ?_
  · intro sleeps
    have before := balanced.used.served_owned at_ rfl sleeps
    simp only [SemaphorePc.attends] at before ⊢
    omega
  · rw [sum]
    omega

/-- Every step of a thread keeps the balance. -/
theorem Balanced.threadStep (balanced : s.Balanced initial) (moved : s.threadStep t = some s') :
    s'.Balanced initial := by
  simp only [SemaphoreState.threadStep] at moved
  cases at_ : s.pc t with
  | outside | notify => simp [at_] at moved
  | acquireLock =>
    simp only [at_, after, Option.map_eq_some_iff] at moved
    obtain ⟨m, locked, rfl⟩ := moved
    have taken := Monitor.owner_lock locked
    refine balanced.takes taken rfl (by nofun) ?_
    exact ((balanced.used.served_free taken.1).lock locked).mono le_rfl (Nat.zero_le 1)
  | releaseLock =>
    simp only [at_, after, Option.map_eq_some_iff] at moved
    obtain ⟨m, locked, rfl⟩ := moved
    have taken := Monitor.owner_lock locked
    exact balanced.takes taken rfl (by nofun) ((balanced.used.served_free taken.1).lock locked)
  | wait =>
    simp only [at_, after, Option.map_eq_some_iff] at moved
    obtain ⟨m, locked, rfl⟩ := moved
    have taken := Monitor.owner_relock locked
    exact balanced.takes taken rfl (by nofun) ((balanced.used.served_free taken.1).relock locked)
  | test =>
    simp only [at_] at moved
    split_ifs at moved with empty
    · obtain ⟨m, waited, rfl⟩ := Option.map_eq_some_iff.mp moved
      refine balanced.leaves (by rw [at_]; rfl) (Monitor.owner_wait waited) rfl ?_
      rw [empty]
      exact Monitor.Served.nothing m
    · cases moved
      have served := balanced.used.served_owned at_ rfl
      exact balanced.works (by rw [at_]; rfl) rfl rfl served (fun _ => empty) balanced.bounded
        balanced.counted
  | decrement =>
    simp only [at_] at moved
    cases moved
    exact balanced.decrement at_
  | increment =>
    simp only [at_] at moved
    cases moved
    exact balanced.increment at_
  | acquireUnlock | releaseUnlock =>
    simp only [at_, after, Option.map_eq_some_iff] at moved
    obtain ⟨m, unlocked, rfl⟩ := moved
    have served := balanced.used.served_owned at_ rfl
    exact balanced.leaves (by rw [at_]; rfl) (Monitor.owner_unlock unlocked) rfl
      (served.unlock unlocked)

theorem Balanced.step {a : SemaphoreAction ι} (balanced : s.Balanced initial)
    (moved : s.step a = some s') : s'.Balanced initial := by
  cases a with
  | acquire t | release t =>
    simp only [SemaphoreState.step] at moved
    split_ifs at moved with outside
    cases moved
    exact balanced.walks (by rw [outside]; rfl) rfl
  | step t => exact balanced.threadStep moved
  | notifyOne t choice =>
    simp only [SemaphoreState.step] at moved
    split_ifs at moved with at_
    obtain ⟨m, notified, rfl⟩ := Option.map_eq_some_iff.mp moved
    have served : s.monitor.Served s.counter (0 + 1) := balanced.used.served_owned at_ rfl
    exact balanced.works (by rw [at_]; rfl) (Monitor.owner_notifyOne notified) rfl
      (served.notifyOne notified) (by nofun) balanced.bounded balanced.counted
  | wake t =>
    obtain ⟨m, woke, rfl⟩ := Option.map_eq_some_iff.mp moved
    have used := balanced.used.wake woke
    exact ⟨used.owner_iff, used.served, balanced.positive, balanced.bounded, balanced.counted⟩

theorem balanced_of_reachable {allowed : SemaphoreState ι → SemaphoreAction ι → Prop}
    (reachable : (semaphore ι initial).Reachable allowed s) : s.Balanced initial := by
  apply reachable.invariant
  · rintro s ⟨size, rfl⟩
    refine ⟨fun _ => iff_of_false nofun nofun, ?_, nofun, Nat.zero_le _, (Nat.mod_eq_of_lt size).symm⟩
    rintro ⟨t, member⟩
    cases member
  · intro s s' a _ balanced moved
    exact balanced.step moved

end SemaphoreState

/-- In every run the counter is the initial count with the completed calls of `release` and without
those of `acquire`, as a `size_t`; it is decremented only where it is not zero, so no more units are taken
than there are; and when there are units and the mutex is free, no thread sleeps unless one was woken. -/
theorem semaphore_balanced {initial : ℕ} {s : SemaphoreState ι}
    (reachable : (semaphore ι initial).Reachable (fun _ _ => True) s) :
    s.counter = (initial + s.releases - s.acquires) % 2 ^ 64 ∧ s.acquires ≤ initial + s.releases ∧
      (∀ t, s.pc t = .decrement → s.counter ≠ 0) ∧
      ¬(0 < s.counter ∧ s.monitor.owner = none ∧ s.monitor.asleep.Nonempty ∧ s.monitor.woken = ∅) := by
  have balanced := SemaphoreState.balanced_of_reachable reachable
  refine ⟨balanced.counted, balanced.bounded, balanced.positive, ?_⟩
  rintro ⟨units, free, sleeps, none⟩
  have served := balanced.used.served_free free sleeps
  rw [none, Finset.card_empty] at served
  omega

/-- One thread goes to sleep, and the other one releases a unit and wakes it. -/
def wokenUp : List (SemaphoreAction Bool) :=
  [.acquire true, .step true, .step true, .release false, .step false, .step false,
    .notifyOne false (some true), .step false]

theorem semaphore_balanced_woken :
    ∃ s, (semaphore Bool 0).Reachable (fun _ _ => True) s ∧ s.counter = 1 ∧ s.monitor.owner = none ∧
      s.monitor.woken = {true} ∧ s.acquires ≤ s.releases := by
  obtain ⟨s, ran, counter, free, woken⟩ : ∃ s, (semaphore Bool 0).run
      ⟨fun _ => .outside, 0, .init, 0, 0⟩ wokenUp = some s ∧ s.counter = 1 ∧ s.monitor.owner = none ∧
        s.monitor.woken = {true} :=
    ⟨_, rfl, rfl, rfl, by decide⟩
  have reachable : (semaphore Bool 0).Reachable (fun _ _ => True) s :=
    .run (.start ⟨by decide, rfl⟩) (fun _ _ _ => trivial) ran
  have bounded := (semaphore_balanced reachable).2.1
  rw [Nat.zero_add] at bounded
  exact ⟨s, reachable, counter, free, woken, bounded⟩

/-- A release of the largest count leaves none. -/
theorem semaphore_wraps :
    ∃ s, (semaphore Unit (2 ^ 64 - 1)).Reachable (fun _ _ => True) s ∧ s.releases = 1 ∧
      s.acquires = 0 ∧ s.counter ≠ 2 ^ 64 - 1 + s.releases - s.acquires := by
  obtain ⟨s, ran, releases, acquires, counter⟩ : ∃ s, (semaphore Unit (2 ^ 64 - 1)).run
      ⟨fun _ => .outside, 2 ^ 64 - 1, .init, 0, 0⟩ [.release (), .step (), .step ()] = some s ∧
        s.releases = 1 ∧ s.acquires = 0 ∧ s.counter = 0 :=
    ⟨_, rfl, rfl, rfl, rfl⟩
  refine ⟨s, .run (.start ⟨by decide, rfl⟩) (fun _ _ _ => trivial) ran, releases, acquires, ?_⟩
  rw [releases, acquires, counter]
  decide

end Hseos.CppThread
