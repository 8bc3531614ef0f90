import Hseos.Lib.Machine
import Hseos.Lib.Monitor
import Mathlib.Data.Int.Basic

/-! # A container for one value

A `struct Container` hands out its value to one thread at a time: `exists` tells whether it is there, under a
mutex with a condition variable. Any threads call `container_acquire`, and `container_release` while they
have the value. Taking and releasing the mutex, each access to a field, going to sleep and the signal are
steps of their own; the value is returned after the mutex was released. A sleeper may wake up for no
reason, and a thread that comes later may take the mutex before one that was woken.
-/

namespace Hseos.Pthread

/-- Where a thread is in `container_acquire` or `container_release`. -/
inductive ContainerPc where
  | outside
  | acquireLock
  | test
  | wait
  | take
  | acquireUnlock
  | getValue
  | acquired
  | releaseLock
  | put
  | signal
  | releaseUnlock
deriving DecidableEq

/-- The threads with what `container_acquire` has returned to them, and the fields of the container. -/
structure ContainerState (ι Value : Type*) [DecidableEq ι] where
  pc : ι → ContainerPc
  result : ι → Option Value
  exists_ : ℤ
  value : Value
  monitor : Monitor ι

/-- A thread calls a function or goes on in it, signals a sleeper, or wakes up for no reason. -/
inductive ContainerAction (ι : Type*) where
  | acquire (t : ι)
  | release (t : ι)
  | step (t : ι)
  | signal (t : ι) (choice : Option ι)
  | wake (t : ι)

variable {ι Value : Type*} [DecidableEq ι]

namespace ContainerState

def setPc (t : ι) (pc : ContainerPc) (s : ContainerState ι Value) : ContainerState ι Value :=
  { s with pc := Function.update s.pc t pc }

/-- A thread goes on with the mutex and the condition variable as they are after an operation. -/
def after (t : ι) (pc : ContainerPc) (operation : Option (Monitor ι)) (s : ContainerState ι Value) :
    Option (ContainerState ι Value) :=
  operation.map fun m => { s.setPc t pc with monitor := m }

/-- One step of `container_acquire` or `container_release`, but for the signal. -/
def threadStep (t : ι) (s : ContainerState ι Value) : Option (ContainerState ι Value) :=
  match s.pc t with
  | .outside | .acquired | .signal => none
  | .acquireLock => s.after t .test (s.monitor.lock t)
  | .test => if s.exists_ = 0 then s.after t .wait (s.monitor.wait t) else some (s.setPc t .take)
  | .wait => s.after t .test (s.monitor.relock t)
  | .take => some { s.setPc t .acquireUnlock with exists_ := 0 }
  | .acquireUnlock => s.after t .getValue (s.monitor.unlock t)
  | .getValue => some { s.setPc t .acquired with result := Function.update s.result t (some s.value) }
  | .releaseLock => s.after t .put (s.monitor.lock t)
  | .put => some { s.setPc t .signal with exists_ := 1 }
  | .releaseUnlock => s.after t .outside (s.monitor.unlock t)

def step (s : ContainerState ι Value) : ContainerAction ι → Option (ContainerState ι Value)
  | .acquire t => if s.pc t = .outside then some (s.setPc t .acquireLock) else none
  | .release t => if s.pc t = .acquired then some (s.setPc t .releaseLock) else none
  | .step t => s.threadStep t
  | .signal t choice =>
      if s.pc t = .signal then s.after t .releaseUnlock (s.monitor.notifyOne choice) else none
  | .wake t => (s.monitor.wake t).map fun m => { s with monitor := m }

end ContainerState

/-- All runs of threads that share a container with this value. -/
def container (ι : Type*) [DecidableEq ι] {Value : Type*} (value : Value) :
    Machine (ContainerState ι Value) (ContainerAction ι) where
  start s := s = ⟨fun _ => .outside, fun _ => none, 1, value, .init⟩
  step := ContainerState.step

namespace ContainerPc

/-- The thread has the value: it has cleared `exists` and not set it again. -/
def hasValue : ContainerPc → Bool
  | .acquireUnlock | .getValue | .acquired | .releaseLock | .put => true
  | .outside | .acquireLock | .test | .wait | .take | .signal | .releaseUnlock => false

/-- The thread has the mutex. -/
def holds : ContainerPc → Bool
  | .test | .take | .acquireUnlock | .put | .signal | .releaseUnlock => true
  | .outside | .acquireLock | .wait | .getValue | .acquired | .releaseLock => false

/-- The thread is about to take the value or to signal a sleeper that it is there. -/
def attends : ContainerPc → ℕ
  | .test | .take | .signal => 1
  | .outside | .acquireLock | .wait | .acquireUnlock | .getValue | .acquired | .releaseLock | .put
  | .releaseUnlock => 0

end ContainerPc

namespace ContainerState

variable {value : Value} {s s' : ContainerState ι Value} {t : ι} {pc : ContainerPc}

/-- The value is in the container, or with one thread. -/
inductive Placed (pc : ι → ContainerPc) : ℤ → Prop
  | inside (none : ∀ t, (pc t).hasValue = false) : Placed pc 1
  | handed (t : ι) (has : (pc t).hasValue = true) (others : ∀ u ≠ t, (pc u).hasValue = false) : Placed pc 0

/-- What holds in every run. -/
structure Kept (value : Value) (s : ContainerState ι Value) : Prop where
  placed : Placed s.pc s.exists_
  used : s.monitor.Used ContainerPc.holds ContainerPc.attends s.pc s.exists_.toNat
  present : ∀ t, s.pc t = .take → s.exists_ = 1
  same : s.value = value
  result : ∀ t, s.pc t = .acquired → s.result t = some value

omit [DecidableEq ι] in
theorem Placed.zero_or_one {pc : ι → ContainerPc} {here : ℤ} (placed : Placed pc here) :
    here = 0 ∨ here = 1 := by
  cases placed with
  | inside => exact .inr rfl
  | handed => exact .inl rfl

omit [DecidableEq ι] in
/-- The value is in the container exactly if no thread has it. -/
theorem Placed.eq_one_iff {pc : ι → ContainerPc} {here : ℤ} (placed : Placed pc here) :
    here = 1 ↔ ∀ t, (pc t).hasValue = false := by
  cases placed with
  | inside none => exact iff_of_true rfl none
  | handed t has _ => exact iff_of_false nofun fun none => absurd (has.symm.trans (none t)) (by decide)

theorem Placed.unique {pc : ι → ContainerPc} {here : ℤ} (placed : Placed pc here) {u : ι}
    (first : (pc t).hasValue = true) (second : (pc u).hasValue = true) : t = u := by
  cases placed with
  | inside none => exact absurd (first.symm.trans (none t)) (by decide)
  | handed v _ others =>
    have only (w : ι) (has : (pc w).hasValue = true) : w = v := by
      by_contra other
      exact absurd (has.symm.trans (others w other)) (by decide)
    rw [only t first, only u second]

/-- A step that neither hands out the value nor takes it back. -/
theorem Placed.walks {pc : ι → ContainerPc} {here : ℤ} {p : ContainerPc} (placed : Placed pc here)
    (same : p.hasValue = (pc t).hasValue) : Placed (Function.update pc t p) here := by
  have kept (u : ι) : (Function.update pc t p u).hasValue = (pc u).hasValue := by
    rcases eq_or_ne u t with rfl | other
    · rw [Function.update_self, same]
    · rw [Function.update_of_ne other]
  cases placed with
  | inside none => exact .inside fun u => (kept u).trans (none u)
  | handed u has others => exact .handed u ((kept u).trans has) fun v other => (kept v).trans (others v other)

theorem Placed.take {pc : ι → ContainerPc} {p : ContainerPc} (placed : Placed pc 1) (has : p.hasValue = true) :
    Placed (Function.update pc t p) 0 := by
  cases placed with
  | inside none =>
    refine .handed t ?_ fun u other => ?_
    · rw [Function.update_self, has]
    · rw [Function.update_of_ne other]
      exact none u

theorem Placed.put {pc : ι → ContainerPc} {here : ℤ} {p : ContainerPc} (placed : Placed pc here)
    (has : (pc t).hasValue = true) (gone : p.hasValue = false) : Placed (Function.update pc t p) 1 := by
  cases placed with
  | inside none => exact absurd (has.symm.trans (none t)) (by decide)
  | handed u _ others =>
    have same : t = u := by
      by_contra other
      exact absurd (has.symm.trans (others t other)) (by decide)
    refine .inside fun v => ?_
    rcases eq_or_ne v t with rfl | other
    · rw [Function.update_self, gone]
    · rw [Function.update_of_ne other]
      exact others v (same ▸ other)

/-- What a step of a thread has to keep that does not return the value. -/
theorem Kept.moves (kept : s.Kept value) {here : ℤ} {m : Monitor ι}
    (placed : Placed (Function.update s.pc t pc) here)
    (used : m.Used ContainerPc.holds ContainerPc.attends (Function.update s.pc t pc) here.toNat)
    (own : pc = .take → here = 1) (unchanged : here = s.exists_ ∨ (s.pc t).holds = true)
    (other : pc ≠ .acquired) : Kept value { s.setPc t pc with exists_ := here, monitor := m } := by
  refine ⟨placed, used, fun u => ?_, kept.same, fun u => ?_⟩
  · show Function.update s.pc t pc u = .take → here = 1
    rcases eq_or_ne u t with rfl | apart
    · rw [Function.update_self]
      exact own
    · rw [Function.update_of_ne apart]
      intro at_
      rcases unchanged with rfl | has
      · exact kept.present u at_
      · exact absurd (kept.used.unique (by rw [at_]; rfl) has) apart
  · show Function.update s.pc t pc u = .acquired → s.result u = some value
    rcases eq_or_ne u t with rfl | apart
    · rw [Function.update_self]
      exact fun at_ => absurd at_ other
    · rw [Function.update_of_ne apart]
      exact kept.result u

/-- A thread calls a function, or goes on without the mutex. -/
theorem Kept.calls (kept : s.Kept value) (before : (s.pc t).holds = false) (behind : pc.holds = false)
    (same : pc.hasValue = (s.pc t).hasValue) (other : pc ≠ .acquired) : Kept value (s.setPc t pc) := by
  apply kept.moves (kept.placed.walks same) (kept.used.walks before behind) ?_ (.inl rfl) other
  rintro rfl
  cases behind

/-- A thread takes the mutex. -/
theorem Kept.locks (kept : s.Kept value) {m : Monitor ι} (taken : s.monitor.owner = none ∧ m.owner = some t)
    (has : pc.holds = true) (served : m.Served s.exists_.toNat pc.attends) (waits : pc ≠ .take)
    (same : pc.hasValue = (s.pc t).hasValue) : Kept value { s.setPc t pc with monitor := m } := by
  refine kept.moves (kept.placed.walks same) (kept.used.takes taken has served)
    (fun at_ => absurd at_ waits) (.inl rfl) ?_
  rintro rfl
  cases has

/-- The owner of the mutex leaves it. -/
theorem Kept.unlocks (kept : s.Kept value) {m : Monitor ι} (before : (s.pc t).holds = true)
    (left : m.owner = none) (behind : pc.holds = false) (served : m.Served s.exists_.toNat 0)
    (same : pc.hasValue = (s.pc t).hasValue) (other : pc ≠ .acquired) :
    Kept value { s.setPc t pc with monitor := m } := by
  refine kept.moves (kept.placed.walks same) (kept.used.leaves before left behind served) ?_ (.inl rfl) other
  rintro rfl
  cases behind

/-- A thread reads the value after it has released the mutex. -/
theorem Kept.gets (kept : s.Kept value) (at_ : s.pc t = .getValue) :
    Kept value { s.setPc t .acquired with result := Function.update s.result t (some s.value) } := by
  refine ⟨kept.placed.walks (by rw [at_]; rfl), kept.used.walks (by rw [at_]; rfl) rfl, fun u => ?_,
    kept.same, fun u => ?_⟩
  · show Function.update s.pc t .acquired u = .take → s.exists_ = 1
    rcases eq_or_ne u t with rfl | apart
    · rw [Function.update_self]
      nofun
    · rw [Function.update_of_ne apart]
      exact kept.present u
  · show Function.update s.pc t .acquired u = .acquired →
      Function.update s.result t (some s.value) u = some value
    rcases eq_or_ne u t with rfl | apart
    · rw [Function.update_self, Function.update_self, kept.same]
      exact fun _ => rfl
    · rw [Function.update_of_ne apart, Function.update_of_ne apart]
      exact kept.result u

/-- Every step of a thread keeps all this. -/
theorem Kept.threadStep (kept : s.Kept value) (moved : s.threadStep t = some s') : s'.Kept value := by
  simp only [ContainerState.threadStep] at moved
  cases at_ : s.pc t with
  | outside | acquired | signal => simp [at_] at moved
  | acquireLock =>
    simp only [at_, after, Option.map_eq_some_iff] at moved
    obtain ⟨m, locked, rfl⟩ := moved
    have taken := Monitor.owner_lock locked
    refine kept.locks taken rfl ?_ (by nofun) (by rw [at_]; rfl)
    exact ((kept.used.served_free taken.1).lock locked).mono le_rfl (Nat.zero_le 1)
  | releaseLock =>
    simp only [at_, after, Option.map_eq_some_iff] at moved
    obtain ⟨m, locked, rfl⟩ := moved
    have taken := Monitor.owner_lock locked
    exact kept.locks taken rfl ((kept.used.served_free taken.1).lock locked) (by nofun) (by rw [at_]; rfl)
  | wait =>
    simp only [at_, after, Option.map_eq_some_iff] at moved
    obtain ⟨m, locked, rfl⟩ := moved
    have taken := Monitor.owner_relock locked
    exact kept.locks taken rfl ((kept.used.served_free taken.1).relock locked) (by nofun) (by rw [at_]; rfl)
  | test =>
    simp only [at_] at moved
    split_ifs at moved with gone
    · obtain ⟨m, waited, rfl⟩ := Option.map_eq_some_iff.mp moved
      refine kept.unlocks (by rw [at_]; rfl) (Monitor.owner_wait waited) rfl ?_ (by rw [at_]; rfl) (by nofun)
      rw [gone]
      exact Monitor.Served.nothing m
    · cases moved
      have one : s.exists_ = 1 := kept.placed.zero_or_one.resolve_left gone
      have served : s.monitor.Served s.exists_.toNat ContainerPc.test.attends := kept.used.served_owned at_ rfl
      exact kept.moves (kept.placed.walks (by rw [at_]; rfl))
        (kept.used.works (by rw [at_]; rfl) rfl rfl served) (fun _ => one) (.inl rfl) (by nofun)
  | take =>
    simp only [at_] at moved
    cases moved
    have placed := kept.placed
    rw [kept.present t at_] at placed
    exact kept.moves (placed.take rfl) (kept.used.works (by rw [at_]; rfl) rfl rfl (.nothing _)) (by nofun)
      (.inr (by rw [at_]; rfl)) (by nofun)
  | put =>
    simp only [at_] at moved
    cases moved
    have served : s.monitor.Served (Int.toNat 1) ContainerPc.signal.attends := fun _ => Nat.le_add_left _ _
    exact kept.moves (kept.placed.put (by rw [at_]; rfl) rfl) (kept.used.works (by rw [at_]; rfl) rfl rfl served)
      (by nofun) (.inr (by rw [at_]; rfl)) (by nofun)
  | getValue =>
    simp only [at_] at moved
    cases moved
    exact kept.gets at_
  | acquireUnlock | releaseUnlock =>
    simp only [at_, after, Option.map_eq_some_iff] at moved
    obtain ⟨m, unlocked, rfl⟩ := moved
    have served := kept.used.served_owned at_ rfl
    exact kept.unlocks (by rw [at_]; rfl) (Monitor.owner_unlock unlocked) rfl (served.unlock unlocked)
      (by rw [at_]; rfl) (by nofun)

theorem Kept.step {a : ContainerAction ι} (kept : s.Kept value) (moved : s.step a = some s') :
    s'.Kept value := by
  cases a with
  | acquire t | release t =>
    simp only [ContainerState.step] at moved
    split_ifs at moved with at_
    cases moved
    exact kept.calls (by rw [at_]; rfl) rfl (by rw [at_]; rfl) (by nofun)
  | step t => exact kept.threadStep moved
  | signal t choice =>
    simp only [ContainerState.step] at moved
    split_ifs at moved with at_
    obtain ⟨m, notified, rfl⟩ := Option.map_eq_some_iff.mp moved
    have served : s.monitor.Served s.exists_.toNat (0 + 1) := kept.used.served_owned at_ rfl
    exact kept.moves (kept.placed.walks (by rw [at_]; rfl))
      (kept.used.works (by rw [at_]; rfl) (Monitor.owner_notifyOne notified) rfl (served.notifyOne notified))
      (by nofun) (.inl rfl) (by nofun)
  | wake t =>
    obtain ⟨m, woke, rfl⟩ := Option.map_eq_some_iff.mp moved
    exact ⟨kept.placed, kept.used.wake woke, kept.present, kept.same, kept.result⟩

theorem kept_of_reachable {allowed : ContainerState ι Value → ContainerAction ι → Prop}
    (reachable : (container ι value).Reachable allowed s) : s.Kept value := by
  apply reachable.invariant
  · rintro s rfl
    refine ⟨.inside fun _ => rfl, ⟨fun _ => iff_of_false nofun nofun, ?_⟩, nofun, rfl, nofun⟩
    rintro ⟨t, member⟩
    cases member
  · intro s s' a _ kept moved
    exact kept.step moved

end ContainerState

/-- In every run at most one thread has the value, `exists` is 1 exactly if none has it and 0 otherwise, and
`container_acquire` returns the value. When the value is there and the mutex is free, no thread sleeps unless
one was woken and has not tested `exists` yet. -/
theorem container_exclusive {value : Value} {s : ContainerState ι Value}
    (reachable : (container ι value).Reachable (fun _ _ => True) s) :
    (∀ t u, (s.pc t).hasValue = true → (s.pc u).hasValue = true → t = u) ∧
      (s.exists_ = 1 ↔ ∀ t, (s.pc t).hasValue = false) ∧ (s.exists_ = 0 ∨ s.exists_ = 1) ∧
      (∀ t, s.pc t = .acquired → s.result t = some value) ∧
      ¬(s.exists_ = 1 ∧ s.monitor.owner = none ∧ s.monitor.asleep.Nonempty ∧ s.monitor.woken = ∅) := by
  have kept := ContainerState.kept_of_reachable reachable
  refine ⟨fun t u => kept.placed.unique, kept.placed.eq_one_iff, kept.placed.zero_or_one, kept.result, ?_⟩
  rintro ⟨there, free, sleeps, none⟩
  have served := kept.used.served_free free sleeps
  rw [there, none, Finset.card_empty] at served
  exact absurd served (by decide)

/-- One thread has the value and the other one sleeps until it is released. -/
def handedOver : List (ContainerAction Bool) :=
  [.acquire true, .step true, .step true, .step true, .step true, .step true, .acquire false, .step false,
    .step false, .release true, .step true, .step true, .signal true (some false), .step true]

theorem container_exclusive_handed :
    ∃ s, (container Bool 7).Reachable (fun _ _ => True) s ∧ s.monitor.woken = {false} ∧
      ∀ t, (s.pc t).hasValue = false := by
  obtain ⟨s, ran, there, woken⟩ : ∃ s, (container Bool 7).run
      ⟨fun _ => .outside, fun _ => none, 1, 7, .init⟩ handedOver = some s ∧ s.exists_ = 1 ∧
        s.monitor.woken = {false} :=
    ⟨_, rfl, rfl, by decide⟩
  have reachable : (container Bool 7).Reachable (fun _ _ => True) s :=
    .run (.start rfl) (fun _ _ _ => trivial) ran
  exact ⟨s, reachable, woken, (container_exclusive reachable).2.1.mp there⟩

end Hseos.Pthread
