import Mathlib.Data.Finset.Card
import Mathlib.Logic.Function.Basic
import Mathlib.Tactic.Common

/-! # A mutex with a condition variable

A monitor is a mutex and one condition variable. `wait` releases the mutex and goes to sleep in one step;
a thread that sleeps is woken by `notify_one`, which takes any sleeper, or for no reason, and then has to
take the mutex again, for which other threads compete with it. `Served` is what rules out a missed
wake-up: while somebody sleeps, there are no more units available than threads that have been woken to
look for one, but for what the owner of the mutex still attends to.
-/

namespace Hseos

/-- The owner of the mutex, the threads asleep in `wait` and those woken in it, which are neither. -/
structure Monitor (ι : Type*) [DecidableEq ι] where
  owner : Option ι
  asleep : Finset ι
  woken : Finset ι
  apart : Disjoint asleep woken
  outside : ∀ t, owner = some t → t ∉ asleep ∧ t ∉ woken

namespace Monitor

variable {ι : Type*} [DecidableEq ι] {m m' : Monitor ι} {t : ι} {units extra : ℕ}

/-- Nobody has the mutex, and nobody waits. -/
def init : Monitor ι := ⟨none, ∅, ∅, Finset.disjoint_empty_left _, nofun⟩

/-- A thread takes the free mutex. -/
def lock (t : ι) (m : Monitor ι) : Option (Monitor ι) :=
  if free : m.owner = none ∧ t ∉ m.asleep ∧ t ∉ m.woken then
    some { m with owner := some t, outside := fun _ same => Option.some.inj same ▸ free.2 }
  else none

def unlock (t : ι) (m : Monitor ι) : Option (Monitor ι) :=
  if m.owner = some t then some { m with owner := none, outside := nofun } else none

/-- The owner releases the mutex and goes to sleep. -/
def wait (t : ι) (m : Monitor ι) : Option (Monitor ι) :=
  if held : m.owner = some t then
    some { m with
      owner := none
      asleep := insert t m.asleep
      apart := Finset.disjoint_insert_left.mpr ⟨(m.outside t held).2, m.apart⟩
      outside := nofun }
  else none

/-- A sleeper wakes up. -/
def wake (t : ι) (m : Monitor ι) : Option (Monitor ι) :=
  if sleeps : t ∈ m.asleep then
    some { m with
      asleep := m.asleep.erase t
      woken := insert t m.woken
      apart := Finset.disjoint_insert_right.mpr
        ⟨Finset.notMem_erase t _, m.apart.mono_left (Finset.erase_subset t _)⟩
      outside := by
        intro o held
        refine ⟨fun member => (m.outside o held).1 (Finset.mem_of_mem_erase member), ?_⟩
        rw [Finset.mem_insert, not_or]
        refine ⟨?_, (m.outside o held).2⟩
        rintro rfl
        exact (m.outside o held).1 sleeps }
  else none

/-- `notify_one`, which wakes this thread, or none if nobody sleeps. -/
def notifyOne (choice : Option ι) (m : Monitor ι) : Option (Monitor ι) :=
  match choice with
  | some t => m.wake t
  | none => if m.asleep = ∅ then some m else none

/-- A woken thread takes the free mutex again. -/
def relock (t : ι) (m : Monitor ι) : Option (Monitor ι) :=
  if free : m.owner = none ∧ t ∈ m.woken then
    some { m with
      owner := some t
      woken := m.woken.erase t
      apart := m.apart.mono_right (Finset.erase_subset t _)
      outside := by
        rintro o same
        obtain rfl := Option.some.inj same
        exact ⟨Finset.disjoint_right.mp m.apart free.2, Finset.notMem_erase _ _⟩ }
  else none

/-- While a thread sleeps, each unit but `extra` has a woken thread that will look for it. -/
def Served (units extra : ℕ) (m : Monitor ι) : Prop :=
  m.asleep.Nonempty → units ≤ m.woken.card + extra

theorem Served.mono {units' extra' : ℕ} (served : m.Served units extra) (fewer : units' ≤ units)
    (more : extra ≤ extra') : m.Served units' extra' := by
  intro sleeps
  have := served sleeps
  omega

theorem Served.nothing (m : Monitor ι) : m.Served 0 extra := fun _ => Nat.zero_le _

theorem owner_lock (locked : m.lock t = some m') : m.owner = none ∧ m'.owner = some t := by
  unfold lock at locked
  split_ifs at locked with free
  cases locked
  exact ⟨free.1, rfl⟩

theorem Served.lock (served : m.Served units extra) (locked : m.lock t = some m') :
    m'.Served units extra := by
  unfold Monitor.lock at locked
  split_ifs at locked
  cases locked
  exact served

theorem owner_unlock (unlocked : m.unlock t = some m') : m'.owner = none := by
  unfold unlock at unlocked
  split_ifs at unlocked
  cases unlocked
  rfl

theorem Served.unlock (served : m.Served units extra) (unlocked : m.unlock t = some m') :
    m'.Served units extra := by
  unfold Monitor.unlock at unlocked
  split_ifs at unlocked
  cases unlocked
  exact served

theorem owner_wait (waited : m.wait t = some m') : m'.owner = none := by
  unfold wait at waited
  split_ifs at waited
  cases waited
  rfl

theorem owner_wake (woke : m.wake t = some m') : m'.owner = m.owner := by
  unfold wake at woke
  split_ifs at woke
  cases woke
  rfl

theorem card_wake (woke : m.wake t = some m') : m'.woken.card = m.woken.card + 1 := by
  unfold wake at woke
  split_ifs at woke with sleeps
  cases woke
  exact Finset.card_insert_of_notMem (Finset.disjoint_left.mp m.apart sleeps)

theorem asleep_of_wake (woke : m.wake t = some m') : m.asleep.Nonempty := by
  unfold wake at woke
  split_ifs at woke with sleeps
  exact ⟨t, sleeps⟩

theorem Served.wake (served : m.Served units extra) (woke : m.wake t = some m') :
    m'.Served units extra := by
  intro _
  have := served (asleep_of_wake woke)
  have := card_wake woke
  omega

theorem owner_notifyOne {choice : Option ι} (notified : m.notifyOne choice = some m') :
    m'.owner = m.owner := by
  cases choice with
  | some t => exact owner_wake notified
  | none =>
    simp only [notifyOne] at notified
    split_ifs at notified
    cases notified
    rfl

/-- A notification attends to one unit: a sleeper is woken for it, or nobody sleeps. -/
theorem Served.notifyOne {choice : Option ι} (served : m.Served units (extra + 1))
    (notified : m.notifyOne choice = some m') : m'.Served units extra := by
  intro sleeps
  cases choice with
  | some t =>
    have := served (asleep_of_wake notified)
    have := card_wake notified
    omega
  | none =>
    simp only [Monitor.notifyOne] at notified
    split_ifs at notified with empty
    cases notified
    exact absurd empty sleeps.ne_empty

theorem owner_relock (locked : m.relock t = some m') : m.owner = none ∧ m'.owner = some t := by
  unfold relock at locked
  split_ifs at locked with free
  cases locked
  exact ⟨free.1, rfl⟩

/-- A woken thread that has the mutex attends to one unit itself. -/
theorem Served.relock (served : m.Served units extra) (locked : m.relock t = some m') :
    m'.Served units (extra + 1) := by
  unfold Monitor.relock at locked
  split_ifs at locked with free
  cases locked
  intro sleeps
  have before := served sleeps
  have one := Finset.card_erase_add_one free.2
  change units ≤ (m.woken.erase t).card + (extra + 1)
  omega

section Waiting

/-- The threads in `wait`, asleep or woken. -/
def waiting (m : Monitor ι) : Finset ι := m.asleep ∪ m.woken

theorem waiting_lock (locked : m.lock t = some m') : m'.waiting = m.waiting ∧ m'.woken = m.woken := by
  unfold lock at locked
  split_ifs at locked
  cases locked
  exact ⟨rfl, rfl⟩

theorem waiting_unlock (unlocked : m.unlock t = some m') : m'.waiting = m.waiting ∧ m'.woken = m.woken := by
  unfold unlock at unlocked
  split_ifs at unlocked
  cases unlocked
  exact ⟨rfl, rfl⟩

theorem waiting_wait (waited : m.wait t = some m') : m'.waiting = insert t m.waiting ∧ m'.woken = m.woken := by
  unfold wait at waited
  split_ifs at waited
  cases waited
  exact ⟨Finset.insert_union t m.asleep m.woken, rfl⟩

theorem waiting_wake (woke : m.wake t = some m') : m'.waiting = m.waiting := by
  unfold wake at woke
  split_ifs at woke with sleeps
  cases woke
  change m.asleep.erase t ∪ insert t m.woken = m.asleep ∪ m.woken
  rw [Finset.union_insert, ← Finset.insert_union, Finset.insert_erase sleeps]

/-- A notification wakes one thread at most. -/
theorem waiting_notifyOne {choice : Option ι} (notified : m.notifyOne choice = some m') :
    m'.waiting = m.waiting ∧ m'.woken.card ≤ m.woken.card + 1 := by
  cases choice with
  | some t => exact ⟨waiting_wake notified, (card_wake notified).le⟩
  | none =>
    simp only [notifyOne] at notified
    split_ifs at notified
    cases notified
    exact ⟨rfl, Nat.le_succ _⟩

theorem waiting_relock (locked : m.relock t = some m') :
    m'.waiting = m.waiting.erase t ∧ m'.woken.card + 1 = m.woken.card := by
  unfold relock at locked
  split_ifs at locked with free
  cases locked
  refine ⟨?_, Finset.card_erase_add_one free.2⟩
  change m.asleep ∪ m.woken.erase t = (m.asleep ∪ m.woken).erase t
  rw [Finset.erase_union_distrib, Finset.erase_eq_of_notMem (Finset.disjoint_right.mp m.apart free.2)]

theorem exists_lock (free : m.owner = none) (outside : t ∉ m.waiting) : ∃ m', m.lock t = some m' := by
  rw [waiting, Finset.mem_union, not_or] at outside
  exact ⟨_, dif_pos ⟨free, outside⟩⟩

theorem exists_unlock (owner : m.owner = some t) : ∃ m', m.unlock t = some m' := ⟨_, if_pos owner⟩

theorem exists_wait (owner : m.owner = some t) : ∃ m', m.wait t = some m' := ⟨_, dif_pos owner⟩

theorem exists_relock (free : m.owner = none) (woken : t ∈ m.woken) : ∃ m', m.relock t = some m' :=
  ⟨_, dif_pos ⟨free, woken⟩⟩

/-- A notification wakes a sleeper if there is one, so it is never stuck. -/
theorem exists_notifyOne (m : Monitor ι) : ∃ choice m', m.notifyOne choice = some m' := by
  rcases m.asleep.eq_empty_or_nonempty with empty | ⟨t, sleeps⟩
  · exact ⟨none, m, if_pos empty⟩
  · exact ⟨some t, _, dif_pos sleeps⟩

end Waiting

section Threads

/-! Threads that use a monitor: which places in the program have the mutex, and how many units a thread there
attends to while it has it. -/

variable {Pc : Type*} {holds : Pc → Bool} {attends : Pc → ℕ} {pc : ι → Pc} {p : Pc} {units' : ℕ}

/-- The units that the owner of the mutex attends to. -/
def attended (attends : Pc → ℕ) (pc : ι → Pc) (m : Monitor ι) : ℕ := (m.owner.map fun t => attends (pc t)).getD 0

/-- The mutex is with the thread whose place says so, and no sleeper misses a unit. -/
structure Used (holds : Pc → Bool) (attends : Pc → ℕ) (pc : ι → Pc) (m : Monitor ι) (units : ℕ) : Prop where
  owner_iff : ∀ t, m.owner = some t ↔ holds (pc t) = true
  served : m.Served units (attended attends pc m)

theorem attended_of_free (attends : Pc → ℕ) (pc : ι → Pc) (free : m.owner = none) :
    attended attends pc m = 0 := by
  rw [attended, free]
  rfl

theorem attended_of_owner (attends : Pc → ℕ) (pc : ι → Pc) (owner : m.owner = some t) :
    attended attends pc m = attends (pc t) := by
  rw [attended, owner]
  rfl

theorem Used.served_free (used : Used holds attends pc m units) (free : m.owner = none) : m.Served units 0 :=
  attended_of_free attends pc free ▸ used.served

theorem Used.served_owned (used : Used holds attends pc m units) (here : pc t = p) (has : holds p = true) :
    m.Served units (attends p) := by
  have owner := (used.owner_iff t).mpr (here ▸ has)
  rw [← here, ← attended_of_owner attends pc owner]
  exact used.served

/-- Two threads that have the mutex are the same. -/
theorem Used.unique (used : Used holds attends pc m units) {u : ι} (first : holds (pc t) = true)
    (second : holds (pc u) = true) : t = u :=
  Option.some.inj (((used.owner_iff t).mpr first).symm.trans ((used.owner_iff u).mpr second))

/-- A thread that does not have the mutex goes on without it. -/
theorem Used.walks (used : Used holds attends pc m units) (before : holds (pc t) = false)
    (behind : holds p = false) : Used holds attends (Function.update pc t p) m units := by
  have apart : ∀ u, m.owner = some u → u ≠ t := by
    rintro u owner rfl
    exact absurd ((used.owner_iff u).mp owner) (by simp [before])
  constructor
  · intro u
    rcases eq_or_ne u t with rfl | other
    · rw [Function.update_self]
      exact iff_of_false (fun owner => apart u owner rfl) (by simp [behind])
    · rw [Function.update_of_ne other]
      exact used.owner_iff u
  · cases owner : m.owner with
    | none =>
      rw [attended_of_free _ _ owner]
      exact used.served_free owner
    | some u =>
      rw [attended_of_owner _ _ owner, Function.update_of_ne (apart u owner),
        ← attended_of_owner attends pc owner]
      exact used.served

/-- A thread takes the mutex, or goes on with it. -/
theorem Used.has (used : Used holds attends pc m units) (before : m.owner = none ∨ m.owner = some t)
    (owner : m'.owner = some t) (has : holds p = true) (served : m'.Served units' (attends p)) :
    Used holds attends (Function.update pc t p) m' units' := by
  constructor
  · intro u
    rcases eq_or_ne u t with rfl | other
    · rw [Function.update_self]
      exact iff_of_true owner has
    · rw [Function.update_of_ne other, ← used.owner_iff u, owner]
      refine iff_of_false (fun same => other (Option.some.inj same).symm) fun same => ?_
      rcases before with free | here
      · cases free.symm.trans same
      · exact other (Option.some.inj (same.symm.trans here))
  · rw [attended_of_owner _ _ owner, Function.update_self]
    exact served

theorem Used.takes (used : Used holds attends pc m units) (taken : m.owner = none ∧ m'.owner = some t)
    (has : holds p = true) (served : m'.Served units' (attends p)) :
    Used holds attends (Function.update pc t p) m' units' :=
  used.has (.inl taken.1) taken.2 has served

theorem Used.works (used : Used holds attends pc m units) (before : holds (pc t) = true)
    (same : m'.owner = m.owner) (has : holds p = true) (served : m'.Served units' (attends p)) :
    Used holds attends (Function.update pc t p) m' units' := by
  have owner := (used.owner_iff t).mpr before
  exact used.has (.inr owner) (same.trans owner) has served

/-- The owner of the mutex leaves it. -/
theorem Used.leaves (used : Used holds attends pc m units) (before : holds (pc t) = true)
    (left : m'.owner = none) (behind : holds p = false) (served : m'.Served units' 0) :
    Used holds attends (Function.update pc t p) m' units' := by
  have owner := (used.owner_iff t).mpr before
  constructor
  · intro u
    rcases eq_or_ne u t with rfl | other
    · rw [Function.update_self]
      exact iff_of_false (by simp [left]) (by simp [behind])
    · rw [Function.update_of_ne other, ← used.owner_iff u, left, owner]
      exact iff_of_false nofun fun same => other (Option.some.inj same).symm
  · rw [attended_of_free _ _ left]
    exact served

/-- A sleeper wakes up, and no place changes. -/
theorem Used.wake (used : Used holds attends pc m units) (woke : m.wake t = some m') :
    Used holds attends pc m' units := by
  have owner := owner_wake woke
  constructor
  · intro u
    rw [← used.owner_iff u, owner]
  · have same : attended attends pc m' = attended attends pc m := by rw [attended, owner, attended]
    rw [same]
    exact used.served.wake woke

end Threads

end Monitor

end Hseos
