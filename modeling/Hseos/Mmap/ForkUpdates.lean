import Hseos.Lib.Machine
import Mathlib.Data.List.Chain
import Mathlib.Data.Int.Basic

/-! # Updates of a shared mapping

The child stores each number that is typed in a mapping that it shares with its parent, and the parent looks at it
from time to time and prints it if it has changed. Nothing keeps the two in step. The numbers typed are those that
`scanf` reads.
-/

namespace Hseos.Mmap

/-- What the parent does next; `printf` comes with the comparison. -/
inductive WatchPc where
  | read
  | compare (newValue : ℤ)
  | sleep
deriving DecidableEq

/-- The mapping, the numbers that the child has not read yet, and the parent with what it has printed. -/
structure Watch where
  mem : ℤ
  typed : List ℤ
  pc : WatchPc
  lastValue : ℤ
  updates : List ℤ

inductive WatchAction where
  | child
  | parent

namespace Watch

/-- One step of the child or of the parent. -/
def step (s : Watch) : WatchAction → Option Watch
  | .child =>
      match s.typed with
      | [] => none
      | x :: typed => some { s with mem := x, typed := typed }
  | .parent =>
      match s.pc with
      | .read => some { s with pc := .compare s.mem }
      | .compare newValue =>
          if s.lastValue ≠ newValue then
            some { s with pc := .sleep, lastValue := newValue, updates := s.updates ++ [newValue] }
          else some { s with pc := .sleep }
      | .sleep => some { s with pc := .read }

end Watch

/-- All orders of the steps, where these numbers are typed. -/
def watch (typed : List ℤ) : Machine Watch WatchAction where
  start s := s = ⟨0, typed, .read, 0, []⟩
  step := Watch.step

namespace Watch

variable {typed seen : List ℤ} {s s' : Watch}

/-- What the mapping holds after these numbers. -/
def latest (seen : List ℤ) : ℤ := (0 :: seen).getLast (List.cons_ne_nil _ _)

theorem latest_concat (seen : List ℤ) (x : ℤ) : latest (seen ++ [x]) = x := by
  simp [latest]

/-- Updates that can be printed for these numbers: some of them in order, none like the one before it. -/
structure Updates (seen updates : List ℤ) : Prop where
  sublist : updates.Sublist seen
  changes : List.IsChain (· ≠ ·) (0 :: updates)

theorem Updates.mono {seen' updates : List ℤ} (printed : Updates seen updates) (le : seen <+: seen') :
    Updates seen' updates := ⟨printed.sublist.trans le.sublist, printed.changes⟩

/-- A number other than the last one printed has been stored behind it. -/
theorem Updates.next {seen' updates : List ℤ} (printed : Updates seen updates) (last : latest updates = latest seen)
    (le : seen <+: seen') (changed : latest updates ≠ latest seen') :
    Updates seen' (updates ++ [latest seen']) := by
  obtain ⟨later, rfl⟩ := le
  obtain rfl | ⟨between, x, rfl⟩ := List.eq_nil_or_concat later
  · rw [List.append_nil] at changed
    exact absurd last changed
  · rw [List.concat_eq_append, ← List.append_assoc, latest_concat] at changed ⊢
    constructor
    · exact (printed.sublist.trans (List.sublist_append_left _ _)).append (List.Sublist.refl _)
    · rw [← List.cons_append]
      apply List.isChain_append.mpr
      refine ⟨printed.changes, List.isChain_singleton _, ?_⟩
      intro y here z only
      rw [List.getLast?_eq_some_getLast (List.cons_ne_nil _ _)] at here
      cases here
      cases only
      exact changed

/-- The parent has printed what it has seen; it compares a number that was stored since. -/
structure Polls (typed : List ℤ) (s : Watch) (seen polled : List ℤ) : Prop where
  all : typed = seen ++ s.typed
  mem : s.mem = latest seen
  before : polled <+: seen
  updates : Updates polled s.updates
  last : s.lastValue = latest s.updates
  same : latest s.updates = latest polled
  compare : ∀ newValue, s.pc = .compare newValue → ∃ now, polled <+: now ∧ now <+: seen ∧ newValue = latest now

theorem Polls.step {polled : List ℤ} {a : WatchAction} (polls : s.Polls typed seen polled)
    (moved : s.step a = some s') : ∃ seen polled, s'.Polls typed seen polled := by
  obtain ⟨all, mem, before, updates, last, same, compare⟩ := polls
  cases a with
  | child =>
    simp only [Watch.step] at moved
    split at moved
    · cases moved
    · rename_i x rest left
      cases moved
      refine ⟨seen ++ [x], polled, ?_, ?_, before.trans (List.prefix_append _ _), updates, last, same, ?_⟩
      · rw [all, left, List.append_assoc]
        rfl
      · exact (latest_concat seen x).symm
      · intro newValue here
        obtain ⟨now, since, stored, value⟩ := compare newValue here
        exact ⟨now, since, stored.trans (List.prefix_append _ _), value⟩
  | parent =>
    cases here : s.pc with
    | read =>
      simp only [Watch.step, here] at moved
      cases moved
      refine ⟨seen, polled, all, mem, before, updates, last, same, ?_⟩
      rintro newValue ⟨⟩
      exact ⟨seen, before, List.prefix_rfl, mem⟩
    | compare newValue =>
      obtain ⟨now, since, stored, rfl⟩ := compare newValue here
      simp only [Watch.step, here] at moved
      split_ifs at moved with changed
      · cases moved
        refine ⟨seen, now, all, mem, stored, ?_, ?_, ?_, nofun⟩
        · exact updates.next same since (last ▸ changed)
        · exact (latest_concat _ _).symm
        · exact latest_concat _ _
      · cases moved
        rw [ne_eq, not_not] at changed
        exact ⟨seen, now, all, mem, stored, updates.mono since, last, last.symm.trans changed, nofun⟩
    | sleep =>
      simp only [Watch.step, here] at moved
      cases moved
      exact ⟨seen, polled, all, mem, before, updates, last, same, nofun⟩

theorem polls_of_reachable (reachable : (watch typed).Reachable (fun _ _ => True) s) :
    ∃ seen polled, s.Polls typed seen polled := by
  apply reachable.invariant
  · rintro s rfl
    exact ⟨[], [], rfl, rfl, List.prefix_rfl, ⟨List.Sublist.refl _, List.isChain_singleton _⟩, rfl, rfl, nofun⟩
  · rintro s s' a - ⟨seen, polled, polls⟩ moved
    exact polls.step moved

/-- The child goes on by itself up to a number, and the parent prints it then. -/
theorem exists_run (all : List ℤ) {updates : List ℤ} (printed : updates.Sublist typed) :
    ∀ {last : ℤ} {before : List ℤ} {mem : ℤ}, List.IsChain (· ≠ ·) (last :: updates) →
      ∃ schedule s', (watch all).run ⟨mem, typed, .read, last, before⟩ schedule = some s' ∧
        s'.updates = before ++ updates := by
  induction printed with
  | slnil =>
    intro last before mem _
    exact ⟨[], _, rfl, (List.append_nil _).symm⟩
  | @cons updates typed x _ ih =>
    intro last before mem changes
    obtain ⟨schedule, s', ran, same⟩ := ih changes
    exact ⟨.child :: schedule, s', ran, same⟩
  | @cons_cons updates typed x _ ih =>
    intro last before mem changes
    obtain ⟨changed, changes⟩ := List.isChain_cons_cons.mp changes
    obtain ⟨schedule, s', ran, same⟩ := @ih x (before ++ [x]) x changes
    refine ⟨.child :: .parent :: .parent :: .parent :: schedule, s', ?_, ?_⟩
    · have compared : Watch.step ⟨x, typed, .compare x, last, before⟩ .parent =
          some ⟨x, typed, .sleep, x, before ++ [x]⟩ := if_pos changed
      show ((Watch.step ⟨x, typed, .compare x, last, before⟩ .parent).bind fun next =>
        (watch all).run next (.parent :: schedule)) = _
      rw [compared]
      exact ran
    · rw [same, List.append_assoc]
      rfl

end Watch

/-- The updates that the parent can have printed are exactly the lists of some of the numbers in the order in
which they were typed that do not begin with zero and do not have a number twice in succession. -/
theorem fork_updates_iff (typed updates : List ℤ) :
    (∃ s, (watch typed).Reachable (fun _ _ => True) s ∧ s.updates = updates) ↔
      updates.Sublist typed ∧ List.IsChain (· ≠ ·) (0 :: updates) := by
  constructor
  · rintro ⟨s, reachable, rfl⟩
    obtain ⟨seen, polled, polls⟩ := Watch.polls_of_reachable reachable
    have inside : polled <+: typed := polls.all ▸ polls.before.trans (List.prefix_append _ _)
    exact ⟨polls.updates.sublist.trans inside.sublist, polls.updates.changes⟩
  · rintro ⟨sublist, changes⟩
    obtain ⟨schedule, s, ran, same⟩ := Watch.exists_run typed sublist changes
    exact ⟨s, .run (.start rfl) (fun _ _ _ => trivial) ran, same⟩

end Hseos.Mmap
