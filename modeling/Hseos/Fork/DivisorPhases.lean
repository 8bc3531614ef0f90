import Hseos.Fork.DivisorServer

/-! # Phases of a round

Between the master's writes and reads a worker goes through three phases: its request is pending, it
is at work, its response is pending. The master only waits for workers in one of these, so it never
waits for a worker that waits for it, provided that every request is a number an event counter can
take and that is not zero. A request of zero, or of `2 ^ 64 - 1`, wakes nobody, and then the master
and the first worker wait for each other.
-/

namespace Hseos.Fork

/-- A number that wakes the reader of an empty event counter. -/
def Wakes (x : ℕ) : Prop := 0 < x ∧ x < 2 ^ 64 - 1

/-- The worker is at work on this request, or has ended at it. -/
def Worker.Serves (value : ℕ) : Worker → Prop
  | .read => False
  | .test v _ _ | .reserveI v _ _ | .storeI v _ _ _ | .reserveJ v _ _ | .storeJ v _ _ _
  | .write v => v = value
  | .fault _ => True

/-- A worker the master has written to and not read from, with its two counters. -/
inductive Active (value : ℕ) : Worker → ℕ → ℕ → Prop
  | requested : Active value .read value 0
  | running {worker : Worker} (serves : worker.Serves value) : Active value worker 0 0
  | responded : Active value .read 0 value

/-- The master has written to this worker in the current round and not read from it. -/
def Master.Awaits : Master → ℕ → Prop
  | .request _ i, k => k < i
  | .collect i, k => i ≤ k
  | .scanf, _ | .reset _, _ | .print _, _ | .fault _, _ => False

/-- The number the master works with wakes its workers. -/
def Master.Valid (value : ℕ) : Master → Prop
  | .reset x => Wakes x
  | .request x _ => x = value ∧ Wakes value
  | .collect _ => Wakes value
  | .scanf | .print _ | .fault _ => True

/-- Awaited workers are active, all others wait for a request. -/
structure PhaseInv (s : Server) : Prop where
  valid : s.master.Valid s.value
  awaited : ∀ k : Fin threads, s.master.Awaits k →
    Active s.value (s.workers k) (s.inputFd k) (s.outputFd k)
  idle : ∀ k : Fin threads, ¬s.master.Awaits k →
    s.workers k = .read ∧ s.inputFd k = 0 ∧ s.outputFd k = 0

/-- The master waits for a worker that waits for the master. -/
def Deadlock (s : Server) : Prop :=
  ∃ k : Fin threads, s.master = .collect k ∧ eventRead (s.outputFd k) = none ∧
    s.workers k = .read ∧ eventRead (s.inputFd k) = none

variable {sqrtPart : ℕ → ℕ} {mapped : ℕ} {s s' : Server} {k : Fin threads}

namespace PhaseInv

/-- A worker with a number to read has been written to. -/
theorem of_input (phases : PhaseInv s) (at_ : s.workers k = .read) (pending : s.inputFd k ≠ 0) :
    s.master.Awaits k ∧ s.inputFd k = s.value ∧ s.outputFd k = 0 := by
  by_cases awaits : s.master.Awaits k
  · have active := phases.awaited k awaits
    rw [at_] at active
    generalize s.inputFd k = input at *
    generalize s.outputFd k = output at *
    cases active with
    | requested => exact ⟨awaits, rfl, rfl⟩
    | running serves => exact absurd serves id
    | responded => exact absurd rfl pending
  · exact absurd (phases.idle k awaits).2.1 pending

/-- A worker at work has nothing pending. -/
theorem of_busy (phases : PhaseInv s) (busy : s.workers k ≠ .read) :
    s.master.Awaits k ∧ (s.workers k).Serves s.value ∧ s.inputFd k = 0 ∧ s.outputFd k = 0 := by
  by_cases awaits : s.master.Awaits k
  · have active := phases.awaited k awaits
    generalize s.workers k = worker at *
    generalize s.inputFd k = input at *
    generalize s.outputFd k = output at *
    cases active with
    | requested | responded => exact absurd rfl busy
    | running serves => exact ⟨awaits, serves, rfl, rfl⟩
  · exact absurd (phases.idle k awaits).1 busy

/-- While a worker is awaited the number of the round wakes. -/
theorem wakes (phases : PhaseInv s) (awaits : s.master.Awaits k) : Wakes s.value := by
  have valid := phases.valid
  cases at_ : s.master <;> rw [at_] at awaits valid
  case request => exact valid.2
  case collect => exact valid
  all_goals exact absurd awaits id

/-- Only the phase of the worker that moves can change. -/
theorem change (phases : PhaseInv s) (master : s'.master = s.master) (value : s'.value = s.value)
    (awaits : s.master.Awaits k) (own : Active s.value (s'.workers k) (s'.inputFd k) (s'.outputFd k))
    (others : ∀ j ≠ k, s'.workers j = s.workers j ∧ s'.inputFd j = s.inputFd j ∧
      s'.outputFd j = s.outputFd j) : PhaseInv s' := by
  refine ⟨by rw [master, value]; exact phases.valid, fun j awaited => ?_, fun j idle => ?_⟩
  · rw [master] at awaited
    rw [value]
    by_cases same : j = k
    · exact same ▸ own
    · obtain ⟨worker, input, output⟩ := others j same
      rw [worker, input, output]
      exact phases.awaited j awaited
  · rw [master] at idle
    have other : j ≠ k := fun same => idle (same ▸ awaits)
    obtain ⟨worker, input, output⟩ := others j other
    rw [worker, input, output]
    exact phases.idle j idle

/-- A worker at work stays at work on its request. -/
theorem work (phases : PhaseInv s) (busy : s.workers k ≠ .read) {next : Worker}
    (same : s'.master = s.master ∧ s'.value = s.value ∧ s'.inputFd = s.inputFd ∧
      s'.outputFd = s.outputFd ∧ s'.workers = Function.update s.workers k next)
    (serves : next.Serves s.value) : PhaseInv s' := by
  obtain ⟨awaits, _, input, output⟩ := phases.of_busy busy
  obtain ⟨master, value, inputs, outputs, workers⟩ := same
  refine phases.change master value awaits ?_ fun j other => ?_
  · rw [workers, inputs, outputs, input, output, Function.update_self]
    exact .running serves
  · rw [workers, inputs, outputs, Function.update_of_ne other]
    exact ⟨rfl, rfl, rfl⟩

end PhaseInv

theorem store_phases (phases : PhaseInv s) (busy : s.workers k ≠ .read) {slot x : ℕ} {next : Worker}
    (serves : next.Serves s.value) : PhaseInv (s.store mapped k slot x next) := by
  rw [Server.store]
  split
  · exact phases.work busy ⟨rfl, rfl, rfl, rfl, rfl⟩ serves
  · exact phases.work busy ⟨rfl, rfl, rfl, rfl, rfl⟩ trivial

theorem workerStep_phases (phases : PhaseInv s)
    (moved : s.workerStep sqrtPart mapped k = some s') : PhaseInv s' := by
  cases at_ : s.workers k with
  | read =>
    simp only [Server.workerStep, at_, Option.map_eq_some_iff, Prod.exists] at moved
    obtain ⟨value, counter, read, rfl⟩ := moved
    obtain ⟨pending, rfl, rfl⟩ := eventRead_some read
    obtain ⟨awaits, input, output⟩ := phases.of_input at_ pending
    refine phases.change rfl rfl awaits ?_ fun j other => ?_
    · simp only [Server.setWorker, Function.update_self, output]
      refine .running ?_
      rw [Worker.begin, if_neg pending]
      exact input
    · simp only [Server.setWorker, Function.update_of_ne other, and_self]
  | test value r i =>
    have busy : s.workers k ≠ .read := by simp [at_]
    have serves := (phases.of_busy busy).2.1
    rw [at_] at serves
    simp only [Server.workerStep, at_] at moved
    split at moved
    · split at moved <;> cases moved
      · exact phases.work busy ⟨rfl, rfl, rfl, rfl, rfl⟩ trivial
      · exact phases.work busy ⟨rfl, rfl, rfl, rfl, rfl⟩ serves
      · exact phases.work busy ⟨rfl, rfl, rfl, rfl, rfl⟩ serves
    · cases moved
      exact phases.work busy ⟨rfl, rfl, rfl, rfl, rfl⟩ serves
  | reserveI value r i | reserveJ value r i =>
    have busy : s.workers k ≠ .read := by simp [at_]
    have serves := (phases.of_busy busy).2.1
    rw [at_] at serves
    simp only [Server.workerStep, at_] at moved
    cases moved
    exact phases.work busy ⟨rfl, rfl, rfl, rfl, rfl⟩ serves
  | storeI value r i slot | storeJ value r i slot =>
    have busy : s.workers k ≠ .read := by simp [at_]
    have serves := (phases.of_busy busy).2.1
    rw [at_] at serves
    simp only [Server.workerStep, at_] at moved
    cases moved
    exact store_phases phases busy serves
  | write value =>
    have busy : s.workers k ≠ .read := by simp [at_]
    obtain ⟨awaits, serves, input, output⟩ := phases.of_busy busy
    rw [at_] at serves
    obtain rfl : value = s.value := serves
    have wakes : Wakes s.value := phases.wakes awaits
    simp only [Server.workerStep, at_, output, eventWrite_empty wakes.2, Option.map_some] at moved
    cases moved
    refine phases.change rfl rfl awaits ?_ fun j other => ?_
    · simp only [Server.setWorker, Function.update_self, input]
      exact .responded
    · simp only [Server.setWorker, Function.update_of_ne other, and_self]
  | fault => simp only [Server.workerStep, at_, reduceCtorEq] at moved

/-- A worker whose response can be read has nothing else pending. -/
theorem Active.of_output {value x input output counter : ℕ} {worker : Worker}
    (active : Active value worker input output) (read : eventRead output = some (x, counter)) :
    worker = .read ∧ input = 0 ∧ counter = 0 := by
  cases active with
  | requested | running => cases read
  | responded => exact ⟨rfl, rfl, (eventRead_some read).2.2⟩

theorem masterStep_phases (phases : PhaseInv s) (moved : s.masterStep mapped = some s') :
    PhaseInv s' := by
  have valid := phases.valid
  cases at_ : s.master with
  | scanf | fault => simp only [Server.masterStep, at_, reduceCtorEq] at moved
  | reset x =>
    simp only [Server.masterStep, at_] at moved
    cases moved
    rw [at_] at valid
    refine ⟨⟨rfl, valid⟩, fun k awaits => absurd awaits (Nat.not_lt_zero k), fun k _ => ?_⟩
    exact phases.idle k (by simp [at_, Master.Awaits])
  | request x i =>
    rw [at_] at valid
    obtain ⟨rfl, wakes⟩ := valid
    have awaited := phases.awaited
    have idle := phases.idle
    simp only [at_, Master.Awaits] at awaited idle
    simp only [Server.masterStep, at_] at moved
    split_ifs at moved with worker
    · have own := idle ⟨i, worker⟩ (lt_irrefl i)
      simp only [own.2.1, eventWrite_empty wakes.2, Option.map_some] at moved
      cases moved
      refine ⟨⟨rfl, wakes⟩, fun k written => ?_, fun k unwritten => ?_⟩
      · by_cases same : k = ⟨i, worker⟩
        · subst same
          simp only [Function.update_self, own.1, own.2.2]
          exact .requested
        · have earlier : k.val ≠ i := fun equal => same (Fin.ext equal)
          simp only [Function.update_of_ne same]
          exact awaited k (by change k.val < i + 1 at written; omega)
      · have later : ¬k.val < i := fun before => unwritten (Nat.lt_succ_of_lt before)
        have other : k ≠ ⟨i, worker⟩ := by
          rintro rfl
          exact unwritten (Nat.lt_succ_self i)
        simp only [Function.update_of_ne other]
        exact idle k later
    · cases moved
      exact ⟨wakes, fun k _ => awaited k (by omega), fun k out => absurd (Nat.zero_le k) out⟩
  | collect i =>
    rw [at_] at valid
    have awaited := phases.awaited
    have idle := phases.idle
    simp only [at_, Master.Awaits] at awaited idle
    simp only [Server.masterStep, at_] at moved
    split_ifs at moved with worker
    · obtain ⟨⟨value, counter⟩, read, rfl⟩ := Option.map_eq_some_iff.mp moved
      obtain ⟨responded, waiting, rfl⟩ := (awaited ⟨i, worker⟩ le_rfl).of_output read
      refine ⟨valid, fun k left => ?_, fun k done => ?_⟩
      · have other : k ≠ ⟨i, worker⟩ := by
          rintro rfl
          exact Nat.not_succ_le_self i left
        simp only [Function.update_of_ne other]
        exact awaited k (Nat.le_of_succ_le left)
      · by_cases same : k = ⟨i, worker⟩
        · subst same
          simp only [Function.update_self]
          exact ⟨responded, waiting, trivial⟩
        · have earlier : k.val ≠ i := fun equal => same (Fin.ext equal)
          simp only [Function.update_of_ne same]
          exact idle k (by change ¬i + 1 ≤ k.val at done; omega)
    · cases moved
      exact ⟨trivial, fun _ awaits => absurd awaits id, fun k _ => idle k (by omega)⟩
  | print i =>
    have idle := phases.idle
    simp only [at_, Master.Awaits, not_false_eq_true, true_imp_iff] at idle
    simp only [Server.masterStep, at_] at moved
    split at moved
    · split at moved <;> cases moved <;> exact ⟨trivial, fun _ awaits => absurd awaits id, fun k _ => idle k⟩
    · cases moved
      exact ⟨trivial, fun _ awaits => absurd awaits id, fun k _ => idle k⟩

theorem PhaseInv.start (started : (divisorServer sqrtPart mapped).start s) : PhaseInv s := by
  cases started
  exact ⟨trivial, fun _ awaits => absurd awaits id, fun _ _ => ⟨rfl, rfl, rfl⟩⟩

/-- The master scans a number that wakes the workers. -/
theorem PhaseInv.scanned {x : ℕ} (phases : PhaseInv s) (at_ : s.master = .scanf) (wakes : Wakes x) :
    PhaseInv { s with master := .reset x } := by
  have idle := phases.idle
  simp only [at_, Master.Awaits, not_false_eq_true, true_imp_iff] at idle
  exact ⟨wakes, fun _ awaits => absurd awaits id, fun k _ => idle k⟩

/-- Runs in which every number scanned wakes the workers. -/
theorem reachable_phases {allowed : Server → ServerAction → Prop}
    (wakes : ∀ s result, allowed s (.scanf result) → result.getD 0 < 2 ^ 64 → Wakes (result.getD 0))
    (reachable : (divisorServer sqrtPart mapped).Reachable allowed s) : PhaseInv s := by
  apply reachable.invariant PhaseInv (fun s started => .start started)
  intro s s' a permitted phases moved
  cases a with
  | master => exact masterStep_phases phases moved
  | worker k => exact workerStep_phases phases moved
  | scanf result =>
    simp only [divisorServer, Server.step] at moved
    split_ifs at moved with scanning
    cases moved
    exact phases.scanned scanning.1 (wakes s result permitted scanning.2)

/-- While every awaited worker is active the master is in no deadlock. -/
theorem PhaseInv.no_deadlock (phases : PhaseInv s) : ¬Deadlock s := by
  rintro ⟨k, at_, noOutput, reading, noInput⟩
  have awaits : s.master.Awaits k := by
    rw [at_]
    exact le_rfl
  have active := phases.awaited k awaits
  have positive := (phases.wakes awaits).1
  rw [reading] at active
  generalize s.inputFd k = input at *
  generalize s.outputFd k = output at *
  cases active with
  | running serves => exact serves
  | requested =>
    rw [eventRead_pos (by omega)] at noInput
    cases noInput
  | responded =>
    rw [eventRead_pos (by omega)] at noOutput
    cases noOutput

/-- A request that wakes nobody leaves all counters empty. -/
theorem eventWrite_silent {x : ℕ} (silent : ¬Wakes x) (word : x < 2 ^ 64) :
    ∃ accepted, eventWrite 0 x = some (accepted, 0) := by
  rw [Wakes] at silent
  rcases Nat.eq_zero_or_pos x with rfl | positive
  · exact ⟨true, rfl⟩
  · obtain rfl : x = 2 ^ 64 - 1 := by omega
    exact ⟨false, rfl⟩

/-- After a request that wakes nobody the master comes to wait for the first worker. -/
theorem silent_deadlock {allowed : Server → ServerAction → Prop} {result : Option ℕ}
    (scanned : ∀ s, allowed s (.scanf result)) (free : ∀ s, allowed s .master)
    (word : result.getD 0 < 2 ^ 64) (silent : ¬Wakes (result.getD 0)) :
    ∃ s, (divisorServer sqrtPart mapped).Reachable allowed s ∧ Deadlock s := by
  obtain ⟨accepted, unheard⟩ := eventWrite_silent silent word
  have requests : ∀ i ≤ threads, ∃ s, (divisorServer sqrtPart mapped).Reachable allowed s ∧
      s.master = .request (result.getD 0) i ∧ (∀ k, s.workers k = .read) ∧
      (∀ k, s.inputFd k = 0) ∧ ∀ k, s.outputFd k = 0 := by
    intro i
    induction i with
    | zero =>
      intro _
      have scan := Machine.Reachable.step (.start rfl) (scanned _)
        (show (divisorServer sqrtPart mapped).step _ (.scanf result) = some _ from if_pos ⟨rfl, word⟩)
      exact ⟨_, .step scan (free _) rfl, rfl, fun _ => rfl, fun _ => rfl, fun _ => rfl⟩
    | succ i ih =>
      intro bound
      obtain ⟨s, reachable, at_, reading, inputs, outputs⟩ := ih (by omega)
      have worker : i < threads := bound
      refine ⟨{ s with
        master := .request (result.getD 0) (i + 1)
        inputFd := Function.update s.inputFd ⟨i, worker⟩ 0 }, .step reachable (free s) ?_, rfl, reading,
        fun k => ?_, outputs⟩
      · simp only [divisorServer, Server.step, Server.masterStep, at_, dif_pos worker, inputs, unheard,
          Option.map_some]
      · by_cases same : k = ⟨i, worker⟩
        · simp only [same, Function.update_self]
        · simp only [Function.update_of_ne same, inputs]
  obtain ⟨s, reachable, at_, reading, inputs, outputs⟩ := requests threads le_rfl
  refine ⟨{ s with master := .collect 0 }, .step reachable (free s) ?_, ⟨0, by decide⟩, rfl,
    ?_, reading _, ?_⟩
  · simp only [divisorServer, Server.step, Server.masterStep, at_, lt_irrefl, dite_false]
  · rw [outputs, eventRead_zero]
  · rw [inputs, eventRead_zero]

/-- Whatever numbers a user may enter, no run reaches a state in which the master waits for a worker
that waits for the master if and only if each of these numbers could be read, is not zero and is not
`2 ^ 64 - 1`. -/
theorem no_deadlock_iff (sqrtPart : ℕ → ℕ) (mapped : ℕ) (enters : Option ℕ → Prop) :
    (∀ s, (divisorServer sqrtPart mapped).Reachable
        (fun _ a => ∀ result, a = .scanf result → enters result) s → ¬Deadlock s) ↔
    ∀ result, enters result → result.getD 0 < 2 ^ 64 →
      ∃ v, result = some v ∧ 0 < v ∧ v < 2 ^ 64 - 1 := by
  have wakes_iff (result : Option ℕ) :
      Wakes (result.getD 0) ↔ ∃ v, result = some v ∧ 0 < v ∧ v < 2 ^ 64 - 1 := by
    cases result <;> simp [Wakes]
  constructor
  · intro safe result entered word
    rw [← wakes_iff]
    by_contra silent
    let allowed (_ : Server) (a : ServerAction) : Prop := ∀ result, a = .scanf result → enters result
    have scanned (s : Server) : allowed s (.scanf result) := by
      rintro _ ⟨⟩
      exact entered
    have free (s : Server) : allowed s .master := by
      rintro _ ⟨⟩
    obtain ⟨s, reachable, deadlock⟩ := silent_deadlock scanned free word silent
    exact safe s reachable deadlock
  · intro good s reachable
    refine (reachable_phases (fun s result permitted word => ?_) reachable).no_deadlock
    exact (wakes_iff result).mpr (good result (permitted result rfl) word)

/-- After a zero the master waits for the first worker, and the first worker for the master. -/
theorem zero_deadlock :
    ∃ s, (divisorServer (fun v => v.sqrt + 1) maxResponses).Reachable (fun _ _ => True) s ∧
      s.value = 0 ∧ Deadlock s := by
  have ran : (divisorServer (fun v => v.sqrt + 1) maxResponses).run
      ⟨.scanf, fun _ => .read, fun _ => 0, fun _ => 0, ⟨0, fun _ => 0⟩, 0, fun _ => [], []⟩
      (.scanf (some 0) :: List.replicate 10 .master) = some _ := rfl
  exact ⟨_, (Machine.Reachable.start rfl).run (fun _ _ _ => trivial) ran, rfl, ⟨0, by decide⟩, rfl,
    rfl, rfl, rfl⟩

end Hseos.Fork
