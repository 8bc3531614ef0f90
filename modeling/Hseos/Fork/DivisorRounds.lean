import Hseos.Fork.DivisorPhases
import Mathlib.Algebra.BigOperators.Fin
import Mathlib.Algebra.Order.BigOperators.Group.Finset
import Mathlib.Tactic.Abel

/-! # What a round stores

Slots are reserved one at a time and each by one worker, so the slots written and the slots reserved
but not written yet are together exactly those below `response_size`. What a worker has stored in a
round and what its scan has still to store are together what its range has to give. When the master
has read the last response all scans have ended, and the array holds the two numbers of every pair.
-/

namespace Hseos.Fork

/-- All a worker has to store in a round for this number. -/
def workload (value k : ℕ) : List ℕ :=
  responsesFrom value (rangeHigh (rangeStep (value.sqrt + 1)) k)
    (rangeLow (rangeStep (value.sqrt + 1)) k)

/-- What a worker has still to store. -/
def Worker.todo : Worker → List ℕ
  | .test value r i => responsesFrom value r i
  | .reserveI value r i | .storeI value r i _ => i :: value / i :: responsesFrom value r (i + 1)
  | .reserveJ value r i | .storeJ value r i _ => value / i :: responsesFrom value r (i + 1)
  | .read | .write _ | .fault _ => []

/-- The slot a worker has reserved and not written yet. -/
def Worker.reserved : Worker → List ℕ
  | .storeI _ _ _ slot | .storeJ _ _ _ slot => [slot]
  | .read | .test _ _ _ | .reserveI _ _ _ | .reserveJ _ _ _ | .write _ | .fault _ => []

/-- The scan of a worker is in the range it got from the number. -/
def Worker.InRange : Worker → Prop
  | .test _ r i => 2 ≤ i ∧ i ≤ 2 ^ 32 ∧ r ≤ 2 ^ 32
  | .reserveI _ r i | .storeI _ r i _ | .reserveJ _ r i | .storeJ _ r i _ =>
      2 ≤ i ∧ i < r ∧ r ≤ 2 ^ 32
  | .read | .write _ => True
  | .fault _ => False

/-- The master has still to write to this worker in the current round. -/
def Master.Before : Master → ℕ → Prop
  | .request _ i, k => i ≤ k
  | .scanf, _ | .reset _, _ | .collect _, _ | .print _, _ | .fault _, _ => False

/-- The worker has not begun the current round. -/
def Server.Fresh (s : Server) (k : Fin threads) : Prop :=
  s.master.Before k ∨ s.inputFd k ≠ 0

/-- The master stays within the array. -/
def Master.Bounded : Master → Prop
  | .reset x => (divisorPairs x).length ≤ 32
  | .fault _ => False
  | .scanf | .request _ _ | .collect _ | .print _ => True

/-- The stores of a round are accounted for. -/
structure RoundInv (s : Server) : Prop where
  word : s.value < 2 ^ 64
  few : (divisorPairs s.value).length ≤ 32
  bounded : s.master.Bounded
  inRange : ∀ k, (s.workers k).InRange
  fresh : ∀ k, s.Fresh k → s.writes k = []
  progress : ∀ k, ¬s.Fresh k →
    (s.writes k).map Prod.snd ++ (s.workers k).todo = workload s.value k
  slots : ∑ k, ((s.writes k).map Prod.fst : Multiset ℕ) + ∑ k, ((s.workers k).reserved : Multiset ℕ) =
    Multiset.range s.ctx.responseSize
  memory : ∀ k, ∀ write ∈ s.writes k, s.ctx.responses write.1 = write.2

section Sums

variable {ι α M : Type*} [Fintype ι] [DecidableEq ι] [AddCommMonoid M]

/-- A sum in which one summand was replaced. -/
theorem sum_update (f : ι → α) (k : ι) (x : α) (g : α → M) :
    ∑ j, g (Function.update f k x j) + g (f k) = ∑ j, g (f j) + g x := by
  have rest : ∑ j ∈ Finset.univ.erase k, g (Function.update f k x j) =
      ∑ j ∈ Finset.univ.erase k, g (f j) :=
    Finset.sum_congr rfl fun j member => by rw [Function.update_of_ne (Finset.ne_of_mem_erase member)]
  rw [← Finset.add_sum_erase _ _ (Finset.mem_univ k), rest, Function.update_self,
    ← Finset.add_sum_erase _ (fun j => g (f j)) (Finset.mem_univ k)]
  abel

/-- The sum of lists, one for each index. -/
theorem sum_coe_list {n : ℕ} (f : Fin n → List ℕ) :
    ∑ k, (f k : Multiset ℕ) = ((List.finRange n).flatMap f : Multiset ℕ) := by
  rw [Fin.sum_univ_def]
  induction List.finRange n with
  | nil => rfl
  | cons k rest ih => rw [List.map_cons, List.sum_cons, ih, List.flatMap_cons, Multiset.coe_add]

end Sums

/-- The workers together have both numbers of every pair to store. -/
theorem sum_workload {value : ℕ} (word : value < 2 ^ 64) :
    ∑ k : Fin threads, (workload value k : Multiset ℕ) =
      ((divisorPairs value).flatMap fun pair => [pair.1, pair.2] : Multiset ℕ) := by
  rw [sum_coe_list, ← responsesFrom_split word, ← List.map_coe_finRange_eq_range, List.flatMap_map]
  rfl

variable {sqrtPart : ℕ → ℕ} {mapped : ℕ} {s s' : Server} {k : Fin threads}

theorem Master.Before.not_awaits {master : Master} {k : ℕ} (before : master.Before k) :
    ¬master.Awaits k := by
  cases master with
  | request => exact Nat.not_lt.mpr before
  | _ => exact absurd before id

/-- A worker that has not begun the round waits for its request. -/
theorem PhaseInv.of_fresh (phases : PhaseInv s) (fresh : s.Fresh k) : s.workers k = .read := by
  by_contra busy
  obtain ⟨awaits, _, input, _⟩ := phases.of_busy busy
  exact fresh.elim (fun before => before.not_awaits awaits) fun pending => pending input

theorem Worker.reserved_le (worker : Worker) : worker.reserved.length ≤ worker.todo.length := by
  cases worker <;> simp [reserved, todo]

namespace RoundInv

variable (inv : RoundInv s) (phases : PhaseInv s)
include inv phases

/-- No more slots are reserved than the array has. -/
theorem size_le : s.ctx.responseSize ≤ maxResponses := by
  have each (k : Fin threads) :
      ((s.writes k).map Prod.fst).length + (s.workers k).reserved.length ≤
        (workload s.value k).length := by
    by_cases fresh : s.Fresh k
    · rw [inv.fresh k fresh, phases.of_fresh fresh]
      exact Nat.zero_le _
    · have small := (s.workers k).reserved_le
      rw [← inv.progress k fresh, List.length_append, List.length_map, List.length_map]
      omega
  have total := congrArg Multiset.card inv.slots
  rw [Multiset.card_range, Multiset.card_add, Multiset.card_sum, Multiset.card_sum,
    ← Finset.sum_add_distrib] at total
  have all := congrArg Multiset.card (sum_workload inv.word)
  rw [Multiset.card_sum] at all
  have few := inv.few
  calc
    s.ctx.responseSize = _ := total.symm
    _ ≤ ∑ k : Fin threads, Multiset.card (workload s.value k : Multiset ℕ) :=
      Finset.sum_le_sum fun k _ => each k
    _ = 2 * (divisorPairs s.value).length :=
      all.trans (by simp [List.length_flatMap, Nat.mul_comm])
    _ ≤ maxResponses := by rw [maxResponses]; omega

omit phases in
/-- The slot a worker is about to write was not written before. -/
theorem slot_unwritten {slot : ℕ} (own : (s.workers k).reserved = [slot]) :
    slot < s.ctx.responseSize ∧ ∀ j, ∀ write ∈ s.writes j, write.1 ≠ slot := by
  have reserved : slot ∈ ∑ k, ((s.workers k).reserved : Multiset ℕ) :=
    Multiset.mem_sum.mpr ⟨k, Finset.mem_univ k, by rw [own]; exact List.mem_singleton_self slot⟩
  have slots := inv.slots
  refine ⟨?_, fun j write member same => ?_⟩
  · rw [← Multiset.mem_range, ← slots]
    exact Multiset.mem_add.mpr (.inr reserved)
  · have once := Multiset.nodup_range s.ctx.responseSize
    rw [← slots, Multiset.nodup_add] at once
    refine Multiset.disjoint_left.mp once.2.2 (Multiset.mem_sum.mpr ⟨j, Finset.mem_univ j, ?_⟩) reserved
    exact same ▸ List.mem_map_of_mem member

omit phases in
/-- What a step of one worker has to keep: its stores and its remaining scan make up its workload, and
the slots it wrote and has reserved make up for the growth of `response_size`. -/
theorem change (new : List (ℕ × ℕ)) {next : Worker}
    (same : s'.master = s.master ∧ s'.value = s.value ∧ ∀ j ≠ k, s'.inputFd j = s.inputFd j)
    (workers : s'.workers = Function.update s.workers k next)
    (writes : s'.writes = Function.update s.writes k (s.writes k ++ new)) (inRange : next.InRange)
    (begun : ¬s'.Fresh k)
    (progress : (s.writes k ++ new).map Prod.snd ++ next.todo = workload s.value k)
    (slots : Multiset.range s'.ctx.responseSize + ((s.workers k).reserved : Multiset ℕ) =
      Multiset.range s.ctx.responseSize + (new.map Prod.fst : Multiset ℕ) + (next.reserved : Multiset ℕ))
    (memory : ∀ j, ∀ write ∈ s'.writes j, s'.ctx.responses write.1 = write.2) : RoundInv s' := by
  obtain ⟨master, value, inputs⟩ := same
  have fresh_iff {j : Fin threads} (other : j ≠ k) : s'.Fresh j ↔ s.Fresh j := by
    rw [Server.Fresh, Server.Fresh, master, inputs j other]
  refine ⟨value ▸ inv.word, value ▸ inv.few, master ▸ inv.bounded, fun j => ?_, fun j fresh => ?_,
    fun j begun => ?_, ?_, memory⟩
  · by_cases own : j = k
    · rw [own, workers, Function.update_self]
      exact inRange
    · rw [workers, Function.update_of_ne own]
      exact inv.inRange j
  · have other : j ≠ k := fun own => begun (own ▸ fresh)
    rw [writes, Function.update_of_ne other]
    exact inv.fresh j ((fresh_iff other).mp fresh)
  · by_cases own : j = k
    · rw [own, writes, workers, value, Function.update_self, Function.update_self]
      exact progress
    · rw [writes, workers, value, Function.update_of_ne own, Function.update_of_ne own]
      exact inv.progress j fun fresh => begun ((fresh_iff own).mpr fresh)
  · have written := sum_update s.writes k (s.writes k ++ new) fun list => (list.map Prod.fst : Multiset ℕ)
    have held := sum_update s.workers k next fun worker => (worker.reserved : Multiset ℕ)
    rw [List.map_append, ← Multiset.coe_add] at written
    have before := inv.slots
    rw [writes, workers]
    generalize ∑ j, ((Function.update s.workers k next j).reserved : Multiset ℕ) = held' at *
    generalize ∑ j, (((Function.update s.writes k (s.writes k ++ new) j).map Prod.fst : List ℕ) :
      Multiset ℕ) = written' at *
    refine add_right_cancel (b := ((s.writes k).map Prod.fst : Multiset ℕ) + (s.workers k).reserved) ?_
    calc
      written' + held' + ((s.writes k).map Prod.fst + (s.workers k).reserved) =
          (written' + (s.writes k).map Prod.fst) + (held' + (s.workers k).reserved) := by abel
      _ = (∑ j, ((s.writes j).map Prod.fst : Multiset ℕ) + ∑ j, ((s.workers j).reserved : Multiset ℕ)) +
          new.map Prod.fst + next.reserved + (s.writes k).map Prod.fst := by
        rw [written, held]
        abel
      _ = Multiset.range s'.ctx.responseSize + ((s.writes k).map Prod.fst + (s.workers k).reserved) := by
        rw [before, ← slots]
        abel

omit phases in
/-- A step of a worker that stores nothing. -/
theorem goOn {next : Worker}
    (same : s'.master = s.master ∧ s'.value = s.value ∧ ∀ j ≠ k, s'.inputFd j = s.inputFd j)
    (workers : s'.workers = Function.update s.workers k next)
    (kept : s'.writes = s.writes ∧ s'.ctx.responses = s.ctx.responses) (inRange : next.InRange)
    (begun : ¬s'.Fresh k) (progress : (s.writes k).map Prod.snd ++ next.todo = workload s.value k)
    (slots : Multiset.range s'.ctx.responseSize + ((s.workers k).reserved : Multiset ℕ) =
      Multiset.range s.ctx.responseSize + (next.reserved : Multiset ℕ)) : RoundInv s' := by
  refine inv.change [] same workers ?_ inRange begun ?_ ?_ ?_
  · rw [kept.1, List.append_nil, Function.update_eq_self]
  · rw [List.append_nil, progress]
  · rw [slots]
    simp
  · rw [kept.1, kept.2]
    exact inv.memory

omit phases in
/-- A store to the reserved slot. -/
theorem store {slot x : ℕ} {next : Worker} (begun : ¬s.Fresh k) (own : (s.workers k).reserved = [slot])
    (inRange : next.InRange) (todo : (s.workers k).todo = x :: next.todo) (free : next.reserved = [])
    (room : slot < mapped) : RoundInv (s.store mapped k slot x next) := by
  obtain ⟨_, unwritten⟩ := inv.slot_unwritten own
  rw [Server.store, if_pos room]
  refine inv.change [(slot, x)] ⟨rfl, rfl, fun _ _ => rfl⟩ rfl rfl inRange begun ?_ ?_ ?_
  · rw [List.map_append, List.append_assoc, ← inv.progress k begun, todo]
    rfl
  · rw [own, free]
    simp
  · intro j write member
    change write ∈ Function.update s.writes k (s.writes k ++ [(slot, x)]) j at member
    change Function.update s.ctx.responses slot x write.1 = write.2
    have kept {j : Fin threads} (old : write ∈ s.writes j) :
        Function.update s.ctx.responses slot x write.1 = write.2 := by
      rw [Function.update_of_ne (unwritten j write old)]
      exact inv.memory j write old
    by_cases own : j = k
    · rw [own, Function.update_self, List.mem_append, List.mem_singleton] at member
      rcases member with old | rfl
      · exact kept old
      · exact Function.update_self ..
    · rw [Function.update_of_ne own] at member
      exact kept member

end RoundInv

/-- A worker at work has begun the round. -/
theorem PhaseInv.begun (phases : PhaseInv s) (busy : s.workers k ≠ .read) : ¬s.Fresh k :=
  fun fresh => busy (phases.of_fresh fresh)

namespace RoundInv

variable (inv : RoundInv s) (phases : PhaseInv s)
include inv phases

/-- A worker takes its request. -/
theorem read (exact_ : 0 < s.value → sqrtPart s.value = s.value.sqrt + 1) (at_ : s.workers k = .read)
    (moved : s.workerStep sqrtPart mapped k = some s') : RoundInv s' := by
  simp only [Server.workerStep, at_, Option.map_eq_some_iff, Prod.exists] at moved
  obtain ⟨value, counter, read, rfl⟩ := moved
  obtain ⟨pending, rfl, rfl⟩ := eventRead_some read
  obtain ⟨awaits, input, _⟩ := phases.of_input at_ pending
  have next : Worker.begin sqrtPart k (s.inputFd k) = .test s.value
      (rangeHigh (rangeStep (s.value.sqrt + 1)) k) (rangeLow (rangeStep (s.value.sqrt + 1)) k) := by
    rw [Worker.begin, if_neg pending, input, exact_ (by omega)]
  refine inv.goOn ⟨rfl, rfl, fun j other => Function.update_of_ne other ..⟩ rfl ⟨rfl, rfl⟩ ?_ ?_ ?_ ?_
  · rw [next]
    exact ⟨rangeLow_ge _ _, rangeLow_le inv.word k.isLt, rangeHigh_le inv.word k.isLt⟩
  · rintro (before | unread)
    · exact before.not_awaits awaits
    · exact unread (Function.update_self ..)
  · rw [inv.fresh k (.inr pending), next, List.map_nil, List.nil_append, Worker.todo, workload]
  · rw [next, at_, Worker.reserved, Worker.reserved]
    rfl

/-- A worker tries a divisor, or ends its scan. -/
theorem test {value r i : ℕ} (at_ : s.workers k = .test value r i)
    (moved : s.workerStep sqrtPart mapped k = some s') : RoundInv s' := by
  have inRange := inv.inRange k
  have running := phases.begun (show s.workers k ≠ .read by simp [at_])
  have progress := inv.progress k running
  rw [at_] at inRange progress
  obtain ⟨two, small, range⟩ := inRange
  simp only [Server.workerStep, at_] at moved
  split_ifs at moved with found
  · obtain ⟨inside, square⟩ := found
    rw [square_exact (by omega)] at square
    rw [wordMod_of_pos (by omega), next_exact inside range] at moved
    cases remainder : value % i with
    | zero =>
      simp only [remainder] at moved
      cases moved
      refine inv.goOn ⟨rfl, rfl, fun _ _ => rfl⟩ rfl ⟨rfl, rfl⟩ ⟨two, inside, range⟩ running ?_
        (by rw [at_]; rfl)
      rw [← progress, Worker.todo, Worker.todo, responsesFrom_divisor inside square remainder]
    | succ rest =>
      simp only [remainder] at moved
      cases moved
      refine inv.goOn ⟨rfl, rfl, fun _ _ => rfl⟩ rfl ⟨rfl, rfl⟩ ⟨by omega, by omega, range⟩ running ?_
        (by rw [at_]; rfl)
      rw [← progress, Worker.todo, Worker.todo, responsesFrom_other inside (by omega)]
  · cases moved
    have ended : ¬(i < r ∧ i * i ≤ value) := by
      rintro ⟨inside, square⟩
      exact found ⟨inside, by rwa [square_exact (by omega)]⟩
    refine inv.goOn ⟨rfl, rfl, fun _ _ => rfl⟩ rfl ⟨rfl, rfl⟩ trivial running ?_ (by rw [at_]; rfl)
    rw [← progress, Worker.todo, Worker.todo, responsesFrom_end ended]

/-- A worker reserves a slot. -/
theorem reserve {next : Worker} (busy : s.workers k ≠ .read) (inRange : next.InRange)
    (todo : next.todo = (s.workers k).todo) (free : (s.workers k).reserved = [])
    (own : next.reserved = [s.ctx.responseSize]) : RoundInv (s.fetchAndAdd.2.setWorker k next) := by
  have running := phases.begun busy
  have size := inv.size_le phases
  rw [maxResponses] at size
  refine inv.goOn ⟨rfl, rfl, fun _ _ => rfl⟩ rfl ⟨rfl, rfl⟩ inRange running ?_ ?_
  · rw [todo, inv.progress k running]
  · change Multiset.range (wordAdd 64 s.ctx.responseSize 1) + _ = _
    rw [free, own, wordAdd_of_lt (by omega), Multiset.range_succ, ← Multiset.singleton_add,
      Multiset.coe_nil, add_zero, Multiset.coe_singleton, add_comm]

end RoundInv

theorem workerStep_round (exact_ : 0 < s.value → sqrtPart s.value = s.value.sqrt + 1) (room : maxResponses ≤ mapped)
    (phases : PhaseInv s) (inv : RoundInv s) (moved : s.workerStep sqrtPart mapped k = some s') :
    RoundInv s' := by
  have inRange := inv.inRange k
  have size := inv.size_le phases
  cases at_ : s.workers k with
  | read => exact inv.read phases exact_ at_ moved
  | test value r i => exact inv.test phases at_ moved
  | reserveI value r i | reserveJ value r i =>
    rw [at_] at inRange
    simp only [Server.workerStep, at_] at moved
    cases moved
    exact inv.reserve phases (by simp [at_]) inRange (by rw [at_]; rfl) (by rw [at_]; rfl) rfl
  | storeI value r i slot =>
    have own : (s.workers k).reserved = [slot] := by rw [at_]; rfl
    have inside := (inv.slot_unwritten own).1
    rw [at_] at inRange
    simp only [Server.workerStep, at_] at moved
    cases moved
    exact inv.store (phases.begun (by simp [at_])) own inRange (by rw [at_]; rfl) rfl (by omega)
  | storeJ value r i slot =>
    have own : (s.workers k).reserved = [slot] := by rw [at_]; rfl
    have inside := (inv.slot_unwritten own).1
    rw [at_] at inRange
    obtain ⟨two, below, range⟩ := inRange
    simp only [Server.workerStep, at_, next_exact below range] at moved
    cases moved
    exact inv.store (phases.begun (by simp [at_])) own ⟨by omega, by omega, range⟩ (by rw [at_]; rfl) rfl
      (by omega)
  | write value =>
    have running := phases.begun (show s.workers k ≠ .read by simp [at_])
    have progress := inv.progress k running
    rw [at_] at progress
    simp only [Server.workerStep, at_, Option.map_eq_some_iff, Prod.exists] at moved
    obtain ⟨accepted, counter, _, rfl⟩ := moved
    exact inv.goOn ⟨rfl, rfl, fun _ _ => rfl⟩ rfl ⟨rfl, rfl⟩ trivial running progress (by rw [at_]; rfl)
  | fault => simp only [Server.workerStep, at_, reduceCtorEq] at moved

/-- A step of the master that leaves the context alone. -/
theorem RoundInv.master (inv : RoundInv s)
    (same : s'.value = s.value ∧ s'.ctx = s.ctx ∧ s'.workers = s.workers ∧ s'.writes = s.writes)
    (bounded : s'.master.Bounded) (fresh : ∀ k, s'.Fresh k ↔ s.Fresh k) : RoundInv s' := by
  obtain ⟨value, ctx, workers, writes⟩ := same
  refine ⟨value ▸ inv.word, value ▸ inv.few, bounded, workers ▸ inv.inRange, fun k new => ?_,
    fun k begun => ?_, ?_, ?_⟩
  · rw [writes]
    exact inv.fresh k ((fresh k).mp new)
  · rw [writes, workers, value]
    exact inv.progress k fun new => begun ((fresh k).mpr new)
  · rw [writes, workers, ctx]
    exact inv.slots
  · rw [writes, ctx]
    exact inv.memory

/-- A round begins with nothing stored. -/
theorem RoundInv.reset {x : ℕ} (phases : PhaseInv s) (at_ : s.master = .reset x)
    (few : (divisorPairs x).length ≤ 32) (moved : s.masterStep mapped = some s') : RoundInv s' := by
  have valid := phases.valid
  have idle := phases.idle
  simp only [at_, Master.Awaits, not_false_eq_true, true_imp_iff] at idle
  simp only [Server.masterStep, at_] at moved
  rw [at_] at valid
  cases moved
  refine ⟨Nat.lt_trans valid.2 (by decide), few, trivial, fun k => ?_, fun _ _ => rfl, fun k begun => ?_, ?_,
    fun _ _ member => absurd member List.not_mem_nil⟩
  · rw [(idle k).1]
    trivial
  · exact absurd (.inl (Nat.zero_le _)) begun
  · have free (k : Fin threads) : (s.workers k).reserved = [] := by
      rw [(idle k).1]
      rfl
    simp [free]

theorem masterStep_round (room : maxResponses ≤ mapped) (phases : PhaseInv s) (inv : RoundInv s)
    (moved : s.masterStep mapped = some s') : RoundInv s' := by
  have bounded := inv.bounded
  have size := inv.size_le phases
  have valid := phases.valid
  cases at_ : s.master with
  | scanf | fault => simp only [Server.masterStep, at_, reduceCtorEq] at moved
  | reset x =>
    rw [at_] at bounded
    exact .reset phases at_ bounded moved
  | request x i =>
    rw [at_] at valid
    obtain ⟨rfl, wakes⟩ := valid
    have idle := phases.idle
    simp only [at_, Master.Awaits] at idle
    simp only [Server.masterStep, at_] at moved
    split_ifs at moved with worker
    · have own := (idle ⟨i, worker⟩ (lt_irrefl i)).2.1
      simp only [own, eventWrite_empty wakes.2, Option.map_some] at moved
      cases moved
      refine inv.master ⟨rfl, rfl, rfl, rfl⟩ trivial fun k => ?_
      have positive := wakes.1
      simp only [Server.Fresh, at_, Master.Before]
      by_cases same : k = ⟨i, worker⟩
      · subst same
        simp only [Function.update_self, own]
        omega
      · have other : k.val ≠ i := fun equal => same (Fin.ext equal)
        rw [Function.update_of_ne same]
        omega
    · cases moved
      refine inv.master ⟨rfl, rfl, rfl, rfl⟩ trivial fun k => ?_
      have begun : ¬i ≤ k := by omega
      simp only [Server.Fresh, at_, Master.Before, begun]
  | collect i =>
    simp only [Server.masterStep, at_] at moved
    split_ifs at moved with worker
    · obtain ⟨⟨value, counter⟩, _, rfl⟩ := Option.map_eq_some_iff.mp moved
      exact inv.master ⟨rfl, rfl, rfl, rfl⟩ trivial fun k => by simp [Server.Fresh, at_, Master.Before]
    · cases moved
      exact inv.master ⟨rfl, rfl, rfl, rfl⟩ trivial fun k => by simp [Server.Fresh, at_, Master.Before]
  | print i =>
    simp only [Server.masterStep, at_] at moved
    split_ifs at moved with more inside
    · cases moved
      exact inv.master ⟨rfl, rfl, rfl, rfl⟩ trivial fun k => by simp [Server.Fresh, at_, Master.Before]
    · omega
    · cases moved
      exact inv.master ⟨rfl, rfl, rfl, rfl⟩ trivial fun k => by simp [Server.Fresh, at_, Master.Before]

/-- The requests of a run: numbers with not too many divisors. -/
def Requested (v : ℕ) : Prop := 0 < v ∧ v ≤ 2 ^ 64 - 3 ∧ (divisorPairs v).length ≤ 32

/-- Only such numbers are scanned. -/
def Modest (_ : Server) (a : ServerAction) : Prop :=
  ∀ result, a = .scanf result → ∃ v, result = some v ∧ Requested v

theorem modest_wakes (s : Server) (result : Option ℕ) (modest : Modest s (.scanf result))
    (_ : result.getD 0 < 2 ^ 64) : Wakes (result.getD 0) := by
  obtain ⟨v, rfl, positive, small, -⟩ := modest result rfl
  exact ⟨positive, by rw [Option.getD_some]; omega⟩

theorem workload_zero (k : ℕ) : workload 0 k = [] := by
  refine responsesFrom_end fun found => ?_
  have low := rangeLow_ge (rangeStep (Nat.sqrt 0 + 1)) k
  have square := Nat.mul_le_mul low low
  omega

/-- Before the first round nothing is to be stored. -/
theorem RoundInv.start (started : (divisorServer sqrtPart mapped).start s) : RoundInv s := by
  cases started
  refine ⟨by decide, by decide, trivial, fun _ => trivial, fun _ _ => rfl, fun k _ => ?_, ?_,
    fun _ _ member => absurd member List.not_mem_nil⟩
  · exact (workload_zero k).symm
  · simp [Worker.reserved]

/-- A worker leaves the master and the number of the round alone. -/
theorem workerStep_frame (moved : s.workerStep sqrtPart mapped k = some s') :
    s'.master = s.master ∧ s'.value = s.value := by
  cases at_ : s.workers k with
  | read =>
    simp only [Server.workerStep, at_, Option.map_eq_some_iff, Prod.exists] at moved
    obtain ⟨value, counter, _, rfl⟩ := moved
    exact ⟨rfl, rfl⟩
  | test value r i =>
    simp only [Server.workerStep, at_] at moved
    split at moved
    · split at moved <;> cases moved <;> exact ⟨rfl, rfl⟩
    · cases moved
      exact ⟨rfl, rfl⟩
  | reserveI | reserveJ =>
    simp only [Server.workerStep, at_] at moved
    cases moved
    exact ⟨rfl, rfl⟩
  | storeI | storeJ =>
    simp only [Server.workerStep, at_, Server.store] at moved
    split at moved <;> cases moved <;> exact ⟨rfl, rfl⟩
  | write value =>
    simp only [Server.workerStep, at_, Option.map_eq_some_iff, Prod.exists] at moved
    obtain ⟨accepted, counter, _, rfl⟩ := moved
    exact ⟨rfl, rfl⟩
  | fault => simp only [Server.workerStep, at_, reduceCtorEq] at moved

/-- Only the reset of a round changes its number. -/
theorem masterStep_frame (moved : s.masterStep mapped = some s') :
    (∀ x, s'.master ≠ .reset x) ∧ (s.master = .reset s'.value ∨ s'.value = s.value) := by
  cases at_ : s.master with
  | scanf | fault => simp only [Server.masterStep, at_, reduceCtorEq] at moved
  | reset x =>
    simp only [Server.masterStep, at_] at moved
    cases moved
    exact ⟨by rintro _ ⟨⟩, .inl rfl⟩
  | request x i | collect i =>
    simp only [Server.masterStep, at_] at moved
    split at moved
    · obtain ⟨_, _, rfl⟩ := Option.map_eq_some_iff.mp moved
      exact ⟨by rintro _ ⟨⟩, .inr rfl⟩
    · cases moved
      exact ⟨by rintro _ ⟨⟩, .inr rfl⟩
  | print i =>
    simp only [Server.masterStep, at_] at moved
    split_ifs at moved <;> cases moved <;> exact ⟨by rintro _ ⟨⟩, .inr rfl⟩

/-- The number of a round, and of the one that is about to begin, was requested. -/
structure Server.Asked (s : Server) : Prop where
  next : ∀ x, s.master = .reset x → Requested x
  value : 0 < s.value → Requested s.value

theorem reachable_asked (reachable : (divisorServer sqrtPart mapped).Reachable Modest s) : s.Asked := by
  apply reachable.invariant Server.Asked
  · rintro s rfl
    exact ⟨nofun, fun positive => absurd positive (Nat.lt_irrefl 0)⟩
  · rintro s s' a permitted ⟨next, value⟩ moved
    cases a with
    | master =>
      obtain ⟨running, reset | same⟩ := masterStep_frame moved
      · exact ⟨fun x at_ => absurd at_ (running x), fun _ => next _ reset⟩
      · exact ⟨fun x at_ => absurd at_ (running x), same ▸ value⟩
    | worker k =>
      obtain ⟨master, same⟩ := workerStep_frame moved
      exact ⟨master ▸ next, same ▸ value⟩
    | scanf result =>
      simp only [divisorServer, Server.step] at moved
      split_ifs at moved
      cases moved
      obtain ⟨v, rfl, requested⟩ := permitted result rfl
      refine ⟨?_, value⟩
      rintro _ ⟨⟩
      exact requested

theorem reachable_round (exact_ : ∀ v, Requested v → sqrtPart v = v.sqrt + 1) (room : maxResponses ≤ mapped)
    (reachable : (divisorServer sqrtPart mapped).Reachable Modest s) : RoundInv s := by
  induction reachable with
  | start started =>
    exact .start started
  | @step s s' a before permitted moved inv =>
    have phases := reachable_phases modest_wakes before
    cases a with
    | master => exact masterStep_round room phases inv moved
    | worker k =>
      have asked := reachable_asked before
      exact workerStep_round (fun positive => exact_ _ (asked.value positive)) room phases inv moved
    | scanf result =>
      simp only [divisorServer, Server.step] at moved
      split_ifs at moved with scanning
      cases moved
      obtain ⟨v, rfl, -, -, few⟩ := permitted result rfl
      exact inv.master ⟨rfl, rfl, rfl, rfl⟩ few fun k => by
        simp [Server.Fresh, scanning.1, Master.Before]

/-- When the master has read the eighth response of a round, `response_size` is twice the number of
pairs, the responses are the numbers of all pairs in some order, each slot below `response_size` was
written once, and every worker waits for its next request. -/
theorem divisors_of_round (sqrtPart : ℕ → ℕ) (mapped : ℕ)
    (exact_ : ∀ v, Requested v → sqrtPart v = v.sqrt + 1) (room : maxResponses ≤ mapped) (s : Server)
    (reachable : (divisorServer sqrtPart mapped).Reachable Modest s)
    (collected : s.master = .collect threads ∨ ∃ i, s.master = .print i) :
    s.ctx.responseSize = 2 * (divisorPairs s.value).length ∧
    ((List.range s.ctx.responseSize).map s.ctx.responses).Perm
      ((divisorPairs s.value).flatMap fun pair => [pair.1, pair.2]) ∧
    ((List.finRange threads).flatMap fun k => (s.writes k).map Prod.fst).Perm
      (List.range s.ctx.responseSize) ∧
    ∀ k, s.workers k = .read ∧ eventRead (s.inputFd k) = none := by
  have phases := reachable_phases modest_wakes reachable
  have inv := reachable_round exact_ room reachable
  have idle (k : Fin threads) : s.workers k = .read ∧ s.inputFd k = 0 := by
    have waits : ¬s.master.Awaits k := by
      rcases collected with at_ | ⟨i, at_⟩ <;> rw [at_]
      · exact Nat.not_le.mpr k.isLt
      · exact id
    obtain ⟨reading, input, _⟩ := phases.idle k waits
    exact ⟨reading, input⟩
  have begun (k : Fin threads) : ¬s.Fresh k := by
    rw [Server.Fresh, (idle k).2]
    rcases collected with at_ | ⟨i, at_⟩ <;> simp [at_, Master.Before]
  have stored (k : Fin threads) : (s.writes k).map Prod.snd = workload s.value k := by
    have progress := inv.progress k (begun k)
    rwa [(idle k).1, Worker.todo, List.append_nil] at progress
  have slots : ((List.finRange threads).flatMap fun k => (s.writes k).map Prod.fst).Perm
      (List.range s.ctx.responseSize) := by
    have all := inv.slots
    simp only [(idle _).1, Worker.reserved, Multiset.coe_nil, Finset.sum_const_zero, add_zero] at all
    rw [sum_coe_list] at all
    exact Multiset.coe_eq_coe.mp all
  have values : ((List.finRange threads).flatMap fun k => (s.writes k).map Prod.snd).Perm
      ((divisorPairs s.value).flatMap fun pair => [pair.1, pair.2]) := by
    have all := sum_workload inv.word
    rw [sum_coe_list] at all
    simp only [stored]
    exact Multiset.coe_eq_coe.mp all
  have held (k : Fin threads) :
      ((s.writes k).map Prod.fst).map s.ctx.responses = (s.writes k).map Prod.snd := by
    rw [List.map_map]
    exact List.map_congr_left (inv.memory k)
  have responses : ((List.range s.ctx.responseSize).map s.ctx.responses).Perm
      ((divisorPairs s.value).flatMap fun pair => [pair.1, pair.2]) := by
    apply (slots.map s.ctx.responses).symm.trans
    rw [List.map_flatMap]
    simpa only [held] using values
  refine ⟨?_, responses, slots, fun k => ⟨(idle k).1, ?_⟩⟩
  · have length := responses.length_eq
    rw [List.length_map, List.length_range] at length
    simp [length, List.length_flatMap, Nat.mul_comm]
  · rw [(idle k).2, eventRead_zero]

/-- One round for six, in which the workers come one after the other. -/
def roundOfSix : List ServerAction :=
  let turn (steps k : ℕ) (inside : k < threads) : List ServerAction :=
    List.replicate steps (.worker ⟨k, inside⟩)
  .scanf (some 6) :: List.replicate 10 .master ++ turn 3 0 (by decide) ++ turn 3 1 (by decide) ++
    turn 8 2 (by decide) ++ turn 3 3 (by decide) ++ turn 3 4 (by decide) ++ turn 3 5 (by decide) ++
    turn 3 6 (by decide) ++ turn 3 7 (by decide) ++ List.replicate 8 .master

/-- The round for six ends with two and three. -/
theorem divisors_of_round_six :
    ∃ s : Server, s.master = .collect threads ∧ s.value = 6 ∧ s.ctx.responseSize = 2 ∧
      ((List.range 2).map s.ctx.responses).Perm [2, 3] := by
  have root : Nat.sqrt 6 = 2 := (Nat.eq_sqrt.mpr (by decide)).symm
  have exact_ : ∀ v, Requested v → (if v = 6 then 3 else v.sqrt + 1) = v.sqrt + 1 := by
    intro v _
    split_ifs with six
    · rw [six, root]
    · rfl
  have pairs : divisorPairs 6 = [(2, 3)] := by
    rw [divisorPairs, root]
    rfl
  obtain ⟨s, ran, collected, value⟩ :
      ∃ s, (divisorServer (fun v => if v = 6 then 3 else v.sqrt + 1) 511).run
        ⟨.scanf, fun _ => .read, fun _ => 0, fun _ => 0, ⟨0, fun _ => 0⟩, 0, fun _ => [], []⟩
        roundOfSix = some s ∧ s.master = .collect threads ∧ s.value = 6 := ⟨_, rfl, rfl, rfl⟩
  have permitted : ∀ s : Server, ∀ a ∈ roundOfSix, Modest s a := by
    rintro s a member result rfl
    have six : result = some 6 := by
      simpa [roundOfSix] using member
    exact ⟨6, six, by decide, by decide, by rw [pairs]; decide⟩
  have reachable := (Machine.Reachable.start rfl).run permitted ran
  obtain ⟨size, responses, _⟩ :=
    divisors_of_round _ 511 exact_ (by decide) s reachable (.inl collected)
  rw [value, pairs] at size responses
  rw [size] at responses
  exact ⟨s, collected, value, size, responses⟩

end Hseos.Fork
