import Hseos.Atomic.ListPush
import Mathlib.Algebra.BigOperators.Group.Finset.Piecewise
import Mathlib.Algebra.Order.BigOperators.Group.Finset
import Mathlib.Data.Nat.Cast.Basic
import Mathlib.Data.Nat.Choose.Basic

/-! # Progress of concurrent pushes

An exchange fails, unless for no reason, only if another call has become the head since the load before it, so the
calls together do a bounded number of operations whatever their order is. Each of `n` calls that are left may have to
start over once for each of the others.
-/

namespace Hseos.Atomic

variable {Call Node : Type*} [DecidableEq Call] [DecidableEq Node]

/-- The operations that a call has before it if no other call becomes the head; a head that is not the one it
has seen makes it start over. -/
def PushPc.remaining (next : Option Node) : PushPc Node → ℕ
  | .load => 3
  | .store currentNext => if next = currentNext then 2 else 5
  | .compareExchange currentNext => if next = currentNext then 1 else 4
  | .done => 0

theorem PushPc.remaining_le (next next' : Option Node) (pc : PushPc Node) :
    pc.remaining next' ≤ pc.remaining next + 3 := by
  cases pc <;> simp only [remaining] <;> (try split_ifs) <;> omega

theorem choose_two_succ (n : ℕ) : (n + 1).choose 2 = n + n.choose 2 := by
  rw [Nat.choose_succ_succ' n 1, Nat.choose_one_right]

/-- An exchange that fails for no reason. -/
def PushAction.isFailure : PushAction Call → Bool
  | .operate _ => false
  | .failSpuriously _ => true

namespace PushState

variable {head : Node} {node : Call → Node} {initial : List Node} {s s' : PushState Call Node} {c : Call}
variable [Fintype Call]

/-- The calls that are not done. -/
def unfinished (s : PushState Call Node) : Finset Call := {c | s.pc c ≠ .done}

/-- The operations that all calls have before them. -/
def work (head : Node) (s : PushState Call Node) : ℕ :=
  ∑ c, (s.pc c).remaining (s.next head) + 3 * s.unfinished.card.choose 2

omit [DecidableEq Call] in
theorem mem_unfinished : c ∈ s.unfinished ↔ s.pc c ≠ .done := by
  rw [unfinished, Finset.mem_filter]
  exact and_iff_right (Finset.mem_univ c)

/-- A call apart from the others. -/
theorem work_eq (head : Node) (s : PushState Call Node) (c : Call) :
    s.work head = (s.pc c).remaining (s.next head) + ∑ d ∈ Finset.univ.erase c, (s.pc d).remaining (s.next head) +
      3 * s.unfinished.card.choose 2 := by
  rw [work, ← Finset.add_sum_erase _ _ (Finset.mem_univ c)]

/-- A call that moves on by itself. -/
theorem work_moves (same : s'.next head = s.next head) (others : ∀ d, d ≠ c → s'.pc d = s.pc d)
    (running : s.pc c ≠ .done) (runs : s'.pc c ≠ .done) :
    s'.work head + (s.pc c).remaining (s.next head) = s.work head + (s'.pc c).remaining (s.next head) := by
  have rest : ∀ d ∈ Finset.univ.erase c, (s'.pc d).remaining (s.next head) = (s.pc d).remaining (s.next head) := by
    intro d member
    rw [others d (Finset.ne_of_mem_erase member)]
  have left : s'.unfinished = s.unfinished := by
    ext d
    rw [mem_unfinished, mem_unfinished]
    by_cases here : d = c
    · rw [here]
      exact iff_of_true runs running
    · rw [others d here]
  rw [work_eq head s' c, work_eq head s c, left, same, Finset.sum_congr rfl rest]
  omega

/-- A call that becomes the head makes each of the others start over at most once. -/
theorem work_succeeds (pc : s.pc c = .compareExchange (s.next head)) (pc' : s'.pc c = .done)
    (others : ∀ d, d ≠ c → s'.pc d = s.pc d) : s'.work head + 1 ≤ s.work head := by
  have left : s'.unfinished = s.unfinished.erase c := by
    ext d
    rw [Finset.mem_erase, mem_unfinished, mem_unfinished]
    by_cases here : d = c
    · rw [here, pc']
      exact iff_of_false (fun differs => differs rfl) (fun both => both.1 rfl)
    · rw [others d here]
      exact (and_iff_right here).symm
  have member : c ∈ s.unfinished := by
    rw [mem_unfinished, pc]
    nofun
  have one : ∀ d ∈ Finset.univ.erase c, (s'.pc d).remaining (s'.next head) ≤
      (s.pc d).remaining (s.next head) + if d ∈ s.unfinished.erase c then 3 else 0 := by
    intro d other
    rw [others d (Finset.ne_of_mem_erase other)]
    split_ifs with busy
    · exact PushPc.remaining_le _ _ _
    · rw [Finset.mem_erase, mem_unfinished, not_and, not_not] at busy
      rw [busy (Finset.ne_of_mem_erase other)]
      exact Nat.zero_le _
  have all : ∑ d ∈ Finset.univ.erase c, (s'.pc d).remaining (s'.next head) ≤
      ∑ d ∈ Finset.univ.erase c, (s.pc d).remaining (s.next head) + (s.unfinished.card - 1) * 3 := by
    calc ∑ d ∈ Finset.univ.erase c, (s'.pc d).remaining (s'.next head)
        ≤ ∑ d ∈ Finset.univ.erase c,
            ((s.pc d).remaining (s.next head) + if d ∈ s.unfinished.erase c then 3 else 0) :=
          Finset.sum_le_sum one
      _ = ∑ d ∈ Finset.univ.erase c, (s.pc d).remaining (s.next head) + (s.unfinished.card - 1) * 3 := by
          rw [Finset.sum_add_distrib, Finset.sum_ite_mem,
            Finset.inter_eq_right.mpr (Finset.erase_subset_erase c (Finset.subset_univ _)), Finset.sum_const,
            Finset.card_erase_of_mem member, nsmul_eq_mul, Nat.cast_id]
  have before : (s.pc c).remaining (s.next head) = 1 := by rw [pc, PushPc.remaining, if_pos rfl]
  have after : (s'.pc c).remaining (s'.next head) = 0 := by rw [pc', PushPc.remaining]
  have pairs : s.unfinished.card.choose 2 = (s.unfinished.card - 1) + (s.unfinished.card - 1).choose 2 := by
    obtain ⟨n, size⟩ := Nat.exists_eq_succ_of_ne_zero (Finset.card_ne_zero_of_mem member)
    rw [size, Nat.succ_eq_add_one, Nat.add_sub_cancel, choose_two_succ]
  rw [work_eq head s' c, work_eq head s c, left, Finset.card_erase_of_mem member]
  omega

omit [Fintype Call] [DecidableEq Node] in
theorem setPc_other {pc : PushPc Node} {d : Call} (other : d ≠ c) : (s.setPc c pc).pc d = s.pc d :=
  Function.update_of_ne other _ _

omit [Fintype Call] [DecidableEq Node] in
theorem setPc_self (pc : PushPc Node) : (s.setPc c pc).pc c = pc := Function.update_self _ _ _

omit [Fintype Call] in
/-- The loads, the stores and the failed exchanges, in which a call moves on and the head stays. -/
theorem step_moves (apart : ∀ c, node c ≠ head) {a : PushAction Call}
    (moved : (atomicPush head node initial).step s a = some s') :
    (∃ c, s'.next head = s.next head ∧ (∀ d, d ≠ c → s'.pc d = s.pc d) ∧ s.pc c ≠ .done ∧ s'.pc c ≠ .done ∧
      (s'.pc c).remaining (s.next head) + 1 ≤ (s.pc c).remaining (s.next head) + if a.isFailure then 3 else 0) ∨
    (∃ c, s.pc c = .compareExchange (s.next head) ∧ s'.pc c = .done ∧ ∀ d, d ≠ c → s'.pc d = s.pc d) := by
  cases a with
  | operate c =>
    simp only [atomicPush] at moved
    split at moved
    · rename_i pc
      cases moved
      refine .inl ⟨c, rfl, fun d => setPc_other, by rw [pc]; rintro ⟨⟩, by rw [setPc_self]; rintro ⟨⟩, ?_⟩
      rw [setPc_self, pc, PushPc.remaining, PushPc.remaining, if_pos rfl]
      rfl
    · rename_i currentNext pc
      cases moved
      refine .inl ⟨c, ?_, fun d => setPc_other, by rw [pc]; rintro ⟨⟩, by rw [setPc_self]; rintro ⟨⟩, ?_⟩
      · exact Function.update_of_ne (apart c).symm _ _
      · rw [setPc_self, pc, PushPc.remaining, PushPc.remaining]
        split_ifs <;> omega
    · rename_i currentNext pc
      split_ifs at moved with unchanged
      · cases moved
        exact .inr ⟨c, by rw [pc, unchanged], Function.update_self _ _ _, fun d => setPc_other⟩
      · cases moved
        refine .inl ⟨c, rfl, fun d => setPc_other, by rw [pc]; rintro ⟨⟩, by rw [setPc_self]; rintro ⟨⟩, ?_⟩
        rw [setPc_self, pc, PushPc.remaining, PushPc.remaining, if_neg unchanged]
        rfl
    · cases moved
  | failSpuriously c =>
    simp only [atomicPush] at moved
    split at moved
    · rename_i currentNext pc
      cases moved
      refine .inl ⟨c, rfl, fun d => setPc_other, by rw [pc]; rintro ⟨⟩, by rw [setPc_self]; rintro ⟨⟩, ?_⟩
      rw [setPc_self, pc, PushPc.remaining, PushPc.remaining, PushAction.isFailure, if_pos rfl]
      split_ifs <;> omega
    all_goals cases moved

/-- Each operation is paid for by the work that is left, except where an exchange fails for no reason. -/
theorem work_step (apart : ∀ c, node c ≠ head) (s s' : PushState Call Node) (a : PushAction Call)
    (moved : (atomicPush head node initial).step s a = some s') :
    s'.work head + 1 ≤ s.work head + if a.isFailure then 3 else 0 := by
  obtain ⟨c, same, others, running, runs, less⟩ | ⟨c, pc, pc', others⟩ := step_moves apart moved
  · have moves := work_moves same others running runs
    omega
  · have less := work_succeeds pc pc' others
    omega

/-- `3 + 6 + … + 3 n` operations. -/
theorem work_start (started : (atomicPush head node initial).start s) :
    s.work head = 3 * (Fintype.card Call + 1).choose 2 := by
  obtain ⟨-, loading, -⟩ := started
  have everyone : s.unfinished = Finset.univ := by
    ext c
    rw [mem_unfinished, loading]
    exact iff_of_true nofun (Finset.mem_univ c)
  rw [work, everyone, loading, Finset.card_univ, choose_two_succ]
  simp only [PushPc.remaining, Finset.sum_const, Finset.card_univ, nsmul_eq_mul, Nat.cast_id]
  omega

omit [Fintype Call] in
/-- A call that is not done can go on. -/
theorem stuck_iff : (atomicPush head node initial).Stuck s ↔ ∀ c, s.pc c = .done := by
  constructor
  · intro stuck c
    have stops := stuck (.operate c)
    simp only [atomicPush] at stops
    split at stops
    · cases stops
    · cases stops
    · split_ifs at stops
    · assumption
  · intro done a
    cases a with
    | operate c | failSpuriously c => simp only [atomicPush, done c]

omit [Fintype Call]

variable (node initial) in
/-- Several calls that are at the same place do the same operation one after the other. -/
theorem run_operate {next : Option Node} {pc pc' : PushPc Node}
    (one : ∀ (s : PushState Call Node) (c), s.next head = next → s.pc c = pc →
      ∃ s', (atomicPush head node initial).step s (.operate c) = some s' ∧ s'.next head = next ∧
        s'.pc = Function.update s.pc c pc')
    {calls : List Call} (distinct : calls.Nodup) (same : s.next head = next) (at_ : ∀ c ∈ calls, s.pc c = pc) :
    ∃ s', (atomicPush head node initial).run s (calls.map .operate) = some s' ∧ s'.next head = next ∧
      (∀ c ∈ calls, s'.pc c = pc') ∧ ∀ d ∉ calls, s'.pc d = s.pc d := by
  induction calls generalizing s with
  | nil => exact ⟨s, rfl, same, nofun, fun _ _ => rfl⟩
  | cons c rest ih =>
    rw [List.nodup_cons] at distinct
    rw [List.forall_mem_cons] at at_
    obtain ⟨middle, moved, same', moves⟩ := one s c same at_.1
    have waiting : ∀ d ∈ rest, middle.pc d = pc := by
      intro d member
      rw [moves, Function.update_of_ne (ne_of_mem_of_not_mem member distinct.1), at_.2 d member]
    obtain ⟨s', ran, same'', reached, kept⟩ := ih distinct.2 same' waiting
    refine ⟨s', ?_, same'', ?_, ?_⟩
    · rw [List.map_cons, Machine.run, moved, Option.bind_some, ran]
    · rw [List.forall_mem_cons]
      refine ⟨?_, reached⟩
      rw [kept c distinct.1, moves, Function.update_self]
    · intro d others
      rw [List.mem_cons, not_or] at others
      rw [kept d others.2, moves, Function.update_of_ne others.1]

section Round

variable (apart : ∀ c, node c ≠ head) {next seen : Option Node}

theorem step_load (same : s.next head = next) (pc : s.pc c = .load) :
    ∃ s', (atomicPush head node initial).step s (.operate c) = some s' ∧ s'.next head = next ∧
      s'.pc = Function.update s.pc c (.store next) := by
  refine ⟨s.setPc c (.store (s.next head)), ?_, same, ?_⟩
  · simp only [atomicPush, pc]
  · rw [setPc, same]

variable (initial) in
include apart in
theorem step_store (same : s.next head = next) (pc : s.pc c = .store next) :
    ∃ s', (atomicPush head node initial).step s (.operate c) = some s' ∧ s'.next head = next ∧
      s'.pc = Function.update s.pc c (.compareExchange next) := by
  refine ⟨(s.write (node c) next).setPc c (.compareExchange next), ?_, ?_, rfl⟩
  · simp only [atomicPush, pc]
  · rw [← same]
    exact Function.update_of_ne (apart c).symm _ _

theorem step_failure (changed : next ≠ seen) (same : s.next head = next) (pc : s.pc c = .compareExchange seen) :
    ∃ s', (atomicPush head node initial).step s (.operate c) = some s' ∧ s'.next head = next ∧
      s'.pc = Function.update s.pc c .load := by
  refine ⟨s.setPc c .load, ?_, same, rfl⟩
  simp only [atomicPush, pc, same, if_neg changed]

variable (node initial) in
theorem step_exchange (pc : s.pc c = .compareExchange (s.next head)) :
    ∃ s', (atomicPush head node initial).step s (.operate c) = some s' ∧ s'.next head = some (node c) ∧
      s'.pc = Function.update s.pc c .done := by
  refine ⟨{ (s.write head (some (node c))).setPc c .done with succeeded := c :: s.succeeded }, ?_,
    Function.update_self _ _ _, rfl⟩
  simp only [atomicPush, pc, if_true]

variable (initial) in
/-- All calls load, all store, and the exchange of the first one makes the others start over. -/
theorem run_round (apart : ∀ c, node c ≠ head) {first : Call} {rest : List Call}
    (distinct : (first :: rest).Nodup) (loading : ∀ c ∈ first :: rest, s.pc c = .load)
    (outside : s.next head ≠ some (node first)) :
    ∃ (order : List Call) (s' : PushState Call Node),
      (atomicPush head node initial).run s (order.map .operate) = some s' ∧
        order.length = 3 * (rest.length + 1) ∧ s'.next head = some (node first) ∧ ∀ c ∈ rest, s'.pc c = .load := by
  obtain ⟨loaded, ran₁, same₁, storing, -⟩ :=
    run_operate node initial (fun _ _ => step_load) distinct rfl loading
  obtain ⟨stored, ran₂, same₂, exchanging, -⟩ :=
    run_operate node initial (fun _ _ => step_store initial apart) distinct same₁ storing
  rw [List.forall_mem_cons] at exchanging
  rw [List.nodup_cons] at distinct
  obtain ⟨won, moved, head', pc'⟩ := step_exchange node initial (same₂ ▸ exchanging.1)
  have waiting : ∀ c ∈ rest, won.pc c = .compareExchange (s.next head) := by
    intro c member
    rw [pc', Function.update_of_ne (ne_of_mem_of_not_mem member distinct.1), exchanging.2 c member]
  obtain ⟨s', ran₃, same₃, again, -⟩ := run_operate node initial
    (fun _ _ => step_failure outside.symm) distinct.2 head' waiting
  refine ⟨(first :: rest) ++ ((first :: rest) ++ first :: rest), s', ?_, ?_, same₃, again⟩
  · rw [List.map_append, Machine.run_append, ran₁, Option.bind_some, List.map_append, Machine.run_append, ran₂,
      Option.bind_some, List.map_cons, Machine.run, moved, Option.bind_some, ran₃]
  · simp only [List.length_append, List.length_cons]
    omega

variable (initial) in
/-- Round after round, each call that is left does three operations. -/
theorem run_rounds (apart : ∀ c, node c ≠ head) (injective : Function.Injective node) {calls : List Call}
    (distinct : calls.Nodup) (loading : ∀ c ∈ calls, s.pc c = .load)
    (outside : ∀ c ∈ calls, s.next head ≠ some (node c)) :
    ∃ (order : List Call) (s' : PushState Call Node),
      (atomicPush head node initial).run s (order.map .operate) = some s' ∧
        order.length = 3 * (calls.length + 1).choose 2 := by
  induction calls generalizing s with
  | nil => exact ⟨[], s, rfl, rfl⟩
  | cons first rest ih =>
    obtain ⟨round, middle, ran, size, head', again⟩ :=
      run_round initial apart distinct loading (outside first List.mem_cons_self)
    rw [List.nodup_cons] at distinct
    have outside' : ∀ c ∈ rest, middle.next head ≠ some (node c) := by
      intro c member
      rw [head', Ne, Option.some_inj, injective.eq_iff]
      exact (ne_of_mem_of_not_mem member distinct.1).symm
    obtain ⟨rounds, s', ran', size'⟩ := ih distinct.2 again outside'
    refine ⟨round ++ rounds, s', ?_, ?_⟩
    · rw [List.map_append, Machine.run_append, ran, Option.bind_some, ran']
    · rw [List.length_append, size, size', List.length_cons, choose_two_succ (rest.length + 1)]
      omega

end Round

end PushState

open PushState

/-- However the calls interleave, `n` of them do at most `3 + 6 + … + 3 n` operations together, and three more
for each exchange that fails for no reason; in some order they do as many. They stop only when all are done. -/
theorem atomic_push_bounded [Fintype Call] {head : Node} {node : Call → Node} {initial : List Node}
    {s : PushState Call Node} (distinct : Function.Injective node) (fresh : ∀ c, node c ∉ head :: initial)
    (started : (atomicPush head node initial).start s) :
    (∀ schedule s', (atomicPush head node initial).run s schedule = some s' →
      schedule.length ≤ 3 * (Fintype.card Call + 1).choose 2 + 3 * schedule.countP PushAction.isFailure ∧
        ((atomicPush head node initial).Stuck s' ↔ ∀ c, s'.pc c = .done)) ∧
      ∃ (order : List Call) (s' : PushState Call Node),
        (atomicPush head node initial).run s (order.map .operate) = some s' ∧
          order.length = 3 * (Fintype.card Call + 1).choose 2 := by
  have apart : ∀ c, node c ≠ head := fun c => List.ne_of_not_mem_cons (fresh c)
  constructor
  · intro schedule s' ran
    refine ⟨?_, stuck_iff⟩
    have bound := Machine.length_le_of_countP _ _ _ (work_step apart) ran
    rw [work_start started] at bound
    exact (Nat.le_add_right _ _).trans bound
  · have loading := started.2.1
    have outside : ∀ c, s.next head ≠ some (node c) := by
      intro c becomes
      have chain := started.1
      rw [becomes] at chain
      cases initial with
      | nil => cases chain
      | cons behind rest =>
        have same := Option.some_inj.mp chain.1
        exact fresh c (same ▸ List.mem_cons_of_mem _ List.mem_cons_self)
    obtain ⟨order, s', ran, size⟩ := run_rounds initial apart distinct Finset.univ.nodup_toList
      (fun c _ => congrFun loading c) (fun c _ => outside c)
    rw [Finset.length_toList, Finset.card_univ] at size
    exact ⟨order, s', ran, size⟩

/-- Two calls and a list of one node: nine operations. -/
theorem atomic_push_bounded_two :
    ∃ (order : List Bool) (s' : PushState Bool ℕ), (atomicPush 0 (fun c => if c then 1 else 2) [7]).run
        ⟨fun cell => if cell = 0 then some 7 else none, fun _ => .load, []⟩ (order.map .operate) = some s' ∧
      order.length = 9 := by
  have distinct : Function.Injective fun c : Bool => if c then 1 else 2 := by
    intro c d
    cases c <;> cases d <;> decide
  exact (atomic_push_bounded distinct (by decide) ⟨by decide, rfl, rfl⟩).2

end Hseos.Atomic
