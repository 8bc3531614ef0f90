import Hseos.Lib.Chain
import Hseos.Lib.Machine

/-! # Concurrent pushes to a linked list

Any number of calls of `atomic_push` run at the same time. A call reads the head of the list, stores it
in the `next` field of its node and exchanges the head for its node if the head has not changed; the
exchange is a weak one and may fail for no reason, and a failed exchange starts over. The loads, the
stores and the exchanges of all calls interleave, and an operation is one step. A call that has not begun
yet stands before its first load.

The head of the list is a node itself, so the memory is one `next` field for every node.
-/

namespace Hseos.Atomic

variable {Call Node : Type*} [DecidableEq Call] [DecidableEq Node]

/-- Where a call is in `atomic_push`, with its `current_next`. -/
inductive PushPc (Node : Type*) where
  | load
  | store (currentNext : Option Node)
  | compareExchange (currentNext : Option Node)
  | done
deriving DecidableEq

/-- The fields `next`, the calls, and those whose exchange has succeeded, the last one first. -/
structure PushState (Call Node : Type*) where
  next : Node → Option Node
  pc : Call → PushPc Node
  succeeded : List Call

/-- The next operation of a call, or an exchange that fails although the head has not changed. -/
inductive PushAction (Call : Type*) where
  | operate (c : Call)
  | failSpuriously (c : Call)

namespace PushState

def setPc (c : Call) (pc : PushPc Node) (s : PushState Call Node) : PushState Call Node :=
  { s with pc := Function.update s.pc c pc }

def write (cell : Node) (value : Option Node) (s : PushState Call Node) : PushState Call Node :=
  { s with next := Function.update s.next cell value }

end PushState

/-- The calls `atomic_push(head, node c)` on a list that has these nodes behind its head. -/
def atomicPush (head : Node) (node : Call → Node) (initial : List Node) :
    Machine (PushState Call Node) (PushAction Call) where
  start s := IsChain s.next (s.next head) initial ∧ s.pc = (fun _ => .load) ∧ s.succeeded = []
  step s
    | .operate c =>
      match s.pc c with
      | .load => some (s.setPc c (.store (s.next head)))
      | .store currentNext => some ((s.write (node c) currentNext).setPc c (.compareExchange currentNext))
      | .compareExchange currentNext =>
        if s.next head = currentNext then
          some { (s.write head (some (node c))).setPc c .done with succeeded := c :: s.succeeded }
        else some (s.setPc c .load)
      | .done => none
    | .failSpuriously c =>
      match s.pc c with
      | .compareExchange _ => some (s.setPc c .load)
      | .load | .store _ | .done => none

/-- The nodes behind the head: those pushed, the last one first, and then the initial ones. -/
def PushState.cells (node : Call → Node) (initial : List Node) (s : PushState Call Node) : List Node :=
  s.succeeded.map node ++ initial

/-- The list is in order, the calls that are done are those that succeeded, and a call about to exchange
the head has linked its node to the head it has seen. -/
structure PushState.Linked (head : Node) (node : Call → Node) (initial : List Node)
    (s : PushState Call Node) : Prop where
  chain : IsChain s.next (some head) (head :: s.cells node initial)
  done_iff : ∀ c, s.pc c = .done ↔ c ∈ s.succeeded
  prepared : ∀ c currentNext, s.pc c = .compareExchange currentNext → s.next (node c) = currentNext

namespace PushState

variable {head : Node} {node : Call → Node} {initial : List Node} {s s' : PushState Call Node}
variable {c : Call} {a : PushAction Call}

/-- What a step does: a call moves on, links its node to the head it has seen, or becomes the head. -/
theorem step_cases (moved : (atomicPush head node initial).step s a = some s') :
    (∃ c pc, s.pc c ≠ .done ∧ pc ≠ .done ∧ (∀ old, pc ≠ .compareExchange old) ∧ s' = s.setPc c pc) ∨
    (∃ c old, s.pc c = .store old ∧ s' = (s.write (node c) old).setPc c (.compareExchange old)) ∨
    (∃ c, s.pc c = .compareExchange (s.next head) ∧
      s' = { (s.write head (some (node c))).setPc c .done with succeeded := c :: s.succeeded }) := by
  cases a with
  | operate c =>
    simp only [atomicPush] at moved
    split at moved
    · rename_i pc
      cases moved
      exact .inl ⟨c, .store (s.next head), by rw [pc]; nofun, nofun, nofun, rfl⟩
    · rename_i pc
      cases moved
      exact .inr (.inl ⟨c, _, pc, rfl⟩)
    · rename_i pc
      split_ifs at moved with unchanged
      · cases moved
        exact .inr (.inr ⟨c, by rw [pc, unchanged], rfl⟩)
      · cases moved
        exact .inl ⟨c, .load, by rw [pc]; nofun, nofun, nofun, rfl⟩
    · cases moved
  | failSpuriously c =>
    simp only [atomicPush] at moved
    split at moved
    · rename_i pc
      cases moved
      exact .inl ⟨c, .load, by rw [pc]; nofun, nofun, nofun, rfl⟩
    all_goals cases moved

omit [DecidableEq Call] [DecidableEq Node] in
/-- A node that its call has not pushed yet is neither the head nor behind it. -/
theorem Linked.outside (linked : s.Linked head node initial) (distinct : Function.Injective node)
    (fresh : ∀ c, node c ∉ head :: initial) (pending : s.pc c ≠ .done) :
    node c ∉ head :: s.cells node initial := by
  have notPushed : c ∉ s.succeeded := fun pushed => pending ((linked.done_iff c).mpr pushed)
  simp only [cells, List.mem_cons, List.mem_append, List.mem_map, not_or] at fresh ⊢
  refine ⟨(fresh c).1, ?_, (fresh c).2⟩
  rintro ⟨other, pushed, same⟩
  exact notPushed (distinct same ▸ pushed)

/-- A step keeps the list in order, and writes to no node behind the head. -/
theorem Linked.step (distinct : Function.Injective node) (fresh : ∀ c, node c ∉ head :: initial)
    (linked : s.Linked head node initial) (moved : (atomicPush head node initial).step s a = some s') :
    s'.Linked head node initial ∧ s.succeeded <:+ s'.succeeded ∧
      ∀ cell ∈ s.cells node initial, s'.next cell = s.next cell := by
  obtain ⟨c, pc, pending, notDone, notExchange, rfl⟩ | ⟨c, old, pc, rfl⟩ | ⟨c, pc, rfl⟩ :=
    step_cases moved
  · refine ⟨⟨linked.chain, ?_, ?_⟩, List.suffix_rfl, fun _ _ => rfl⟩
    · intro other
      simp only [setPc, Function.update_apply]
      split_ifs with same
      · subst same
        exact iff_of_false notDone (mt (linked.done_iff other).mpr pending)
      · exact linked.done_iff other
    · intro other old at_
      simp only [setPc, Function.update_apply] at at_
      split_ifs at at_
      · exact absurd at_ (notExchange old)
      · exact linked.prepared other old at_
  · have pending : s.pc c ≠ .done := by rw [pc]; nofun
    have outside := linked.outside distinct fresh pending
    refine ⟨⟨linked.chain.update outside, ?_, ?_⟩, List.suffix_rfl, ?_⟩
    · intro other
      simp only [setPc, write, Function.update_apply]
      split_ifs with same
      · subst same
        exact iff_of_false nofun (mt (linked.done_iff other).mpr pending)
      · exact linked.done_iff other
    · intro other seen at_
      simp only [setPc, write, Function.update_apply, distinct.eq_iff] at at_ ⊢
      split_ifs at at_ ⊢
      · exact PushPc.compareExchange.inj at_
      · exact linked.prepared other seen at_
    · intro cell member
      exact Function.update_of_ne (ne_of_mem_of_not_mem (List.mem_cons_of_mem _ member) outside) _ _
  · have pending : s.pc c ≠ .done := by rw [pc]; nofun
    have outside := linked.outside distinct fresh pending
    refine ⟨⟨linked.chain.insert outside (linked.prepared c _ pc), ?_, ?_⟩, List.suffix_cons _ _, ?_⟩
    · intro other
      simp only [setPc, write, Function.update_apply, List.mem_cons]
      split_ifs with same
      · exact iff_of_true rfl (.inl same)
      · rw [linked.done_iff other]
        exact ⟨.inr, fun pushed => pushed.resolve_left same⟩
    · intro other seen at_
      simp only [setPc, write, Function.update_apply] at at_ ⊢
      split_ifs at at_
      rw [if_neg (List.ne_of_not_mem_cons (fresh other))]
      exact linked.prepared other seen at_
    · intro cell member
      exact Function.update_of_ne
        (ne_of_mem_of_not_mem member (List.nodup_cons.mp linked.chain.nodup).1) _ _

variable (distinct : Function.Injective node) (fresh : ∀ c, node c ∉ head :: initial)
include distinct fresh

theorem linked_of_reachable (reachable : (atomicPush head node initial).Reachable (fun _ _ => True) s) :
    s.Linked head node initial := by
  apply reachable.invariant
  · rintro s ⟨chain, loading, none⟩
    refine ⟨?_, ?_, ?_⟩
    · rw [cells, none]
      exact chain.cons
    · intro c
      rw [loading, none]
      exact iff_of_false nofun List.not_mem_nil
    · intro c old at_
      rw [loading] at at_
      cases at_
  · intro s s' a _ linked moved
    exact (linked.step distinct fresh moved).1

/-- Whatever runs follow, the nodes behind the head stay there and their fields are not written. -/
theorem Linked.final (linked : s.Linked head node initial) {schedule : List (PushAction Call)}
    (ran : (atomicPush head node initial).run s schedule = some s') :
    s.succeeded <:+ s'.succeeded ∧ ∀ cell ∈ s.cells node initial, s'.next cell = s.next cell := by
  induction schedule generalizing s with
  | nil =>
    cases ran
    exact ⟨List.suffix_rfl, fun _ _ => rfl⟩
  | cons a rest ih =>
    obtain ⟨middle, moved, remaining⟩ := Option.bind_eq_some_iff.mp ran
    obtain ⟨linked', more, kept⟩ := linked.step distinct fresh moved
    obtain ⟨more', kept'⟩ := ih linked' remaining
    refine ⟨more.trans more', ?_⟩
    intro cell member
    have member' : cell ∈ middle.cells node initial :=
      List.mem_append.mpr ((List.mem_append.mp member).imp_left fun pushed => (more.map node).subset pushed)
    rw [kept' cell member', kept cell member]

end PushState

/-- In every state the nodes behind the head are those whose exchange has succeeded, the last one first,
and then the initial ones: a finite list without repetition, in which each `next` field is final. -/
theorem atomic_push_safe {head : Node} {node : Call → Node} {initial : List Node}
    {s : PushState Call Node} (distinct : Function.Injective node)
    (fresh : ∀ c, node c ∉ head :: initial)
    (reachable : (atomicPush head node initial).Reachable (fun _ _ => True) s) :
    IsChain s.next (s.next head) (s.succeeded.map node ++ initial) ∧
      (head :: (s.succeeded.map node ++ initial)).Nodup ∧
      (∀ c, s.pc c = .done ↔ c ∈ s.succeeded) ∧
      ∀ schedule s', (atomicPush head node initial).run s schedule = some s' →
        s.succeeded <:+ s'.succeeded ∧
          ∀ cell ∈ s.succeeded.map node ++ initial, s'.next cell = s.next cell := by
  have linked := PushState.linked_of_reachable distinct fresh reachable
  refine ⟨linked.chain.2, linked.chain.nodup, linked.done_iff, ?_⟩
  intro schedule s' ran
  exact linked.final distinct fresh ran

/-- Two calls see the same head; the second one has to start over. -/
def twoPushes : List (PushAction Bool) :=
  [.operate true, .operate false, .operate true, .operate false, .operate true, .operate false,
    .operate false, .operate false, .failSpuriously false, .operate false, .operate false, .operate false]

theorem atomic_push_safe_two :
    ∃ s : PushState Bool ℕ,
      (atomicPush 0 (fun c => if c then 1 else 2) [7]).Reachable (fun _ _ => True) s ∧
        s.succeeded = [false, true] ∧ IsChain s.next (s.next 0) [2, 1, 7] := by
  obtain ⟨s, ran, succeeded⟩ : ∃ s, (atomicPush 0 (fun c => if c then 1 else 2) [7]).run
      ⟨fun cell => if cell = 0 then some 7 else none, fun _ => .load, []⟩ twoPushes = some s ∧
        s.succeeded = [false, true] :=
    ⟨_, rfl, rfl⟩
  have reachable : (atomicPush 0 (fun c => if c then 1 else 2) [7]).Reachable (fun _ _ => True) s :=
    .run (.start ⟨by decide, rfl, rfl⟩) (fun _ _ _ => trivial) ran
  have distinct : Function.Injective fun c : Bool => if c then 1 else 2 := by
    intro c d
    cases c <;> cases d <;> decide
  have chain := (atomic_push_safe distinct (by decide) reachable).1
  rw [succeeded] at chain
  exact ⟨s, reachable, succeeded, chain⟩

end Hseos.Atomic
