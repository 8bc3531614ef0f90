import Hseos.Lib.Machine
import Hseos.Nn.Compute

/-! # Histories of resets, computations and assignments

Graphs that share nodes are used over time: variables change, and `compute_graph` and `reset_graph`
are called on any nodes. A reset that is not forced turns back at a node whose flag is clear, so it
misses what is cached below such a node. Whatever the history, a reset of a node that is not forced
and a computation of it leave the plain value behind every set flag below exactly if each output the
reset misses was current anyway (`history_fresh_iff`); in general they do not (`history_stale`).
Nothing is missed in histories whose computations set no flag below a clear node that they do not
go through (`exposed_of_disciplined`), and no other event brings such a flag about
(`step_clearBelow_iff`).
-/

namespace Hseos.Nn

variable {V α : Type}

/-- One event of a history. -/
inductive Event (V α : Type) where
  | assign (reference : V) (value : α)
  | compute (op : ℕ)
  | reset (op : ℕ) (force : ℤ)
deriving DecidableEq

/-- The nodes and the variables. -/
structure Session (V α : Type) where
  heap : Heap V α
  env : V → α

/-- `reset_graph(root, 1)` on every root. -/
def resetRoots (heap : Heap V α) (roots : List ℕ) : Except Fault (Heap V α) :=
  roots.foldlM (fun heap root => resetGraph heap (some root) 1) heap

section Step

variable [DecidableEq V] [Add α] [Sub α] [Mul α] [Div α]

def Session.step (s : Session V α) : Event V α → Option (Session V α)
  | .assign reference value => some { s with env := Function.update s.env reference value }
  | .compute op =>
      (computeGraph s.env s.heap (some op)).toOption.map fun result =>
        { s with heap := result.1.heap }
  | .reset op force =>
      (resetGraph s.heap (some op) force).toOption.map fun heap => { s with heap := heap }

/-- The histories of the graphs below the roots. -/
def history (heap : Heap V α) (roots : List ℕ) : Machine (Session V α) (Event V α) where
  start s := resetRoots heap roots = .ok s.heap
  step := Session.step

end Step

variable {heap heap' : Heap V α} {i n : ℕ} {e : Expr V α}

/-- Below a node whose flag is clear all flags are clear. -/
def ClearBelow (heap : Heap V α) : Prop :=
  ∀ i j, Input heap i j → Computed heap j → Computed heap i

/-- Every set flag below the node is seen by a reset of the node that is not forced. -/
def Exposed (heap : Heap V α) (i : ℕ) : Prop :=
  ∀ j, Reaches heap i j → Computed heap j → Walk (Input heap) (Computed heap) i j

/-- The output of the node is the value of its graph. -/
def Current [Add α] [Sub α] [Mul α] [Div α] (env : V → α) (heap : Heap V α) (i : ℕ) : Prop :=
  ∃ node, heap[i]? = some node ∧
    evaluate (Interpretation.plain env) heap (some i) = .ok node.outputValue

/-- Every set flag below the node is seen by a reset of the node that is not forced, or its output is
current. -/
def Settled [Add α] [Sub α] [Mul α] [Div α] (env : V → α) (heap : Heap V α) (i : ℕ) : Prop :=
  ∀ j, Reaches heap i j → Computed heap j →
    Walk (Input heap) (Computed heap) i j ∨ Current env heap j

/-- A computation goes through all clear nodes that have a node it computes for input. -/
def Disciplined (s : Session V α) : Event V α → Prop
  | .compute op => ∀ i j, Input s.heap i j → ¬Computed s.heap i → ComputeVisits s.heap op j →
      Reaches s.heap op i
  | .assign _ _ | .reset _ _ => True

theorem ClearBelow.exposed (clear : ClearBelow heap) (i : ℕ) : Exposed heap i := by
  intro j path set
  induction path using Relation.ReflTransGen.head_induction_on with
  | refl => exact .here set
  | head next _ ih => exact .step (clear _ _ next ih.source) next ih

/-- From a clear node a computation goes through all nodes below. -/
theorem ClearBelow.computeVisits (clear : ClearBelow heap) (idle : ¬Computed heap n)
    (path : Reaches heap n i) : ComputeVisits heap n i := by
  induction path with
  | refl => exact .here idle
  | tail _ next ih => exact ih.snoc next fun set => ih.target (clear _ _ next set)

/-- A reset keeps all flags clear below clear flags. -/
theorem ClearBelow.reset {force : ℤ} (clear : ClearBelow heap)
    (clears : Updates heap heap' (ResetVisits force heap n) fun _ => Operation.clear) :
    ClearBelow heap' := by
  intro i j next set
  rw [(clears.sameBodies fun _ _ => rfl).input] at next
  rw [clears.computed] at set ⊢
  have above := clear i j next set.1
  refine ⟨above, fun seen => set.2 ?_⟩
  exact seen.snoc next (seen.target.imp_right fun _ => set.1)

/-- A reset returns only if it is called on a node. -/
theorem lt_length_of_resetGraph {force : ℤ} (ran : resetGraph heap (some n) force = .ok heap') :
    n < heap.length := by
  by_contra outside
  have absent : heap[n]? = none := List.getElem?_eq_none (by omega)
  cases size : heap.length <;>
    simp [resetGraph, size, resetGraphTo, deref, absent, bind, Except.bind] at ran

theorem lt_length_of_computeGraph [Add α] [Sub α] [Mul α] [Div α] {env : V → α}
    {result : Computation V α × α} (ran : computeGraph env heap (some n) = .ok result) :
    n < heap.length := by
  by_contra outside
  have absent : heap[n]? = none := List.getElem?_eq_none (by omega)
  cases size : heap.length <;>
    simp [computeGraph, size, computeGraphTo, deref, absent, bind, Except.bind] at ran

theorem resetGraph_updates {force : ℤ} (valid : ValidHeap heap)
    (ran : resetGraph heap (some n) force = .ok heap') :
    Updates heap heap' (ResetVisits force heap n) fun _ => Operation.clear := by
  obtain ⟨e, rep⟩ := valid.represents (lt_length_of_resetGraph ran)
  obtain ⟨_, ran', clears⟩ := resetGraph_spec force rep
  cases ran.symm.trans ran'
  exact clears

/-- A forced reset of every root leaves no flag set below the roots. -/
theorem resetRoots_clears (valid : ValidHeap heap) {roots : List ℕ}
    (ran : resetRoots heap roots = .ok heap') :
    SameBodies heap heap' ∧
      ∀ j, Computed heap' j → Computed heap j ∧ ∀ root ∈ roots, ¬Reaches heap root j := by
  induction roots generalizing heap with
  | nil =>
    cases ran
    exact ⟨.refl _, fun j set => ⟨set, fun root none => absurd none List.not_mem_nil⟩⟩
  | cons root rest ih =>
    obtain ⟨heap₁, first, later⟩ := ok_of_bind ran
    have clears := resetGraph_updates valid first
    have same₁ : SameBodies heap heap₁ := clears.sameBodies fun _ _ => rfl
    obtain ⟨same, unset⟩ := ih (same₁.valid valid) later
    refine ⟨same₁.trans same, fun j set => ?_⟩
    obtain ⟨kept, others⟩ := unset j set
    rw [clears.computed, resetVisits_forced one_ne_zero] at kept
    refine ⟨kept.1, fun r member => ?_⟩
    rcases List.mem_cons.mp member with rfl | member
    · exact kept.2
    · exact same₁.reaches ▸ others r member

section Settled

variable [Add α] [Sub α] [Mul α] [Div α] {env : V → α}

theorem Exposed.settled (exposed : Exposed heap n) (env : V → α) : Settled env heap n :=
  fun j path set => .inl (exposed j path set)

theorem current_iff {node : Operation V α} (rep : Represents heap i e) (read : heap[i]? = some node) :
    Current env heap i ↔ node.outputValue = e.eval (Interpretation.plain env) := by
  rw [Current, evaluate_of_represents _ rep]
  constructor
  · rintro ⟨node', read', value⟩
    cases read.symm.trans read'
    exact (Except.ok.inj value).symm
  · intro value
    exact ⟨node, read, congrArg Except.ok value.symm⟩

/-- A node that is as it was is current as it was. -/
theorem current_congr (same : SameBodies heap heap') (rep : Represents heap i e)
    (kept : heap'[i]? = heap[i]?) : Current env heap' i ↔ Current env heap i := by
  obtain ⟨node, read⟩ := rep.node
  rw [current_iff rep read, current_iff (same.represents rep) (kept.trans read)]

theorem Memoised.of_current (rep : Represents heap i e) (set : Computed heap i)
    (current : Current env heap i) : Memoised env heap i (e.eval (Interpretation.plain env)) := by
  obtain ⟨node, read, set⟩ := set
  rw [← (current_iff rep read).mp current]
  exact .cached read set

/-- Where the outputs of all set flags below are current, the value of a node is the plain one. -/
theorem Memoised.plain_of_current (rep : Represents heap i e)
    (current : ∀ j, Reaches heap i j → Computed heap j → Current env heap j) :
    Memoised env heap i (e.eval (Interpretation.plain env)) := by
  induction rep with
  | @placeholder i _ _ read body =>
    by_cases set : Computed heap i
    · exact .of_current (.placeholder read body) set (current i .refl set)
    · exact .placeholder read set body
  | @const i _ _ read body =>
    by_cases set : Computed heap i
    · exact .of_current (.const read body) set (current i .refl set)
    · exact .const read set body
  | @pairwise i _ _ _ _ _ _ read body first second ihl ihr =>
    by_cases set : Computed heap i
    · exact .of_current (.pairwise read body first second) set (current i .refl set)
    · have inputs := input_pairwise read body
      exact .pairwise read set body
        (ihl fun j path => current j (.head ((inputs _).mpr (.inl rfl)) path))
        (ihr fun j path => current j (.head ((inputs _).mpr (.inr rfl)) path))

/-- The outputs of the set flags below are current after a computation exactly if they were before. -/
theorem Computes.current_iff {calls : List ℕ} (computes : Computes env heap n heap' calls)
    (rep : Represents heap n e) :
    (∀ j, Reaches heap n j → Computed heap' j → Current env heap' j) ↔
      ∀ j, Reaches heap n j → Computed heap j → Current env heap j := by
  have kept (j : ℕ) (set : Computed heap j) : heap'[j]? = heap[j]? :=
    computes.untouched j fun seen => seen.target set
  constructor
  · intro after j path set
    obtain ⟨below, represented, _⟩ := rep.reaches path
    rw [← current_congr computes.same represented (kept j set)]
    exact after j path ((computes.computed_iff_visited j).mpr (.inl set))
  · intro before j path set
    obtain ⟨below, represented, _⟩ := rep.reaches path
    rcases (computes.computed_iff_visited j).mp set with old | seen
    · rw [current_congr computes.same represented (kept j old)]
      exact before j path old
    · obtain ⟨x, memo, written⟩ := computes.visited j seen
      obtain ⟨node, read⟩ := represented.node
      rw [read, Option.map_some] at written
      rw [Nn.current_iff (computes.same.represents represented) written]
      exact memo.unique (.plain_of_current represented fun k more => before k (path.trans more))

/-- After a reset that is not forced, the outputs of the flags it has left are current exactly if the
node was settled. -/
theorem current_iff_settled (env : V → α) (rep : Represents heap n e)
    (clears : Updates heap heap' (ResetVisits 0 heap n) fun _ => Operation.clear) :
    (∀ j, Reaches heap n j → Computed heap' j → Current env heap' j) ↔ Settled env heap n := by
  have same : SameBodies heap heap' := clears.sameBodies fun _ _ => rfl
  apply forall₂_congr
  intro j path
  obtain ⟨below, represented, _⟩ := rep.reaches path
  rw [clears.computed, resetVisits_unforced]
  by_cases seen : Walk (Input heap) (Computed heap) n j
  · exact iff_of_true (fun kept => absurd seen kept.2) fun _ => .inl seen
  · have kept := (clears j).2 fun visited => seen ((resetVisits_unforced j).mp visited)
    rw [current_congr same represented kept]
    simp only [seen, not_false_eq_true, and_true, false_or]

/-- A reset that is not forced and a computation after it leave current outputs behind the set flags
below, and so return the plain value, if and only if the node was settled. The computation goes
through all nodes below if and only if all set flags below were exposed. -/
theorem reset_compute_iff (env : V → α) (rep : Represents heap n e) :
    ∃ cleared computed calls value, resetGraph heap (some n) 0 = .ok cleared ∧
      computeGraph env cleared (some n) = .ok (⟨computed, calls⟩, value) ∧
      (value = e.eval (Interpretation.plain env) ∧
          (∀ j, Reaches heap n j → Computed computed j → Current env computed j) ↔
        Settled env heap n) ∧
      ((∀ j, Reaches heap n j → j ∈ calls) ↔ Exposed heap n) := by
  obtain ⟨cleared, reset, clears⟩ := resetGraph_spec 0 rep
  have same : SameBodies heap cleared := clears.sameBodies fun _ _ => rfl
  have rep' := same.represents rep
  obtain ⟨value, memo⟩ := Memoised.exists_of_represents env rep'
  obtain ⟨computed, calls, ran, computes⟩ := computeGraph_spec rep' memo
  have after := computes.current_iff rep'
  have before := current_iff_settled env rep clears
  rw [same.reaches] at after
  refine ⟨cleared, computed, calls, value, reset, ran, ?_, fun all j path set => ?_, fun exposed j path => ?_⟩
  · rw [after, before, and_iff_right_iff_imp]
    intro settled
    refine memo.unique (.plain_of_current rep' ?_)
    rw [same.reaches]
    exact before.mpr settled
  · have clear := ((computes.called j).mp (all j path)).target
    rw [clears.computed, resetVisits_unforced] at clear
    exact not_not.mp fun hidden => clear ⟨set, hidden⟩
  · have idle (j : ℕ) (path : Reaches cleared n j) : ¬Computed cleared j := by
      rw [clears.computed, resetVisits_unforced]
      exact fun kept => kept.2 (exposed j (same.reaches ▸ path) kept.1)
    obtain ⟨_, _, ran', computes', visits⟩ := computeGraph_clear env rep' idle
    cases ran.symm.trans ran'
    rw [computes'.called, visits, same.reaches]
    exact path

end Settled

section Runs

variable [DecidableEq V] [Add α] [Sub α] [Mul α] [Div α] {s s' : Session V α} {event : Event V α}

/-- What an event does to the heap: nothing, a reset or a computation of a node. -/
theorem step_cases (valid : ValidHeap s.heap) (moved : s.step event = some s') :
    (∃ reference value, event = .assign reference value ∧ s'.heap = s.heap) ∨
    (∃ op force, event = .reset op force ∧
      Updates s.heap s'.heap (ResetVisits force s.heap op) fun _ => Operation.clear) ∨
    ∃ op calls, event = .compute op ∧ Computes s.env s.heap op s'.heap calls := by
  cases event with
  | assign reference value =>
    cases moved
    exact .inl ⟨reference, value, rfl, rfl⟩
  | reset op force =>
    obtain ⟨heap, ran, rfl⟩ := Option.map_eq_some_iff.mp moved
    exact .inr (.inl ⟨op, force, rfl, resetGraph_updates valid (toOption_eq_some.mp ran)⟩)
  | compute op =>
    obtain ⟨⟨⟨heap, calls⟩, value⟩, ran, rfl⟩ := Option.map_eq_some_iff.mp moved
    have returned := toOption_eq_some.mp ran
    obtain ⟨e, rep⟩ := valid.represents (lt_length_of_computeGraph returned)
    obtain ⟨_, memo⟩ := Memoised.exists_of_represents s.env rep
    obtain ⟨_, _, ran', computes⟩ := computeGraph_spec rep memo
    cases returned.symm.trans ran'
    exact .inr (.inr ⟨op, calls, rfl, computes⟩)

/-- No event changes a body. -/
theorem step_sameBodies (valid : ValidHeap s.heap) (moved : s.step event = some s') :
    SameBodies s.heap s'.heap := by
  obtain ⟨_, _, -, same⟩ | ⟨_, _, -, clears⟩ | ⟨_, _, -, computes⟩ := step_cases valid moved
  · exact same ▸ .refl s.heap
  · exact clears.sameBodies fun _ _ => rfl
  · exact computes.same

/-- Flags stay clear below clear flags exactly if the event is a disciplined one. -/
theorem step_clearBelow_iff (valid : ValidHeap s.heap) (clear : ClearBelow s.heap)
    (moved : s.step event = some s') : ClearBelow s'.heap ↔ Disciplined s event := by
  obtain ⟨_, _, rfl, same⟩ | ⟨_, _, rfl, clears⟩ | ⟨op, calls, rfl, computes⟩ := step_cases valid moved
  · exact iff_of_true (same ▸ clear) trivial
  · exact iff_of_true (clear.reset clears) trivial
  · refine ⟨fun clear' i j next idle visits => ?_, fun disciplined i j next set => ?_⟩
    · have above := clear' i j (computes.same.input ▸ next)
        ((computes.computed_iff_visited j).mpr (.inr visits))
      exact (((computes.computed_iff_visited i).mp above).resolve_left idle).reachable
    · rw [computes.same.input] at next
      rw [computes.computed_iff_visited] at set ⊢
      by_contra unset
      rw [not_or] at unset
      have visits : ComputeVisits s.heap op j :=
        set.resolve_left fun before => unset.1 (clear i j next before)
      -- the node is below `op`, where all flags are clear as the one of `op` is
      refine unset.2 (clear.computeVisits visits.source (disciplined i j next unset.1 visits))

/-- Every history only changes outputs and flags. -/
theorem history_sameBodies {roots : List ℕ} {allowed : Session V α → Event V α → Prop} (valid : ValidHeap heap)
    (reachable : (history heap roots).Reachable allowed s) : SameBodies heap s.heap := by
  refine reachable.invariant (fun s => SameBodies heap s.heap) ?_ ?_
  · intro s started
    exact (resetRoots_clears valid started).1
  · intro s s' event _ same moved
    exact same.trans (step_sameBodies (same.valid valid) moved)

/-- A disciplined history of graphs that were all reset keeps flags clear below clear flags. -/
theorem history_clearBelow {roots : List ℕ} (valid : ValidHeap heap)
    (covers : ∀ i < heap.length, ∃ root ∈ roots, Reaches heap root i)
    (reachable : (history heap roots).Reachable Disciplined s) : ClearBelow s.heap := by
  induction reachable with
  | start started =>
    obtain ⟨_, unset⟩ := resetRoots_clears valid started
    intro i j next set
    obtain ⟨before, below⟩ := unset j set
    obtain ⟨node, read, _⟩ := before
    obtain ⟨root, member, path⟩ := covers j (List.getElem?_eq_some_iff.mp read).1
    exact absurd path (below root member)
  | step before disciplined moved clear =>
    have same := history_sameBodies valid before
    exact (step_clearBelow_iff (same.valid valid) clear moved).mpr disciplined

/-- In a disciplined history a reset that is not forced misses nothing below any node. -/
theorem exposed_of_disciplined {roots : List ℕ} (valid : ValidHeap heap)
    (covers : ∀ i < heap.length, ∃ root ∈ roots, Reaches heap root i)
    (reachable : (history heap roots).Reachable Disciplined s) (n : ℕ) : Exposed s.heap n :=
  (history_clearBelow valid covers reachable).exposed n

/-- After any history, a reset of a node that is not forced and a computation of it return the plain
value at the current variables, and leave such values behind all set flags below, if and only if the
node was settled. The computation goes through all nodes below, and so takes nothing from before the
reset, if and only if all set flags below were exposed. -/
theorem history_fresh_iff (heap : Heap V α) (valid : ValidHeap heap) (roots : List ℕ) (s : Session V α)
    (reachable : (history heap roots).Reachable (fun _ _ => True) s) (n : ℕ) (inHeap : n < heap.length) :
    ∃ cleared computed calls value, resetGraph s.heap (some n) 0 = .ok cleared ∧
      computeGraph s.env cleared (some n) = .ok (⟨computed, calls⟩, value) ∧
      (evaluate (Interpretation.plain s.env) heap (some n) = .ok value ∧
          (∀ j, Reaches heap n j → Computed computed j → Current s.env computed j) ↔
        Settled s.env s.heap n) ∧
      ((∀ j, Reaches heap n j → j ∈ calls) ↔ Exposed s.heap n) := by
  have same := history_sameBodies valid reachable
  obtain ⟨e, rep⟩ := valid.represents inHeap
  obtain ⟨cleared, computed, calls, value, reset, ran, fresh, all⟩ :=
    reset_compute_iff s.env (same.represents rep)
  rw [same.reaches] at fresh all
  refine ⟨cleared, computed, calls, value, reset, ran, ?_, all⟩
  rw [← fresh, evaluate_of_represents _ rep, Except.ok.injEq, eq_comm]

end Runs

/-- A variable and twice the variable. -/
def doubled : Heap Unit ℤ :=
  [⟨.placeholder (), 0, 0⟩, ⟨.pairwise .add (some 0) (some 0), 0, 0⟩]

theorem doubled_valid : ValidHeap doubled :=
  (validHeap_nil.append ⟨.placeholder (), 0, 0⟩ (by simp [Body.inputs])).append
    ⟨.pairwise .add (some 0) (some 0), 0, 0⟩ (by simp [Body.inputs])

theorem doubled_covers : ∀ i < doubled.length, ∃ root ∈ [1], Reaches doubled root i := by
  have next : Input doubled 1 0 := ⟨_, rfl, List.mem_cons_self⟩
  intro i bound
  refine ⟨1, List.mem_cons_self, ?_⟩
  match i, bound with
  | 0, _ => exact .single next
  | 1, _ => exact .refl

/-- A variable, twice the variable, and its square. -/
def shared : Heap Unit ℤ := doubled ++ [⟨.pairwise .mul (some 0) (some 0), 0, 0⟩]

/-- The square is computed behind a forced reset of its own, although twice the variable is not reset
with it; once the variable has changed, the square is right. -/
theorem history_fresh_square :
    ∃ s : Session Unit ℤ, (history shared [1, 2]).run ⟨shared, fun _ => 0⟩
        [.compute 1, .reset 2 1, .compute 2, .assign () 3] = some s ∧
      ∃ cleared computed value, resetGraph s.heap (some 2) 0 = .ok cleared ∧
        computeGraph s.env cleared (some 2) = .ok (computed, value) ∧ value = 9 := by
  have valid : ValidHeap shared :=
    doubled_valid.append ⟨.pairwise .mul (some 0) (some 0), 0, 0⟩ (by simp [Body.inputs, doubled])
  have start : (history shared [1, 2]).Reachable (fun _ _ => True) ⟨shared, fun _ => 0⟩ := .start rfl
  obtain ⟨s, ran, square, leaf, env⟩ : ∃ s : Session Unit ℤ,
      (history shared [1, 2]).run ⟨shared, fun _ => 0⟩ [.compute 1, .reset 2 1, .compute 2, .assign () 3] =
        some s ∧ Computed s.heap 2 ∧ Computed s.heap 0 ∧ s.env = fun _ => 3 :=
    ⟨_, rfl, ⟨_, rfl, by decide⟩, ⟨_, rfl, by decide⟩, rfl⟩
  have reachable := start.run (fun _ _ _ => trivial) ran
  have same := history_sameBodies valid reachable
  have below (j : ℕ) : Input s.heap 2 j ↔ j = 0 := by
    have read : shared[2]? = some ⟨.pairwise .mul (some 0) (some 0), 0, 0⟩ := rfl
    rw [same.input, input_pairwise read rfl, or_self]
  have bottom (j : ℕ) : ¬Input s.heap 0 j := by
    have read : shared[0]? = some ⟨.placeholder (), 0, 0⟩ := rfl
    rw [same.input]
    exact input_leaf read rfl j
  have exposed : Exposed s.heap 2 := by
    intro j path _
    rcases path.cases_head with rfl | ⟨k, next, rest⟩
    · exact .here square
    · obtain rfl := (below k).mp next
      rcases rest.cases_head with rfl | ⟨k, next', _⟩
      · exact .step square next (.here leaf)
      · exact absurd next' (bottom k)
  obtain ⟨cleared, computed, calls, value, reset, computes, fresh, _⟩ :=
    history_fresh_iff shared valid [1, 2] s reachable 2 (by decide)
  obtain ⟨plain, _⟩ := fresh.mpr (exposed.settled s.env)
  refine ⟨s, ran, cleared, _, value, reset, computes, ?_⟩
  rw [env] at plain
  cases plain
  rfl

/-- The variable computed on its own is not reset with its double: the reset turns back at the sum,
whose flag is clear, and twice the old value is computed. -/
theorem history_stale :
    ValidHeap doubled ∧ (∀ i < doubled.length, ∃ root ∈ [1], Reaches doubled root i) ∧
    ∃ s : Session Unit ℤ, (history doubled [1]).Reachable (fun _ _ => True) s ∧
      ∃ cleared computed, resetGraph s.heap (some 1) 0 = .ok cleared ∧
        computeGraph s.env cleared (some 1) = .ok (computed, 0) ∧
        evaluate (Interpretation.plain s.env) doubled (some 1) = .ok 2 := by
  have start : (history doubled [1]).Reachable (fun _ _ => True) ⟨doubled, fun _ => 0⟩ := .start rfl
  have reachable := start.run (fun _ _ _ => trivial)
    (show (history doubled [1]).run _ [.compute 0, .assign () 1] = some _ from rfl)
  exact ⟨doubled_valid, doubled_covers, _, reachable, _, _, rfl, rfl, rfl⟩

end Hseos.Nn
