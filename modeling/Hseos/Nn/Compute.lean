import Hseos.Nn.Reset

/-! # Memoised evaluation is plain evaluation

`compute_graph` gives every node a value: the cached output where the flag is set, and elsewhere the
operation of the node on the values of its inputs. It writes that value to each node it walks to
through clear flags, calling `vtable->compute` once for each of them, inputs first; this does not
change the value of any node. Where no flag below a node is set, and a forced reset makes it so
whatever the flags were, the value is the one of plain recursive evaluation.
-/

namespace Hseos.Nn

variable {V α : Type} {heap heap' : Heap V α} {i j : ℕ} {e : Expr V α} {env : V → α} {x y : α}

/-- The nodes a computation of `i` visits. -/
def ComputeVisits (heap : Heap V α) (i : ℕ) : ℕ → Prop :=
  Walk (Input heap) (fun j => ¬Computed heap j) i

/-- The node with this output and its flag set. -/
def Operation.finish (value : α) (node : Operation V α) : Operation V α :=
  { node with outputComputed := 1, outputValue := value }

theorem ComputeVisits.represents (rep : Represents heap i e) (visits : ComputeVisits heap i j) :
    ∃ below, Represents heap j below := by
  obtain ⟨below, represented, _⟩ := rep.reaches visits.reachable
  exact ⟨below, represented⟩

variable [Add α] [Sub α] [Mul α] [Div α]

/-- The value a computation gives a node: what is cached there, or else what its operation makes of
the values of its inputs. -/
inductive Memoised (env : V → α) (heap : Heap V α) : ℕ → α → Prop
  | cached {i : ℕ} {node : Operation V α} (read : heap[i]? = some node)
      (set : node.outputComputed ≠ 0) : Memoised env heap i node.outputValue
  | placeholder {i : ℕ} {node : Operation V α} {reference : V} (read : heap[i]? = some node)
      (idle : ¬Computed heap i) (body : node.body = .placeholder reference) :
      Memoised env heap i (env reference)
  | const {i : ℕ} {node : Operation V α} {value : α} (read : heap[i]? = some node)
      (idle : ¬Computed heap i) (body : node.body = .const value) : Memoised env heap i value
  | pairwise {i a b : ℕ} {node : Operation V α} {vtable : ArithOp} {x y : α}
      (read : heap[i]? = some node) (idle : ¬Computed heap i)
      (body : node.body = .pairwise vtable (some a) (some b)) (first : Memoised env heap a x)
      (second : Memoised env heap b y) : Memoised env heap i (vtable.apply x y)

namespace Memoised

/-- Every node of an acyclic graph has a value. -/
theorem exists_of_represents (env : V → α) (rep : Represents heap i e) :
    ∃ x, Memoised env heap i x := by
  induction rep with
  | @placeholder i node _ read body =>
    by_cases set : Computed heap i
    · exact ⟨_, .cached read ((computed_iff read).mp set)⟩
    · exact ⟨_, .placeholder read set body⟩
  | @const i node _ read body =>
    by_cases set : Computed heap i
    · exact ⟨_, .cached read ((computed_iff read).mp set)⟩
    · exact ⟨_, .const read set body⟩
  | @pairwise i a b node _ _ _ read body _ _ ihl ihr =>
    by_cases set : Computed heap i
    · exact ⟨_, .cached read ((computed_iff read).mp set)⟩
    · obtain ⟨x, first⟩ := ihl
      obtain ⟨y, second⟩ := ihr
      exact ⟨_, .pairwise read set body first second⟩

/-- The value of a node whose flag is set is its output. -/
theorem of_computed (memo : Memoised env heap i x) {node : Operation V α}
    (read : heap[i]? = some node) (set : node.outputComputed ≠ 0) : x = node.outputValue := by
  cases memo with
  | cached read' => rw [Option.some.inj (read.symm.trans read')]
  | placeholder _ idle | const _ idle | pairwise _ idle => exact absurd ⟨node, read, set⟩ idle

theorem unique (first : Memoised env heap i x) (second : Memoised env heap i y) : x = y := by
  induction first generalizing y with
  | cached read set => exact (second.of_computed read set).symm
  | placeholder read idle body | const read idle body =>
    cases second with
    | cached read' set => exact absurd ⟨_, read', set⟩ idle
    | placeholder read' _ body' | const read' _ body' | pairwise read' _ body' =>
      obtain rfl := Option.some.inj (read.symm.trans read')
      cases body.symm.trans body' <;> rfl
  | pairwise read idle body _ _ ihl ihr =>
    cases second with
    | cached read' set => exact absurd ⟨_, read', set⟩ idle
    | placeholder read' _ body' | const read' _ body' =>
      obtain rfl := Option.some.inj (read.symm.trans read')
      cases body.symm.trans body'
    | pairwise read' _ body' left right =>
      obtain rfl := Option.some.inj (read.symm.trans read')
      cases body.symm.trans body'
      rw [ihl left, ihr right]

theorem node (memo : Memoised env heap i x) : ∃ node, heap[i]? = some node := by
  cases memo <;> exact ⟨_, ‹_›⟩

/-- Where nothing below is cached, the value is the plain one. -/
theorem plain (rep : Represents heap i e) (idle : ∀ j, Reaches heap i j → ¬Computed heap j) :
    Memoised env heap i (e.eval (Interpretation.plain env)) := by
  induction rep with
  | placeholder read body => exact .placeholder read (idle _ .refl) body
  | const read body => exact .const read (idle _ .refl) body
  | pairwise read body _ _ ihl ihr =>
    have inputs := input_pairwise read body
    exact .pairwise read (idle _ .refl) body
      (ihl fun j path => idle j (.head ((inputs _).mpr (.inl rfl)) path))
      (ihr fun j path => idle j (.head ((inputs _).mpr (.inr rfl)) path))

end Memoised

/-- What a computation of node `i` of the heap does, besides returning its value. -/
structure Computes (env : V → α) (heap : Heap V α) (i : ℕ) (heap' : Heap V α) (calls : List ℕ) :
    Prop where
  visited : ∀ j, ComputeVisits heap i j →
    ∃ x, Memoised env heap j x ∧ heap'[j]? = heap[j]?.map (Operation.finish x)
  untouched : ∀ j, ¬ComputeVisits heap i j → heap'[j]? = heap[j]?
  called : ∀ j, j ∈ calls ↔ ComputeVisits heap i j
  once : calls.Nodup
  inputsFirst : Scheduled (Input heap) (Computed heap) calls

namespace Computes

variable {calls : List ℕ} (computes : Computes env heap i heap' calls)
include computes

theorem same : SameBodies heap heap' := by
  intro j
  by_cases seen : ComputeVisits heap i j
  · obtain ⟨x, _, after⟩ := computes.visited j seen
    rw [after, Option.map_map]
    rfl
  · rw [computes.untouched j seen]

/-- The flags that are set after a computation are the old ones and those of the visited nodes. -/
theorem computed_iff_visited (j : ℕ) :
    Computed heap' j ↔ Computed heap j ∨ ComputeVisits heap i j := by
  by_cases seen : ComputeVisits heap i j
  · obtain ⟨x, memo, after⟩ := computes.visited j seen
    obtain ⟨node, read⟩ := memo.node
    rw [read, Option.map_some] at after
    exact ⟨fun _ => .inr seen, fun _ => ⟨_, after, one_ne_zero⟩⟩
  · simp only [Computed, computes.untouched j seen, seen, or_false]

/-- A computation does not change the value of any node. -/
theorem memoised {k : ℕ} (memo : Memoised env heap k x) : Memoised env heap' k x := by
  have visited {k : ℕ} {x : α} (memo : Memoised env heap k x) (seen : ComputeVisits heap i k) :
      Memoised env heap' k x := by
    obtain ⟨y, memo', after⟩ := computes.visited k seen
    obtain ⟨node, read⟩ := memo.node
    rw [read, Option.map_some] at after
    rw [memo.unique memo']
    exact .cached after one_ne_zero
  have idle {k : ℕ} (clear : ¬Computed heap k) (unseen : ¬ComputeVisits heap i k) :
      ¬Computed heap' k := by
    rw [computes.computed_iff_visited, not_or]
    exact ⟨clear, unseen⟩
  induction memo with
  | cached read set =>
    have unseen : ¬ComputeVisits heap i _ := fun seen => seen.target ⟨_, read, set⟩
    exact .cached (computes.untouched _ unseen ▸ read) set
  | @placeholder k node reference read clear body =>
    by_cases seen : ComputeVisits heap i k
    · exact visited (.placeholder read clear body) seen
    · exact .placeholder (computes.untouched k seen ▸ read) (idle clear seen) body
  | @const k node value read clear body =>
    by_cases seen : ComputeVisits heap i k
    · exact visited (.const read clear body) seen
    · exact .const (computes.untouched k seen ▸ read) (idle clear seen) body
  | @pairwise k a b node vtable x y read clear body first second ihl ihr =>
    by_cases seen : ComputeVisits heap i k
    · exact visited (.pairwise read clear body first second) seen
    · exact .pairwise (computes.untouched k seen ▸ read) (idle clear seen) body ihl ihr

/-- The node itself holds its value afterwards. -/
theorem output (memo : Memoised env heap i x) :
    ∃ node, heap'[i]? = some node ∧ node.outputComputed ≠ 0 ∧ node.outputValue = x := by
  have set : Computed heap' i := by
    rw [computes.computed_iff_visited]
    exact (em (Computed heap i)).imp_right .here
  obtain ⟨node, read, set⟩ := set
  exact ⟨node, read, set, ((computes.memoised memo).of_computed read set).symm⟩

/-- A second computation visits what it would have visited alone, less what the first one visited. -/
theorem visits_second (b j : ℕ) :
    ComputeVisits heap' b j ↔ ComputeVisits heap b j ∧ ¬ComputeVisits heap i j := by
  rw [ComputeVisits, computes.same.input]
  apply walk_after_iff
  intro v
  rw [computes.computed_iff_visited, not_or]
  rfl

end Computes

theorem vtableCompute_pairwise (env : V → α) (heap : Heap V α) (op : Ptr) (vtable : ArithOp)
    (inputs0 inputs1 : Ptr) : vtableCompute env heap op (.pairwise vtable inputs0 inputs1) =
      computePairwise vtable.apply heap op inputs0 inputs1 := by
  cases vtable <;> rfl

/-- The last steps of `compute_graph`: once its inputs hold their values, a node gets its own. -/
theorem compute_own (memo : Memoised env heap i x) (idle : ¬Computed heap i)
    (same : SameBodies heap heap') {node : Operation V α} (read : heap[i]? = some node)
    (calls : List ℕ) (inputs : ∀ k y, Input heap i k → Memoised env heap k y →
      ∃ input, heap'[k]? = some input ∧ input.outputValue = y) :
    (do
      let heap ← modifyAt heap' (some i) fun node => { node with outputComputed := 1 }
      let heap ← vtableCompute env heap (some i) node.body
      let node ← deref heap (some i)
      return ((⟨heap, calls⟩, node.outputValue) : Computation V α × α)) =
    .ok (⟨heap'.modify i (Operation.finish x), calls⟩, x) := by
  obtain ⟨node', read', _⟩ := same.node read
  let flagged := heap'.modify i fun node => { node with outputComputed := 1 }
  have readFlagged : flagged[i]? = some { node' with outputComputed := 1 } := by
    rw [List.getElem?_modify_eq, read']
    rfl
  have operand (k : ℕ) (y : α) (next : Input heap i k) (below : Memoised env heap k y) :
      ∃ input, deref flagged (some k) = .ok input ∧ input.outputValue = y := by
    obtain ⟨input, readInput, value⟩ := inputs k y next below
    -- setting the flag of the node itself changes no output
    refine ⟨_, deref_some (by rw [List.getElem?_modify, readInput]; rfl), ?_⟩
    split <;> exact value
  have called : vtableCompute env flagged (some i) node.body =
      .ok (flagged.modify i fun node => { node with outputValue := x }) := by
    cases memo with
    | cached own set => exact absurd ⟨_, own, set⟩ idle
    | placeholder own _ body | const own _ body =>
      obtain rfl := Option.some.inj (read.symm.trans own)
      rw [body]
      exact modifyAt_some readFlagged _
    | @pairwise _ a b _ _ _ _ own _ body first second =>
      obtain rfl := Option.some.inj (read.symm.trans own)
      have next := input_pairwise read body
      obtain ⟨inputA, derefA, valueA⟩ := operand a _ ((next a).mpr (.inl rfl)) first
      obtain ⟨inputB, derefB, valueB⟩ := operand b _ ((next b).mpr (.inr rfl)) second
      rw [body, vtableCompute_pairwise, computePairwise, derefA, ok_bind, derefB, ok_bind, valueA,
        valueB]
      exact modifyAt_some readFlagged _
  have readLast : (flagged.modify i fun node => { node with outputValue := x })[i]? =
      some (node'.finish x) := by
    rw [List.getElem?_modify_eq, readFlagged]
    rfl
  rw [modifyAt_some read', ok_bind, called, ok_bind, deref_some readLast, List.modify_modify_eq]
  rfl

/-- The computations of both inputs and of the node itself make up the one of a pairwise node. -/
theorem Computes.pairwise {heap₁ heap₂ : Heap V α} {callsA callsB : List ℕ} {a b : ℕ}
    {node : Operation V α} {vtable : ArithOp} {left right : Expr V α}
    (read : heap[i]? = some node) (body : node.body = .pairwise vtable (some a) (some b))
    (repA : Represents heap a left) (repB : Represents heap b right) (idle : ¬Computed heap i)
    (first : Computes env heap a heap₁ callsA) (second : Computes env heap₁ b heap₂ callsB)
    (memo : Memoised env heap i x) :
    Computes env heap i (heap₂.modify i (Operation.finish x)) (callsA ++ callsB ++ [i]) := by
  have whole := Represents.pairwise read body repA repB
  have visitsB (j : ℕ) := first.visits_second b j
  have walk (j : ℕ) : ComputeVisits heap i j ↔
      (ComputeVisits heap a j ∨ ComputeVisits heap b j) ∨ j = i := walk_pairwise read body idle j
  have notBack {c : ℕ} (next : Input heap i c) : ¬ComputeVisits heap c i :=
    fun visits => whole.not_back next visits.reachable
  have notA : ¬ComputeVisits heap a i := notBack ((input_pairwise read body a).mpr (.inl rfl))
  have notB : ¬ComputeVisits heap₁ b i := fun visits =>
    notBack ((input_pairwise read body b).mpr (.inr rfl)) ((visitsB i).mp visits).1
  refine ⟨fun j visits => ?_, fun j unseen => ?_, fun j => ?_, ?_, ?_⟩
  · by_cases own : j = i
    · subst own
      refine ⟨x, memo, ?_⟩
      rw [List.getElem?_modify_eq, second.untouched j notB, first.untouched j notA]
      rfl
    rw [List.getElem?_modify_ne _ _ (Ne.symm own)]
    by_cases seen : ComputeVisits heap a j
    · obtain ⟨y, memo', after⟩ := first.visited j seen
      exact ⟨y, memo', (second.untouched j fun again => ((visitsB j).mp again).2 seen).trans after⟩
    · have seenB : ComputeVisits heap b j := (((walk j).mp visits).resolve_right own).resolve_left seen
      obtain ⟨below, represented⟩ := seenB.represents repB
      obtain ⟨y, memo'⟩ := Memoised.exists_of_represents env represented
      obtain ⟨z, memo₁, after⟩ := second.visited j ((visitsB j).mpr ⟨seenB, seen⟩)
      rw [memo₁.unique (first.memoised memo'), first.untouched j seen] at after
      exact ⟨y, memo', after⟩
  · rw [walk, not_or, not_or] at unseen
    rw [List.getElem?_modify_ne _ _ (Ne.symm unseen.2),
      second.untouched j fun seen => unseen.1.2 ((visitsB j).mp seen).1,
      first.untouched j unseen.1.1]
  · simp only [List.mem_append, List.mem_singleton, first.called, second.called, visitsB, walk]
    tauto
  · rw [List.nodup_append', List.nodup_append']
    refine ⟨⟨first.once, second.once, fun j inA inB => ?_⟩, List.nodup_singleton i, ?_⟩
    · exact ((visitsB j).mp ((second.called j).mp inB)).2 ((first.called j).mp inA)
    · rw [List.disjoint_singleton, List.mem_append, not_or, first.called, second.called]
      exact ⟨notA, notB⟩
  · rw [scheduled_append, scheduled_append]
    refine ⟨⟨first.inputsFirst, ?_⟩, fun k next => ?_, trivial⟩
    · refine Scheduled.mono (fun k set => ?_) (first.same.input ▸ second.inputsFirst)
      rw [first.called]
      exact (first.computed_iff_visited k).mp set
    · by_cases set : Computed heap k
      · exact .inl set
      · right
        rw [List.mem_append, first.called, second.called, visitsB]
        rcases (input_pairwise read body k).mp next with rfl | rfl
        · exact .inl (.here set)
        · by_cases seen : ComputeVisits heap a k
          · exact .inl seen
          · exact .inr ⟨.here set, seen⟩

/-- The computation of a node without inputs visits nothing else. -/
theorem Computes.leaf {node : Operation V α} (read : heap[i]? = some node)
    (single : node.body.inputs = []) (idle : ¬Computed heap i) (memo : Memoised env heap i x) :
    Computes env heap i (heap.modify i (Operation.finish x)) [i] := by
  have walk (j : ℕ) : ComputeVisits heap i j ↔ j = i := walk_leaf read single idle j
  refine ⟨fun j visits => ?_, fun j unseen => ?_, fun j => ?_, List.nodup_singleton i, ?_, trivial⟩
  · obtain rfl := (walk j).mp visits
    exact ⟨x, memo, List.getElem?_modify_eq ..⟩
  · rw [walk] at unseen
    exact List.getElem?_modify_ne _ _ (Ne.symm unseen)
  · rw [List.mem_singleton, walk]
  · exact fun k next => absurd next (input_leaf read single k)

/-- The computation of a node whose flag is set does nothing. -/
theorem Computes.cached (set : Computed heap i) : Computes env heap i heap [] := by
  have unseen (j : ℕ) : ¬ComputeVisits heap i j := fun walk => walk.source set
  refine ⟨fun j seen => absurd seen (unseen j), fun _ _ => rfl, fun j => ?_, List.nodup_nil, trivial⟩
  simp only [List.not_mem_nil, unseen]

/-- `compute_graph` on a node of any acyclic graph returns the value of the node, writes the values
of the nodes it walks to, and calls `vtable->compute` once for each of these, inputs first. -/
theorem computeGraphTo_spec (rep : Represents heap i e) (memo : Memoised env heap i x) {fuel : ℕ}
    (enough : e.depth ≤ fuel) (calls : List ℕ) :
    ∃ heap' new, computeGraphTo env fuel ⟨heap, calls⟩ (some i) = .ok (⟨heap', calls ++ new⟩, x) ∧
      Computes env heap i heap' new := by
  induction e generalizing i heap fuel calls x with
  | var | const =>
    obtain ⟨fuel, rfl⟩ := Nat.exists_eq_add_of_le' enough
    obtain ⟨node, read, single⟩ := rep.leaf rfl
    simp only [Expr.depth, computeGraphTo, deref_some read, ok_bind]
    split_ifs with set
    · obtain rfl := memo.of_computed read set
      exact ⟨heap, [], by rw [List.append_nil]; rfl, .cached ⟨node, read, set⟩⟩
    · have idle : ¬Computed heap i := by rwa [computed_iff read]
      refine ⟨_, [i], ?_, .leaf read single idle memo⟩
      simp only [single, List.foldlM_nil]
      exact compute_own memo idle (.refl heap) read (calls ++ [i])
        fun k _ next => absurd next (input_leaf read single k)
  | binary vtable left right ihl ihr =>
    simp only [Expr.depth] at enough
    obtain ⟨fuel, rfl⟩ := Nat.exists_eq_add_of_le' (Nat.le_trans (Nat.le_add_left 1 _) enough)
    cases rep with
    | @pairwise _ a b node _ _ _ read body first second =>
      simp only [computeGraphTo, deref_some read, ok_bind]
      split_ifs with set
      · obtain rfl := memo.of_computed read set
        exact ⟨heap, [], by rw [List.append_nil]; rfl, .cached ⟨node, read, set⟩⟩
      have idle : ¬Computed heap i := by rwa [computed_iff read]
      have inputs := input_pairwise read body
      obtain ⟨y, memoA⟩ := Memoised.exists_of_represents env first
      obtain ⟨z, memoB⟩ := Memoised.exists_of_represents env second
      obtain ⟨heap₁, callsA, ranA, computesA⟩ :=
        ihl first memoA (show left.depth ≤ fuel by omega) calls
      obtain ⟨heap₂, callsB, ranB, computesB⟩ := ihr (computesA.same.represents second)
        (computesA.memoised memoB) (show right.depth ≤ fuel by omega) (calls ++ callsA)
      refine ⟨_, callsA ++ callsB ++ [i], ?_,
        .pairwise read body first second idle computesA computesB memo⟩
      have own := compute_own memo idle (computesA.same.trans computesB.same) read
        (calls ++ callsA ++ callsB ++ [i]) fun k w next below => by
          rcases (inputs k).mp next with rfl | rfl
          · obtain ⟨node, known, set, value⟩ := computesA.output memoA
            have kept := computesB.untouched k fun seen => seen.target ⟨node, known, set⟩
            exact ⟨node, kept.trans known, value.trans (memoA.unique below)⟩
          · obtain ⟨node, known, _, value⟩ := computesB.output (computesA.memoised memoB)
            exact ⟨node, known, value.trans (memoB.unique below)⟩
      rw [body] at own
      simp only [body, Body.inputs, List.foldlM_cons, List.foldlM_nil, ranA, ranB, pure_bind, ok_bind,
        ← List.append_assoc]
      exact own

theorem computeGraph_spec (rep : Represents heap i e) (memo : Memoised env heap i x) :
    ∃ heap' new, computeGraph env heap (some i) = .ok (⟨heap', new⟩, x) ∧
      Computes env heap i heap' new :=
  computeGraphTo_spec rep memo rep.depth_le []

/-- Where no flag below a node is set, its plain value is computed from all nodes below it. -/
theorem computeGraph_clear (env : V → α) (rep : Represents heap i e)
    (idle : ∀ j, Reaches heap i j → ¬Computed heap j) :
    ∃ heap' calls, computeGraph env heap (some i) =
        .ok (⟨heap', calls⟩, e.eval (Interpretation.plain env)) ∧
      Computes env heap i heap' calls ∧ ∀ j, ComputeVisits heap i j ↔ Reaches heap i j := by
  obtain ⟨heap', calls, ran, computes⟩ := computeGraph_spec rep (.plain rep idle)
  refine ⟨heap', calls, ran, computes, fun j => ⟨fun walk => walk.reachable, fun path => ?_⟩⟩
  induction path with
  | refl => exact .here (idle i .refl)
  | tail before next ih => exact ih.snoc next (idle _ (.tail before next))

/-- After a forced reset, `compute_graph` on any finite acyclic heap returns the plain value of the
root. It calls `vtable->compute` once for each node below the root, after its inputs, and neither
call changes another node. -/
theorem reset_then_compute (heap : Heap V α) (valid : ValidHeap heap) (env : V → α) (root : ℕ)
    (inHeap : root < heap.length) :
    ∃ cleared computed calls value, resetGraph heap (some root) 1 = .ok cleared ∧
      computeGraph env cleared (some root) = .ok (⟨computed, calls⟩, value) ∧
      evaluate (Interpretation.plain env) heap (some root) = .ok value ∧
      calls.Nodup ∧ (∀ i, i ∈ calls ↔ Reaches heap root i) ∧
      (∀ before i after, calls = before ++ i :: after → ∀ j, Input heap i j → j ∈ before) ∧
      ∀ i, ¬Reaches heap root i → cleared[i]? = heap[i]? ∧ computed[i]? = heap[i]? := by
  obtain ⟨e, rep⟩ := valid.represents inHeap
  obtain ⟨cleared, reset, clears⟩ := resetGraph_spec 1 rep
  have same : SameBodies heap cleared := clears.sameBodies fun _ _ => rfl
  have reached (j : ℕ) : ResetVisits 1 heap root j ↔ Reaches heap root j :=
    resetVisits_forced one_ne_zero j
  have idle (j : ℕ) (path : Reaches cleared root j) : ¬Computed cleared j := by
    rw [clears.computed, reached, ← same.reaches]
    exact fun kept => kept.2 path
  obtain ⟨computed, calls, ran, computes, visits⟩ :=
    computeGraph_clear env (same.represents rep) idle
  have called (j : ℕ) : j ∈ calls ↔ Reaches heap root j := by
    rw [computes.called, visits, same.reaches]
  refine ⟨cleared, computed, calls, _, reset, ran, evaluate_of_represents _ rep, computes.once,
    called, ?_, fun i far => ?_⟩
  · intro before i after parts j next
    have member : i ∈ calls := by rw [parts]; simp
    have path : Reaches cleared root j :=
      .tail ((visits i).mp ((computes.called i).mp member)) (same.input ▸ next)
    exact ((parts ▸ computes.inputsFirst).successor (same.input ▸ next)).resolve_left (idle j path)
  · have untouched := (clears i).2 fun seen => far ((reached i).mp seen)
    refine ⟨untouched, (computes.untouched i fun seen => far ?_).trans untouched⟩
    exact (called i).mp ((computes.called i).mpr seen)

/-- A variable and its square, both with a set flag and a stale output. -/
theorem reset_then_compute_square :
    ∃ cleared computed calls value,
      resetGraph [⟨.placeholder (), 7, 1⟩, ⟨.pairwise .mul (some 0) (some 0), 9, -1⟩] (some 1) 1 =
        .ok cleared ∧
      computeGraph (fun _ => 5) cleared (some 1) = .ok (⟨computed, calls⟩, value) ∧
      value = (25 : ℤ) ∧ calls.Nodup ∧ computed[0]?.map Operation.outputValue = some 5 := by
  have variableValid := (validHeap_nil (V := Unit) (α := ℤ)).append ⟨.placeholder (), 7, 1⟩ (by simp [Body.inputs])
  have valid := variableValid.append ⟨.pairwise .mul (some 0) (some 0), 9, -1⟩ (by simp [Body.inputs])
  obtain ⟨cleared, computed, calls, value, reset, ran, plain, once, _⟩ :=
    reset_then_compute _ valid (fun _ => 5) 1 (by decide)
  refine ⟨cleared, computed, calls, value, reset, ran, ?_, once, ?_⟩
  · cases plain
    rfl
  · cases reset
    cases ran
    rfl

end Hseos.Nn
