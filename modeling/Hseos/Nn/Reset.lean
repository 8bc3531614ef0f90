import Hseos.Nn.Graph

/-! # What a reset clears

A reset of a node clears exactly the flags of the nodes it walks to. If it is forced, these are all
nodes below; otherwise it turns back at a node whose flag is clear. The second input is reset in the
heap the first one left, so a node below both is reached once only: the walk lemma of the library
says that nothing is missed by that.
-/

namespace Hseos.Nn

variable {V α : Type} {heap heap' : Heap V α} {i : ℕ} {e : Expr V α}

/-- The node's flag is set. -/
def Computed (heap : Heap V α) (j : ℕ) : Prop :=
  ∃ node, heap[j]? = some node ∧ node.outputComputed ≠ 0

/-- A reset goes on at this node. -/
def ResetLive (force : ℤ) (heap : Heap V α) (j : ℕ) : Prop := force ≠ 0 ∨ Computed heap j

/-- The node with its flag clear. -/
def Operation.clear (node : Operation V α) : Operation V α := { node with outputComputed := 0 }

/-- The nodes a reset of `i` visits. -/
def ResetVisits (force : ℤ) (heap : Heap V α) (i : ℕ) : ℕ → Prop :=
  Walk (Input heap) (ResetLive force heap) i

theorem computed_iff {node : Operation V α} (read : heap[i]? = some node) :
    Computed heap i ↔ node.outputComputed ≠ 0 := by
  simp [Computed, read]

/-- The inputs of a pairwise node. -/
theorem input_pairwise {node : Operation V α} {vtable : ArithOp} {a b : ℕ}
    (read : heap[i]? = some node) (body : node.body = .pairwise vtable (some a) (some b)) (k : ℕ) :
    Input heap i k ↔ k = a ∨ k = b := by
  simp [Input, read, body, Body.inputs]

theorem input_leaf {node : Operation V α} (read : heap[i]? = some node)
    (leaf : node.body.inputs = []) (k : ℕ) : ¬Input heap i k := by
  simp [Input, read, leaf]

/-- A walk from a live pairwise node stays there or goes on from one of the inputs. -/
theorem walk_pairwise {node : Operation V α} {vtable : ArithOp} {a b : ℕ} {live : ℕ → Prop}
    (read : heap[i]? = some node) (body : node.body = .pairwise vtable (some a) (some b))
    (alive : live i) (k : ℕ) : Walk (Input heap) live i k ↔
      (Walk (Input heap) live a k ∨ Walk (Input heap) live b k) ∨ k = i := by
  rw [Walk.iff_edge, and_iff_right alive, or_comm]
  simp only [input_pairwise read body, or_and_right, exists_or, exists_eq_left]

theorem walk_leaf {node : Operation V α} {live : ℕ → Prop} (read : heap[i]? = some node)
    (leaf : node.body.inputs = []) (alive : live i) (k : ℕ) :
    Walk (Input heap) live i k ↔ k = i := by
  rw [Walk.iff_edge, and_iff_right alive]
  simp only [input_leaf read leaf, false_and, exists_false, or_false]

/-- After a reset the flags that are set are those that were set and not visited. -/
theorem Updates.computed {visited : ℕ → Prop}
    (updates : Updates heap heap' visited fun _ => Operation.clear) (j : ℕ) :
    Computed heap' j ↔ Computed heap j ∧ ¬visited j := by
  by_cases seen : visited j
  · simp [Computed, (updates j).1 seen, seen, Operation.clear]
  · simp [Computed, (updates j).2 seen, seen]

/-- Together the resets of two nodes, one after the other, visit what each visits alone. -/
theorem resetVisits_second {force : ℤ} {a b : ℕ}
    (first : Updates heap heap' (ResetVisits force heap a) fun _ => Operation.clear) (j : ℕ) :
    (ResetVisits force heap a j ∨ ResetVisits force heap' b j) ↔
      (ResetVisits force heap a j ∨ ResetVisits force heap b j) := by
  have same : SameBodies heap heap' := first.sameBodies fun _ _ => rfl
  by_cases forced : force = 0
  · subst forced
    have dead (v : ℕ) : ResetLive 0 heap' v ↔ ResetLive 0 heap v ∧ ¬ResetVisits 0 heap a v := by
      simp only [ResetLive, ne_eq, not_true_eq_false, false_or]
      exact first.computed v
    have second : ResetVisits 0 heap' b j ↔ ResetVisits 0 heap b j ∧ ¬ResetVisits 0 heap a j := by
      rw [ResetVisits, same.input]
      exact walk_after_iff dead
    tauto
  · have everywhere : ResetLive force heap' = ResetLive force heap := by
      funext v
      simp [ResetLive, forced]
    rw [ResetVisits, ResetVisits, ResetVisits, same.input, everywhere]

/-- A reset of a node of a finite acyclic graph returns, and clears the nodes it visits. -/
theorem resetGraphTo_spec (force : ℤ) (rep : Represents heap i e) {fuel : ℕ}
    (enough : e.depth ≤ fuel) :
    ∃ heap', resetGraphTo fuel heap (some i) force = .ok heap' ∧
      Updates heap heap' (ResetVisits force heap i) fun _ => Operation.clear := by
  induction e generalizing i heap fuel with
  | var | const =>
    obtain ⟨fuel, rfl⟩ := Nat.exists_eq_add_of_le' enough
    obtain ⟨node, read, leaf⟩ := rep.leaf rfl
    simp only [Expr.depth, resetGraphTo, deref_some read, ok_bind]
    split_ifs with idle
    · refine ⟨heap, rfl, Updates.none fun j walk => ?_⟩
      exact walk.source.elim (· idle.2) fun set => (computed_iff read).mp set idle.1
    · have alive : ResetLive force heap i := by
        rw [ResetLive, computed_iff read]
        tauto
      simp only [leaf, List.foldlM_nil]
      refine ⟨heap.modify i Operation.clear, modifyAt_some read _, ?_⟩
      have own : Updates heap (heap.modify i Operation.clear) (· = i) fun _ => Operation.clear :=
        Updates.modify i _ fun _ _ => rfl
      exact own.congr fun j => (walk_leaf read leaf alive j).symm
  | binary vtable left right ihl ihr =>
    simp only [Expr.depth] at enough
    obtain ⟨fuel, rfl⟩ := Nat.exists_eq_add_of_le' (Nat.le_trans (Nat.le_add_left 1 _) enough)
    cases rep with
    | @pairwise _ a b node _ _ _ read body first second =>
      simp only [resetGraphTo, deref_some read, ok_bind]
      split_ifs with idle
      · refine ⟨heap, rfl, Updates.none fun j walk => ?_⟩
        exact walk.source.elim (· idle.2) fun set => (computed_iff read).mp set idle.1
      have alive : ResetLive force heap i := by
        rw [ResetLive, computed_iff read]
        tauto
      obtain ⟨heap₁, resetLeft, visitsLeft⟩ := ihl first (show left.depth ≤ fuel by omega)
      have same₁ : SameBodies heap heap₁ := visitsLeft.sameBodies fun _ _ => rfl
      obtain ⟨heap₂, resetRight, visitsRight⟩ :=
        ihr (same₁.represents second) (show right.depth ≤ fuel by omega)
      have both := (visitsLeft.trans visitsRight fun _ _ => rfl).congr
        (resetVisits_second visitsLeft)
      obtain ⟨node₂, read₂, _⟩ := (both.sameBodies fun _ _ => rfl).node read
      refine ⟨heap₂.modify i Operation.clear, ?_, ?_⟩
      · simp only [body, Body.inputs, List.foldlM_cons, List.foldlM_nil, resetLeft, resetRight, ok_bind]
        exact modifyAt_some read₂ _
      · have own : Updates heap₂ (heap₂.modify i Operation.clear) (· = i) fun _ => Operation.clear :=
          Updates.modify i _ fun _ _ => rfl
        exact (both.trans own fun _ _ => rfl).congr fun j => (walk_pairwise read body alive j).symm

theorem resetGraph_spec (force : ℤ) (rep : Represents heap i e) :
    ∃ heap', resetGraph heap (some i) force = .ok heap' ∧
      Updates heap heap' (ResetVisits force heap i) fun _ => Operation.clear :=
  resetGraphTo_spec force rep rep.depth_le

/-- A forced reset visits every node below. -/
theorem resetVisits_forced {force : ℤ} (forced : force ≠ 0) (j : ℕ) :
    ResetVisits force heap i j ↔ Reaches heap i j := by
  have everywhere : ResetLive force heap = fun _ => True := by
    funext v
    simp [ResetLive, forced]
  rw [ResetVisits, everywhere, Walk.iff_reflTransGen, Reaches]

/-- A reset that is not forced visits the nodes on paths of set flags. -/
theorem resetVisits_unforced (j : ℕ) :
    ResetVisits 0 heap i j ↔ Walk (Input heap) (Computed heap) i j := by
  have only : ResetLive 0 heap = Computed heap := by
    funext v
    simp [ResetLive]
  rw [ResetVisits, only]

/-- On every finite acyclic heap, whatever its flags, a reset that is not forced returns, clears the flags
of the nodes on paths of set flags, and leaves all other fields and nodes as they were. -/
theorem reset_graph_clears (valid : ValidHeap heap) (bound : i < heap.length) :
    ∃ heap', resetGraph heap (some i) 0 = .ok heap' ∧ heap'.length = heap.length ∧
      ∀ j node, heap[j]? = some node →
        (Walk (Input heap) (Computed heap) i j → heap'[j]? = some { node with outputComputed := 0 }) ∧
        (¬Walk (Input heap) (Computed heap) i j → heap'[j]? = some node) := by
  obtain ⟨e, rep⟩ := valid.represents bound
  obtain ⟨heap', reset, updates⟩ := resetGraph_spec 0 rep
  have same : SameBodies heap heap' := updates.sameBodies fun _ _ => rfl
  refine ⟨heap', reset, same.length_eq, ?_⟩
  intro j node read
  rw [← resetVisits_unforced]
  constructor
  · intro visited
    rw [(updates j).1 visited, read]
    rfl
  · intro unvisited
    rw [(updates j).2 unvisited, read]

/-- A sum of a computed constant with itself. -/
def doubledConst : Heap Unit ℤ := [⟨.const 2, 2, 1⟩, ⟨.pairwise .add (some 0) (some 0), 4, 1⟩]

theorem reset_graph_clears_doubled :
    ∃ heap', resetGraph doubledConst (some 1) 0 = .ok heap' ∧
      heap'[0]? = some ⟨.const 2, 2, 0⟩ := by
  have constant : ValidHeap [(⟨.const 2, 2, 1⟩ : Operation Unit ℤ)] :=
    validHeap_nil.append _ (by simp [Body.inputs])
  have valid : ValidHeap doubledConst := constant.append _ (by simp [Body.inputs])
  obtain ⟨heap', reset, -, changes⟩ := reset_graph_clears valid (show 1 < doubledConst.length by decide)
  have sum : Computed doubledConst 1 := ⟨_, rfl, by decide⟩
  have leaf : Computed doubledConst 0 := ⟨_, rfl, by decide⟩
  have walk : Walk (Input doubledConst) (Computed doubledConst) 1 0 :=
    .step sum ⟨_, rfl, by simp [Body.inputs]⟩ (.here leaf)
  exact ⟨heap', reset, (changes 0 _ rfl).1 walk⟩

end Hseos.Nn
