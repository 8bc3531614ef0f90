import Hseos.Nn.Base

/-! # Resetting and computing graphs

`reset_graph` and `compute_graph` recurse along the inputs of a node; neither changes a body, so
both are given the number of nodes as a bound on their depth. Each visits the nodes of a walk: a
reset goes through nodes whose flag is set (or through all, if forced), a computation through nodes
whose flag is clear. `calls` is the history of the calls of `vtable->compute`.
-/

namespace Hseos.Nn

variable {V α : Type}

/-- `reset_graph`, to a bounded depth. -/
def resetGraphTo : ℕ → Heap V α → Ptr → ℤ → Except Fault (Heap V α)
  | 0, _, _, _ => .error .outOfFuel
  | fuel + 1, heap, op, force => do
      let node ← deref heap op
      if node.outputComputed = 0 ∧ force = 0 then return heap
      let heap ← node.body.inputs.foldlM (fun heap input => resetGraphTo fuel heap input force) heap
      modifyAt heap op fun node => { node with outputComputed := 0 }

def resetGraph (heap : Heap V α) (op : Ptr) (force : ℤ) : Except Fault (Heap V α) :=
  resetGraphTo heap.length heap op force

section Compute

variable [Add α] [Sub α] [Mul α] [Div α]

/-- The four compute functions of `pairwise.c`: read both inputs' outputs, write the own output. -/
def computePairwise (f : α → α → α) (heap : Heap V α) (op inputs0 inputs1 : Ptr) :
    Except Fault (Heap V α) := do
  let a ← deref heap inputs0
  let b ← deref heap inputs1
  modifyAt heap op fun node => { node with outputValue := f a.outputValue b.outputValue }

def computeAdd : Heap V α → Ptr → Ptr → Ptr → Except Fault (Heap V α) := computePairwise (· + ·)
def computeSub : Heap V α → Ptr → Ptr → Ptr → Except Fault (Heap V α) := computePairwise (· - ·)
def computeMul : Heap V α → Ptr → Ptr → Ptr → Except Fault (Heap V α) := computePairwise (· * ·)
def computeDiv : Heap V α → Ptr → Ptr → Ptr → Except Fault (Heap V α) := computePairwise (· / ·)

/-- `op->output_value = *p->reference`. -/
def computePlaceholder (env : V → α) (heap : Heap V α) (op : Ptr) (reference : V) :
    Except Fault (Heap V α) :=
  modifyAt heap op fun node => { node with outputValue := env reference }

/-- `op->output_value = p->value`. -/
def computeConst (heap : Heap V α) (op : Ptr) (value : α) : Except Fault (Heap V α) :=
  modifyAt heap op fun node => { node with outputValue := value }

/-- `op->vtable->compute(op)`. -/
def vtableCompute (env : V → α) (heap : Heap V α) (op : Ptr) : Body V α → Except Fault (Heap V α)
  | .placeholder reference => computePlaceholder env heap op reference
  | .const value => computeConst heap op value
  | .pairwise .add inputs0 inputs1 => computeAdd heap op inputs0 inputs1
  | .pairwise .sub inputs0 inputs1 => computeSub heap op inputs0 inputs1
  | .pairwise .mul inputs0 inputs1 => computeMul heap op inputs0 inputs1
  | .pairwise .div inputs0 inputs1 => computeDiv heap op inputs0 inputs1

/-- The heap and the nodes whose `vtable->compute` was called, in order. -/
structure Computation (V α : Type) where
  heap : Heap V α
  calls : List ℕ
deriving DecidableEq

/-- `compute_graph`, to a bounded depth. -/
def computeGraphTo (env : V → α) : ℕ → Computation V α → Ptr → Except Fault (Computation V α × α)
  | 0, _, _ => .error .outOfFuel
  | fuel + 1, s, op => do
      let node ← deref s.heap op
      if node.outputComputed ≠ 0 then return (s, node.outputValue)
      let s ← node.body.inputs.foldlM
        (fun s input => do
          let (s, _) ← computeGraphTo env fuel s input
          return s) s
      let heap ← modifyAt s.heap op fun node => { node with outputComputed := 1 }
      let heap ← vtableCompute env heap op node.body
      let node ← deref heap op
      return (⟨heap, s.calls ++ op.toList⟩, node.outputValue)

def computeGraph (env : V → α) (heap : Heap V α) (op : Ptr) : Except Fault (Computation V α × α) :=
  computeGraphTo env heap.length ⟨heap, []⟩ op

end Compute

section Updates

/-- The visited nodes are changed by `f`, all others are as they were. -/
def Updates (heap heap' : Heap V α) (visited : ℕ → Prop) (f : ℕ → Operation V α → Operation V α) :
    Prop :=
  ∀ j, (visited j → heap'[j]? = heap[j]?.map (f j)) ∧ (¬visited j → heap'[j]? = heap[j]?)

/-- No body differs; the two heaps have the same graph. -/
def SameBodies (heap heap' : Heap V α) : Prop :=
  ∀ j : ℕ, heap'[j]?.map Operation.body = heap[j]?.map Operation.body

variable {heap heap' heap'' : Heap V α} {visited visited' : ℕ → Prop}
  {f : ℕ → Operation V α → Operation V α}

namespace SameBodies

theorem refl (heap : Heap V α) : SameBodies heap heap := fun _ => rfl

theorem symm (same : SameBodies heap heap') : SameBodies heap' heap := fun j => (same j).symm

theorem trans (first : SameBodies heap heap') (second : SameBodies heap' heap'') :
    SameBodies heap heap'' := fun j => (second j).trans (first j)

theorem node (same : SameBodies heap heap') {i : ℕ} {node : Operation V α}
    (read : heap[i]? = some node) : ∃ node', heap'[i]? = some node' ∧ node'.body = node.body := by
  have equal := same i
  rw [read, Option.map_some] at equal
  obtain ⟨node', read', body⟩ := Option.map_eq_some_iff.mp equal
  exact ⟨node', read', body⟩

theorem input (same : SameBodies heap heap') : Input heap' = Input heap := by
  have half {first second : Heap V α} (same : SameBodies first second) {i j : ℕ}
      (next : Input first i j) : Input second i j := by
    obtain ⟨node, read, member⟩ := next
    obtain ⟨node', read', body⟩ := same.node read
    exact ⟨node', read', body ▸ member⟩
  funext i j
  exact propext ⟨half same.symm, half same⟩

theorem reaches (same : SameBodies heap heap') : Reaches heap' = Reaches heap := by
  rw [Reaches, Reaches, same.input]

theorem represents (same : SameBodies heap heap') {i : ℕ} {e : Expr V α}
    (rep : Represents heap i e) : Represents heap' i e := by
  induction rep with
  | placeholder read body =>
    obtain ⟨_, read', body'⟩ := same.node read
    exact .placeholder read' (body'.trans body)
  | const read body =>
    obtain ⟨_, read', body'⟩ := same.node read
    exact .const read' (body'.trans body)
  | pairwise read body _ _ ihl ihr =>
    obtain ⟨_, read', body'⟩ := same.node read
    exact .pairwise read' (body'.trans body) ihl ihr

theorem length_eq (same : SameBodies heap heap') : heap'.length = heap.length := by
  have half {first second : Heap V α} (same : SameBodies first second) :
      first.length ≤ second.length := by
    by_contra short
    have read : first[second.length]? = some first[second.length] :=
      List.getElem?_eq_getElem (by omega)
    obtain ⟨_, read', _⟩ := same.node read
    rw [List.getElem?_eq_none le_rfl] at read'
    cases read'
  exact le_antisymm (half same.symm) (half same)

theorem valid (same : SameBodies heap heap') (valid : ValidHeap heap) : ValidHeap heap' := by
  refine ⟨fun i node read p member => ?_, by rw [same.input]; exact valid.acyclic⟩
  obtain ⟨node', read', body⟩ := same.symm.node read
  rw [same.length_eq]
  exact valid.inputs i node' read' p (body ▸ member)

end SameBodies

theorem Updates.sameBodies (updates : Updates heap heap' visited f)
    (kept : ∀ j node, (f j node).body = node.body) : SameBodies heap heap' := by
  intro j
  by_cases seen : visited j
  · rw [(updates j).1 seen, Option.map_map]
    congr 1
    funext node
    exact kept j node
  · rw [(updates j).2 seen]

theorem Updates.congr (updates : Updates heap heap' visited f)
    (same : ∀ j, visited j ↔ visited' j) : Updates heap heap' visited' f :=
  fun j => ⟨fun seen => (updates j).1 ((same j).mpr seen),
    fun unseen => (updates j).2 fun seen => unseen ((same j).mp seen)⟩

/-- Nodes visited twice are changed once, if the change only depends on the body. -/
theorem Updates.trans (first : Updates heap heap' visited f) (second : Updates heap' heap'' visited' f)
    (again : ∀ j node, f j (f j node) = f j node) :
    Updates heap heap'' (fun j => visited j ∨ visited' j) f := by
  intro j
  by_cases before : visited j <;> by_cases after : visited' j
  · refine ⟨fun _ => ?_, fun unseen => absurd (.inl before) unseen⟩
    rw [(second j).1 after, (first j).1 before, Option.map_map]
    congr 1
    funext node
    exact again j node
  · exact ⟨fun _ => by rw [(second j).2 after, (first j).1 before],
      fun unseen => absurd (.inl before) unseen⟩
  · exact ⟨fun _ => by rw [(second j).1 after, (first j).2 before],
      fun unseen => absurd (.inr after) unseen⟩
  · exact ⟨fun seen => (seen.elim before after).elim,
      fun _ => by rw [(second j).2 after, (first j).2 before]⟩

theorem Updates.none (unseen : ∀ j, ¬visited j) : Updates heap heap visited f :=
  fun j => ⟨fun seen => absurd seen (unseen j), fun _ => rfl⟩

theorem Updates.modify (i : ℕ) (g : Operation V α → Operation V α)
    (own : ∀ node, heap[i]? = some node → f i node = g node) :
    Updates heap (heap.modify i g) (· = i) f := by
  intro j
  constructor
  · rintro rfl
    rw [List.getElem?_modify_eq]
    cases read : heap[j]? with
    | none => rfl
    | some node => exact congrArg some (own node read).symm
  · intro other
    rw [List.getElem?_modify_ne _ _ (Ne.symm other)]

end Updates

end Hseos.Nn
