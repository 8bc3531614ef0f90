import Hseos.Lib.Expression
import Hseos.Lib.Walk
import Hseos.Lib.Word

/-! # Heaps of operation nodes

A node is one of the structs that begin with a `struct operation`; its vtable and its own fields
are its body, and `output_value` and `output_computed` are the only fields that change after
construction. Pointers are indices into the heap, so nodes may be shared freely. A node represents
the expression tree that its pointers unfold to; evaluation without memoisation is the value of
that tree, and depends on bodies only.
-/

namespace Hseos.Nn

/-- `operation_t*`; `none` is `NULL`. -/
abbrev Ptr := Option ℕ

/-- What the vtable and the fields after `op` say: `op_placeholder_t`, `op_const_t` or
`pairwise_op_t`, the last with one of four vtables. -/
inductive Body (V α : Type) where
  | placeholder (reference : V)
  | const (value : α)
  | pairwise (vtable : ArithOp) (inputs0 inputs1 : Ptr)
deriving DecidableEq, Repr

/-- `struct operation` together with its body. -/
structure Operation (V α : Type) where
  body : Body V α
  outputValue : α
  outputComputed : ℤ
deriving DecidableEq, Repr

/-- `op->inputs[0 .. op->inputs_count)`. -/
def Body.inputs {V α : Type} : Body V α → List Ptr
  | .placeholder _ | .const _ => []
  | .pairwise _ inputs0 inputs1 => [inputs0, inputs1]

abbrev Heap (V α : Type) := List (Operation V α)

variable {V α β : Type} {heap heap' : Heap V α}

/-- `*op`. -/
def deref (heap : Heap V α) : Ptr → Except Fault (Operation V α)
  | none => .error .nullPointer
  | some i =>
      match heap[i]? with
      | none => .error .outOfBounds
      | some node => .ok node

/-- Assignments to fields of `*op`. -/
def modifyAt (heap : Heap V α) (op : Ptr) (f : Operation V α → Operation V α) :
    Except Fault (Heap V α) :=
  match op with
  | none => .error .nullPointer
  | some i => if i < heap.length then .ok (heap.modify i f) else .error .outOfBounds

/-- Node `j` is an input of node `i`. -/
def Input (heap : Heap V α) (i j : ℕ) : Prop :=
  ∃ node, heap[i]? = some node ∧ some j ∈ node.body.inputs

/-- All nodes the inputs lead to. -/
def Reaches (heap : Heap V α) : ℕ → ℕ → Prop := Relation.ReflTransGen (Input heap)

/-- A finite acyclic heap: every input is a node and no node is below itself. -/
structure ValidHeap (heap : Heap V α) : Prop where
  inputs : ∀ (i : ℕ) (node : Operation V α), heap[i]? = some node → ∀ p ∈ node.body.inputs, ∃ j < heap.length, p = some j
  acyclic : ∀ i, ¬Relation.TransGen (Input heap) i i

/-- The expression tree the pointers from a node unfold to. -/
inductive Represents (heap : Heap V α) : ℕ → Expr V α → Prop
  | placeholder {i : ℕ} {node : Operation V α} {reference : V} (read : heap[i]? = some node)
      (body : node.body = .placeholder reference) : Represents heap i (.var reference)
  | const {i : ℕ} {node : Operation V α} {value : α} (read : heap[i]? = some node)
      (body : node.body = .const value) : Represents heap i (.const value)
  | pairwise {i a b : ℕ} {node : Operation V α} {vtable : ArithOp} {left right : Expr V α}
      (read : heap[i]? = some node) (body : node.body = .pairwise vtable (some a) (some b))
      (first : Represents heap a left) (second : Represents heap b right) :
      Represents heap i (.binary vtable left right)

theorem deref_some {i : ℕ} {node : Operation V α} (read : heap[i]? = some node) :
    deref heap (some i) = .ok node := by
  simp only [deref, read]

theorem modifyAt_some {i : ℕ} {node : Operation V α} (read : heap[i]? = some node)
    (f : Operation V α → Operation V α) : modifyAt heap (some i) f = .ok (heap.modify i f) :=
  if_pos (List.getElem?_eq_some_iff.mp read).1

namespace Represents

variable {i j : ℕ} {e e' : Expr V α}

theorem node (rep : Represents heap i e) : ∃ node, heap[i]? = some node := by
  cases rep <;> exact ⟨_, ‹_›⟩

theorem lt_length (rep : Represents heap i e) : i < heap.length := by
  obtain ⟨_, read⟩ := rep.node
  exact (List.getElem?_eq_some_iff.mp read).1

/-- A tree of a single node belongs to a node without inputs. -/
theorem leaf (rep : Represents heap i e) (single : e.depth = 1) :
    ∃ node, heap[i]? = some node ∧ node.body.inputs = [] := by
  cases rep with
  | placeholder read body | const read body => exact ⟨_, read, by rw [body]; rfl⟩
  | @pairwise _ a b node _ left right =>
    have := left.depth_pos
    simp only [Expr.depth] at single
    omega

theorem unique (first : Represents heap i e) (second : Represents heap i e') : e = e' := by
  induction first generalizing e' with
  | placeholder read body | const read body =>
    cases second with
    | placeholder read' body' | const read' body' | pairwise read' body' =>
      have same := Option.some.inj (read.symm.trans read')
      subst same
      cases body.symm.trans body' <;> rfl
  | pairwise read body _ _ ihl ihr =>
    cases second with
    | placeholder read' body' | const read' body' =>
      have same := Option.some.inj (read.symm.trans read')
      subst same
      cases body.symm.trans body'
    | pairwise read' body' left right =>
      have same := Option.some.inj (read.symm.trans read')
      subst same
      cases body.symm.trans body'
      rw [ihl left, ihr right]

/-- An input represents a smaller expression. -/
theorem input (rep : Represents heap i e) (next : Input heap i j) :
    ∃ below, Represents heap j below ∧ below.depth < e.depth := by
  obtain ⟨node, read, member⟩ := next
  cases rep with
  | placeholder read' body | const read' body =>
    obtain rfl := Option.some.inj (read.symm.trans read')
    simp [body, Body.inputs] at member
  | pairwise read' body first second =>
    obtain rfl := Option.some.inj (read.symm.trans read')
    simp only [body, Body.inputs, List.mem_cons, Option.some.injEq, List.not_mem_nil, or_false] at member
    rcases member with rfl | rfl
    · exact ⟨_, first, by simp only [Expr.depth]; omega⟩
    · exact ⟨_, second, by simp only [Expr.depth]; omega⟩

theorem reaches (rep : Represents heap i e) (path : Reaches heap i j) :
    ∃ below, Represents heap j below ∧ below.depth ≤ e.depth := by
  induction path with
  | refl => exact ⟨e, rep, le_rfl⟩
  | tail _ next ih =>
    obtain ⟨middle, represented, small⟩ := ih
    obtain ⟨below, last, smaller⟩ := represented.input next
    exact ⟨below, last, by omega⟩

/-- No input leads back to its node. -/
theorem not_back (rep : Represents heap i e) (next : Input heap i j) : ¬Reaches heap j i := by
  intro back
  obtain ⟨below, represented, smaller⟩ := rep.input next
  obtain ⟨again, same, small⟩ := represented.reaches back
  rw [rep.unique same] at smaller
  omega

/-- The tree is no higher than the number of nodes it is made of. -/
theorem depth_le_card (rep : Represents heap i e) (nodes : Finset ℕ)
    (inside : ∀ j, Reaches heap i j → j ∈ nodes) : e.depth ≤ nodes.card := by
  induction rep generalizing nodes with
  | placeholder | const => exact Finset.card_pos.mpr ⟨_, inside _ .refl⟩
  | @pairwise i a b node vtable left right read body first second ihl ihr =>
    have whole := Represents.pairwise read body first second
    have own : i ∈ nodes := inside i .refl
    have below (c : ℕ) (next : Input heap i c) : ∀ j, Reaches heap c j → j ∈ nodes.erase i := by
      intro j path
      refine Finset.mem_erase.mpr ⟨?_, inside j (.head next path)⟩
      rintro rfl
      exact whole.not_back next path
    have left := ihl (nodes.erase i) (below a ⟨node, read, by simp [body, Body.inputs]⟩)
    have right := ihr (nodes.erase i) (below b ⟨node, read, by simp [body, Body.inputs]⟩)
    have card := Finset.card_erase_add_one own
    simp only [Expr.depth]
    omega

theorem depth_le (rep : Represents heap i e) : e.depth ≤ heap.length := by
  have bound := rep.depth_le_card (Finset.range heap.length) fun j path => by
    obtain ⟨below, represented, _⟩ := rep.reaches path
    exact Finset.mem_range.mpr represented.lt_length
  rwa [Finset.card_range] at bound

end Represents

/-- Every node of a finite acyclic heap unfolds to a finite tree. -/
theorem ValidHeap.represents (valid : ValidHeap heap) {i : ℕ} (bound : i < heap.length) :
    ∃ e, Represents heap i e := by
  have inside : ∀ i j, Input heap i j →
      i ∈ (Finset.range heap.length : Set ℕ) ∧ j ∈ (Finset.range heap.length : Set ℕ) := by
    rintro i j ⟨node, read, member⟩
    obtain ⟨k, below, equal⟩ := valid.inputs i node read _ member
    obtain rfl := Option.some.inj equal
    exact ⟨by simpa using (List.getElem?_eq_some_iff.mp read).1, by simpa using below⟩
  have founded := wellFounded_of_acyclic (Finset.finite_toSet _) inside valid.acyclic
  induction i using founded.induction with
  | _ i ih =>
    have read : heap[i]? = some heap[i] := List.getElem?_eq_getElem bound
    have input (p : Ptr) (member : p ∈ heap[i].body.inputs) :
        ∃ j e, p = some j ∧ Represents heap j e := by
      obtain ⟨j, below, rfl⟩ := valid.inputs i _ read p member
      obtain ⟨e, represented⟩ := ih j ⟨_, read, member⟩ below
      exact ⟨j, e, rfl, represented⟩
    cases body : heap[i].body with
    | placeholder reference => exact ⟨_, .placeholder read body⟩
    | const value => exact ⟨_, .const read body⟩
    | pairwise vtable p q =>
      obtain ⟨a, left, rfl, first⟩ := input p (by simp [body, Body.inputs])
      obtain ⟨b, right, rfl, second⟩ := input q (by simp [body, Body.inputs])
      exact ⟨_, .pairwise read body first second⟩

theorem validHeap_nil : ValidHeap ([] : Heap V α) := by
  refine ⟨fun i node read => by simp at read, fun i cycle => ?_⟩
  obtain ⟨j, ⟨node, read, _⟩, _⟩ := Relation.TransGen.head'_iff.mp cycle
  simp at read

/-- A constructor keeps the heap acyclic: its node has older inputs and is nobody's input yet. -/
theorem ValidHeap.append (valid : ValidHeap heap) (node : Operation V α)
    (inputs : ∀ p ∈ node.body.inputs, ∃ j < heap.length, p = some j) : ValidHeap (heap ++ [node]) := by
  have old {i : ℕ} (bound : i < heap.length) : (heap ++ [node])[i]? = heap[i]? :=
    List.getElem?_append_left bound
  have target {i j : ℕ} (next : Input (heap ++ [node]) i j) : j < heap.length := by
    obtain ⟨other, read, member⟩ := next
    rcases Nat.lt_or_ge i heap.length with bound | new
    · obtain ⟨k, below, equal⟩ := valid.inputs i other (old bound ▸ read) _ member
      exact Option.some.inj equal ▸ below
    · have last : other = node := by
        obtain ⟨inside, rfl⟩ := List.getElem?_eq_some_iff.mp read
        rw [List.getElem_append_right new]
        simp
      obtain ⟨k, below, equal⟩ := inputs _ (last ▸ member)
      exact Option.some.inj equal ▸ below
  refine ⟨fun i other read p member => ?_, fun i cycle => ?_⟩
  · rcases Nat.lt_or_ge i heap.length with bound | new
    · obtain ⟨k, below, rfl⟩ := valid.inputs i other (old bound ▸ read) p member
      exact ⟨k, by rw [List.length_append]; omega, rfl⟩
    · have last : other = node := by
        obtain ⟨inside, rfl⟩ := List.getElem?_eq_some_iff.mp read
        rw [List.getElem_append_right new]
        simp
      obtain ⟨k, below, rfl⟩ := inputs p (last ▸ member)
      exact ⟨k, by rw [List.length_append]; omega, rfl⟩
  · have restrict {j k : ℕ} (bound : j < heap.length) (path : Relation.TransGen (Input (heap ++ [node])) j k) :
        Relation.TransGen (Input heap) j k := by
      have edge {a b : ℕ} (inside : a < heap.length) (next : Input (heap ++ [node]) a b) : Input heap a b := by
        obtain ⟨other, read, member⟩ := next
        exact ⟨other, old inside ▸ read, member⟩
      induction path with
      | single next => exact .single (edge bound next)
      | tail before next ih =>
        obtain ⟨_, _, last⟩ := Relation.TransGen.tail'_iff.mp before
        exact ih.tail (edge (target last) next)
    obtain ⟨_, _, last⟩ := Relation.TransGen.tail'_iff.mp cycle
    exact valid.acyclic i (restrict (target last) cycle)

/-- Plain recursive evaluation, to a bounded depth. -/
def evaluateTo (I : Interpretation V α β) (heap : Heap V α) : ℕ → Ptr → Except Fault β
  | 0, _ => .error .outOfFuel
  | fuel + 1, op => do
      let node ← deref heap op
      match node.body with
      | .placeholder reference => return I.var reference
      | .const value => return I.const value
      | .pairwise vtable inputs0 inputs1 =>
          let a ← evaluateTo I heap fuel inputs0
          let b ← evaluateTo I heap fuel inputs1
          return I.apply vtable a b

/-- Plain recursive evaluation; no acyclic graph is deeper than it has nodes. -/
def evaluate (I : Interpretation V α β) (heap : Heap V α) (op : Ptr) : Except Fault β :=
  evaluateTo I heap heap.length op

theorem evaluateTo_of_represents (I : Interpretation V α β) {i : ℕ} {e : Expr V α}
    (rep : Represents heap i e) {fuel : ℕ} (enough : e.depth ≤ fuel) :
    evaluateTo I heap fuel (some i) = .ok (e.eval I) := by
  induction rep generalizing fuel with
  | placeholder read body | const read body =>
    obtain ⟨fuel, rfl⟩ := Nat.exists_eq_add_of_le' enough
    simp only [Expr.depth, evaluateTo, deref_some read, ok_bind, body]
    rfl
  | @pairwise i a b node vtable left right read body _ _ ihl ihr =>
    simp only [Expr.depth] at enough
    obtain ⟨fuel, rfl⟩ := Nat.exists_eq_add_of_le' (Nat.le_trans (Nat.le_add_left 1 _) enough)
    have first := ihl (show left.depth ≤ fuel by omega)
    have second := ihr (show right.depth ≤ fuel by omega)
    simp only [evaluateTo, deref_some read, ok_bind, body, first, second]
    rfl

theorem evaluate_of_represents (I : Interpretation V α β) {i : ℕ} {e : Expr V α}
    (rep : Represents heap i e) : evaluate I heap (some i) = .ok (e.eval I) :=
  evaluateTo_of_represents I rep rep.depth_le

end Hseos.Nn
