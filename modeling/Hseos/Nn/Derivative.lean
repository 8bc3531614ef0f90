import Hseos.Nn.Compute

/-! # Derivative graphs

The constructors allocate a node behind the existing ones; the outcome of each `malloc`, and what
the fields they leave alone hold then, is given from outside. `vtable->derivative` rebuilds a graph
by the rules of differentiation, sharing the nodes of the original. Where all allocations succeed
it represents exactly the symbolic derivative of the expression the original represents, so its
value is the tangent part of a dual number and iterating it gives derivatives of every order.
-/

namespace Hseos.Nn

variable {V α : Type}

/-- The heap, and the results of the coming calls of `malloc`: failure, or a node whose output
fields hold anything. -/
structure Memory (V α : Type) where
  heap : Heap V α
  mallocs : ℕ → Option (α × ℤ)

namespace Memory

/-- Allocate a node and set its body. -/
def malloc (m : Memory V α) (body : Body V α) : Ptr × Memory V α :=
  match m.mallocs 0 with
  | none => (none, ⟨m.heap, fun n => m.mallocs (n + 1)⟩)
  | some (outputValue, outputComputed) =>
      (some m.heap.length,
        ⟨m.heap ++ [⟨body, outputValue, outputComputed⟩], fun n => m.mallocs (n + 1)⟩)

def makeOpPlaceholder (reference : V) (m : Memory V α) : Ptr × Memory V α :=
  m.malloc (.placeholder reference)

def makeOpConst (value : α) (m : Memory V α) : Ptr × Memory V α := m.malloc (.const value)

def makeOpPairwise (a b : Ptr) (vtable : ArithOp) (m : Memory V α) : Ptr × Memory V α :=
  m.malloc (.pairwise vtable a b)

def makeOpAdd (a b : Ptr) : Memory V α → Ptr × Memory V α := makeOpPairwise a b .add
def makeOpSub (a b : Ptr) : Memory V α → Ptr × Memory V α := makeOpPairwise a b .sub
def makeOpMul (a b : Ptr) : Memory V α → Ptr × Memory V α := makeOpPairwise a b .mul
def makeOpDiv (a b : Ptr) : Memory V α → Ptr × Memory V α := makeOpPairwise a b .div

section Derivative

variable [DecidableEq V] [Zero α] [One α]

def derivativePlaceholder (v reference : V) (m : Memory V α) : Ptr × Memory V α :=
  if v = reference then makeOpConst 1 m else makeOpConst 0 m

def derivativeConst (m : Memory V α) : Ptr × Memory V α := makeOpConst 0 m

def derivativeAdd (d1 d2 : Ptr) (m : Memory V α) : Ptr × Memory V α := makeOpAdd d1 d2 m

def derivativeSub (d1 d2 : Ptr) (m : Memory V α) : Ptr × Memory V α := makeOpSub d1 d2 m

def derivativeMul (inputs0 inputs1 d1 d2 : Ptr) (m : Memory V α) : Ptr × Memory V α :=
  let (left, m) := makeOpMul d1 inputs1 m
  let (right, m) := makeOpMul d2 inputs0 m
  makeOpAdd left right m

def derivativeDiv (inputs0 inputs1 d1 d2 : Ptr) (m : Memory V α) : Ptr × Memory V α :=
  let (left, m) := makeOpMul d1 inputs1 m
  let (right, m) := makeOpMul d2 inputs0 m
  let (a, m) := makeOpSub left right m
  let (b, m) := makeOpMul inputs1 inputs1 m
  makeOpDiv a b m

/-- What the four `derivative` functions of `pairwise.c` do once they have the derivatives `d1` and
`d2` of both inputs. -/
def derivativePairwise (vtable : ArithOp) (inputs0 inputs1 d1 d2 : Ptr) :
    Memory V α → Ptr × Memory V α :=
  match vtable with
  | .add => derivativeAdd d1 d2
  | .sub => derivativeSub d1 d2
  | .mul => derivativeMul inputs0 inputs1 d1 d2
  | .div => derivativeDiv inputs0 inputs1 d1 d2

/-- `op->vtable->derivative(op, v)`, to a bounded depth. -/
def derivativeTo (v : V) : ℕ → Memory V α → Ptr → Except Fault (Ptr × Memory V α)
  | 0, _, _ => .error .outOfFuel
  | fuel + 1, m, op => do
      let node ← deref m.heap op
      match node.body with
      | .placeholder reference => return derivativePlaceholder v reference m
      | .const _ => return derivativeConst m
      | .pairwise vtable inputs0 inputs1 =>
          let (d1, m) ← derivativeTo v fuel m inputs0
          let (d2, m) ← derivativeTo v fuel m inputs1
          return derivativePairwise vtable inputs0 inputs1 d1 d2 m

def derivative (m : Memory V α) (v : V) (op : Ptr) : Except Fault (Ptr × Memory V α) :=
  derivativeTo v m.heap.length m op

/-- The derivative of the derivative and so on, `k` times. -/
def derivatives (m : Memory V α) (v : V) (op : Ptr) : ℕ → Except Fault (Ptr × Memory V α)
  | 0 => .ok (op, m)
  | k + 1 => do
      let (d, m) ← m.derivatives v op k
      m.derivative v d

end Derivative

/-- Every coming allocation succeeds. -/
def Succeeds (m : Memory V α) : Prop := ∀ n, m.mallocs n ≠ none

end Memory

open Memory

variable {m m' : Memory V α}

/-- Old nodes represent what they did before an allocation. -/
theorem Represents.extend {heap heap' : Heap V α} (extension : heap <+: heap') {i : ℕ} {e : Expr V α}
    (rep : Represents heap i e) : Represents heap' i e := by
  have kept {j : ℕ} {node : Operation V α} (read : heap[j]? = some node) : heap'[j]? = some node := by
    obtain ⟨rest, rfl⟩ := extension
    rw [List.getElem?_append_left (List.getElem?_eq_some_iff.mp read).1, read]
  induction rep with
  | placeholder read body => exact .placeholder (kept read) body
  | const read body => exact .const (kept read) body
  | pairwise read body _ _ ihl ihr => exact .pairwise (kept read) body ihl ihr

/-- A successful allocation only adds a node. -/
theorem malloc_spec (succeeds : m.Succeeds) (body : Body V α) :
    ∃ node m', m.malloc body = (some m.heap.length, m') ∧ node.body = body ∧
      m'.heap = m.heap ++ [node] ∧ m'.Succeeds := by
  obtain ⟨⟨value, computed⟩, success⟩ := Option.ne_none_iff_exists'.mp (succeeds 0)
  exact ⟨⟨body, value, computed⟩, _, by rw [malloc, success], rfl, rfl, fun n => succeeds (n + 1)⟩

/-- A result that represents an expression in a heap that extends the given one. -/
def Yields (m : Memory V α) (result : Ptr × Memory V α) (e : Expr V α) : Prop :=
  ∃ d m', result = (some d, m') ∧ m.heap <+: m'.heap ∧ m'.Succeeds ∧ Represents m'.heap d e

theorem makeOpConst_yields (succeeds : m.Succeeds) (value : α) :
    Yields m (makeOpConst value m) (.const value) := by
  obtain ⟨node, m', allocated, body, heap, rest⟩ := malloc_spec succeeds (.const value)
  refine ⟨_, m', allocated, heap ▸ List.prefix_append .., rest, .const ?_ body⟩
  rw [heap, List.getElem?_append_right le_rfl, Nat.sub_self]
  rfl

theorem makeOpPairwise_yields (succeeds : m.Succeeds) {a b : ℕ} {left right : Expr V α}
    (first : Represents m.heap a left) (second : Represents m.heap b right) (vtable : ArithOp) :
    Yields m (makeOpPairwise (some a) (some b) vtable m) (.binary vtable left right) := by
  obtain ⟨node, m', allocated, body, heap, rest⟩ :=
    malloc_spec succeeds (.pairwise vtable (some a) (some b))
  have extension : m.heap <+: m'.heap := heap ▸ List.prefix_append ..
  refine ⟨_, m', allocated, extension, rest,
    .pairwise ?_ body (first.extend extension) (second.extend extension)⟩
  rw [heap, List.getElem?_append_right le_rfl, Nat.sub_self]
  rfl

/-- Each rule of differentiation yields the derivative of its operation. -/
theorem derivativePairwise_yields (succeeds : m.Succeeds) {a b d1 d2 : ℕ}
    {left right dLeft dRight : Expr V α} (first : Represents m.heap a left)
    (second : Represents m.heap b right) (third : Represents m.heap d1 dLeft)
    (fourth : Represents m.heap d2 dRight) (vtable : ArithOp) :
    Yields m (derivativePairwise vtable (some a) (some b) (some d1) (some d2) m)
      (Expr.derivBinary vtable left right dLeft dRight) := by
  cases vtable with
  | add | sub => exact makeOpPairwise_yields succeeds third fourth _
  | mul =>
    obtain ⟨l, m₁, made₁, ext₁, succeeds₁, rep₁⟩ := makeOpPairwise_yields succeeds third second .mul
    obtain ⟨r, m₂, made₂, ext₂, succeeds₂, rep₂⟩ :=
      makeOpPairwise_yields succeeds₁ (fourth.extend ext₁) (first.extend ext₁) .mul
    obtain ⟨d, m₃, made₃, ext₃, rest⟩ :=
      makeOpPairwise_yields succeeds₂ (rep₁.extend ext₂) rep₂ .add
    refine ⟨d, m₃, ?_, (ext₁.trans ext₂).trans ext₃, rest⟩
    simp only [derivativePairwise, derivativeMul, makeOpMul, makeOpAdd, made₁, made₂, made₃]
  | div =>
    obtain ⟨l, m₁, made₁, ext₁, succeeds₁, rep₁⟩ := makeOpPairwise_yields succeeds third second .mul
    obtain ⟨r, m₂, made₂, ext₂, succeeds₂, rep₂⟩ :=
      makeOpPairwise_yields succeeds₁ (fourth.extend ext₁) (first.extend ext₁) .mul
    obtain ⟨n, m₃, made₃, ext₃, succeeds₃, rep₃⟩ :=
      makeOpPairwise_yields succeeds₂ (rep₁.extend ext₂) rep₂ .sub
    have divisor : Represents m₃.heap b right := second.extend ((ext₁.trans ext₂).trans ext₃)
    obtain ⟨s, m₄, made₄, ext₄, succeeds₄, rep₄⟩ :=
      makeOpPairwise_yields succeeds₃ divisor divisor .mul
    obtain ⟨d, m₅, made₅, ext₅, rest⟩ :=
      makeOpPairwise_yields succeeds₄ (rep₃.extend ext₄) rep₄ .div
    refine ⟨d, m₅, ?_, (((ext₁.trans ext₂).trans ext₃).trans ext₄).trans ext₅, rest⟩
    simp only [derivativePairwise, derivativeDiv, makeOpMul, makeOpSub, makeOpDiv, made₁, made₂, made₃,
      made₄, made₅]

variable [DecidableEq V] [Zero α] [One α]

/-- The derivative graph represents the symbolic derivative. -/
theorem derivativeTo_spec (v : V) {i fuel : ℕ} {e : Expr V α} (succeeds : m.Succeeds)
    (rep : Represents m.heap i e) (enough : e.depth ≤ fuel) :
    ∃ result, derivativeTo v fuel m (some i) = .ok result ∧ Yields m result (e.deriv v) := by
  induction e generalizing i fuel m with
  | var x =>
    obtain ⟨fuel, rfl⟩ := Nat.exists_eq_add_of_le' enough
    cases rep with
    | placeholder read body =>
      simp only [Expr.depth, derivativeTo, deref_some read, ok_bind, body, derivativePlaceholder,
        Expr.deriv]
      split
      · exact ⟨_, rfl, makeOpConst_yields succeeds 1⟩
      · exact ⟨_, rfl, makeOpConst_yields succeeds 0⟩
  | const c =>
    obtain ⟨fuel, rfl⟩ := Nat.exists_eq_add_of_le' enough
    cases rep with
    | const read body =>
      simp only [Expr.depth, derivativeTo, deref_some read, ok_bind, body]
      exact ⟨_, rfl, makeOpConst_yields succeeds 0⟩
  | binary vtable left right ihl ihr =>
    simp only [Expr.depth] at enough
    obtain ⟨fuel, rfl⟩ := Nat.exists_eq_add_of_le' (Nat.le_trans (Nat.le_add_left 1 _) enough)
    cases rep with
    | pairwise read body first second =>
      obtain ⟨_, ranA, d1, m₁, rfl, ext₁, succeeds₁, rep₁⟩ :=
        ihl succeeds first (show left.depth ≤ fuel by omega)
      obtain ⟨_, ranB, d2, m₂, rfl, ext₂, succeeds₂, rep₂⟩ :=
        ihr succeeds₁ (second.extend ext₁) (show right.depth ≤ fuel by omega)
      have both := ext₁.trans ext₂
      obtain ⟨d, m₃, made, ext₃, rest⟩ := derivativePairwise_yields succeeds₂ (first.extend both)
        (second.extend both) (rep₁.extend ext₂) rep₂ vtable
      refine ⟨(some d, m₃), ?_, d, m₃, rfl, both.trans ext₃, rest⟩
      simp only [derivativeTo, deref_some read, ok_bind, body, ranA, ranB, made]
      rfl

theorem derivative_spec (v : V) {i : ℕ} {e : Expr V α} (succeeds : m.Succeeds)
    (rep : Represents m.heap i e) :
    ∃ result, m.derivative v (some i) = .ok result ∧ Yields m result (e.deriv v) :=
  derivativeTo_spec v succeeds rep rep.depth_le

theorem derivatives_spec (v : V) {i : ℕ} {e : Expr V α} (succeeds : m.Succeeds)
    (rep : Represents m.heap i e) (k : ℕ) :
    ∃ result, m.derivatives v (some i) k = .ok result ∧ Yields m result ((Expr.deriv v)^[k] e) := by
  induction k with
  | zero => exact ⟨_, rfl, i, m, rfl, List.prefix_rfl, succeeds, rep⟩
  | succ k ih =>
    obtain ⟨_, ran, d, m₁, rfl, ext₁, succeeds₁, rep₁⟩ := ih
    obtain ⟨_, last, d', m₂, rfl, ext₂, rest⟩ := derivative_spec v succeeds₁ rep₁
    refine ⟨(some d', m₂), ?_, d', m₂, rfl, ext₁.trans ext₂, ?_⟩
    · simp only [derivatives, ran, ok_bind, last]
    · rwa [Function.iterate_succ_apply']

end Hseos.Nn
