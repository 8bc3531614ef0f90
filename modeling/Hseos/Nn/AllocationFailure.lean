import Hseos.Nn.Derivative

/-! # Derivatives when allocations fail

The constructors of `pairwise.c` do not look at their arguments: one that gets `NULL` from a failed
allocation below and succeeds itself hides the failure in its node. A graph is sound if no node below
it has such an input. What `vtable->derivative` returns is sound if all its allocations succeed and
`NULL` if the last one fails, and it hides a failure in every other case.
-/

namespace Hseos.Nn

open Memory

variable {V α : Type} {heap heap' : Heap V α} {m m' : Memory V α} {i j k : ℕ}

/-- No node that the inputs lead to has an input that is `NULL`. -/
def Sound (heap : Heap V α) (p : Ptr) : Prop :=
  ∃ k, p = some k ∧ ∀ (j : ℕ) (node : Operation V α), Reaches heap k j → heap[j]? = some node →
    none ∉ node.body.inputs

/-- Every input is `NULL` or a node. -/
def Closed (heap : Heap V α) : Prop :=
  ∀ (i : ℕ) (node : Operation V α) (j : ℕ), heap[i]? = some node → some j ∈ node.body.inputs →
    j < heap.length

section Sound

theorem not_sound_null : ¬Sound heap none := by
  rintro ⟨k, null, _⟩
  cases null

theorem sound_iff {node : Operation V α} (read : heap[k]? = some node) :
    Sound heap (some k) ↔ ∀ p ∈ node.body.inputs, Sound heap p := by
  constructor
  · rintro ⟨_, ⟨⟩, all⟩ p member
    cases p with
    | none => exact absurd member (all k node .refl read)
    | some c => exact ⟨c, rfl, fun j below path => all j below (.head ⟨node, read, member⟩ path)⟩
  · intro inputs
    refine ⟨k, rfl, fun j below path read' null => ?_⟩
    rcases path.cases_head with rfl | ⟨c, ⟨node', again, member⟩, rest⟩
    · obtain rfl := Option.some.inj (read.symm.trans read')
      exact not_sound_null (inputs none null)
    · obtain rfl := Option.some.inj (read.symm.trans again)
      obtain ⟨_, ⟨⟩, all⟩ := inputs (some c) member
      exact all j below rest read' null

theorem prefix_read (extension : heap <+: heap') (bound : k < heap.length) : heap'[k]? = heap[k]? := by
  obtain ⟨rest, rfl⟩ := extension
  exact List.getElem?_append_left bound

/-- From an old node only old nodes are reached, and the same ones. -/
theorem reaches_extend (closed : Closed heap) (extension : heap <+: heap') (bound : k < heap.length) :
    Reaches heap' k j ↔ Reaches heap k j ∧ j < heap.length := by
  constructor
  · intro path
    induction path with
    | refl => exact ⟨.refl, bound⟩
    | tail _ next ih =>
      obtain ⟨node, read, member⟩ := next
      rw [prefix_read extension ih.2] at read
      exact ⟨ih.1.tail ⟨node, read, member⟩, closed _ node _ read member⟩
  · rintro ⟨path, _⟩
    apply path.lift id
    rintro i j ⟨node, read, member⟩
    refine ⟨node, ?_, member⟩
    rw [id, prefix_read extension (List.getElem?_eq_some_iff.mp read).1, read]

theorem sound_extend (closed : Closed heap) (extension : heap <+: heap') (bound : k < heap.length) :
    Sound heap' (some k) ↔ Sound heap (some k) := by
  constructor
  · rintro ⟨_, ⟨⟩, all⟩
    refine ⟨k, rfl, fun j node path read => ?_⟩
    have inside := (List.getElem?_eq_some_iff.mp read).1
    exact all j node ((reaches_extend closed extension bound).mpr ⟨path, inside⟩)
      ((prefix_read extension inside).trans read)
  · rintro ⟨_, ⟨⟩, all⟩
    refine ⟨k, rfl, fun j node path read => ?_⟩
    obtain ⟨path', inside⟩ := (reaches_extend closed extension bound).mp path
    exact all j node path' ((prefix_read extension inside).symm.trans read)

theorem ValidHeap.closed (valid : ValidHeap heap) : Closed heap := by
  intro i node j read member
  obtain ⟨_, bound, same⟩ := valid.inputs i node read _ member
  exact Option.some.inj same ▸ bound

/-- A node with an expression tree has no `NULL` below it. -/
theorem Represents.sound {e : Expr V α} (rep : Represents heap k e) : Sound heap (some k) := by
  refine ⟨k, rfl, fun j node path read null => ?_⟩
  obtain ⟨below, represented, _⟩ := rep.reaches path
  cases represented with
  | placeholder read' body | const read' body | pairwise read' body =>
    obtain rfl := Option.some.inj (read.symm.trans read')
    simp [body, Body.inputs] at null

end Sound

/-- A pointer to a node, or `NULL`, that is sound under a known condition. -/
structure Known (heap : Heap V α) (p : Ptr) (condition : Prop) : Prop where
  inside : ∀ k, p = some k → k < heap.length
  sound : Sound heap p ↔ condition

theorem Known.extend {p : Ptr} {condition : Prop} (known : Known heap p condition) (closed : Closed heap)
    (extension : heap <+: heap') : Known heap' p condition := by
  cases p with
  | none =>
    refine ⟨nofun, ?_⟩
    rw [← known.sound]
    simp only [not_sound_null]
  | some k =>
    have bound := known.inside k rfl
    constructor
    · rintro _ ⟨⟩
      exact bound.trans_le extension.length_le
    · rw [sound_extend closed extension bound, known.sound]

/-- Memory behind a number of calls of `malloc`. -/
structure Grows (m m' : Memory V α) (count : ℕ) : Prop where
  heap : m.heap <+: m'.heap
  mallocs : ∀ n, m'.mallocs n = m.mallocs (count + n)
  closed : Closed m'.heap

theorem Grows.trans {m'' : Memory V α} {first second : ℕ} (before : Grows m m' first)
    (after : Grows m' m'' second) : Grows m m'' (first + second) := by
  refine ⟨before.heap.trans after.heap, fun n => ?_, after.closed⟩
  rw [after.mallocs, before.mallocs, Nat.add_assoc]

/-- The next calls of `malloc` succeed. -/
def Memory.SucceedsFor (m : Memory V α) (count : ℕ) : Prop := ∀ n < count, m.mallocs n ≠ none

theorem Grows.succeedsFor {first second : ℕ} (grows : Grows m m' first) :
    m.SucceedsFor (first + second) ↔ m.SucceedsFor first ∧ m'.SucceedsFor second := by
  constructor
  · intro all
    refine ⟨fun n bound => all n (by omega), fun n bound => ?_⟩
    rw [grows.mallocs]
    exact all (first + n) (by omega)
  · rintro ⟨before, after⟩ n bound
    rcases Nat.lt_or_ge n first with early | late
    · exact before n early
    · obtain ⟨rest, rfl⟩ := Nat.exists_eq_add_of_le late
      rw [← grows.mallocs]
      exact after rest (by omega)

/-- A result of `count` calls of `malloc`, the last of which allocates it, that is sound if they all
succeed and the condition holds. -/
structure Makes (m : Memory V α) (count : ℕ) (condition : Prop) (result : Ptr × Memory V α) : Prop where
  grows : Grows m result.2 count
  null : result.1 = none ↔ m.mallocs (count - 1) = none
  known : Known result.2.heap result.1 (condition ∧ m.SucceedsFor count)

theorem malloc_makes {condition : Prop} (closed : Closed m.heap) (body : Body V α)
    (inside : ∀ j, some j ∈ body.inputs → j < m.heap.length)
    (inputs : (∀ p ∈ body.inputs, Sound m.heap p) ↔ condition) : Makes m 1 condition (m.malloc body) := by
  have once : m.SucceedsFor 1 ↔ m.mallocs 0 ≠ none := by
    simp [Memory.SucceedsFor]
  cases outcome : m.mallocs 0 with
  | none =>
    rw [malloc, outcome]
    refine ⟨⟨List.prefix_rfl, fun n => by rw [Nat.add_comm], closed⟩, by simp [outcome], ?_, ?_⟩
    · rintro _ ⟨⟩
    rw [once, outcome]
    simp [not_sound_null]
  | some fields =>
    obtain ⟨value, computed⟩ := fields
    rw [malloc, outcome]
    have extension : m.heap <+: m.heap ++ [⟨body, value, computed⟩] := List.prefix_append ..
    have last : (m.heap ++ [⟨body, value, computed⟩])[m.heap.length]? = some ⟨body, value, computed⟩ :=
      List.getElem?_concat_length
    have grown : (m.heap ++ [(⟨body, value, computed⟩ : Operation V α)]).length = m.heap.length + 1 :=
      List.length_append
    refine ⟨⟨extension, fun n => by rw [Nat.add_comm], ?_⟩, by simp [outcome], ?_, ?_⟩
    · intro i node j read member
      have before : i < m.heap.length + 1 := grown ▸ (List.getElem?_eq_some_iff.mp read).1
      rw [grown]
      rcases Nat.lt_or_eq_of_le (Nat.le_of_lt_succ before) with old | rfl
      · rw [prefix_read extension old] at read
        exact Nat.lt_succ_of_lt (closed i node j read member)
      · obtain rfl := Option.some.inj (last.symm.trans read)
        exact Nat.lt_succ_of_lt (inside j member)
    · rintro _ ⟨⟩
      rw [grown]
      exact Nat.lt_succ_self _
    · rw [sound_iff last, once, outcome, ← inputs]
      have same : ∀ p ∈ body.inputs, Sound (m.heap ++ [⟨body, value, computed⟩]) p ↔ Sound m.heap p := by
        intro p member
        cases p with
        | none => simp [not_sound_null]
        | some j => exact sound_extend closed extension (inside j member)
      simp only [ne_eq, reduceCtorEq, not_false_eq_true, and_true]
      exact forall₂_congr same

/-- A constructor of `pairwise.c` makes a sound node of sound inputs, if its allocation succeeds. -/
theorem makeOpPairwise_makes {a b : Ptr} {first second : Prop} (closed : Closed m.heap)
    (left : Known m.heap a first) (right : Known m.heap b second) (vtable : ArithOp) :
    Makes m 1 (first ∧ second) (makeOpPairwise a b vtable m) := by
  apply malloc_makes closed
  · intro j member
    rcases List.mem_pair.mp member with rfl | rfl
    · exact left.inside j rfl
    · exact right.inside j rfl
  · rw [← left.sound, ← right.sound]
    simp [Body.inputs]

theorem makeOpPairwise_known {a b : Ptr} {first second : Prop} (closed : Closed m.heap)
    (left : Known m.heap a first) (right : Known m.heap b second) (vtable : ArithOp) :
    ∃ p m', makeOpPairwise a b vtable m = (p, m') ∧ Grows m m' 1 ∧
      Known m'.heap p ((first ∧ second) ∧ m.SucceedsFor 1) := by
  have makes := makeOpPairwise_makes closed left right vtable
  exact ⟨_, _, rfl, makes.grows, makes.known⟩

/-- Further calls of `malloc` whose result is sound if what was made before is. -/
theorem Makes.after {first second : ℕ} {before condition : Prop} {result : Ptr × Memory V α}
    (grows : Grows m m' first) (makes : Makes m' second before result) (positive : 0 < second)
    (same : before ↔ condition ∧ m.SucceedsFor first) : Makes m (first + second) condition result := by
  refine ⟨grows.trans makes.grows, ?_, makes.known.inside, ?_⟩
  · rw [makes.null, grows.mallocs, Nat.add_sub_assoc positive]
  · rw [makes.known.sound, same, grows.succeedsFor, and_assoc]

/-- The calls of `malloc` in the rule for an operation. -/
def ruleMallocs : ArithOp → ℕ
  | .add | .sub => 1
  | .mul => 3
  | .div => 5

theorem ruleMallocs_pos (op : ArithOp) : 0 < ruleMallocs op := by
  cases op <;> exact Nat.succ_pos _

/-- Each rule of differentiation makes a sound graph of sound derivatives, if all its allocations
succeed. -/
theorem derivativePairwise_makes {inputs0 inputs1 d1 d2 : Ptr} {first second : Prop}
    (closed : Closed m.heap) (zero : Known m.heap inputs0 True) (one : Known m.heap inputs1 True)
    (left : Known m.heap d1 first) (right : Known m.heap d2 second) (vtable : ArithOp) :
    Makes m (ruleMallocs vtable) (first ∧ second)
      (derivativePairwise vtable inputs0 inputs1 d1 d2 m) := by
  cases vtable with
  | add | sub => exact makeOpPairwise_makes closed left right _
  | mul =>
    obtain ⟨l, m₁, made₁, grows₁, known₁⟩ := makeOpPairwise_known closed left one .mul
    obtain ⟨r, m₂, made₂, grows₂, known₂⟩ := makeOpPairwise_known grows₁.closed
      (right.extend closed grows₁.heap) (zero.extend closed grows₁.heap) .mul
    have makes := makeOpPairwise_makes grows₂.closed (known₁.extend grows₁.closed grows₂.heap) known₂ .add
    simp only [derivativePairwise, derivativeMul, makeOpMul, makeOpAdd, made₁, made₂]
    refine makes.after (grows₁.trans grows₂) Nat.one_pos ?_
    rw [grows₁.succeedsFor]
    tauto
  | div =>
    obtain ⟨l, m₁, made₁, grows₁, known₁⟩ := makeOpPairwise_known closed left one .mul
    obtain ⟨r, m₂, made₂, grows₂, known₂⟩ := makeOpPairwise_known grows₁.closed
      (right.extend closed grows₁.heap) (zero.extend closed grows₁.heap) .mul
    obtain ⟨a, m₃, made₃, grows₃, known₃⟩ := makeOpPairwise_known grows₂.closed
      (known₁.extend grows₁.closed grows₂.heap) known₂ .sub
    have grows := (grows₁.trans grows₂).trans grows₃
    have divisor := one.extend closed grows.heap
    obtain ⟨b, m₄, made₄, grows₄, known₄⟩ := makeOpPairwise_known grows₃.closed divisor divisor .mul
    have makes := makeOpPairwise_makes grows₄.closed (known₃.extend grows₃.closed grows₄.heap) known₄ .div
    simp only [derivativePairwise, derivativeDiv, makeOpMul, makeOpSub, makeOpDiv, made₁, made₂, made₃,
      made₄]
    refine makes.after (grows.trans grows₄) Nat.one_pos ?_
    rw [grows.succeedsFor, (grows₁.trans grows₂).succeedsFor, grows₁.succeedsFor]
    tauto

/-- The calls of `malloc` of a derivative; what the vtables do below is done once for each path. -/
def derivativeMallocs : Expr V α → ℕ
  | .var _ | .const _ => 1
  | .binary op left right => derivativeMallocs left + derivativeMallocs right + ruleMallocs op

theorem Represents.known {e : Expr V α} (rep : Represents heap k e) : Known heap (some k) True := by
  constructor
  · rintro _ ⟨⟩
    exact rep.lt_length
  · exact iff_true_intro rep.sound

theorem makeOpConst_makes [Zero α] [One α] (closed : Closed m.heap) (value : α) :
    Makes m 1 True (makeOpConst value m) :=
  malloc_makes closed _ (by simp [Body.inputs]) (by simp [Body.inputs])

variable [DecidableEq V] [Zero α] [One α] {e : Expr V α}

/-- What `vtable->derivative` makes, whatever the outcomes of the allocations. -/
theorem derivativeTo_makes (v : V) {fuel : ℕ} (closed : Closed m.heap) (rep : Represents m.heap i e)
    (enough : e.depth ≤ fuel) :
    ∃ result, derivativeTo v fuel m (some i) = .ok result ∧ Makes m (derivativeMallocs e) True result := by
  induction e generalizing i fuel m with
  | var x =>
    obtain ⟨fuel, rfl⟩ := Nat.exists_eq_add_of_le' enough
    cases rep with
    | placeholder read body =>
      simp only [Expr.depth, derivativeTo, deref_some read, ok_bind, body, derivativePlaceholder]
      split
      · exact ⟨_, rfl, makeOpConst_makes closed 1⟩
      · exact ⟨_, rfl, makeOpConst_makes closed 0⟩
  | const c =>
    obtain ⟨fuel, rfl⟩ := Nat.exists_eq_add_of_le' enough
    cases rep with
    | const read body =>
      simp only [Expr.depth, derivativeTo, deref_some read, ok_bind, body]
      exact ⟨_, rfl, makeOpConst_makes closed 0⟩
  | binary vtable left right ihl ihr =>
    simp only [Expr.depth] at enough
    obtain ⟨fuel, rfl⟩ := Nat.exists_eq_add_of_le' (Nat.le_trans (Nat.le_add_left 1 _) enough)
    cases rep with
    | pairwise read body first second =>
      obtain ⟨⟨d1, m₁⟩, ranA, makes₁⟩ := ihl closed first (show left.depth ≤ fuel by omega)
      have grows₁ : Grows m m₁ (derivativeMallocs left) := makes₁.grows
      obtain ⟨⟨d2, m₂⟩, ranB, makes₂⟩ :=
        ihr grows₁.closed (second.extend grows₁.heap) (show right.depth ≤ fuel by omega)
      have grows₂ : Grows m₁ m₂ (derivativeMallocs right) := makes₂.grows
      have grows := grows₁.trans grows₂
      have rule := derivativePairwise_makes grows.closed (first.known.extend closed grows.heap)
        (second.known.extend closed grows.heap) (makes₁.known.extend grows₁.closed grows₂.heap)
        makes₂.known vtable
      refine ⟨derivativePairwise vtable _ _ d1 d2 m₂, ?_, rule.after grows ?_ ?_⟩
      · simp only [derivativeTo, deref_some read, ok_bind, body, ranA, ranB]
        rfl
      · exact ruleMallocs_pos vtable
      · rw [grows₁.succeedsFor]
        tauto

/-- On every finite acyclic heap and for every pattern of allocations: the derivative returns `NULL` or
a graph without `NULL` if and only if its last allocation fails or none does. -/
theorem derivative_sound_iff (m : Memory V α) (valid : ValidHeap m.heap) (v : V) (i : ℕ)
    (bound : i < m.heap.length) :
    ∃ e, Represents m.heap i e ∧ ∃ d m', m.derivative v (some i) = .ok (d, m') ∧
      ((d = none ∨ Sound m'.heap d) ↔
        m.mallocs (derivativeMallocs e - 1) = none ∨ ∀ n < derivativeMallocs e, m.mallocs n ≠ none) := by
  obtain ⟨e, rep⟩ := valid.represents bound
  obtain ⟨⟨d, m'⟩, ran, makes⟩ := derivativeTo_makes v valid.closed rep rep.depth_le
  refine ⟨e, rep, d, m', ran, ?_⟩
  rw [makes.null, makes.known.sound, true_and]
  rfl

/-- `x + y` and its variables. -/
def sumOfVariables : Heap Bool ℤ :=
  [⟨.placeholder false, 0, 0⟩, ⟨.placeholder true, 0, 0⟩, ⟨.pairwise .add (some 0) (some 1), 0, 0⟩]

theorem sumOfVariables_valid : ValidHeap sumOfVariables := by
  have leaves : ValidHeap (sumOfVariables.take 2) :=
    (validHeap_nil.append ⟨.placeholder false, 0, 0⟩ (by simp [Body.inputs])).append
      ⟨.placeholder true, 0, 0⟩ (by simp [Body.inputs])
  exact leaves.append ⟨.pairwise .add (some 0) (some 1), 0, 0⟩ (by simp [sumOfVariables, Body.inputs])

/-- Of three allocations the last one fails. -/
theorem derivative_sound_sum :
    ∃ d m', (⟨sumOfVariables, fun n => if n = 2 then none else some (0, 0)⟩ : Memory Bool ℤ).derivative false
      (some 2) = .ok (d, m') ∧ (d = none ∨ Sound m'.heap d) := by
  obtain ⟨e, rep, d, m', ran, sound⟩ := derivative_sound_iff
    ⟨sumOfVariables, fun n => if n = 2 then none else some (0, 0)⟩ sumOfVariables_valid false 2 (by decide)
  obtain rfl := rep.unique (.pairwise rfl rfl (.placeholder rfl rfl) (.placeholder rfl rfl))
  exact ⟨d, m', ran, sound.mpr (.inl rfl)⟩

/-- Only the first allocation fails: the sum hides the failure, and its computation dereferences `NULL`. -/
theorem derivative_hides_failure :
    ValidHeap sumOfVariables ∧
    ∃ d m', (⟨sumOfVariables, fun n => if n = 0 then none else some (0, 0)⟩ : Memory Bool ℤ).derivative
        false (some 2) = .ok (d, m') ∧
      ¬(d = none ∨ Sound m'.heap d) ∧ computeGraph (fun _ => 0) m'.heap d = .error .nullPointer := by
  refine ⟨sumOfVariables_valid, _, _, rfl, ?_, rfl⟩
  rintro (null | ⟨k, same, all⟩)
  · cases null
  · cases same
    exact all 4 _ .refl rfl List.mem_cons_self

end Hseos.Nn
