import Hseos.Nn.Derivative

/-! # Derivative graphs evaluate to derivatives

Here the constants are in a field. The definedness of a graph under an assignment is that no division
node below it has a second input of value zero. Differentiation keeps it, and the value of the
derivative graph is the derivative of the value.
-/

namespace Hseos.Nn

open PowerSeries Memory

variable {V F : Type} [Field F]

/-- No division node below the root divides by zero under the assignment. -/
def DivisorsNonzero (env : V → F) (heap : Heap V F) (root : ℕ) : Prop :=
  ∀ i node dividend divisor value, Reaches heap root i → heap[i]? = some node →
    node.body = .pairwise .div dividend divisor →
    evaluate (Interpretation.plain env) heap divisor = .ok value → value ≠ 0

/-- The divisors of a graph are the divisors of the expression it represents. -/
theorem divisorsNonzero_iff {env : V → F} {heap : Heap V F} {root : ℕ} {e : Expr V F}
    (rep : Represents heap root e) :
    DivisorsNonzero env heap root ↔ e.Divisors (Interpretation.plain env) (· ≠ 0) := by
  induction rep with
  | placeholder read body | const read body =>
    refine ⟨fun _ => trivial, fun _ i node a b value path known division => ?_⟩
    rcases path.cases_head with rfl | ⟨j, next, _⟩
    · obtain rfl := Option.some.inj (read.symm.trans known)
      rw [body] at division
      cases division
    · exact absurd next (input_leaf read (by rw [body]; rfl) j)
  | @pairwise i a b node vtable left right read body first second ihl ihr =>
    have inputs := input_pairwise read body
    simp only [Expr.Divisors, ← ihl, ← ihr]
    constructor
    · intro nonzero
      refine ⟨fun j other p q value path => nonzero j other p q value
          (.head ((inputs a).mpr (.inl rfl)) path),
        fun j other p q value path => nonzero j other p q value
          (.head ((inputs b).mpr (.inr rfl)) path), ?_⟩
      rintro rfl
      exact nonzero i node _ _ _ .refl read body (evaluate_of_represents _ second)
    · rintro ⟨nonzeroL, nonzeroR, own⟩ j other p q value path known division evaluated
      rcases path.cases_head with rfl | ⟨k, next, rest⟩
      · obtain rfl := Option.some.inj (read.symm.trans known)
        obtain ⟨rfl, _, rfl⟩ := Body.pairwise.inj (body.symm.trans division)
        rw [evaluate_of_represents _ second] at evaluated
        cases evaluated
        exact own rfl
      · rcases (inputs k).mp next with rfl | rfl
        · exact nonzeroL j other p q value rest known division evaluated
        · exact nonzeroR j other p q value rest known division evaluated

/-- The derivative graph divides by zero nowhere if the graph does not, and its value is the tangent
of the graph's value in dual numbers; the graph of the `k`-th derivative evaluates to the derivative
of order `k`, at zero, of the graph's value as a function of a displacement of the variable. -/
theorem derivative_correct [DecidableEq V] (m : Memory V F) (valid : ValidHeap m.heap)
    (succeeds : m.Succeeds) (op : ℕ) (inHeap : op < m.heap.length) (v : V) :
    (∃ d m', m.derivative v (some op) = .ok (some d, m') ∧
      ∀ env, DivisorsNonzero env m.heap op → DivisorsNonzero env m'.heap d ∧
        ∃ x : DualNumber F, evaluate (Interpretation.dual env v) m.heap (some op) = .ok x ∧
          evaluate (Interpretation.plain env) m'.heap (some d) = .ok x.snd) ∧
    ∀ k, ∃ d m', m.derivatives v (some op) k = .ok (some d, m') ∧
      ∀ env, DivisorsNonzero env m.heap op → DivisorsNonzero env m'.heap d ∧
        ∃ f : F⟦X⟧, evaluate (Interpretation.taylor env v) m.heap (some op) = .ok f ∧
          evaluate (Interpretation.plain env) m'.heap (some d) =
            .ok (constantCoeff ((d⁄dX F)^[k] f)) := by
  obtain ⟨e, rep⟩ := valid.represents inHeap
  constructor
  · obtain ⟨_, ran, d, m', rfl, _, _, rep'⟩ := derivative_spec v succeeds rep
    refine ⟨d, m', ran, fun env nonzero => ?_⟩
    have divisors := (divisorsNonzero_iff rep).mp nonzero
    refine ⟨(divisorsNonzero_iff rep').mpr
      (Expr.divisors_deriv ArithOp.apply_eq_applyInv v divisors), _, evaluate_of_represents _ rep, ?_⟩
    rw [evaluate_of_represents _ rep', Expr.eval_deriv_dual env v divisors]
  · intro k
    obtain ⟨_, ran, d, m', rfl, _, _, rep'⟩ := derivatives_spec v succeeds rep k
    refine ⟨d, m', ran, fun env nonzero => ?_⟩
    have divisors := (divisorsNonzero_iff rep).mp nonzero
    refine ⟨(divisorsNonzero_iff rep').mpr (Expr.divisors_iterate_deriv env v divisors k), _,
      evaluate_of_represents _ rep, ?_⟩
    rw [evaluate_of_represents _ rep', Expr.eval_iterate_deriv env v divisors k]

/-- The nodes `main` builds: the last one is `x * x / (x * x + 1)`. -/
def mainGraph : Heap Unit ℚ :=
  [⟨.placeholder (), 0, 0⟩, ⟨.pairwise .mul (some 0) (some 0), 0, 0⟩, ⟨.const 1, 0, 0⟩,
    ⟨.pairwise .add (some 1) (some 2), 0, 0⟩, ⟨.pairwise .div (some 1) (some 3), 0, 0⟩]

/-- At two, the derivative graph of `main` has the value `4 / 25`. -/
theorem derivative_correct_main :
    ∃ d m', Memory.derivative ⟨mainGraph, fun _ => some (0, 0)⟩ () (some 4) = .ok (some d, m') ∧
      evaluate (Interpretation.plain fun _ => 2) m'.heap (some d) = .ok (4 / 25) := by
  have square : Represents mainGraph 1 _ :=
    .pairwise rfl rfl (.placeholder rfl rfl) (.placeholder rfl rfl)
  have rep : Represents mainGraph 4 _ :=
    .pairwise rfl rfl square (.pairwise rfl rfl square (.const rfl rfl))
  have valid : ValidHeap mainGraph :=
    ((((validHeap_nil.append _ (by simp [Body.inputs])).append _ (by simp [Body.inputs])).append _
      (by simp [Body.inputs])).append _ (by simp [Body.inputs])).append _ (by simp [Body.inputs])
  obtain ⟨⟨d, m', ran, value⟩, _⟩ := derivative_correct ⟨mainGraph, fun _ => some (0, 0)⟩ valid
    (fun _ => Option.some_ne_none _) 4 (by decide) ()
  have nonzero : DivisorsNonzero (fun _ => 2) mainGraph 4 :=
    (divisorsNonzero_iff rep).mpr
      (by norm_num [Expr.Divisors, Expr.eval, Interpretation.plain, ArithOp.apply])
  obtain ⟨_, x, dual, plain⟩ := value _ nonzero
  refine ⟨d, m', ran, ?_⟩
  rw [evaluate_of_represents _ rep] at dual
  cases dual
  rw [plain]
  congr 1
  simp only [Expr.eval, Interpretation.dual, ArithOp.applyInv]
  norm_num

end Hseos.Nn
