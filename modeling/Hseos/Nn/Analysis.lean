import Hseos.Lib.ExpressionCalculus
import Hseos.Nn.Calculus
import Hseos.Nn.Compute

/-! # What the program computes are derivatives

Over a normed field, for instance the reals, a node is a function of one of its placeholders. Differentiating the node
any number of times, resetting the graph that comes out and computing it gives the derivative of that order of this
function.
-/

namespace Hseos.Nn

open Memory

variable {V 𝕜 : Type} [DecidableEq V] [NontriviallyNormedField 𝕜]

/-- `d = op->vtable->derivative(op, v)`, repeated, then `reset_graph(d, 1)` and `compute_graph(d)`. -/
def computeDerivative (env : V → 𝕜) (m : Memory V 𝕜) (v : V) (op : Ptr) (k : ℕ) : Except Fault 𝕜 := do
  let (d, m) ← m.derivatives v op k
  let heap ← resetGraph m.heap d 1
  let (_, value) ← computeGraph env heap d
  return value

omit [DecidableEq V] in
/-- Behind a forced reset the plain value is computed. -/
theorem computeGraph_resetGraph {heap : Heap V 𝕜} {i : ℕ} {e : Expr V 𝕜} (env : V → 𝕜) (rep : Represents heap i e) :
    ∃ cleared computation, resetGraph heap (some i) 1 = .ok cleared ∧
      computeGraph env cleared (some i) = .ok (computation, e.eval (Interpretation.plain env)) := by
  obtain ⟨cleared, reset, clears⟩ := resetGraph_spec 1 rep
  have same : SameBodies heap cleared := clears.sameBodies fun _ _ => rfl
  have idle (j : ℕ) (path : Reaches cleared i j) : ¬Computed cleared j := by
    rw [clears.computed, resetVisits_forced one_ne_zero, ← same.reaches]
    exact fun kept => kept.2 path
  obtain ⟨computed, calls, ran, -, -⟩ := computeGraph_clear env (same.represents rep) idle
  exact ⟨cleared, ⟨computed, calls⟩, reset, ran⟩

/-- Over a normed field, a graph that divides by zero nowhere under an assignment is a function of each
placeholder that can be differentiated any number of times there, and what the program computes for its
derivative of any order is that derivative. -/
theorem compute_derivative (m : Memory V 𝕜) (valid : ValidHeap m.heap) (succeeds : m.Succeeds) (op : ℕ)
    (inHeap : op < m.heap.length) (v : V) (env : V → 𝕜) (nonzero : DivisorsNonzero env m.heap op) :
    ∃ f : 𝕜 → 𝕜, (∀ x, evaluate (Interpretation.plain (Function.update env v x)) m.heap (some op) = .ok (f x)) ∧
      ∀ k, computeDerivative env m v (some op) k = .ok (iteratedDeriv k f (env v)) ∧
        HasDerivAt (iteratedDeriv k f) (iteratedDeriv (k + 1) f (env v)) (env v) := by
  obtain ⟨e, rep⟩ := valid.represents inHeap
  have here : Function.update env v (env v) = env := Function.update_eq_self v env
  have defined : e.DefinedAt env v (env v) := by
    rw [Expr.DefinedAt, here]
    exact (divisorsNonzero_iff rep).mp nonzero
  refine ⟨e.along env v, fun x => evaluate_of_represents _ rep, fun k => ⟨?_, ?_⟩⟩
  · obtain ⟨_, ran, d, m', rfl, -, -, rep'⟩ := derivatives_spec v succeeds rep k
    obtain ⟨cleared, computation, reset, computed⟩ := computeGraph_resetGraph env rep'
    have value := (Expr.eventually_iteratedDeriv defined k).self_of_nhds
    rw [Expr.along, here] at value
    simp only [computeDerivative, ran, ok_bind, reset, computed, value]
    rfl
  · exact Expr.hasDerivAt_iteratedDeriv defined k

/-- One divided by a variable. -/
def reciprocal (𝕜 : Type) [Zero 𝕜] [One 𝕜] : Heap Unit 𝕜 :=
  [⟨.placeholder (), 0, 0⟩, ⟨.const 1, 0, 0⟩, ⟨.pairwise .div (some 1) (some 0), 0, 0⟩]

/-- What the program computes at two for the derivative of `1 / x` is `-1 / 4`. -/
theorem compute_derivative_reciprocal :
    computeDerivative (fun _ => (2 : ℝ)) ⟨reciprocal ℝ, fun _ => some (0, 0)⟩ () (some 2) 1 = .ok (-1 / 4) := by
  have rep : Represents (reciprocal ℝ) 2 _ := .pairwise rfl rfl (.const rfl rfl) (.placeholder rfl rfl)
  have valid : ValidHeap (reciprocal ℝ) :=
    ((validHeap_nil.append _ (by simp [Body.inputs])).append _ (by simp [Body.inputs])).append _
      (by simp [Body.inputs])
  have nonzero : DivisorsNonzero (fun _ => (2 : ℝ)) (reciprocal ℝ) 2 :=
    (divisorsNonzero_iff rep).mpr (by norm_num [Expr.Divisors, Expr.eval, Interpretation.plain])
  obtain ⟨f, value, derived⟩ := compute_derivative ⟨reciprocal ℝ, fun _ => some (0, 0)⟩ valid
    (fun _ => Option.some_ne_none _) 2 (Nat.lt_succ_self 2) () (fun _ => 2) nonzero
  have inverse : f = fun x => x⁻¹ := by
    funext x
    have computed := (evaluate_of_represents _ rep).symm.trans (value x)
    rw [← Except.ok.inj computed]
    simp [Expr.eval, Interpretation.plain, ArithOp.apply]
  rw [(derived 1).1, inverse, iteratedDeriv_one, deriv_inv]
  norm_num

end Hseos.Nn
