import Hseos.Lib.Expression
import Mathlib

/-! # Symbolic derivatives are derivatives

Over a nontrivially normed field, the value of an expression is a function of one of its variables. Where no divisor is
zero it is differentiable, and its derivative is the value of the symbolic derivative. No divisor is zero nearby
either, so the symbolic derivative can be differentiated in its turn.
-/

namespace Hseos.Expr

open Filter Topology

variable {V 𝕜 : Type*} [DecidableEq V] [NontriviallyNormedField 𝕜]

/-- The value as a function of one variable. -/
def along (e : Expr V 𝕜) (env : V → 𝕜) (v : V) (x : 𝕜) : 𝕜 := e.eval (Interpretation.plain (Function.update env v x))

/-- No divisor is zero where the variable has this value. -/
def DefinedAt (e : Expr V 𝕜) (env : V → 𝕜) (v : V) (x : 𝕜) : Prop :=
  e.Divisors (Interpretation.plain (Function.update env v x)) (· ≠ 0)

variable {e : Expr V 𝕜} {env : V → 𝕜} {v : V} {x : 𝕜}

/-- The derivative of the value is the value of the symbolic derivative. -/
theorem hasDerivAt_along (defined : e.DefinedAt env v x) :
    HasDerivAt (e.along env v) ((e.deriv v).along env v x) x := by
  induction e with
  | var y =>
    by_cases same : v = y
    · subst same
      have here : (var v : Expr V 𝕜).along env v = id := by
        funext x
        exact Function.update_self v x env
      have one : ((var v : Expr V 𝕜).deriv v).along env v x = 1 := by rw [Expr.deriv, if_pos rfl]; rfl
      rw [here, one]
      exact hasDerivAt_id x
    · have here : (var y : Expr V 𝕜).along env v = fun _ => env y := by
        funext x
        change Function.update env v x y = env y
        rw [Function.update_of_ne (Ne.symm same)]
      have zero : ((var y : Expr V 𝕜).deriv v).along env v x = 0 := by rw [Expr.deriv, if_neg same]; rfl
      rw [here, zero]
      exact hasDerivAt_const x (env y)
  | const c => exact hasDerivAt_const x c
  | binary op left right ihl ihr =>
    obtain ⟨first, second, own⟩ := defined
    have dLeft := ihl first
    have dRight := ihr second
    cases op with
    | add => exact dLeft.add dRight
    | sub => exact dLeft.sub dRight
    | mul => exact (dLeft.mul dRight).congr_deriv (congrArg _ (mul_comm _ _))
    | div =>
      refine (dLeft.div dRight (own rfl)).congr_deriv ?_
      rw [sq, mul_comm (left.along env v x)]
      rfl

/-- Where no divisor is zero, none is nearby. -/
theorem eventually_definedAt (defined : e.DefinedAt env v x) : ∀ᶠ y in 𝓝 x, e.DefinedAt env v y := by
  induction e with
  | var | const => exact Eventually.of_forall fun _ => trivial
  | binary op left right ihl ihr =>
    obtain ⟨first, second, own⟩ := defined
    have divisor : ∀ᶠ y in 𝓝 x, op = .div → right.along env v y ≠ 0 := by
      by_cases division : op = .div
      · filter_upwards [(hasDerivAt_along second).continuousAt.eventually_ne (own division)] with y nonzero _
        exact nonzero
      · exact Eventually.of_forall fun _ same => absurd same division
    filter_upwards [ihl first, ihr second, divisor] with y first second own
    exact ⟨first, second, own⟩

theorem DefinedAt.iterate (defined : e.DefinedAt env v x) (k : ℕ) : ((Expr.deriv v)^[k] e).DefinedAt env v x :=
  divisors_iterate_deriv _ v defined k

/-- The derivatives of any order. -/
theorem eventually_iteratedDeriv (defined : e.DefinedAt env v x) (k : ℕ) :
    ∀ᶠ y in 𝓝 x, iteratedDeriv k (e.along env v) y = ((Expr.deriv v)^[k] e).along env v y := by
  induction k with
  | zero => exact Eventually.of_forall fun y => congrFun iteratedDeriv_zero y
  | succ k ih =>
    have near : iteratedDeriv k (e.along env v) =ᶠ[𝓝 x] ((Expr.deriv v)^[k] e).along env v := ih
    filter_upwards [near.deriv, eventually_definedAt (defined.iterate k)] with y same defined
    rw [iteratedDeriv_succ, same, (hasDerivAt_along defined).deriv, Function.iterate_succ_apply']

/-- The value can be differentiated any number of times. -/
theorem hasDerivAt_iteratedDeriv (defined : e.DefinedAt env v x) (k : ℕ) :
    HasDerivAt (iteratedDeriv k (e.along env v)) (iteratedDeriv (k + 1) (e.along env v) x) x := by
  have next := (eventually_iteratedDeriv defined (k + 1)).self_of_nhds
  rw [Function.iterate_succ_apply'] at next
  rw [next]
  exact (hasDerivAt_along (defined.iterate k)).congr_of_eventuallyEq (eventually_iteratedDeriv defined k)

end Hseos.Expr
