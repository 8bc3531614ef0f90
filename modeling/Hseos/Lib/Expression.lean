import Mathlib.Algebra.DualNumber
import Mathlib.RingTheory.PowerSeries.Derivative
import Mathlib.RingTheory.PowerSeries.Inverse

/-! # Symbolic differentiation of rational expressions

Expressions over variables and constants with the four field operations, their value under an
interpretation, and their symbolic derivative by the sum, product and quotient rules. Evaluating
the derivative is the same as differentiating the value, for every map that satisfies the Leibniz
rule along a ring homomorphism and at which all divisors are units (`Expr.eval_deriv`). The tangent
part of dual numbers and the formal derivative of power series are two such maps: the first gives
the value of one derivative, the second that of every iterated one.
-/

namespace Hseos

/-- The four operations of a field. -/
inductive ArithOp where
  | add
  | sub
  | mul
  | div
deriving DecidableEq, Repr

/-- Expressions over variables `V` and constants `R`. -/
inductive Expr (V R : Type*) where
  | var (x : V)
  | const (c : R)
  | binary (op : ArithOp) (left right : Expr V R)
deriving DecidableEq, Repr

/-- What the symbols of an expression mean in `A`. -/
structure Interpretation (V R A : Type*) where
  var : V → A
  const : R → A
  apply : ArithOp → A → A → A

/-- The operations as they are, without any law. -/
def ArithOp.apply {A : Type*} [Add A] [Sub A] [Mul A] [Div A] : ArithOp → A → A → A
  | .add, a, b => a + b
  | .sub, a, b => a - b
  | .mul, a, b => a * b
  | .div, a, b => a / b

/-- The operations with division as multiplication by the inverse. -/
def ArithOp.applyInv {A : Type*} [Add A] [Sub A] [Mul A] [Inv A] : ArithOp → A → A → A
  | .add, a, b => a + b
  | .sub, a, b => a - b
  | .mul, a, b => a * b
  | .div, a, b => a * b⁻¹

theorem ArithOp.apply_eq_applyInv {F : Type*} [Field F] :
    (ArithOp.apply : ArithOp → F → F → F) = ArithOp.applyInv := by
  funext op a b
  cases op with
  | div => exact div_eq_mul_inv a b
  | add | sub | mul => rfl

namespace Expr

variable {V R A B : Type*}

/-- The value under an interpretation. -/
def eval (I : Interpretation V R A) : Expr V R → A
  | .var x => I.var x
  | .const c => I.const c
  | .binary op left right => I.apply op (left.eval I) (right.eval I)

/-- The height of the expression tree. -/
def depth : Expr V R → ℕ
  | .var _ | .const _ => 1
  | .binary _ left right => max left.depth right.depth + 1

theorem depth_pos (e : Expr V R) : 0 < e.depth := by
  cases e <;> simp [depth]

/-- The values of all divisors satisfy `P`. -/
def Divisors (I : Interpretation V R A) (P : A → Prop) : Expr V R → Prop
  | .var _ | .const _ => True
  | .binary op left right =>
      left.Divisors I P ∧ right.Divisors I P ∧ (op = .div → P (right.eval I))

/-- The derivative with respect to `v` of an operation, given those of its operands. -/
def derivBinary (op : ArithOp) (left right dLeft dRight : Expr V R) : Expr V R :=
  match op with
  | .add => .binary .add dLeft dRight
  | .sub => .binary .sub dLeft dRight
  | .mul => .binary .add (.binary .mul dLeft right) (.binary .mul dRight left)
  | .div => .binary .div (.binary .sub (.binary .mul dLeft right) (.binary .mul dRight left))
      (.binary .mul right right)

/-- The symbolic derivative with respect to `v`. -/
def deriv [DecidableEq V] [Zero R] [One R] (v : V) : Expr V R → Expr V R
  | .var x => if v = x then .const 1 else .const 0
  | .const _ => .const 0
  | .binary op left right => derivBinary op left right (left.deriv v) (right.deriv v)

section Divisors

variable [DecidableEq V] [Zero R] [One R] {F : Type*} [Field F]

/-- Differentiating brings in no divisor but squares of divisors. -/
theorem divisors_deriv {I : Interpretation V R F} (field : I.apply = ArithOp.applyInv) (v : V)
    {e : Expr V R} (divisors : e.Divisors I (· ≠ 0)) : (e.deriv v).Divisors I (· ≠ 0) := by
  induction e with
  | var x => unfold deriv; split <;> trivial
  | const => trivial
  | binary op left right ihl ihr =>
    obtain ⟨first, second, own⟩ := divisors
    have dFirst := ihl first
    have dSecond := ihr second
    cases op with
    | add | sub => exact ⟨dFirst, dSecond, nofun⟩
    | mul => exact ⟨⟨dFirst, second, nofun⟩, ⟨dSecond, first, nofun⟩, nofun⟩
    | div =>
      refine ⟨⟨⟨dFirst, second, nofun⟩, ⟨dSecond, first, nofun⟩, nofun⟩,
        ⟨second, second, nofun⟩, fun _ => ?_⟩
      simp only [eval, field, ArithOp.applyInv]
      exact mul_ne_zero (own rfl) (own rfl)

end Divisors

section Derivation

variable [CommRing A] [Inv A] [CommRing B] [Inv B]

/-- A ring homomorphism that respects inverses maps one interpretation to the other. -/
structure MapsTo (φ : A →+* B) (I : Interpretation V R A) (J : Interpretation V R B) : Prop where
  inv : ∀ a, φ a⁻¹ = (φ a)⁻¹
  var : ∀ x, φ (I.var x) = J.var x
  const : ∀ c, φ (I.const c) = J.const c
  source : I.apply = ArithOp.applyInv
  target : J.apply = ArithOp.applyInv

/-- A derivation along such a homomorphism under which constants have derivative zero and `v` is
the only variable that moves. -/
structure DerivesAlong [DecidableEq V] (φ : A →+* B) (D : A → B) (v : V)
    (I : Interpretation V R A) (J : Interpretation V R B) : Prop extends MapsTo φ I J where
  add : ∀ a b, D (a + b) = D a + D b
  sub : ∀ a b, D (a - b) = D a - D b
  mul : ∀ a b, D (a * b) = D a * φ b + D b * φ a
  dVar : ∀ x, D (I.var x) = if v = x then 1 else 0
  dConst : ∀ c, D (I.const c) = 0

variable {φ : A →+* B} {D : A → B} {v : V} {I : Interpretation V R A} {J : Interpretation V R B}

/-- The homomorphism maps values to values. -/
theorem eval_hom (maps : MapsTo φ I J) (e : Expr V R) : φ (e.eval I) = e.eval J := by
  induction e with
  | var x => exact maps.var x
  | const c => exact maps.const c
  | binary op left right ihl ihr =>
    simp only [eval, maps.source, maps.target, ← ihl, ← ihr]
    cases op with
    | add => exact map_add φ _ _
    | sub => exact map_sub φ _ _
    | mul => exact map_mul φ _ _
    | div => exact (map_mul φ _ _).trans (congrArg _ (maps.inv _))

/-- What is known of the divisors' images holds of the divisors. -/
theorem Divisors.lift (maps : MapsTo φ I J) {P : B → Prop} {Q : A → Prop} (lifts : ∀ a, P (φ a) → Q a)
    {e : Expr V R} (divisors : e.Divisors J P) : e.Divisors I Q := by
  induction e with
  | var | const => trivial
  | binary op left right ihl ihr =>
    obtain ⟨first, second, own⟩ := divisors
    refine ⟨ihl first, ihr second, fun division => lifts _ ?_⟩
    rw [eval_hom maps]
    exact own division

variable [DecidableEq V]

/-- The quotient rule for a derivation along a homomorphism. -/
theorem DerivesAlong.quotient (derives : DerivesAlong φ D v I J) {a b : A} (unit : b * b⁻¹ = 1)
    (square : φ b * φ b * (φ b * φ b)⁻¹ = 1) :
    D (a * b⁻¹) = (D a * φ b - D b * φ a) * (φ b * φ b)⁻¹ := by
  have whole : a * b⁻¹ * b = a := by rw [mul_assoc, mul_comm b⁻¹, unit, mul_one]
  have leibniz : D a = D (a * b⁻¹) * φ b + D b * φ (a * b⁻¹) := by
    rw [← derives.mul, whole]
  have image : φ a = φ (a * b⁻¹) * φ b := by rw [← map_mul, whole]
  calc D (a * b⁻¹) = D (a * b⁻¹) * (φ b * φ b * (φ b * φ b)⁻¹) := by rw [square, mul_one]
    _ = (D a * φ b - D b * φ a) * (φ b * φ b)⁻¹ := by rw [leibniz, image]; ring

/-- Evaluating the symbolic derivative is differentiating the value. -/
theorem eval_deriv [Zero R] [One R] (derives : DerivesAlong φ D v I J) (zero : J.const 0 = 0)
    (one : J.const 1 = 1) (units : ∀ b : A, IsUnit b → b * b⁻¹ = 1)
    (squares : ∀ b : B, IsUnit b → b * b⁻¹ = 1) {e : Expr V R} (divisors : e.Divisors I IsUnit) :
    (e.deriv v).eval J = D (e.eval I) := by
  induction e with
  | var x =>
    simp only [deriv, eval, derives.dVar]
    split
    · exact one
    · exact zero
  | const c => exact zero.trans (derives.dConst c).symm
  | binary op left right ihl ihr =>
    obtain ⟨first, second, own⟩ := divisors
    have dLeft := ihl first
    have dRight := ihr second
    have onLeft := eval_hom derives.toMapsTo left
    have onRight := eval_hom derives.toMapsTo right
    cases op with
    | add =>
      simp only [deriv, derivBinary, eval, derives.source, derives.target, ArithOp.applyInv, dLeft,
        dRight, derives.add]
    | sub =>
      simp only [deriv, derivBinary, eval, derives.source, derives.target, ArithOp.applyInv, dLeft,
        dRight, derives.sub]
    | mul =>
      simp only [deriv, derivBinary, eval, derives.source, derives.target, ArithOp.applyInv, dLeft,
        dRight, derives.mul, onLeft, onRight]
    | div =>
      have unit := own rfl
      have image : IsUnit (φ (right.eval I)) := unit.map φ
      simp only [deriv, derivBinary, eval, derives.source, derives.target, ArithOp.applyInv, dLeft,
        dRight, ← onLeft, ← onRight, derives.quotient (units _ unit) (squares _ (image.mul image))]

end Derivation

end Expr

namespace Interpretation

variable {V F : Type*}

/-- Evaluation in the type of the constants, under an assignment of the variables. -/
def plain [Add F] [Sub F] [Mul F] [Div F] (env : V → F) : Interpretation V F F where
  var := env
  const := id
  apply := ArithOp.apply

variable [Field F] [DecidableEq V]

/-- Evaluation in dual numbers: the variable `v` moves with tangent one. -/
def dual (env : V → F) (v : V) : Interpretation V F (DualNumber F) where
  var x := TrivSqZeroExt.inl (env x) + if v = x then DualNumber.eps else 0
  const := TrivSqZeroExt.inl
  apply := ArithOp.applyInv

/-- Evaluation in formal power series: the value as a function of a displacement of `v`. -/
noncomputable def taylor (env : V → F) (v : V) : Interpretation V F (PowerSeries F) where
  var x := PowerSeries.C (env x) + if v = x then PowerSeries.X else 0
  const := PowerSeries.C
  apply := ArithOp.applyInv

end Interpretation

namespace Expr

open PowerSeries TrivSqZeroExt

variable {V F : Type*} [Field F] [DecidableEq V]

theorem dual_derives (env : V → F) (v : V) :
    DerivesAlong (fstHom F F F).toRingHom snd v (Interpretation.dual env v) (Interpretation.plain env) where
  inv _ := rfl
  var x := by by_cases same : v = x <;> simp [Interpretation.dual, Interpretation.plain, same]
  const _ := rfl
  source := rfl
  target := ArithOp.apply_eq_applyInv
  add := snd_add
  sub := snd_sub
  mul a b := by
    simp only [snd_mul, smul_eq_mul, MulOpposite.smul_eq_mul_unop, MulOpposite.unop_op]
    change a.fst * b.snd + a.snd * b.fst = a.snd * b.fst + b.snd * a.fst
    ring
  dVar x := by by_cases same : v = x <;> simp [Interpretation.dual, same]
  dConst _ := rfl

theorem taylor_maps (env : V → F) (v : V) :
    MapsTo (PowerSeries.constantCoeff (R := F)) (Interpretation.taylor env v) (Interpretation.plain env) where
  inv := PowerSeries.constantCoeff_inv
  var x := by by_cases same : v = x <;> simp [Interpretation.taylor, Interpretation.plain, same]
  const _ := PowerSeries.constantCoeff_C _
  source := rfl
  target := ArithOp.apply_eq_applyInv

theorem taylor_derives (env : V → F) (v : V) :
    DerivesAlong (RingHom.id F⟦X⟧) (d⁄dX F) v (Interpretation.taylor env v)
      (Interpretation.taylor env v) where
  inv _ := rfl
  var _ := rfl
  const _ := rfl
  source := rfl
  target := rfl
  add := map_add _
  sub := map_sub _
  mul a b := by
    simp only [Derivation.leibniz, smul_eq_mul, RingHom.id_apply]
    ring
  dVar x := by by_cases same : v = x <;> simp [Interpretation.taylor, same]
  dConst _ := PowerSeries.derivative_C

/-- The value of the symbolic derivative is the tangent part of the value in dual numbers. -/
theorem eval_deriv_dual (env : V → F) (v : V) {e : Expr V F}
    (divisors : e.Divisors (Interpretation.plain env) (· ≠ 0)) :
    (e.deriv v).eval (Interpretation.plain env) = (e.eval (Interpretation.dual env v)).snd := by
  have derives := dual_derives env v
  refine eval_deriv derives rfl rfl (fun b unit => ?_) (fun b unit => mul_inv_cancel₀ unit.ne_zero)
    (divisors.lift derives.toMapsTo fun a nonzero => ?_)
  · exact TrivSqZeroExt.mul_inv_cancel (isUnit_iff_isUnit_fst.mp unit).ne_zero
  · exact isUnit_iff_isUnit_fst.mpr (isUnit_iff_ne_zero.mpr nonzero)

theorem divisors_iterate_deriv (env : V → F) (v : V) {e : Expr V F}
    (divisors : e.Divisors (Interpretation.plain env) (· ≠ 0)) (k : ℕ) :
    ((deriv v)^[k] e).Divisors (Interpretation.plain env) (· ≠ 0) := by
  induction k with
  | zero => exact divisors
  | succ k ih =>
    rw [Function.iterate_succ_apply']
    exact divisors_deriv ArithOp.apply_eq_applyInv v ih

/-- The value of an iterated symbolic derivative is the derivative of that order of the value, as a
function of the displacement of the variable, at zero. -/
theorem eval_iterate_deriv (env : V → F) (v : V) {e : Expr V F}
    (divisors : e.Divisors (Interpretation.plain env) (· ≠ 0)) (k : ℕ) :
    ((deriv v)^[k] e).eval (Interpretation.plain env) =
      PowerSeries.constantCoeff ((d⁄dX F)^[k] (e.eval (Interpretation.taylor env v))) := by
  have series : ((deriv v)^[k] e).eval (Interpretation.taylor env v) =
      (d⁄dX F)^[k] (e.eval (Interpretation.taylor env v)) := by
    have units : ∀ b : F⟦X⟧, IsUnit b → b * b⁻¹ = 1 := fun b unit =>
      PowerSeries.mul_inv_cancel b (PowerSeries.isUnit_iff_constantCoeff.mp unit).ne_zero
    induction k with
    | zero => rfl
    | succ k ih =>
      rw [Function.iterate_succ_apply', Function.iterate_succ_apply', ← ih]
      refine eval_deriv (taylor_derives env v) (map_zero _) (map_one _) units units ?_
      exact (divisors_iterate_deriv env v divisors k).lift (taylor_maps env v) fun a nonzero =>
        PowerSeries.isUnit_iff_constantCoeff.mpr (isUnit_iff_ne_zero.mpr nonzero)
  rw [← series]
  exact (eval_hom (taylor_maps env v) _).symm

end Expr

end Hseos
