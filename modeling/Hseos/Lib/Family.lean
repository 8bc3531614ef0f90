import Mathlib.Data.Fintype.BigOperators
import Mathlib.Data.Fintype.Card
import Mathlib.Logic.Function.Basic

/-! # Families of parties

A system with any number of like parties keeps their states in a function. A step changes one of them, so
a property of all of them, or of all of some kind, is checked for the new state only. What at most one
party has is counted by a sum over the family.
-/

namespace Hseos

variable {ι β : Type*} [DecidableEq ι] {f : ι → β} {i : ι} {b : β}

/-- A property of the parties among some, after the state of one has changed. -/
theorem forall_update (among : ι → Prop) {P : ι → β → Prop} (new : among i → P i b)
    (old : ∀ j, among j → P j (f j)) (j : ι) (member : among j) : P j (Function.update f i b j) := by
  rcases eq_or_ne j i with rfl | other
  · rw [Function.update_self]
    exact new member
  · rw [Function.update_of_ne other]
    exact old j member

/-- The same for a property of all parties. -/
theorem forall_update_all {P : ι → β → Prop} (new : P i b) (old : ∀ j, P j (f j)) (j : ι) :
    P j (Function.update f i b j) :=
  forall_update (fun _ => True) (fun _ => new) (fun j _ => old j) j trivial

/-- The other parties have not changed. -/
theorem forall_update_others {P : ι → β → Prop} (b : β) (old : ∀ j ≠ i, P j (f j)) (j : ι) (other : j ≠ i) :
    P j (Function.update f i b j) :=
  forall_update (· ≠ i) (fun apart => absurd rfl apart) old j other

variable [Fintype ι]

omit [DecidableEq ι] in
theorem card_filter_none {p : ι → Prop} [DecidablePred p] (none : ∀ i, ¬p i) :
    (Finset.univ.filter p).card = 0 :=
  Finset.card_eq_zero.mpr (Finset.filter_eq_empty_iff.mpr fun i _ => none i)

omit [DecidableEq ι] in
theorem card_filter_only {p : ι → Prop} [DecidablePred p] (t : ι) (only : ∀ i ≠ t, ¬p i) :
    (Finset.univ.filter p).card ≤ 1 := by
  have here : ∀ i ∈ Finset.univ.filter p, i = t := by
    intro i member
    by_contra other
    exact only i other (Finset.mem_filter.mp member).2
  exact Finset.card_le_one.mpr fun i first j second => (here i first).trans (here j second).symm

end Hseos
