import Mathlib.Data.List.Basic

/-! # Interleavings of two lists -/

namespace Hseos

variable {α β : Type*}

/-- The last list has the elements of the other two, each in its own order. -/
inductive Interleaves : List α → List α → List α → Prop
  | nil : Interleaves [] [] []
  | left {x : α} {a b out : List α} (rest : Interleaves a b out) : Interleaves (x :: a) b (x :: out)
  | right {x : α} {a b out : List α} (rest : Interleaves a b out) : Interleaves a (x :: b) (x :: out)

namespace Interleaves

theorem left_only (a : List α) : Interleaves a [] a := by
  induction a with
  | nil => exact .nil
  | cons x rest ih => exact .left ih

theorem right_only (b : List α) : Interleaves [] b b := by
  induction b with
  | nil => exact .nil
  | cons x rest ih => exact .right ih

theorem map (f : α → β) {a b out : List α} (both : Interleaves a b out) :
    Interleaves (a.map f) (b.map f) (out.map f) := by
  induction both with
  | nil => exact .nil
  | left _ ih => exact .left ih
  | right _ ih => exact .right ih

/-- Merging takes each element of both lists once. -/
theorem merge (le : α → α → Bool) (a b : List α) : Interleaves a b (a.merge b le) := by
  induction a generalizing b with
  | nil =>
    rw [List.nil_merge]
    exact right_only b
  | cons x rest ih =>
    induction b with
    | nil =>
      rw [List.merge_right]
      exact left_only _
    | cons y others ih' =>
      rw [List.cons_merge_cons]
      split_ifs
      · exact .left (ih _)
      · exact .right ih'

end Interleaves

end Hseos
