import Mathlib.Data.List.Basic
import Mathlib.Order.Nat
import Mathlib.Tactic.Common

/-! # Tilings of an interval

Pieces of an interval of natural numbers are pairs of a start and a length. They tile the interval if none
is empty and each starts where the one before it ends.
-/

namespace Hseos

/-- The pieces follow one another from `start` to `stop`. -/
def Tiles (start : ℕ) : List (ℕ × ℕ) → ℕ → Prop
  | [], stop => start = stop
  | piece :: rest, stop => piece.1 = start ∧ 0 < piece.2 ∧ Tiles (start + piece.2) rest stop

namespace Tiles

variable {start stop : ℕ} {pieces : List (ℕ × ℕ)}

theorem le (tiles : Tiles start pieces stop) : start ≤ stop := by
  induction pieces generalizing start with
  | nil => exact tiles.le
  | cons piece rest ih =>
    have := ih tiles.2.2
    omega

theorem start_le (tiles : Tiles start pieces stop) : ∀ piece ∈ pieces, start ≤ piece.1 := by
  induction pieces generalizing start with
  | nil => nofun
  | cons piece rest ih =>
    obtain ⟨first, _, others⟩ := tiles
    refine List.forall_mem_cons.mpr ⟨first.ge, fun other member => ?_⟩
    have := ih others other member
    omega

/-- No piece is empty. -/
theorem pos (tiles : Tiles start pieces stop) : ∀ piece ∈ pieces, 0 < piece.2 := by
  induction pieces generalizing start with
  | nil => nofun
  | cons piece rest ih => exact List.forall_mem_cons.mpr ⟨tiles.2.1, ih tiles.2.2⟩

/-- Each piece ends before the later ones. -/
theorem disjoint (tiles : Tiles start pieces stop) :
    pieces.Pairwise fun first second => first.1 + first.2 ≤ second.1 := by
  induction pieces generalizing start with
  | nil => exact .nil
  | cons piece rest ih =>
    obtain ⟨first, _, others⟩ := tiles
    refine .cons (fun other member => ?_) (ih others)
    have := others.start_le other member
    omega

/-- The pieces cover the interval and nothing else. -/
theorem mem_iff (tiles : Tiles start pieces stop) (i : ℕ) :
    (∃ piece ∈ pieces, piece.1 ≤ i ∧ i < piece.1 + piece.2) ↔ start ≤ i ∧ i < stop := by
  induction pieces generalizing start with
  | nil =>
    obtain rfl : start = stop := tiles
    constructor
    · rintro ⟨_, member, _⟩
      cases member
    · omega
  | cons piece rest ih =>
    obtain ⟨first, _, others⟩ := tiles
    have := others.le
    simp only [List.mem_cons, or_and_right, exists_or, exists_eq_left, ih others]
    omega

end Tiles

end Hseos
