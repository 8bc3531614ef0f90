import Hseos.Files.Merge
import Hseos.Lib.Interleave

/-! # The loop of `merge` on two descriptors

Whatever is opened, once an `int` of each of two descriptors is peeked, the loop merges what they hold: the
integer peeked and the whole ones ahead. The bytes of a record that is not whole are read into `peek`, but the
descriptor is closed then.
-/

namespace Hseos.Files

variable {a b : List (BitVec 32)} {tail₀ tail₁ : List (BitVec 8)}

theorem ints_of_short (short : tail₀.length < 4) : ints tail₀ = [] := by
  match tail₀ with
  | [] | [_] | [_, _] | [_, _, _] => rfl
  | _ :: _ :: _ :: _ :: _ =>
    simp only [List.length_cons] at short
    omega

/-- A record that is not whole holds no integer. -/
theorem ints_flatMap_append (a : List (BitVec 32)) (short : tail₀.length < 4) :
    ints (a.flatMap encode ++ tail₀) = a := by
  induction a with
  | nil => exact ints_of_short short
  | cons v rest ih => rw [List.flatMap_cons, List.append_assoc, ints_encode, ih]

/-- From an integer peeked of each of two descriptors on, with any integers ahead and a record that is not
whole behind them, the loop closes both descriptors. It prints the merge of the two sequences, where
`List.merge` takes the head of the first one if it is not greater; every integer is printed once, in the order
of its sequence, and the output ascends if both sequences do. -/
theorem merge_loop_greedy (s : Merging) {fails₀ fails₁ : Bool}
    (first : s.f 0 = some ⟨a.flatMap encode ++ tail₀, fails₀⟩)
    (second : s.f 1 = some ⟨b.flatMap encode ++ tail₁, fails₁⟩) (short₀ : tail₀.length < 4)
    (short₁ : tail₁.length < 4) :
    (∀ i, s.loop.2.f i = none) ∧
      s.loop.1 = ((s.peek 0 :: a).merge (s.peek 1 :: b) fun x y => x.toInt ≤ y.toInt).map BitVec.toInt ∧
      Interleaves ((s.peek 0 :: a).map BitVec.toInt) ((s.peek 1 :: b).map BitVec.toInt) s.loop.1 ∧
      (Ascending (s.peek 0 :: a) → Ascending (s.peek 1 :: b) → s.loop.1.Pairwise (· ≤ ·)) := by
  obtain ⟨printed, closed⟩ := s.loop_eq
  rw [s.pending_open first, s.pending_open second] at printed
  dsimp only at printed
  rw [ints_flatMap_append a short₀, ints_flatMap_append b short₁] at printed
  refine ⟨closed, printed, ?_, fun ascending ascending' => ?_⟩
  · rw [printed]
    exact (Interleaves.merge _ _ _).map _
  · rw [printed]
    exact ascending_merge ascending ascending'

/-- With 5 peeked of the one descriptor and 3 of the other one, 7 ahead in this one, and a byte behind each. -/
def fiveAndThree : Merging := ⟨![some ⟨[1], false⟩, some ⟨encode 7 ++ [2], false⟩], ![5, 3]⟩

theorem merge_loop_greedy_three : fiveAndThree.loop.1 = [3, 5, 7] := by
  obtain ⟨_, printed, _⟩ := merge_loop_greedy (a := []) (b := [7]) fiveAndThree rfl rfl
    (show [1].length < 4 by decide) (show [2].length < 4 by decide)
  rw [printed]
  simp [fiveAndThree]

end Hseos.Files
