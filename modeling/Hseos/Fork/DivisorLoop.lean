import Hseos.Fork.DivisorRange
import Mathlib.Data.List.Pairwise

/-! # The loops of the eight workers

The `for` statement of `loop_fd` on 64-bit words, with a trace of what it evaluates: the loop variables
that were squared, those whose body was entered and the pairs that were recorded. If the estimate of the
root is exact no product wraps around, and the eight traces together enter every body from two to the
root once.
-/

namespace Hseos.Fork

/-- What the loop of a worker has evaluated. -/
structure LoopTrace where
  squared : List ℕ
  visited : List ℕ
  recorded : List (ℕ × ℕ)
deriving DecidableEq, Repr

/-- The loop of `loop_fd`, from `i` on. -/
def divisorLoop (value r : ℕ) : ℕ → ℕ → Except Fault LoopTrace
  | 0, _ => .error .outOfFuel
  | fuel + 1, i =>
      if i < r then
        -- `i * i` is only evaluated while `i < r`
        if wordMul 64 i i ≤ value then do
          let remainder ← wordMod value i
          let rest ← divisorLoop value r fuel (wordAdd 64 i 1)
          .ok {
            squared := i :: rest.squared
            visited := i :: rest.visited
            recorded := if remainder = 0 then (i, value / i) :: rest.recorded else rest.recorded }
        else .ok ⟨[i], [], []⟩
      else .ok ⟨[], [], []⟩

/-- What `loop_fd` does between the read of a request other than zero and the write. -/
def divisorScan (sqrtPart : ℕ → ℕ) (fuel id value : ℕ) : Except Fault LoopTrace :=
  let step := rangeStep (sqrtPart value)
  divisorLoop value (rangeHigh step id) fuel (rangeLow step id)

variable {value r i fuel : ℕ}

/-- On a range below `2 ^ 32` the loop ends, squares no number that would wrap around, and enters the
bodies and records the pairs of its range. -/
theorem divisorLoop_spec (value : ℕ) (two : 2 ≤ i) (range : r ≤ 2 ^ 32) (enough : r - i < fuel) :
    ∃ trace, divisorLoop value r fuel i = .ok trace ∧ (∀ j ∈ trace.squared, j < r) ∧
      trace.visited = visitsFrom value r i ∧
      trace.recorded = (divisorsFrom value r i).map fun i => (i, value / i) := by
  induction fuel generalizing i with
  | zero => omega
  | succ fuel ih =>
    by_cases inside : i < r
    · by_cases small : i * i ≤ value
      · obtain ⟨rest, ran, squared, visited, recorded⟩ := ih (i := i + 1) (by omega) (by omega)
        refine ⟨⟨i :: rest.squared, i :: rest.visited,
          if value % i = 0 then (i, value / i) :: rest.recorded else rest.recorded⟩, ?_, ?_, ?_, ?_⟩
        · rw [divisorLoop, if_pos inside, square_exact (by omega), if_pos small,
            wordMod_of_pos (by omega), next_exact inside range, ran]
          rfl
        · intro j member
          rcases List.mem_cons.mp member with rfl | later
          · exact inside
          · exact squared j later
        · rw [visitsFrom_small inside small, visited]
        · rw [divisorsFrom_eq_filter, visitsFrom_small inside small, recorded, divisorsFrom_eq_filter,
            List.filter_cons]
          simp only [decide_eq_true_eq]
          split <;> rfl
      · refine ⟨⟨[i], [], []⟩, ?_, ?_, ?_, ?_⟩
        · rw [divisorLoop, if_pos inside, square_exact (by omega), if_neg small]
        · simpa using inside
        · exact (visitsFrom_end fun found => small found.2).symm
        · rw [divisorsFrom_eq_filter, visitsFrom_end fun found => small found.2]
          rfl
    · refine ⟨⟨[], [], []⟩, ?_, ?_, ?_, ?_⟩
      · rw [divisorLoop, if_neg inside]
      · simp
      · exact (visitsFrom_end fun found => inside found.1).symm
      · rw [divisorsFrom_eq_filter, visitsFrom_end fun found => inside found.1]
        rfl

/-- One loop of the eight, with everything it evaluates. -/
theorem divisorScan_spec {sqrtPart : ℕ → ℕ} (word : value < 2 ^ 64)
    (exact_ : sqrtPart value = value.sqrt + 1) (enough : 2 ^ 32 < fuel) (id : Fin threads) :
    ∃ trace, divisorScan sqrtPart fuel id value = .ok trace ∧ (∀ i ∈ trace.squared, i * i < 2 ^ 64) ∧
      trace.visited = visitsFrom value (rangeHigh (rangeStep (value.sqrt + 1)) id)
        (rangeLow (rangeStep (value.sqrt + 1)) id) ∧
      trace.recorded = (divisorsFrom value (rangeHigh (rangeStep (value.sqrt + 1)) id)
        (rangeLow (rangeStep (value.sqrt + 1)) id)).map fun i => (i, value / i) := by
  have range := rangeHigh_le word id.isLt
  obtain ⟨trace, ran, squared, visited, recorded⟩ := divisorLoop_spec value
    (rangeLow_ge (rangeStep (value.sqrt + 1)) id) range (show _ < fuel by omega)
  refine ⟨trace, ?_, ?_, visited, recorded⟩
  · rw [divisorScan, exact_, ran]
  · intro i member
    exact square_lt ((squared i member).trans_le range)

/-- An element of lists that share nothing is in one of them only. -/
theorem existsUnique_of_nodup_flatMap {α : Type*} {n : ℕ} {f : Fin n → List α} {a : α}
    (once : ((List.finRange n).flatMap f).Nodup) (member : a ∈ (List.finRange n).flatMap f) :
    ∃! k, a ∈ f k := by
  obtain ⟨k, _, inside⟩ := List.mem_flatMap.mp member
  have apart := (List.nodup_flatMap.mp once).2
  have : Std.Symm (Function.onFun List.Disjoint f) := ⟨fun _ _ => List.disjoint_symm⟩
  refine ⟨k, inside, fun j again => ?_⟩
  by_contra other
  exact apart.forall (List.mem_finRange j) (List.mem_finRange k) other again inside

/-- For every number of 64 bits, with an exact estimate of its root: no product wraps around that a worker
evaluates, and the workers together enter the body of the loop once for each `i` from two to the root
and for no other, so that each pair is recorded by one worker. -/
theorem workers_visit_once (sqrtPart : ℕ → ℕ) (value fuel : ℕ) (_ : 1 ≤ value)
    (word : value < 2 ^ 64) (exact_ : sqrtPart value = value.sqrt + 1) (enough : 2 ^ 32 < fuel) :
    ∃ trace : Fin threads → LoopTrace,
      (∀ id : Fin threads, rangeStep (sqrtPart value) * id < 2 ^ 64 ∧
        rangeStep (sqrtPart value) * (id + 1) < 2 ^ 64 ∧
        divisorScan sqrtPart fuel id value = .ok (trace id) ∧
        ∀ i ∈ (trace id).squared, i * i < 2 ^ 64) ∧
      (List.finRange threads).flatMap (fun id => (trace id).visited) =
        List.range' 2 (value.sqrt - 1) ∧
      (∀ i, 2 ≤ i → i ≤ value.sqrt → ∃! id, i ∈ (trace id).visited) ∧
      (List.finRange threads).flatMap (fun id => (trace id).recorded) = divisorPairs value ∧
      ∀ pair ∈ divisorPairs value, ∃! id, pair ∈ (trace id).recorded := by
  choose trace ran squares visited recorded using divisorScan_spec word exact_ enough
  have visits : (List.finRange threads).flatMap (fun id => (trace id).visited) =
      List.range' 2 (value.sqrt - 1) := by
    rw [← visitsFrom_split word, ← List.map_coe_finRange_eq_range, List.flatMap_map]
    simp only [visited]
  have pairs : (List.finRange threads).flatMap (fun id => (trace id).recorded) = divisorPairs value := by
    rw [divisorPairs_eq, ← divisorsFrom_split word, ← List.map_coe_finRange_eq_range, List.flatMap_map,
      List.map_flatMap]
    simp only [recorded]
  have step := rangeStep_le word
  refine ⟨trace, fun id => ⟨?_, ?_, ran id, squares id⟩, visits, fun i low high => ?_, pairs,
    fun pair member => ?_⟩
  · rw [exact_]
    exact (Nat.mul_le_mul step id.isLt.le).trans_lt (by decide)
  · rw [exact_]
    exact (Nat.mul_le_mul step (show id.val + 1 ≤ threads from id.isLt)).trans_lt (by decide)
  · apply existsUnique_of_nodup_flatMap (visits ▸ List.nodup_range')
    rw [visits]
    exact List.mem_range'_1.mpr ⟨low, by omega⟩
  · have once : (divisorPairs value).Nodup := by
      have divisors := (List.nodup_range' (s := 2) (n := value.sqrt - 1)).filter fun i => i ∣ value
      exact divisors.map fun i j same => congrArg Prod.fst same
    exact existsUnique_of_nodup_flatMap (pairs ▸ once) (pairs ▸ member)

/-- For the largest number the last divisor tried is the one before `2 ^ 32`. -/
theorem workers_visit_once_max :
    ∃ trace : Fin threads → LoopTrace,
      (∀ id : Fin threads, divisorScan (fun _ => 2 ^ 32) (2 ^ 33) id (2 ^ 64 - 1) = .ok (trace id)) ∧
      ∃! id, 2 ^ 32 - 1 ∈ (trace id).visited := by
  have root : (2 ^ 64 - 1).sqrt = 2 ^ 32 - 1 := (Nat.eq_sqrt.mpr (by decide)).symm
  obtain ⟨trace, scans, _, once, _⟩ := workers_visit_once (fun _ => 2 ^ 32) (2 ^ 64 - 1) (2 ^ 33)
    (by decide) (by decide) (by rw [root]; rfl) (by decide)
  exact ⟨trace, fun id => (scans id).2.2.1, once (2 ^ 32 - 1) (by decide) root.ge⟩

end Hseos.Fork
