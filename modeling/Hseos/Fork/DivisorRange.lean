import Hseos.Lib.Word
import Mathlib.Data.List.FinRange
import Mathlib.Data.Nat.Sqrt

/-! # The split of the divisor range

Each of the eight workers tries the divisors from `l` up to `r`, computed on 64-bit words from the
estimate `sqrt_part` of the root of the request. If the estimate is exact, nothing wraps around and
the eight ranges follow each other without gap or overlap, so together the workers try every `i` from
two to the root once.
-/

namespace Hseos.Fork

/-- `THREADS`. -/
def threads : ℕ := 8

/-- `(sqrt_part + THREADS - 1) / THREADS`. -/
def rangeStep (sqrtPart : ℕ) : ℕ := wordSub 64 (wordAdd 64 sqrtPart threads) 1 / threads

/-- `l`, at least two. -/
def rangeLow (step id : ℕ) : ℕ :=
  let l := wordMul 64 step id
  if l < 2 then 2 else l

/-- `r`. -/
def rangeHigh (step id : ℕ) : ℕ := wordMul 64 step (wordAdd 64 id 1)

/-- The numbers from `i` up to `r` and up to the root of the value. -/
def visitsFrom (value r i : ℕ) : List ℕ := (List.range' i (r - i)).filter fun i => i * i ≤ value

/-- The divisors of the value from `i` up to `r` and up to its root. -/
def divisorsFrom (value r i : ℕ) : List ℕ :=
  (List.range' i (r - i)).filter fun i => i * i ≤ value ∧ value % i = 0

/-- The two responses for each of these divisors. -/
def responsesFrom (value r i : ℕ) : List ℕ :=
  (divisorsFrom value r i).flatMap fun i => [i, value / i]

/-- The pairs `(i, value / i)` with `i` dividing the value and `2 ≤ i ≤ √value`. -/
def divisorPairs (value : ℕ) : List (ℕ × ℕ) :=
  ((List.range' 2 (value.sqrt - 1)).filter fun i => i ∣ value).map fun i => (i, value / i)

variable {value r i id : ℕ}

section Scan

/-- The loop variable does not wrap around in the range of a worker. -/
theorem next_exact (inside : i < r) (range : r ≤ 2 ^ 32) : wordAdd 64 i 1 = i + 1 :=
  wordAdd_of_lt (by omega)

/-- Only from `2 ^ 32` on does a square wrap around. -/
theorem square_lt (range : i < 2 ^ 32) : i * i < 2 ^ 64 := by
  calc
    i * i < 2 ^ 32 * 2 ^ 32 := Nat.mul_lt_mul'' range range
    _ = 2 ^ 64 := by decide

theorem square_exact (range : i < 2 ^ 32) : wordMul 64 i i = i * i :=
  wordMul_of_lt (square_lt range)

theorem range'_from (inside : i < r) : List.range' i (r - i) = i :: List.range' (i + 1) (r - (i + 1)) := by
  rw [show r - i = r - (i + 1) + 1 by omega, List.range'_succ]

/-- The scan goes on behind a divisor with both responses due. -/
theorem responsesFrom_divisor (inside : i < r) (small : i * i ≤ value) (divides : value % i = 0) :
    responsesFrom value r i = i :: value / i :: responsesFrom value r (i + 1) := by
  rw [responsesFrom, divisorsFrom, range'_from inside, List.filter_cons_of_pos (by simp [small, divides])]
  rfl

theorem responsesFrom_other (inside : i < r) (rest : value % i ≠ 0) :
    responsesFrom value r i = responsesFrom value r (i + 1) := by
  rw [responsesFrom, divisorsFrom, range'_from inside, List.filter_cons_of_neg (by simp [rest])]
  rfl

theorem visitsFrom_small (inside : i < r) (small : i * i ≤ value) :
    visitsFrom value r i = i :: visitsFrom value r (i + 1) := by
  rw [visitsFrom, range'_from inside, List.filter_cons_of_pos (by simp [small])]
  rfl

/-- A scan ends at the first number whose square is too large. -/
theorem visitsFrom_end (ended : ¬(i < r ∧ i * i ≤ value)) : visitsFrom value r i = [] := by
  rw [visitsFrom, List.filter_eq_nil_iff]
  intro j member
  obtain ⟨low, high⟩ := List.mem_range'_1.mp member
  have beyond : ¬i * i ≤ value := fun small => ended ⟨by omega, small⟩
  have monotone : i * i ≤ j * j := Nat.mul_le_mul low low
  rw [decide_eq_true_eq]
  omega

/-- The divisors found are among the numbers tried. -/
theorem divisorsFrom_eq_filter (value r i : ℕ) :
    divisorsFrom value r i = (visitsFrom value r i).filter fun i => value % i = 0 := by
  rw [divisorsFrom, visitsFrom, List.filter_filter]
  congr 1
  funext j
  rw [Bool.decide_and, Bool.and_comm]

/-- Beyond the root nothing is found. -/
theorem responsesFrom_end (ended : ¬(i < r ∧ i * i ≤ value)) : responsesFrom value r i = [] := by
  rw [responsesFrom, divisorsFrom_eq_filter, visitsFrom_end ended]
  rfl

end Scan

section Split

/-- Consecutive ranges, put together. -/
theorem flatMap_ranges (bound : ℕ → ℕ) (ordered : ∀ k, bound k ≤ bound (k + 1)) (n : ℕ) :
    (List.range n).flatMap (fun k => List.range' (bound k) (bound (k + 1) - bound k)) =
      List.range' (bound 0) (bound n - bound 0) := by
  have above (n : ℕ) : bound 0 ≤ bound n := by
    induction n with
    | zero => exact le_rfl
    | succ n ih => exact ih.trans (ordered n)
  induction n with
  | zero => simp
  | succ n ih =>
    have before := above n
    have next := ordered n
    rw [List.range_succ, List.flatMap_append, ih, List.flatMap_singleton]
    nth_rewrite 2 [show bound n = bound 0 + (bound n - bound 0) by omega]
    rw [List.range'_append_1]
    congr 1
    omega

theorem sqrt_lt_of_word (word : value < 2 ^ 64) : value.sqrt < 2 ^ 32 :=
  Nat.sqrt_lt'.mpr (by omega)

/-- With an exact estimate of the root the step is rounded up and nothing wraps around. -/
theorem rangeStep_exact (word : value < 2 ^ 64) :
    rangeStep (value.sqrt + 1) = (value.sqrt + 8) / 8 := by
  have root := sqrt_lt_of_word word
  rw [rangeStep, threads, wordAdd_of_lt (by omega), wordSub_of_le (by omega) (by omega)]
  congr 1

theorem rangeStep_le (word : value < 2 ^ 64) : rangeStep (value.sqrt + 1) ≤ 2 ^ 29 := by
  have root := sqrt_lt_of_word word
  rw [rangeStep_exact word]
  omega

theorem rangeLow_exact (word : value < 2 ^ 64) (worker : id < threads) :
    rangeLow (rangeStep (value.sqrt + 1)) id = max 2 (rangeStep (value.sqrt + 1) * id) := by
  have step := rangeStep_le word
  have product : rangeStep (value.sqrt + 1) * id ≤ 2 ^ 29 * 8 :=
    Nat.mul_le_mul step (by rw [threads] at worker; omega)
  rw [rangeLow, wordMul_of_lt (by omega)]
  split <;> omega

theorem rangeHigh_exact (word : value < 2 ^ 64) (worker : id < threads) :
    rangeHigh (rangeStep (value.sqrt + 1)) id = rangeStep (value.sqrt + 1) * (id + 1) := by
  have step := rangeStep_le word
  rw [threads] at worker
  have product : rangeStep (value.sqrt + 1) * (id + 1) ≤ 2 ^ 29 * 8 := Nat.mul_le_mul step (by omega)
  rw [rangeHigh, wordAdd_of_lt (by omega), wordMul_of_lt (by omega)]

/-- No worker goes beyond `2 ^ 32`. -/
theorem rangeHigh_le (word : value < 2 ^ 64) (worker : id < threads) :
    rangeHigh (rangeStep (value.sqrt + 1)) id ≤ 2 ^ 32 := by
  rw [rangeHigh_exact word worker]
  rw [threads] at worker
  exact (Nat.mul_le_mul (rangeStep_le word) (show id + 1 ≤ 8 by omega)).trans (by decide)

theorem rangeLow_ge (step id : ℕ) : 2 ≤ rangeLow step id := by
  simp only [rangeLow]
  split <;> omega

theorem rangeLow_le (word : value < 2 ^ 64) (worker : id < threads) :
    rangeLow (rangeStep (value.sqrt + 1)) id ≤ 2 ^ 32 := by
  have product := Nat.mul_le_mul (rangeStep_le word) (Nat.le_of_lt worker)
  rw [threads] at product
  rw [rangeLow_exact word worker]
  omega

/-- A scan from two beyond the root tries the numbers up to the root. -/
theorem visitsFrom_root {bound : ℕ} (covered : value.sqrt < bound) :
    visitsFrom value bound 2 = List.range' 2 (value.sqrt - 1) := by
  have parts : List.range' 2 (bound - 2) = List.range' 2 (value.sqrt - 1) ++
      List.range' (max 2 (value.sqrt + 1)) (bound - max 2 (value.sqrt + 1)) := by
    rw [show max 2 (value.sqrt + 1) = 2 + (value.sqrt - 1) by omega, List.range'_append_1]
    congr 1
    omega
  have small : ∀ i ∈ List.range' 2 (value.sqrt - 1), decide (i * i ≤ value) = true := by
    intro i member
    have bounds := List.mem_range'_1.mp member
    exact decide_eq_true (Nat.le_sqrt.mp (by omega))
  have large : ∀ i ∈ List.range' (max 2 (value.sqrt + 1)) (bound - max 2 (value.sqrt + 1)),
      ¬decide (i * i ≤ value) = true := by
    intro i member
    have bounds := List.mem_range'_1.mp member
    rw [decide_eq_true_eq, ← Nat.le_sqrt]
    omega
  rw [visitsFrom, parts, List.filter_append, List.filter_eq_self.mpr small,
    List.filter_eq_nil_iff.mpr large, List.append_nil]

/-- The eight ranges, one after the other. -/
theorem ranges_split (word : value < 2 ^ 64) :
    (List.range threads).flatMap (fun id => List.range' (rangeLow (rangeStep (value.sqrt + 1)) id)
        (rangeHigh (rangeStep (value.sqrt + 1)) id - rangeLow (rangeStep (value.sqrt + 1)) id)) =
      List.range' 2 (max 2 (rangeStep (value.sqrt + 1) * threads) - 2) := by
  have low (id : ℕ) (worker : id < threads) := rangeLow_exact word worker
  have high (id : ℕ) (worker : id < threads) := rangeHigh_exact word worker
  generalize rangeStep (value.sqrt + 1) = step at *
  have ordered (id : ℕ) : max 2 (step * id) ≤ max 2 (step * (id + 1)) :=
    max_le_max le_rfl (Nat.mul_le_mul_left _ (Nat.le_succ id))
  have ranges : ∀ id ∈ List.range threads,
      List.range' (rangeLow step id) (rangeHigh step id - rangeLow step id) =
        List.range' (max 2 (step * id)) (max 2 (step * (id + 1)) - max 2 (step * id)) := by
    intro id member
    have worker := List.mem_range.mp member
    rw [low id worker, high id worker]
    congr 1
    omega
  rw [List.flatMap_congr ranges, flatMap_ranges (fun id => max 2 (step * id)) ordered]
  have zero : max 2 (step * 0) = 2 := by omega
  simp only [zero]

/-- The eight ranges go beyond the root. -/
theorem sqrt_lt_ranges (word : value < 2 ^ 64) :
    value.sqrt < max 2 (rangeStep (value.sqrt + 1) * threads) := by
  rw [rangeStep_exact word, threads]
  omega

/-- Together the workers try the numbers from two to the root, each of them once. -/
theorem visitsFrom_split (word : value < 2 ^ 64) :
    (List.range threads).flatMap (fun id => visitsFrom value
        (rangeHigh (rangeStep (value.sqrt + 1)) id) (rangeLow (rangeStep (value.sqrt + 1)) id)) =
      List.range' 2 (value.sqrt - 1) := by
  simp only [visitsFrom]
  rw [← List.filter_flatMap, ranges_split word]
  exact visitsFrom_root (sqrt_lt_ranges word)

/-- The divisors the eight workers find, one after the other, are all divisors up to the root. -/
theorem divisorsFrom_split (word : value < 2 ^ 64) :
    (List.range threads).flatMap (fun id => divisorsFrom value
        (rangeHigh (rangeStep (value.sqrt + 1)) id) (rangeLow (rangeStep (value.sqrt + 1)) id)) =
      divisorsFrom value (value.sqrt + 1) 2 := by
  simp only [divisorsFrom_eq_filter]
  rw [← List.filter_flatMap, visitsFrom_split word, visitsFrom_root (Nat.lt_succ_self _)]

/-- Up to the root, the divisors found are those of the pairs. -/
theorem divisorPairs_eq (value : ℕ) :
    divisorPairs value = (divisorsFrom value (value.sqrt + 1) 2).map fun i => (i, value / i) := by
  rw [divisorPairs, divisorsFrom_eq_filter, visitsFrom_root (Nat.lt_succ_self _)]
  simp only [Nat.dvd_iff_mod_eq_zero]

/-- Together the workers have both numbers of every pair to store. -/
theorem responsesFrom_split (word : value < 2 ^ 64) :
    (List.range threads).flatMap (fun id => responsesFrom value
        (rangeHigh (rangeStep (value.sqrt + 1)) id) (rangeLow (rangeStep (value.sqrt + 1)) id)) =
      (divisorPairs value).flatMap fun pair => [pair.1, pair.2] := by
  simp only [responsesFrom]
  rw [← List.flatMap_assoc, divisorsFrom_split word, divisorPairs_eq, List.flatMap_map]

end Split

end Hseos.Fork
