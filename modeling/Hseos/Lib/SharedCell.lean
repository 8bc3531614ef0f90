import Hseos.Lib.Family
import Hseos.Lib.Machine
import Mathlib.Algebra.Order.BigOperators.Group.Finset

/-! # Additions to a shared cell

Some threads add one to a cell, each the same number of times. An addition is a load of the cell and a store
of what was loaded and one more, and other threads may come between the two, so that their additions are
lost. If they never do, nothing is lost; if they may, two threads can end with any sum from two on.
-/

namespace Hseos

/-- How many additions a thread has still to store, and what it has loaded for the next one. -/
structure Adder where
  left : ℕ
  loaded : Option ℕ
deriving DecidableEq

structure Additions (ι : Type*) where
  cell : ℕ
  adder : ι → Adder

namespace Additions

variable {ι : Type*} [DecidableEq ι]

def setAdder (t : ι) (a : Adder) (s : Additions ι) : Additions ι := { s with adder := Function.update s.adder t a }

/-- A thread loads the cell, or stores its sum. -/
def step (s : Additions ι) (t : ι) : Option (Additions ι) :=
  match (s.adder t).loaded with
  | some v => some { s.setAdder t ⟨(s.adder t).left - 1, none⟩ with cell := v + 1 }
  | none => if (s.adder t).left = 0 then none else some (s.setAdder t ⟨(s.adder t).left, some s.cell⟩)

/-- Each thread adds `n` times. -/
def machine (ι : Type*) [DecidableEq ι] (n : ℕ) : Machine (Additions ι) ι where
  start s := s = ⟨0, fun _ => ⟨n, none⟩⟩
  step := step

/-- All additions have been stored. -/
def Done (s : Additions ι) : Prop := ∀ t, (s.adder t).left = 0

variable {n : ℕ} {s s' : Additions ι} {t : ι} {allowed : Additions ι → ι → Prop}

/-- What a step does. -/
theorem step_cases (moved : s.step t = some s') :
    (∃ v, (s.adder t).loaded = some v ∧
      s' = { s.setAdder t ⟨(s.adder t).left - 1, none⟩ with cell := v + 1 }) ∨
    ((s.adder t).loaded = none ∧ 0 < (s.adder t).left ∧
      s' = s.setAdder t ⟨(s.adder t).left, some s.cell⟩) := by
  simp only [step] at moved
  split at moved
  · rename_i v loaded
    cases moved
    exact .inl ⟨v, loaded, rfl⟩
  · rename_i loaded
    split_ifs at moved with none
    cases moved
    exact .inr ⟨loaded, Nat.pos_of_ne_zero none, rfl⟩

section Sum

variable [Fintype ι]

/-- The additions that have not been stored. -/
def missing (s : Additions ι) : ℕ := ∑ t, (s.adder t).left

theorem missing_load (v : Option ℕ) : (s.setAdder t ⟨(s.adder t).left, v⟩).missing = s.missing := by
  apply Finset.sum_congr rfl
  intro u _
  simp only [setAdder, Function.update_apply]
  split_ifs with same
  · rw [same]
  · rfl

theorem missing_store (some_ : 0 < (s.adder t).left) (v : Option ℕ) :
    (s.setAdder t ⟨(s.adder t).left - 1, v⟩).missing + 1 = s.missing := by
  have others : ∀ u ∈ Finset.univ.erase t, (Function.update s.adder t ⟨(s.adder t).left - 1, v⟩ u).left =
      (s.adder u).left := by
    intro u member
    rw [Function.update_of_ne (Finset.ne_of_mem_erase member)]
  rw [missing, missing, ← Finset.sum_erase_add _ _ (Finset.mem_univ t),
    ← Finset.sum_erase_add Finset.univ (fun u => (s.adder u).left) (Finset.mem_univ t)]
  simp only [setAdder, Finset.sum_congr rfl others, Function.update_self]
  omega

omit [DecidableEq ι] in
theorem missing_of_done (done : s.Done) : s.missing = 0 := Finset.sum_eq_zero fun t _ => done t

/-- No other thread has loaded the cell without having stored its sum. -/
def Alone (s : Additions ι) (t : ι) : Prop := ∀ u ≠ t, (s.adder u).loaded = none

/-- Nothing has been lost: the cell lacks what is missing, and holds what was loaded from it. -/
structure Exact (n : ℕ) (s : Additions ι) : Prop where
  loaded : ∀ t v, (s.adder t).loaded = some v → v = s.cell ∧ 0 < (s.adder t).left
  sum : s.cell + s.missing = Fintype.card ι * n

theorem Exact.step (exact : s.Exact n) (alone : s.Alone t) (moved : s.step t = some s') : s'.Exact n := by
  obtain ⟨v, loaded, rfl⟩ | ⟨-, some_, rfl⟩ := step_cases moved
  · obtain ⟨rfl, some_⟩ := exact.loaded t v loaded
    refine ⟨?_, ?_⟩
    · intro u w
      simp only [setAdder, Function.update_apply]
      split_ifs with same
      · nofun
      · intro other
        cases (alone u same).symm.trans other
    · have stored := missing_store some_ none
      have sum := exact.sum
      simp only [missing, setAdder] at stored sum ⊢
      omega
  · refine ⟨?_, ?_⟩
    · intro u w
      simp only [setAdder, Function.update_apply]
      split_ifs with same
      · rintro ⟨⟩
        exact ⟨rfl, some_⟩
      · exact exact.loaded u w
    · rw [missing_load]
      exact exact.sum

/-- Where no two threads are between a load and a store, the sum is that of all additions. -/
theorem exact_of_reachable (alone : ∀ s t, allowed s t → s.Alone t)
    (reachable : (machine ι n).Reachable allowed s) : s.Exact n := by
  apply reachable.invariant
  · rintro s rfl
    refine ⟨nofun, ?_⟩
    rw [Nat.zero_add]
    exact Finset.sum_const_nat fun _ _ => rfl
  · intro s s' t permitted exact moved
    exact exact.step (alone s t permitted) moved

/-- Whatever is lost, the cell lacks what is missing, and so does what was loaded; but each store leaves at
least one, and what a thread loads behind its first store is not zero. -/
structure Raced (n : ℕ) (s : Additions ι) : Prop where
  left_le : ∀ t, (s.adder t).left ≤ n
  loaded : ∀ t v, (s.adder t).loaded = some v →
    0 < (s.adder t).left ∧ v + s.missing ≤ Fintype.card ι * n ∧ ((s.adder t).left < n → 1 ≤ v)
  upper : s.cell + s.missing ≤ Fintype.card ι * n
  lower : (∃ t, (s.adder t).left < n) → 1 ≤ s.cell
  final : s.Done → min n 2 ≤ s.cell

theorem Raced.step (raced : s.Raced n) (moved : s.step t = some s') : s'.Raced n := by
  obtain ⟨v, loaded, rfl⟩ | ⟨-, some_, rfl⟩ := step_cases moved
  · obtain ⟨some_, bound, positive⟩ := raced.loaded t v loaded
    have stored := missing_store some_ none
    have most := raced.left_le t
    refine ⟨?_, ?_, ?_, fun _ => Nat.le_add_left 1 v, ?_⟩
    · intro u
      simp only [setAdder, Function.update_apply]
      split_ifs with same
      · exact (Nat.sub_le _ _).trans most
      · exact raced.left_le u
    · intro u w
      simp only [setAdder, Function.update_apply]
      split_ifs with same
      · nofun
      · intro other
        obtain ⟨some_', bound', positive'⟩ := raced.loaded u w other
        refine ⟨some_', ?_, positive'⟩
        simp only [missing, setAdder] at stored bound' ⊢
        omega
    · simp only [missing, setAdder] at stored bound ⊢
      omega
    · -- the store behind which nothing is missing is the last one of its thread
      intro done
      have last := done t
      simp only [setAdder, Function.update_self] at last
      simp only
      by_cases first : (s.adder t).left < n
      · have := positive first
        omega
      · omega
  · refine ⟨?_, ?_, ?_, ?_, ?_⟩
    · intro u
      simp only [setAdder, Function.update_apply]
      split_ifs with same
      · exact raced.left_le t
      · exact raced.left_le u
    · intro u w
      rw [missing_load]
      simp only [setAdder, Function.update_apply]
      split_ifs with same
      · rintro ⟨⟩
        exact ⟨some_, raced.upper, fun behind => raced.lower ⟨t, behind⟩⟩
      · exact raced.loaded u w
    · rw [missing_load]
      exact raced.upper
    · rintro ⟨u, behind⟩
      apply raced.lower
      simp only [setAdder, Function.update_apply] at behind
      split_ifs at behind with same
      · exact ⟨t, behind⟩
      · exact ⟨u, behind⟩
    · intro done
      have none := done t
      simp only [setAdder, Function.update_self] at none
      omega

theorem raced_of_reachable [Nonempty ι] (reachable : (machine ι n).Reachable allowed s) : s.Raced n := by
  apply reachable.invariant
  · rintro s rfl
    refine ⟨fun _ => le_rfl, nofun, ?_, ?_, ?_⟩
    · rw [Nat.zero_add]
      exact (Finset.sum_const_nat fun _ _ => rfl).le
    · rintro ⟨t, behind⟩
      exact absurd behind (lt_irrefl n)
    · intro done
      have none : n = 0 := done (Classical.arbitrary ι)
      rw [none]
      exact Nat.zero_le _
  · intro s s' t _ raced moved
    exact raced.step moved

end Sum

section Two

/-! Two threads can end with any sum that is possible. -/

variable {a b : ι} {c l k : ℕ} {x y : Adder}

/-- A state of two threads, `a` and another one. -/
def both (a : ι) (c : ℕ) (x y : Adder) : Additions ι := ⟨c, fun t => if t = a then x else y⟩

theorem both_set_first (a : ι) (x' : Adder) : (both a c x y).setAdder a x' = both a c x' y := by
  simp only [setAdder, both, mk.injEq, true_and]
  funext t
  simp only [Function.update_apply]
  split_ifs <;> rfl

/-- Either of two threads can be the first one. -/
theorem both_swap (only : ∀ t, t ≠ a ↔ t = b) : both a c x y = both b c y x := by
  simp only [both, mk.injEq, true_and]
  funext t
  by_cases first : t = a
  · rw [if_pos first, if_neg (mt (only t).mpr (not_not_intro first))]
  · rw [if_neg first, if_pos ((only t).mp first)]

theorem step_load : (both a c ⟨l + 1, none⟩ y).step a = some (both a c ⟨l + 1, some c⟩ y) := by
  simp only [step, both, if_true, if_neg (Nat.succ_ne_zero l)]
  exact congrArg some (both_set_first a _)

theorem step_store (v : ℕ) : (both a c ⟨l + 1, some v⟩ y).step a = some (both a (v + 1) ⟨l, none⟩ y) := by
  simp only [step, both, if_true]
  exact congrArg some (both_set_first (c := v + 1) a _)

/-- Some schedule of the threads leads from one state to the other. -/
def Leads (n : ℕ) (s s' : Additions ι) : Prop := ∃ schedule, (machine ι n).run s schedule = some s'

theorem Leads.trans {s'' : Additions ι} (first : Leads n s s') (second : Leads n s' s'') : Leads n s s'' := by
  obtain ⟨before, ran⟩ := first
  obtain ⟨behind, ran'⟩ := second
  refine ⟨before ++ behind, ?_⟩
  rw [Machine.run_append, ran]
  exact ran'

theorem Leads.step (moved : s.step t = some s') : Leads n s s' :=
  ⟨[t], by rw [Machine.run]; simp [machine, moved]; rfl⟩

/-- One thread adds several times. -/
theorem leads_adds (l k : ℕ) : Leads n (both a c ⟨l + k, none⟩ y) (both a (c + k) ⟨l, none⟩ y) := by
  induction k generalizing c with
  | zero => exact ⟨[], rfl⟩
  | succ k ih =>
    have next := (Leads.step (n := n) step_load).trans (.step (step_store (a := a) (l := l + k) (y := y) c))
    rw [show c + (k + 1) = c + 1 + k by omega]
    exact next.trans ih

variable (only : ∀ t, t ≠ a ↔ t = b)
include only

theorem leads_adds_second (l k : ℕ) : Leads n (both a c x ⟨l + k, none⟩) (both a (c + k) x ⟨l, none⟩) := by
  rw [both_swap only, both_swap only]
  exact leads_adds l k

theorem leads_load_second : Leads n (both a c x ⟨l + 1, none⟩) (both a c x ⟨l + 1, some c⟩) := by
  rw [both_swap only, both_swap only]
  exact .step step_load

theorem leads_store_second (v : ℕ) : Leads n (both a c x ⟨l + 1, some v⟩) (both a (v + 1) x ⟨l, none⟩) := by
  rw [both_swap only, both_swap only]
  exact .step (step_store v)

/-- The second thread adds `k` times after the first one has loaded zero, and before it stores one. -/
theorem leads_few_lost {k : ℕ} (bound : k ≤ n + 1) :
    Leads (n + 1) (both a 0 ⟨n + 1, none⟩ ⟨n + 1, none⟩) (both a (2 * (n + 1) - k) ⟨0, none⟩ ⟨0, none⟩) := by
  obtain ⟨rest, total⟩ := Nat.exists_eq_add_of_le' bound
  have loads : Leads (n + 1) (both a 0 ⟨n + 1, none⟩ ⟨n + 1, none⟩) (both a 0 ⟨n + 1, some 0⟩ ⟨n + 1, none⟩) :=
    .step step_load
  have lost := leads_adds_second (n := n + 1) (c := 0) (x := ⟨n + 1, some 0⟩) only rest k
  have stores : Leads (n + 1) (both a (0 + k) ⟨n + 1, some 0⟩ ⟨rest, none⟩) (both a 1 ⟨n, none⟩ ⟨rest, none⟩) :=
    .step (step_store 0)
  have first := leads_adds (n := n + 1) (a := a) (c := 1) (y := ⟨rest, none⟩) 0 n
  have second := leads_adds_second (n := n + 1) (c := 1 + n) (x := ⟨0, none⟩) only 0 rest
  rw [← total] at lost
  rw [Nat.zero_add] at first second
  rw [show 2 * (n + 1) - k = 1 + n + rest by omega]
  exact loads.trans (lost.trans (stores.trans (first.trans second)))

/-- The second thread adds all but once before the first one stores one, and loads what this one has added `i`
times more. -/
theorem leads_many_lost {i : ℕ} (bound : i ≤ n) :
    Leads (n + 1) (both a 0 ⟨n + 1, none⟩ ⟨n + 1, none⟩) (both a (i + 2) ⟨0, none⟩ ⟨0, none⟩) := by
  obtain ⟨rest, total⟩ := Nat.exists_eq_add_of_le' bound
  have loads : Leads (n + 1) (both a 0 ⟨n + 1, none⟩ ⟨n + 1, none⟩) (both a 0 ⟨n + 1, some 0⟩ ⟨n + 1, none⟩) :=
    .step step_load
  have lost := leads_adds_second (n := n + 1) (c := 0) (x := ⟨n + 1, some 0⟩) only 1 n
  have stores : Leads (n + 1) (both a (0 + n) ⟨n + 1, some 0⟩ ⟨1, none⟩) (both a 1 ⟨n, none⟩ ⟨1, none⟩) :=
    .step (step_store 0)
  have some_ := leads_adds (n := n + 1) (a := a) (c := 1) (y := ⟨1, none⟩) rest i
  have seen := leads_load_second (n := n + 1) (c := 1 + i) (l := 0) (x := ⟨rest, none⟩) only
  have overwritten := leads_adds (n := n + 1) (a := a) (c := 1 + i) (y := ⟨1, some (1 + i)⟩) 0 rest
  have last := leads_store_second (n := n + 1) (c := 1 + i + rest) (l := 0) (x := ⟨0, none⟩) only (1 + i)
  rw [Nat.add_comm 1 n] at lost
  rw [← total] at some_
  rw [Nat.zero_add] at seen overwritten last
  rw [show i + 2 = 1 + i + 1 by omega]
  exact loads.trans (lost.trans (stores.trans (some_.trans (seen.trans (overwritten.trans last)))))

/-- Each sum from two on, and one if there is one addition each, is that of some schedule. -/
theorem attained {v : ℕ} (positive : 0 < n) (least : min n 2 ≤ v) (most : v ≤ 2 * n) :
    ∃ schedule, (machine ι n).run ⟨0, fun _ => ⟨n, none⟩⟩ schedule = some ⟨v, fun _ => ⟨0, none⟩⟩ := by
  obtain ⟨n, rfl⟩ := Nat.exists_eq_add_one_of_ne_zero positive.ne'
  have same (c : ℕ) (x : Adder) : (⟨c, fun _ => x⟩ : Additions ι) = both a c x x := by
    simp only [both, ite_self]
  rw [same, same]
  change Leads (n + 1) _ _
  by_cases many : 2 ≤ v ∧ v ≤ n + 2
  · rw [show v = v - 2 + 2 by omega]
    exact leads_many_lost only (by omega)
  · rw [show v = 2 * (n + 1) - (2 * (n + 1) - v) by omega]
    exact leads_few_lost only (by omega)

end Two

end Additions

end Hseos
