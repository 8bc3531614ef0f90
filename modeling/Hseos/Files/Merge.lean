import Mathlib.Data.List.Sort
import Mathlib.Data.Nat.Digits.Defs
import Mathlib.Data.Fin.VecNotation
import Mathlib.Tactic.Linarith

/-! # Merging two files of integers

`merge` peeks one `int` of each of two descriptors, prints the smaller one and reads its successor, and
closes a descriptor that has no whole `int` left. The loop prints the merge of what the two descriptors
hold, but both of them are opened on the first path, and the value returned is zero in all cases.
-/

namespace Hseos.Files

/-- An open file: the bytes ahead, and whether reading on behind them fails. -/
structure File where
  bytes : List (BitVec 8)
  fails : Bool
deriving DecidableEq

/-- What `open` finds under a path, if it succeeds. -/
abbrev FileSystem (Path : Type*) := Path → Option File

/-- The bytes of an `int`, the lowest first. -/
def encode (v : BitVec 32) : List (BitVec 8) :=
  [v.extractLsb' 0 8, v.extractLsb' 8 8, v.extractLsb' 16 8, v.extractLsb' 24 8]

/-- An `int` whose lowest bytes are overwritten. -/
def store (v : BitVec 32) (bytes : List (BitVec 8)) : BitVec 32 :=
  BitVec.ofNat 32 (v.toNat / 256 ^ bytes.length * 256 ^ bytes.length +
    Nat.ofDigits 256 (bytes.map BitVec.toNat))

/-- `read(f, &peek, sizeof(peek))`: what it returns, and `peek` and the file behind it. -/
def readInt (file : File) (peek : BitVec 32) : ℤ × BitVec 32 × File :=
  if file.bytes = [] then (if file.fails then -1 else 0, peek, file)
  else
    let bytes := file.bytes.take 4
    (bytes.length, store peek bytes, { file with bytes := file.bytes.drop 4 })

/-- The arrays `f` and `peek` of `merge`, with no file for a descriptor of -1. -/
structure Merging where
  f : Fin 2 → Option File
  peek : Fin 2 → BitVec 32

namespace Merging

/-- The body of the loop that looks for `target`. -/
def pick (s : Merging) (target : Option (Fin 2)) (i : Fin 2) : Option (Fin 2) :=
  match s.f i, target with
  | none, _ => target
  | some _, none => some i
  | some _, some t => if (s.peek t).toInt > (s.peek i).toInt then some i else some t

def target (s : Merging) : Option (Fin 2) := (List.finRange 2).foldl s.pick none

/-- The `read` of the loop, and the `close` if it is short. -/
def advance (s : Merging) (t : Fin 2) (file : File) : Merging :=
  let answer := readInt file (s.peek t)
  { f := Function.update s.f t (if answer.1 = 4 then some answer.2.2 else none)
    peek := Function.update s.peek t answer.2.1 }

/-- The bytes ahead in an open descriptor, and one for its end. -/
def cost : Option File → ℕ
  | none => 0
  | some file => file.bytes.length + 1

theorem cost_advance (s : Merging) (t : Fin 2) (file : File) :
    cost ((s.advance t file).f t) < cost (some file) := by
  simp only [advance, Function.update_self]
  split
  · next whole =>
    rw [readInt] at whole ⊢
    split at whole
    · split at whole <;> cases whole
    · next nonempty =>
      have some_ := List.length_pos_of_ne_nil nonempty
      simp only [if_neg nonempty, cost, List.length_drop]
      omega
  · exact Nat.succ_pos _

theorem advance_other (s : Merging) {t i : Fin 2} (other : i ≠ t) (file : File) :
    (s.advance t file).f i = s.f i ∧ (s.advance t file).peek i = s.peek i :=
  ⟨Function.update_of_ne other _ _, Function.update_of_ne other _ _⟩

/-- One round of the `while` loop: what it prints, and the arrays behind it. -/
def round (s : Merging) : Option (ℤ × Merging) :=
  match s.target with
  | none => none
  | some t => (s.f t).map fun file => ((s.peek t).toInt, s.advance t file)

theorem round_eq_some {s s' : Merging} {v : ℤ} (ran : s.round = some (v, s')) :
    ∃ t file, s.target = some t ∧ s.f t = some file ∧ v = (s.peek t).toInt ∧ s' = s.advance t file := by
  rw [round] at ran
  split at ran
  · cases ran
  · next t chosen =>
    obtain ⟨file, open_, same⟩ := Option.map_eq_some_iff.mp ran
    cases same
    exact ⟨t, file, chosen, open_, rfl, rfl⟩

theorem cost_round {s s' : Merging} {v : ℤ} (ran : s.round = some (v, s')) :
    cost (s'.f 0) + cost (s'.f 1) < cost (s.f 0) + cost (s.f 1) := by
  obtain ⟨t, file, _, open_, _, rfl⟩ := round_eq_some ran
  have less := s.cost_advance t file
  match t with
  | 0 =>
    have same := (s.advance_other (show (1 : Fin 2) ≠ 0 by decide) file).1
    rw [same, open_]
    omega
  | 1 =>
    have same := (s.advance_other (show (0 : Fin 2) ≠ 1 by decide) file).1
    rw [same, open_]
    omega

/-- The `while` loop of `merge`: what it prints, and the arrays behind it. -/
def loop (s : Merging) : List ℤ × Merging :=
  match _ran : s.round with
  | none => ([], s)
  | some (v, s') => (v :: s'.loop.1, s'.loop.2)
termination_by cost (s.f 0) + cost (s.f 1)
decreasing_by all_goals exact cost_round _ran

theorem loop_none {s : Merging} (ran : s.round = none) : s.loop = ([], s) := by
  rw [loop]
  split
  · rfl
  · next some_ => rw [ran] at some_; cases some_

theorem loop_some {s s' : Merging} {v : ℤ} (ran : s.round = some (v, s')) :
    s.loop = (v :: s'.loop.1, s'.loop.2) := by
  rw [loop]
  split
  · next none_ => rw [ran] at none_; cases none_
  · next some_ => rw [ran] at some_; cases some_; rfl

end Merging

/-- `merge`: what it returns and what it prints. -/
def merge {Path : Type*} (fs : FileSystem Path) (path1 _path2 : Path) : ℤ × List ℤ :=
  match fs path1, fs path1 with
  | some file0, some file1 =>
      let (n0, peek0, file0) := readInt file0 0
      let (n1, peek1, file1) := readInt file1 0
      if n0 = 4 ∧ n1 = 4 then (0, (Merging.loop ⟨![some file0, some file1], ![peek0, peek1]⟩).1)
      else (0, [])
  | _, _ => (0, [])

/-- The whole integers at the front of some bytes. -/
def ints : List (BitVec 8) → List (BitVec 32)
  | b0 :: b1 :: b2 :: b3 :: rest => store 0 [b0, b1, b2, b3] :: ints rest
  | _ => []

/-- What a descriptor still has to print: the integer peeked and those ahead. -/
def Merging.pending (s : Merging) (i : Fin 2) : List (BitVec 32) :=
  match s.f i with
  | none => []
  | some file => s.peek i :: ints file.bytes

section Bytes

theorem store_whole (v : BitVec 32) {bytes : List (BitVec 8)} (whole : bytes.length = 4) :
    store v bytes = store 0 bytes := by
  have bound : v.toNat < 256 ^ 4 := v.isLt
  rw [store, store, whole, Nat.div_eq_of_lt bound]
  rfl

theorem store_encode (v : BitVec 32) : store 0 (encode v) = v := by
  apply BitVec.eq_of_toNat_eq
  have bound := v.isLt
  have zero : (0 : BitVec 32).toNat = 0 := rfl
  simp only [store, encode, zero, Nat.zero_div, Nat.zero_mul, List.map_cons, List.map_nil,
    Nat.ofDigits_cons, Nat.ofDigits_nil, BitVec.extractLsb'_toNat, BitVec.toNat_ofNat,
    Nat.shiftRight_eq_div_pow]
  omega

theorem ints_encode (v : BitVec 32) (rest : List (BitVec 8)) :
    ints (encode v ++ rest) = v :: ints rest :=
  congrArg (· :: ints rest) (store_encode v)

theorem ints_flatMap (a : List (BitVec 32)) : ints (a.flatMap encode) = a := by
  induction a with
  | nil => rfl
  | cons v rest ih => rw [List.flatMap_cons, ints_encode, ih]

/-- A read finds a whole integer exactly if there is one ahead. -/
theorem readInt_cases (file : File) (peek : BitVec 32) :
    (readInt file peek).1 ≠ 4 ∧ ints file.bytes = [] ∨
      (readInt file peek).1 = 4 ∧
        ints file.bytes = (readInt file peek).2.1 :: ints (readInt file peek).2.2.bytes := by
  obtain ⟨bytes, fails⟩ := file
  match bytes with
  | [] =>
    left
    refine ⟨?_, rfl⟩
    cases fails <;> simp [readInt]
  | [_] | [_, _] | [_, _, _] => exact .inl ⟨by simp [readInt], rfl⟩
  | b0 :: b1 :: b2 :: b3 :: rest =>
    have whole : store peek [b0, b1, b2, b3] = store 0 [b0, b1, b2, b3] := store_whole peek rfl
    exact .inr ⟨rfl, congrArg (· :: ints rest) whole.symm⟩

end Bytes

namespace Merging

variable (s : Merging)

/-- Descriptors that are open have something to print, and others do not. -/
theorem pending_eq_nil {i : Fin 2} : s.pending i = [] ↔ s.f i = none := by
  rw [pending]
  cases s.f i <;> simp

theorem pending_open {i : Fin 2} {file : File} (open_ : s.f i = some file) :
    s.pending i = s.peek i :: ints file.bytes := by
  rw [pending, open_]

/-- The descriptor that is read loses what was printed, the other keeps all. -/
theorem pending_advance (t : Fin 2) (file : File) :
    (s.advance t file).pending t = ints file.bytes ∧
      ∀ i ≠ t, (s.advance t file).pending i = s.pending i := by
  constructor
  · rw [pending]
    simp only [advance, Function.update_self]
    rcases readInt_cases file (s.peek t) with ⟨short, none_⟩ | ⟨whole, some_⟩
    · rw [if_neg short, none_]
    · rw [if_pos whole, some_]
  · intro i other
    rw [pending, pending, (s.advance_other other file).1, (s.advance_other other file).2]

/-- The descriptor that the loop chooses: the first one if it is not past the second one. -/
theorem target_eq :
    s.target = match s.f 0, s.f 1 with
      | none, none => none
      | some _, none => some 0
      | none, some _ => some 1
      | some _, some _ => if (s.peek 0).toInt > (s.peek 1).toInt then some 1 else some 0 := by
  have two : List.finRange 2 = [0, 1] := rfl
  cases first : s.f 0 <;> cases second : s.f 1 <;>
    simp only [target, two, List.foldl_cons, List.foldl_nil, pick, first, second]

/-- The order of the values. -/
abbrev le (a b : BitVec 32) : Bool := a.toInt ≤ b.toInt

/-- A descriptor that is chosen is open. -/
theorem target_open {t : Fin 2} (chosen : s.target = some t) : s.f t ≠ none := by
  rw [target_eq] at chosen
  split at chosen
  · cases chosen
  · next first _ => cases chosen; rw [first]; exact Option.some_ne_none _
  · next _ second => cases chosen; rw [second]; exact Option.some_ne_none _
  · next first second =>
    split at chosen
    · cases chosen; rw [second]; exact Option.some_ne_none _
    · cases chosen; rw [first]; exact Option.some_ne_none _

/-- The loop ends when both descriptors are closed. -/
theorem closed_of_round (done : s.round = none) : s.f 0 = none ∧ s.f 1 = none := by
  rw [round] at done
  split at done
  · next unchosen =>
    rw [target_eq] at unchosen
    split at unchosen
    · next first second => exact ⟨first, second⟩
    · cases unchosen
    · cases unchosen
    · split at unchosen <;> cases unchosen
  · next t chosen => exact absurd (Option.map_eq_none_iff.mp done) (s.target_open chosen)

/-- What the loop prints is the head of the merge, and the rest is the merge of the rest. -/
theorem merge_pending {t : Fin 2} {file : File} (chosen : s.target = some t)
    (open_ : s.f t = some file) :
    (s.pending 0).merge (s.pending 1) le =
      s.peek t :: ((s.advance t file).pending 0).merge ((s.advance t file).pending 1) le := by
  obtain ⟨own, others⟩ := s.pending_advance t file
  have here := s.pending_open open_
  rw [target_eq] at chosen
  match t with
  | 0 =>
    rw [own, others 1 (by decide), here]
    cases second : s.f 1 with
    | none => rw [(s.pending_eq_nil).mpr second, List.merge_right, List.merge_right]
    | some file1 =>
      rw [s.pending_open second]
      simp only [open_, second] at chosen
      have small : ¬(s.peek 0).toInt > (s.peek 1).toInt := by
        intro greater
        rw [if_pos greater] at chosen
        exact absurd chosen (by decide)
      exact List.cons_merge_cons_pos _ _ _ (decide_eq_true (not_lt.mp small))
  | 1 =>
    rw [own, others 0 (by decide), here]
    cases first : s.f 0 with
    | none => rw [(s.pending_eq_nil).mpr first, List.nil_merge, List.nil_merge]
    | some file0 =>
      rw [s.pending_open first]
      simp only [open_, first] at chosen
      have greater : (s.peek 0).toInt > (s.peek 1).toInt := by
        by_contra small
        rw [if_neg small] at chosen
        exact absurd chosen (by decide)
      apply List.cons_merge_cons_neg _ _ _
      intro small
      exact absurd (of_decide_eq_true small) (not_le.mpr greater)

/-- The loop prints the merge of what the two descriptors hold and closes both of them. -/
theorem loop_eq :
    s.loop.1 = ((s.pending 0).merge (s.pending 1) le).map BitVec.toInt ∧ ∀ i, s.loop.2.f i = none := by
  induction s using Merging.loop.induct with
  | case1 s done =>
    obtain ⟨first, second⟩ := s.closed_of_round done
    rw [loop_none done, (s.pending_eq_nil).mpr first, (s.pending_eq_nil).mpr second]
    exact ⟨by simp, Fin.forall_fin_two.mpr ⟨first, second⟩⟩
  | case2 s v s' ran ih =>
    obtain ⟨t, file, chosen, open_, rfl, rfl⟩ := round_eq_some ran
    rw [loop_some ran, s.merge_pending chosen open_, ih.1]
    exact ⟨rfl, ih.2⟩

end Merging

/-- The file can be opened and holds these whole integers. -/
def Holds {Path : Type*} (fs : FileSystem Path) (path : Path) (a : List (BitVec 32)) : Prop :=
  fs path = some ⟨a.flatMap encode, false⟩

/-- The file cannot be opened, or reading it fails. -/
def Unreadable {Path : Type*} (fs : FileSystem Path) (path : Path) : Prop :=
  fs path = none ∨ ∃ bytes, fs path = some ⟨bytes, true⟩

def Ascending (a : List (BitVec 32)) : Prop := a.Pairwise fun x y => x.toInt ≤ y.toInt

/-- What merging these two paths is for. -/
structure MergeCorrect {Path : Type*} (fs : FileSystem Path) (path1 path2 : Path) : Prop where
  merged : ∀ a b, Holds fs path1 a → Holds fs path2 b → Ascending a → Ascending b →
    (merge fs path1 path2).1 = 0 ∧ (merge fs path1 path2).2.Pairwise (· ≤ ·) ∧
      (merge fs path1 path2).2.Perm ((a ++ b).map BitVec.toInt)
  failed : Unreadable fs path1 ∨ Unreadable fs path2 → (merge fs path1 path2).1 = -1

/-- The merge of ascending sequences ascends. -/
theorem ascending_merge {a b : List (BitVec 32)} (ascending : Ascending a) (ascending' : Ascending b) :
    ((a.merge b Merging.le).map BitVec.toInt).Pairwise (· ≤ ·) := by
  have ordered {a : List (BitVec 32)} (ascending : Ascending a) :
      a.Pairwise fun x y => Merging.le x y = true :=
    ascending.imp fun small => decide_eq_true small
  have trans : ∀ x y z, Merging.le x y = true → Merging.le y z = true → Merging.le x z = true := by
    intro x y z first second
    exact decide_eq_true (le_trans (of_decide_eq_true first) (of_decide_eq_true second))
  have total : ∀ x y, (Merging.le x y || Merging.le y x) = true := by
    intro x y
    rw [Bool.or_eq_true, decide_eq_true_eq, decide_eq_true_eq]
    exact le_total _ _
  rw [List.pairwise_map]
  exact (List.pairwise_merge trans total a b (ordered ascending) (ordered ascending')).imp
    fun small => of_decide_eq_true small

section Merge

variable {Path : Type*} {fs : FileSystem Path} {path1 path2 : Path} {a b : List (BitVec 32)}

/-- The value returned is zero whatever happens. -/
theorem merge_returns (fs : FileSystem Path) (path1 path2 : Path) : (merge fs path1 path2).1 = 0 := by
  rw [merge]
  split
  · dsimp only
    split <;> rfl
  · rfl

/-- The first file is merged with itself. -/
theorem merge_prints (holds : Holds fs path1 a) (path2 : Path) :
    (merge fs path1 path2).2 = (a.merge a Merging.le).map BitVec.toInt := by
  rw [merge, holds]
  cases a with
  | nil =>
    have read : readInt ⟨[], false⟩ 0 = (0, 0, ⟨[], false⟩) := rfl
    simp only [List.flatMap_nil, read, List.merge_right, List.map_nil]
    rfl
  | cons v rest =>
    have read : readInt ⟨(v :: rest).flatMap encode, false⟩ 0 = (4, v, ⟨rest.flatMap encode, false⟩) :=
      congrArg (fun peek => ((4 : ℤ), peek, (⟨rest.flatMap encode, false⟩ : File))) (store_encode v)
    simp only [read, and_self, if_true, (Merging.loop_eq _).1]
    have pending : ∀ i, Merging.pending
        ⟨![some ⟨rest.flatMap encode, false⟩, some ⟨rest.flatMap encode, false⟩], ![v, v]⟩ i =
          v :: rest := by
      refine Fin.forall_fin_two.mpr ⟨?_, ?_⟩
      · exact congrArg (v :: ·) (ints_flatMap rest)
      · exact congrArg (v :: ·) (ints_flatMap rest)
    rw [pending, pending]

theorem merge_perm (holds : Holds fs path1 a) (path2 : Path) :
    (merge fs path1 path2).2.Perm ((a ++ a).map BitVec.toInt) := by
  rw [merge_prints holds]
  exact (List.merge_perm_append Merging.le).map _

theorem merge_sorted (holds : Holds fs path1 a) (path2 : Path) (ascending : Ascending a) :
    (merge fs path1 path2).2.Pairwise (· ≤ ·) := by
  rw [merge_prints holds]
  exact ascending_merge ascending ascending

/-- Ascending sequences with the same integers are equal. -/
theorem ascending_unique (first : Ascending a) (second : Ascending b) (same : a.Perm b) : a = b :=
  same.eq_of_pairwise (fun _ _ _ _ low high => BitVec.eq_of_toInt_eq (le_antisymm low high)) first second

theorem map_toInt_perm (same : (a.map BitVec.toInt).Perm (b.map BitVec.toInt)) : a.Perm b := by
  have back := same.map (BitVec.ofInt 32)
  simpa only [List.map_map, Function.comp_def, BitVec.ofInt_toInt, List.map_id'] using back

/-- Other integers than those of the first file are never printed. -/
theorem equal_of_correct (correct : MergeCorrect fs path1 path2) (first : Holds fs path1 a)
    (second : Holds fs path2 b) (ascending : Ascending a) (ascending' : Ascending b) : a = b := by
  obtain ⟨_, _, same⟩ := correct.merged a b first second ascending ascending'
  have both : (a ++ a).Perm (a ++ b) := map_toInt_perm ((merge_perm first path2).symm.trans same)
  exact ascending_unique ascending ascending' ((List.perm_append_left_iff a).mp both)

end Merge

/-- Merging does what it is for exactly if both files can be opened and read and, when they are
ascending sequences of whole integers, hold the same sequence. -/
theorem merge_correct_iff {Path : Type*} (fs : FileSystem Path) (path1 path2 : Path) :
    MergeCorrect fs path1 path2 ↔ ¬Unreadable fs path1 ∧ ¬Unreadable fs path2 ∧
      ∀ a b, Holds fs path1 a → Holds fs path2 b → Ascending a → Ascending b → a = b := by
  have zero := merge_returns fs path1 path2
  constructor
  · intro correct
    have readable : ¬(Unreadable fs path1 ∨ Unreadable fs path2) := by
      intro unreadable
      have failed := correct.failed unreadable
      rw [zero] at failed
      cases failed
    exact ⟨fun first => readable (.inl first), fun second => readable (.inr second),
      fun a b => equal_of_correct correct⟩
  · rintro ⟨first, second, equal⟩
    refine ⟨fun a b holds holds' ascending ascending' => ?_, fun unreadable => ?_⟩
    · obtain rfl := equal a b holds holds' ascending ascending'
      exact ⟨zero, merge_sorted holds path2 ascending, merge_perm holds path2⟩
    · exact (unreadable.elim first second).elim

/-- The files with the single integers 1 and 2, and no file. -/
def oneTwo : FileSystem (Fin 3) := ![some ⟨encode 1, false⟩, some ⟨encode 2, false⟩, none]

/-- With 1 and 2 in the two files, 2 is not printed; with no second file, zero is returned. -/
theorem merge_incorrect : ¬MergeCorrect oneTwo 0 1 ∧ ¬MergeCorrect oneTwo 0 2 := by
  constructor
  · intro correct
    have equal := equal_of_correct (a := [1]) (b := [2]) correct rfl rfl (List.pairwise_singleton ..)
      (List.pairwise_singleton ..)
    exact absurd equal (by decide)
  · intro correct
    have failed := correct.failed (.inr (.inl rfl))
    rw [merge_returns] at failed
    cases failed

end Hseos.Files
