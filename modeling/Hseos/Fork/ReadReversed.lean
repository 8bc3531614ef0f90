import Hseos.Lib.ForkChain
import Hseos.Lib.Stdio

/-! # Numbers read by a chain of processes and printed backwards

A process reads a number with `scanf` and forks; it waits for its child, which goes on with the input, and prints its
own number then. A child has a copy of what its parent has in the buffers of its input and of its output. The model
begins when `execle` has failed.
-/

namespace Hseos.Fork

namespace ReadReversed

open Stdio

/-- Where `scanf` is in a `%d`: before the number, behind its sign, or in its digits. -/
inductive Scan where
  | space
  | sign (negative : Bool)
  | digits (negative : Bool) (value : ℕ)
deriving DecidableEq

/-- What `scanf` does with the next character, or with the end of the input: it takes it, or it stops in front
of it with the number it has read, or without one. -/
inductive Seen where
  | more (scan : Scan)
  | number (n : ℤ)
  | failed
deriving DecidableEq

/-- The digits as an `int`: the `long` that is closest to them, cut off. -/
def converted (negative : Bool) (value : ℕ) : ℤ :=
  let number : ℤ := if negative then -value else value
  (max (-2 ^ 63) (min number (2 ^ 63 - 1))).bmod (2 ^ 32)

def Scan.see : Scan → Option (BitVec 8) → Seen
  | .space, none | .sign _, none => .failed
  | .space, some c =>
      if Numeral.isSpace c then .more .space
      else if c = Numeral.minus then .more (.sign true)
      else if c = Numeral.plus then .more (.sign false)
      else if Numeral.isDigit c then .more (.digits false (Numeral.digitValue c))
      else .failed
  | .sign negative, some c =>
      if Numeral.isDigit c then .more (.digits negative (Numeral.digitValue c)) else .failed
  | .digits negative value, none => .number (converted negative value)
  | .digits negative value, some c =>
      if Numeral.isDigit c then .more (.digits negative (10 * value + Numeral.digitValue c))
      else .number (converted negative value)

/-- What the processes share: the input that is in no buffer, and the output. -/
structure Files where
  unread : Text
  out : Text

inductive Pc where
  | scan (scan : Scan)
  | fork (n : ℤ)
  | wait (read : Option ℤ)
  | print (read : Option ℤ)
  | exit
deriving DecidableEq

/-- Where a process is in `main`, with the number it has read if `status` is one, and its buffers. -/
structure Local where
  pc : Pc
  ahead : Text
  pending : Text

/-- How much a `read` returns beyond its first byte, how much a `printf` lets out at once, and why a `fork`
fails, if it does. -/
structure Choice where
  more : ℕ
  early : ℕ
  failure : Option String

/-- `scanf` has seen the next character, which is the first one of `ahead`. -/
def Local.after (l : Local) : Seen → Local
  | .more scan => { l with pc := .scan scan, ahead := l.ahead.tail }
  | .number n => { l with pc := .fork n }
  | .failed => { l with pc := .wait none }

/-- The line `%d`. -/
def line (n : ℤ) : Text := decimal n ++ ascii "\n"

/-- One step of a process. -/
def move (choice : Choice) (files : Files) (l : Local) : Option (ProcessMove Files Local) :=
  match l.pc with
  | .scan scan =>
      match l.ahead, files.unread with
      | c :: _, _ => some (.run files (l.after (scan.see (some c))))
      | [], [] => some (.run files (l.after (scan.see none)))
      | [], c :: rest =>
          some (.run { files with unread := rest.drop choice.more } { l with ahead := c :: rest.take choice.more })
  | .fork n =>
      match choice.failure with
      | none => some (.fork { l with pc := .wait (some n) } { l with pc := .scan .space })
      | some reason =>
          let (out, pending) := printf choice.early files.out l.pending (errorLine "fork" reason)
          some (.run { files with out := out } { l with pc := .wait (some n), pending := pending })
  | .wait read => some (.wait { l with pc := .print read })
  | .print none => some (.run files { l with pc := .exit })
  | .print (some n) =>
      let (out, pending) := printf choice.early files.out l.pending (line n)
      some (.run { files with out := out } { l with pc := .exit, pending := pending })
  | .exit => some (.exit { files with out := files.out ++ l.pending })

/-- The program with what it has as its input. -/
def program (input : Text) : ForkChain Files Local Choice where
  initial := ⟨input, []⟩
  root := ⟨.scan .space, [], []⟩
  move := move

/-- The numbers that calls of `scanf` read from a text, up to the first call that reads none. -/
def values : Scan → Text → List ℤ
  | scan, [] =>
      match scan.see none with
      | .number n => [n]
      | .more _ | .failed => []
  | scan, c :: rest =>
      match scan.see (some c) with
      | .more scan => values scan rest
      | .number n =>
          n :: match Scan.space.see (some c) with
            | .more scan => values scan rest
            | .number _ | .failed => []
      | .failed => []

/-- The numbers of a text. -/
def numbers (input : Text) : List ℤ := values .space input

/-- The lines that the processes print which have read these numbers. -/
def lines (stack : List ℤ) : Text := stack.flatMap line

/-- The forks of a process are among these. -/
def permits (outcomes : ForkChain.Outcomes String) (older : ℕ) (choice : Choice) (l : Local) : Prop :=
  ∀ n, l.pc = .fork n → outcomes older choice.failure

theorem permits_of_ne {outcomes : ForkChain.Outcomes String} {older : ℕ} {choice : Choice} {l : Local}
    (different : ∀ n, l.pc ≠ .fork n) : permits outcomes older choice l :=
  fun n same => absurd same (different n)

/-- The lines of the numbers up to a fork that fails, behind the error. -/
def cut (all : List ℤ) (k : ℕ) (reason : String) : Text :=
  errorLine "fork" reason ++ lines (all.take (k + 1)).reverse

/-- What the processes leave with these outcomes of their forks. -/
abbrev Printed (all : List ℤ) (outcomes : ForkChain.Outcomes String) (text : Text) : Prop :=
  ForkChain.Left all.length (lines all.reverse) (cut all) outcomes text

/-- A process that has forked has the number it has read, and nothing in the buffer of its output. -/
inductive Parked : Local → ℤ → Prop
  | wait (n : ℤ) (ahead : Text) : Parked ⟨.wait (some n), ahead, []⟩ n

/-- What the process that goes on has read or printed, above those that wait with their numbers. -/
inductive Top (all : List ℤ) (outcomes : ForkChain.Outcomes String) : Files → List ℤ → Bool → Local → Prop
  | scan {unread ahead : Text} {stack : List ℤ} {scan : Scan} (forked : ∀ j < stack.length, outcomes j none)
      (read : stack.reverse ++ values scan (ahead ++ unread) = all) :
      Top all outcomes ⟨unread, []⟩ stack false ⟨.scan scan, ahead, []⟩
  | fork {unread ahead : Text} {stack : List ℤ} {n : ℤ} (forked : ∀ j < stack.length, outcomes j none)
      (read : stack.reverse ++ n :: numbers (ahead ++ unread) = all) :
      Top all outcomes ⟨unread, []⟩ stack false ⟨.fork n, ahead, []⟩
  | wait {unread out ahead pending : Text} {stack : List ℤ} {resumed : Bool} {read : Option ℤ}
      (text : Printed all outcomes (out ++ pending ++ lines (read.toList ++ stack))) :
      Top all outcomes ⟨unread, out⟩ stack resumed ⟨.wait read, ahead, pending⟩
  | print {unread out ahead pending : Text} {stack : List ℤ} {resumed : Bool} {read : Option ℤ}
      (text : Printed all outcomes (out ++ pending ++ lines (read.toList ++ stack))) :
      Top all outcomes ⟨unread, out⟩ stack resumed ⟨.print read, ahead, pending⟩
  | exit {unread out ahead pending : Text} {stack : List ℤ} {resumed : Bool}
      (text : Printed all outcomes (out ++ pending ++ lines stack)) :
      Top all outcomes ⟨unread, out⟩ stack resumed ⟨.exit, ahead, pending⟩

variable {all : List ℤ} {outcomes : ForkChain.Outcomes String}

/-- A call of `scanf` that has read nothing does not end with a number. -/
theorem see_space (next : Option (BitVec 8)) (n : ℤ) : Scan.space.see next ≠ .number n := by
  cases next with
  | none => nofun
  | some c =>
    rw [Scan.see]
    split_ifs <;> nofun

theorem values_more {scan scan' : Scan} {c : BitVec 8} (seen : scan.see (some c) = .more scan') (rest : Text) :
    values scan (c :: rest) = values scan' rest := by
  simp only [values, seen]

theorem values_failed {scan : Scan} {text : Text} (seen : scan.see text.head? = .failed) : values scan text = [] := by
  cases text <;> simp_all only [values, List.head?_nil, List.head?_cons]

/-- The next call of `scanf` begins with the character in front of which the last one has stopped. -/
theorem values_number {scan : Scan} {text : Text} {n : ℤ} (seen : scan.see text.head? = .number n) :
    values scan text = n :: numbers text := by
  cases text with
  | nil =>
    rw [List.head?_nil] at seen
    simp only [values, seen]
    rfl
  | cons c rest =>
    rw [List.head?_cons] at seen
    simp only [values, numbers, seen, List.cons.injEq, true_and]
    cases next : Scan.space.see (some c) with
    | number n => exact absurd next (see_space _ _)
    | more | failed => rfl

/-- What `scanf` has seen leaves the numbers that are still to be read. -/
theorem Top.seen {unread ahead : Text} {stack : List ℤ} {scan : Scan} (forked : ∀ j < stack.length, outcomes j none)
    (read : stack.reverse ++ values scan (ahead ++ unread) = all) (ends : ahead = [] → unread = []) :
    Top all outcomes ⟨unread, []⟩ stack false
      ((⟨.scan scan, ahead, []⟩ : Local).after (scan.see (ahead ++ unread).head?)) := by
  cases seen : scan.see (ahead ++ unread).head? with
  | more scan' =>
    cases ahead with
    | nil =>
      rw [ends rfl] at seen
      cases scan <;> cases seen
    | cons c rest =>
      rw [List.cons_append, values_more seen] at read
      exact .scan forked read
  | number n =>
    rw [values_number seen] at read
    exact .fork forked read
  | failed =>
    rw [values_failed seen, List.append_nil] at read
    refine .wait ?_
    rw [← List.reverse_reverse stack, read]
    refine .all ?_
    rwa [← read, List.length_reverse]

theorem lines_cons (n : ℤ) (stack : List ℤ) : lines (n :: stack) = line n ++ lines stack := List.flatMap_cons

/-- The numbers of the processes that wait are those read so far. -/
theorem discipline (input : Text) (outcomes : ForkChain.Outcomes String) :
    ForkChain.Discipline Parked (Top (numbers input) outcomes)
      (fun files => Printed (numbers input) outcomes files.out) (program input) (permits outcomes) where
  root := .scan (fun j none => absurd none (Nat.not_lt_zero j)) rfl
  top := by
    intro choice files stack resumed l m permitted here moved
    cases here with
    | @scan unread ahead stack scan forked read =>
      cases ahead with
      | cons c ahead =>
        cases moved
        exact Top.seen forked read nofun
      | nil =>
        cases unread with
        | nil =>
          cases moved
          exact Top.seen forked read fun _ => rfl
        | cons c rest =>
          cases moved
          refine .scan forked ?_
          rwa [List.cons_append, List.take_append_drop]
    | @fork unread ahead stack n forked read =>
      have outcome := permitted n rfl
      simp only [program, move] at moved
      cases failure : choice.failure with
      | none =>
        rw [failure] at moved outcome
        cases moved
        refine ⟨rfl, n, .wait n ahead, .scan ?_ ?_⟩
        · intro j below
          obtain less | same := Nat.lt_succ_iff_lt_or_eq.mp below
          · exact forked j less
          · exact same ▸ outcome
        · rwa [List.reverse_cons, List.append_assoc]
      | some reason =>
        rw [failure] at moved outcome
        cases moved
        refine .wait ?_
        have taken : (numbers input).take (stack.length + 1) = (n :: stack).reverse := by
          rw [← read, ← List.length_reverse, List.take_length_add_append, List.reverse_cons]
          rfl
        rw [printf_append, List.append_nil, List.nil_append, Option.toList_some, List.singleton_append,
          ← List.reverse_reverse (n :: stack), ← taken]
        refine .failed ?_ outcome forked
        rw [← read, List.length_append, List.length_reverse, List.length_cons]
        omega
    | wait text =>
      cases moved
      exact .print text
    | @print unread out ahead pending stack resumed read text =>
      cases read with
      | none =>
        cases moved
        exact .exit text
      | some n =>
        cases moved
        refine .exit ?_
        change Printed _ _ ((printf choice.early out pending (line n)).1 ++
          (printf choice.early out pending (line n)).2 ++ lines stack)
        rwa [printf_append, List.append_assoc _ _ (lines stack), ← lines_cons]
    | @exit unread out ahead pending stack resumed text =>
      cases moved
      cases stack with
      | nil =>
        rw [lines, List.flatMap_nil, List.append_nil] at text
        exact text
      | cons f stack =>
        intro w parked
        cases parked
        refine .wait ?_
        rw [List.append_nil]
        exact text
  parked := by
    intro choice files w f m parked moved
    cases parked
    cases moved
    trivial

/-- The bytes that are in no buffer yet weigh more than those that a process has ahead. -/
def cost (files : Files) : ℕ := 11 * files.unread.length

/-- The steps that a process and those behind it have at most before them. -/
def weight (l : Local) : ℕ :=
  match l.pc with
  | .scan (.digits _ _) => 10 * l.ahead.length + 9
  | .fork _ => 10 * l.ahead.length + 8
  | .scan .space | .scan (.sign _) => 10 * l.ahead.length + 4
  | .wait _ => 3
  | .print _ => 2
  | .exit => 1

theorem weight_scan (scan : Scan) (ahead pending : Text) :
    10 * ahead.length + 4 ≤ weight ⟨.scan scan, ahead, pending⟩ ∧
      weight ⟨.scan scan, ahead, pending⟩ ≤ 10 * ahead.length + 9 := by
  cases scan <;> simp [weight]

/-- Only the digits of a number can end with it. -/
theorem digits_of_see {scan : Scan} {next : Option (BitVec 8)} {n : ℤ} (seen : scan.see next = .number n) :
    ∃ negative value, scan = .digits negative value := by
  cases scan with
  | space => exact absurd seen (see_space next n)
  | sign negative =>
    cases next with
    | none => cases seen
    | some c =>
      rw [Scan.see] at seen
      split_ifs at seen
  | digits negative value => exact ⟨negative, value, rfl⟩

/-- A look at the next character leaves less to do. -/
theorem weight_after {scan : Scan} {ahead pending : Text} {next : Option (BitVec 8)}
    (more : ∀ scan', scan.see next = .more scan' → ahead ≠ []) :
    weight ((⟨.scan scan, ahead, pending⟩ : Local).after (scan.see next)) < weight ⟨.scan scan, ahead, pending⟩ := by
  have least := (weight_scan scan ahead pending).1
  cases seen : scan.see next with
  | more scan' =>
    obtain ⟨c, rest, rfl⟩ := List.exists_cons_of_ne_nil (more scan' seen)
    have most := (weight_scan scan' rest pending).2
    simp only [Local.after, List.tail_cons, List.length_cons] at least ⊢
    omega
  | number n =>
    obtain ⟨negative, value, rfl⟩ := digits_of_see seen
    simp only [Local.after, weight]
    omega
  | failed =>
    simp only [Local.after]
    simp only [weight] at least ⊢
    omega

theorem progress {input : Text} (possible : ∀ k, ∃ failure, outcomes k failure) {files : Files} {stack : List ℤ}
    {resumed : Bool} {l : Local} (here : Top all outcomes files stack resumed l) :
    ∃ choice m, permits outcomes stack.length choice l ∧ (program input).move choice files l = some m ∧
      ForkChain.Lowers cost weight files l m := by
  cases here with
  | @scan unread ahead stack scan forked read =>
    cases ahead with
    | cons c ahead =>
      refine ⟨⟨0, 0, none⟩, _, permits_of_ne (by rintro n ⟨⟩), rfl, ?_⟩
      exact Nat.add_lt_add_left (weight_after fun _ _ => List.cons_ne_nil _ _) _
    | nil =>
      cases unread with
      | nil =>
        refine ⟨⟨0, 0, none⟩, _, permits_of_ne (by rintro n ⟨⟩), rfl, ?_⟩
        apply Nat.add_lt_add_left (weight_after fun scan' seen => ?_) _
        cases scan <;> cases seen
      | cons c rest =>
        refine ⟨⟨0, 0, none⟩, _, permits_of_ne (by rintro n ⟨⟩), rfl, ?_⟩
        simp only [ForkChain.Lowers, cost, List.drop_zero, List.take_zero, List.length_cons]
        have least := (weight_scan scan [] []).1
        have most := (weight_scan scan [c] []).2
        cases scan <;> simp only [weight, List.length_cons, List.length_nil] at * <;> omega
  | @fork unread ahead stack n forked read =>
    obtain ⟨failure, outcome⟩ := possible stack.length
    have permitted : permits outcomes stack.length ⟨0, 0, failure⟩ ⟨.fork n, ahead, []⟩ := fun _ _ => outcome
    cases failure with
    | none =>
      refine ⟨_, _, permitted, rfl, ?_⟩
      simp only [ForkChain.Lowers, weight]
      omega
    | some reason =>
      refine ⟨_, _, permitted, rfl, ?_⟩
      simp only [ForkChain.Lowers, cost, weight]
      omega
  | wait text => exact ⟨⟨0, 0, none⟩, _, permits_of_ne (by rintro n ⟨⟩), rfl, Nat.lt_succ_self _⟩
  | @print unread out ahead pending stack resumed read text =>
    cases read with
    | none => exact ⟨⟨0, 0, none⟩, _, permits_of_ne (by rintro n ⟨⟩), rfl, Nat.lt_succ_self _⟩
    | some n => exact ⟨⟨0, 0, none⟩, _, permits_of_ne (by rintro n ⟨⟩), rfl, Nat.lt_succ_self _⟩
  | exit text => exact ⟨⟨0, 0, none⟩, _, permits_of_ne (by rintro n ⟨⟩), rfl, Nat.lt_succ_self _⟩

/-- The numbers backwards, or those up to a fork that has failed, behind the error. -/
def Leaves (all : List ℤ) (text : Text) : Prop :=
  text = lines all.reverse ∨
    ∃ (k : ℕ) (reason : String), k < all.length ∧ text = errorLine "fork" reason ++ lines (all.take (k + 1)).reverse

theorem Top.begins {files : Files} {stack : List ℤ} {resumed : Bool} {l : Local}
    (here : Top all outcomes files stack resumed l) : ∃ text, Leaves all text ∧ files.out <+: text := by
  cases here with
  | scan | fork => exact ⟨_, .inl rfl, List.nil_prefix⟩
  | wait text | print text | exit text =>
    refine ⟨_, text.leaves, ?_⟩
    rw [List.append_assoc]
    exact List.prefix_append _ _

section Lines

theorem values_digits {negative : Bool} {digits : Text} (all_ : ∀ c ∈ digits, Numeral.isDigit c = true) (value : ℕ)
    (rest : Text) : values (.digits negative value) (digits ++ rest) =
      values (.digits negative (digits.foldl (fun number c => 10 * number + Numeral.digitValue c) value)) rest := by
  induction digits generalizing value with
  | nil => rfl
  | cons c digits ih =>
    have seen : Scan.see (.digits negative value) (some c) =
        .more (.digits negative (10 * value + Numeral.digitValue c)) := by
      rw [Scan.see, if_pos (all_ c List.mem_cons_self)]
    rw [List.cons_append, values_more seen, ih fun d member => all_ d (List.mem_cons_of_mem _ member)]
    rfl

/-- The digits of a number are read behind its sign. -/
theorem values_sign (negative : Bool) (k : ℕ) (rest : Text) :
    values (.sign negative) (Numeral.numeral 10 k ++ rest) = values (.digits negative k) rest := by
  have value : Numeral.value 10 (Numeral.numeral 10 k) = k := Numeral.value_numeral (by decide) (by decide) k
  have all_ (c : BitVec 8) (member : c ∈ Numeral.numeral 10 k) : Numeral.isDigit c = true :=
    Numeral.isDigit_of_mem member
  obtain ⟨c, digits, same⟩ := List.exists_cons_of_ne_nil (Numeral.numeral_ne_nil 10 k)
  rw [same] at value all_ ⊢
  have seen : Scan.see (.sign negative) (some c) = .more (.digits negative (Numeral.digitValue c)) := by
    rw [Scan.see, if_pos (all_ c List.mem_cons_self)]
  rw [List.cons_append, values_more seen, values_digits fun d member => all_ d (List.mem_cons_of_mem _ member)]
  rw [Numeral.value, List.foldl_cons, Nat.mul_zero, Nat.zero_add] at value
  rw [value]

/-- A number without a sign is read like one behind a plus. -/
theorem values_space {c : BitVec 8} (is_digit : Numeral.isDigit c = true) (rest : Text) :
    values .space (c :: rest) = values (.sign false) (c :: rest) := by
  have notMinus : c ≠ Numeral.minus := by rintro rfl; cases is_digit
  have notPlus : c ≠ Numeral.plus := by rintro rfl; cases is_digit
  have seen : Scan.see .space (some c) = .more (.digits false (Numeral.digitValue c)) := by
    rw [Scan.see, if_neg (by simp [Numeral.isSpace_digit is_digit]), if_neg notMinus, if_neg notPlus, if_pos is_digit]
  have seen' : Scan.see (.sign false) (some c) = .more (.digits false (Numeral.digitValue c)) := by
    rw [Scan.see, if_pos is_digit]
  rw [values_more seen, values_more seen']

theorem converted_of_int {n : ℤ} (least : -2 ^ 31 ≤ n) (most : n < 2 ^ 31) :
    converted (decide (n < 0)) n.natAbs = n := by
  have number : (if decide (n < 0) = true then -(n.natAbs : ℤ) else n.natAbs) = n := by
    split_ifs with negative
    · have := of_decide_eq_true negative
      omega
    · have := of_decide_eq_false (Bool.eq_false_of_not_eq_true negative)
      omega
  rw [converted, number, min_eq_left (by omega), max_eq_right (by omega)]
  exact Int.bmod_eq_of_le (by omega) (by omega)

/-- `scanf` reads what `printf` has printed. -/
theorem numbers_line {n : ℤ} (least : -2 ^ 31 ≤ n) (most : n < 2 ^ 31) (rest : Text) :
    numbers (line n ++ rest) = n :: numbers rest := by
  have printed : numbers (line n ++ rest) =
      values (.digits (decide (n < 0)) n.natAbs) (ascii "\n" ++ rest) := by
    rw [line, decimal, numbers, List.append_assoc]
    split_ifs with negative
    · have seen : Scan.see .space (some Numeral.minus) = .more (.sign true) := by decide
      rw [List.cons_append, values_more seen, values_sign, decide_eq_true negative]
    · rw [decide_eq_false negative, ← values_sign]
      obtain ⟨c, digits, same⟩ := List.exists_cons_of_ne_nil (Numeral.numeral_ne_nil 10 n.natAbs)
      have is_digit : Numeral.isDigit c = true := Numeral.isDigit_of_mem (same ▸ List.mem_cons_self)
      rw [same, List.cons_append, values_space is_digit]
  have seen : Scan.see (.digits (decide (n < 0)) n.natAbs) (ascii "\n" ++ rest).head? = .number n :=
    congrArg Seen.number (converted_of_int least most)
  have space : Scan.see .space (ascii "\n" ++ rest).head? = .more .space := rfl
  rw [printed, values_number seen]
  exact congrArg _ (values_more space rest)

theorem numbers_lines {stack : List ℤ} (ints : ∀ n ∈ stack, -2 ^ 31 ≤ n ∧ n < 2 ^ 31) :
    numbers (lines stack) = stack := by
  induction stack with
  | nil => rfl
  | cons n stack ih =>
    obtain ⟨least, most⟩ := ints n List.mem_cons_self
    rw [lines_cons, numbers_line least most, ih fun m member => ints m (List.mem_cons_of_mem _ member)]

end Lines

end ReadReversed

/-- In every order of their steps, and however the input comes into their buffers, the processes print the
numbers of the input backwards, or those up to a fork that fails, behind the error. Each of these texts is left
by some run, and whatever the processes have done, they can come to their end. -/
theorem read_reversed_prints_iff (input : Stdio.Text) :
    (∀ s, (ReadReversed.program input).machine.Reachable (fun _ _ => True) s →
        (∃ text, ReadReversed.Leaves (ReadReversed.numbers input) text ∧ s.shared.out <+: text) ∧
          ∃ schedule s', (ReadReversed.program input).machine.run s schedule = some s' ∧ ForkChain.Ended s') ∧
      ∀ text, (∃ s, (ReadReversed.program input).machine.Reachable (fun _ _ => True) s ∧ ForkChain.Ended s ∧
        s.shared.out = text) ↔ ReadReversed.Leaves (ReadReversed.numbers input) text := by
  have anything (k : ℕ) (choice : ReadReversed.Choice) (l : ReadReversed.Local) :
      ReadReversed.permits (fun _ _ => True) k choice l := fun _ _ => trivial
  constructor
  · intro s reachable
    have permitted : (ReadReversed.program input).machine.Reachable
        (ForkChain.Permitted (ReadReversed.permits fun _ _ => True)) s :=
      reachable.mono fun _ _ _ _ _ => anything _ _ _
    constructor
    · cases ForkChain.ordered_of_reachable (ReadReversed.discipline input _) permitted with
      | running _ here => exact here.begins
      | exited _ printed => exact ⟨_, printed.leaves, List.prefix_rfl⟩
    · obtain ⟨schedule, s', ran, ended, -⟩ := ForkChain.exists_ended (ReadReversed.discipline input _)
        (ReadReversed.progress fun _ => ⟨none, trivial⟩) permitted
      exact ⟨schedule, s', ran, ended⟩
  · apply ForkChain.exists_left_iff ReadReversed.Files.out ReadReversed.permits anything
    · intro s reachable ended
      exact (ForkChain.ordered_of_reachable (ReadReversed.discipline input _) reachable).final ended
    · intro outcomes possible
      exact ForkChain.exists_ended (ReadReversed.discipline input outcomes) (ReadReversed.progress possible)
        (.start rfl)

/-- What was printed is read back, so that the lines of these numbers come out backwards where no fork fails;
the output has no other complete text then. -/
theorem read_reversed_lines {stack : List ℤ} (ints : ∀ n ∈ stack, -2 ^ 31 ≤ n ∧ n < 2 ^ 31)
    {s : ForkChain.State ReadReversed.Files ReadReversed.Local}
    (reachable : (ReadReversed.program (ReadReversed.lines stack)).machine.Reachable
      (ForkChain.Permitted (ReadReversed.permits fun _ failure => failure = none)) s)
    (ended : ForkChain.Ended s) : s.shared.out = ReadReversed.lines stack.reverse := by
  have discipline := ReadReversed.discipline (ReadReversed.lines stack) fun _ failure => failure = none
  have left := (ForkChain.ordered_of_reachable discipline reachable).final ended
  rw [ReadReversed.numbers_lines ints] at left
  generalize s.shared.out = text at left ⊢
  cases left with
  | all => rfl
  | failed _ fails => cases fails

theorem read_reversed_lines_two :
    ∃ s, (ReadReversed.program (ReadReversed.lines [12, -7])).machine.Reachable
      (ForkChain.Permitted (ReadReversed.permits fun _ failure => failure = none)) s ∧ ForkChain.Ended s ∧
      s.shared.out = Stdio.ascii "-7\n12\n" := by
  let outcomes : ForkChain.Outcomes String := fun _ failure => failure = none
  have discipline := ReadReversed.discipline (ReadReversed.lines [12, -7]) outcomes
  have possible (k : ℕ) : ∃ failure, outcomes k failure := ⟨none, rfl⟩
  obtain ⟨-, s, -, reachable, ended⟩ :=
    ForkChain.reachable_ended discipline (ReadReversed.progress possible) (.start rfl)
  have printed : ReadReversed.lines [-7, 12] = Stdio.ascii "-7\n12\n" := by decide
  exact ⟨s, reachable, ended, (read_reversed_lines (by decide) reachable ended).trans printed⟩

end Hseos.Fork
