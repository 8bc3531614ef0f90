import Hseos.Lib.Leb128
import Hseos.Lib.Word

/-! # The incremental LEB128 decoder

`put_char` takes one byte of a stream of signed LEB128 groups and stores a value at the last byte of
each group. On a word whose bits from `shift` up are clear, `|=` with a shifted word is an addition,
so between calls the parser holds the number of the bytes seen so far; the parser of a finished group
counts as a fresh one.
-/

namespace Hseos.Mmap

open Leb128

inductive LebState where
  | lebZero
  | lebPartial
  | lebFinished
deriving DecidableEq, Repr

structure Parser where
  result : BitVec 32
  shift : ℤ
  state : LebState
deriving DecidableEq, Repr

/-- `struct Parser parser = {}`. -/
def Parser.zero : Parser := ⟨0, 0, .lebZero⟩

/-- The first statement of `put_char`. -/
def Parser.renew (parser : Parser) : Parser :=
  if parser.state = .lebFinished then { parser with state := .lebZero, shift := 0, result := 0 }
  else parser

/-- `put_char`: what it returns, the parser and `*res` after it. A `char` is promoted to `int` with
its sign, and `~0 << shift` is taken as a shift of the bit pattern. -/
def putChar (parser : Parser) (c : BitVec 8) (res : ℤ) : Except Fault (ℤ × Parser × ℤ) := do
  let parser := parser.renew
  let parser := { parser with state := .lebPartial }
  let digit ← shiftLeft (c.signExtend 32 &&& 0x7f#32) parser.shift
  let parser := { parser with result := parser.result ||| digit }
  let shift ← intAdd parser.shift 7
  let parser := { parser with shift := shift }
  if 0x80#32 &&& c.signExtend 32 = 0 then
    let result ←
      if parser.shift < 32 ∧ c.signExtend 32 &&& 0x40#32 ≠ 0 then do
        let ones ← shiftLeft (~~~0#32) parser.shift
        pure (parser.result ||| ones)
      else pure parser.result
    let parser := { parser with result := result }
    return (0, { parser with state := .lebFinished }, parser.result.toInt)
  return (-2, parser, res)

/-- `put_char` on each byte of a stream: what each call returned and what `*res` held then, and the
parser and `*res` after the last call. -/
def feed (parser : Parser) (res : ℤ) : List (BitVec 8) → Except Fault (List (ℤ × ℤ) × Parser × ℤ)
  | [] => .ok ([], parser, res)
  | c :: rest => do
      let (ret, parser, res) ← putChar parser c res
      let (answers, last) ← feed parser res rest
      return ((ret, res) :: answers, last)

/-- The values `main` prints. -/
def printed (answers : List (ℤ × ℤ)) : List ℤ :=
  (answers.filter fun answer => answer.1 = 0).map Prod.snd

section Bits

theorem and_payload (c : BitVec 8) : c.signExtend 32 &&& 0x7f#32 = BitVec.ofNat 32 (payload c) := by
  revert c
  decide

theorem and_more (c : BitVec 8) : 0x80#32 &&& c.signExtend 32 = 0 ↔ c.toNat < 128 := by
  revert c
  decide

theorem and_sign (c : BitVec 8) : c.signExtend 32 &&& 0x40#32 ≠ 0 ↔ 64 ≤ payload c := by
  revert c
  decide

/-- Setting shifted bits above all bits of `u` adds them. -/
theorem or_shift {u s : ℕ} (p : ℕ) (clear : u < 2 ^ s) :
    BitVec.ofNat 32 u ||| BitVec.ofNat 32 p <<< s = BitVec.ofNat 32 (u + p * 2 ^ s) := by
  have disjoint : BitVec.ofNat 32 u &&& BitVec.ofNat 32 p <<< s = 0#32 := by
    apply BitVec.eq_of_getLsbD_eq
    intro i _
    rw [BitVec.getLsbD_and, BitVec.getLsbD_shiftLeft, BitVec.getLsbD_ofNat, BitVec.getLsbD_zero]
    rcases Nat.lt_or_ge i s with low | high
    · simp [low]
    · have beyond : u < 2 ^ i := Nat.lt_of_lt_of_le clear (Nat.pow_le_pow_right (by decide) high)
      simp [Nat.testBit_lt_two_pow beyond]
  rw [← BitVec.add_eq_or_of_and_eq_zero _ _ disjoint]
  apply BitVec.eq_of_toNat_eq
  simp only [BitVec.toNat_add, BitVec.toNat_shiftLeft, BitVec.toNat_ofNat, Nat.shiftLeft_eq]
  rw [Nat.add_mod, Nat.mod_mod, Nat.mod_mod, ← Nat.add_mod, Nat.add_mod, Nat.mod_mul_mod, ← Nat.add_mod]

end Bits

/-- Between two calls the parser holds the number `u` of `n` bytes of an unfinished group. -/
structure Holds (parser : Parser) (u n : ℕ) : Prop where
  result : parser.renew.result = BitVec.ofNat 32 u
  shift : parser.renew.shift = (7 * n : ℕ)
  bound : u < 2 ^ (7 * n)

theorem Holds.fresh {parser : Parser} (finished : parser.state = .lebFinished) : Holds parser 0 0 := by
  have zero : parser.renew = .zero := if_pos finished
  exact ⟨by rw [zero]; rfl, by rw [zero]; rfl, Nat.one_pos⟩

variable {parser : Parser} {u n : ℕ} {c : BitVec 8}

theorem digit_lt (c : BitVec 8) (bound : u < 2 ^ (7 * n)) :
    u + payload c * 2 ^ (7 * n) < 2 ^ (7 * (n + 1)) := by
  calc
    u + payload c * 2 ^ (7 * n) < (payload c + 1) * 2 ^ (7 * n) := by
      rw [Nat.add_one_mul (payload c)]
      omega
    _ ≤ 128 * 2 ^ (7 * n) := Nat.mul_le_mul_right _ (payload_lt c)
    _ = 2 ^ (7 * (n + 1)) := by rw [Nat.mul_succ, Nat.pow_add, Nat.mul_comm]

/-- What `put_char` does on a parser that holds the number `u` of `n` bytes. -/
theorem putChar_digit (holds : Holds parser u n) (few : n < 5) (res : ℤ) :
    putChar parser c res =
      let number := u + payload c * 2 ^ (7 * n)
      let shift : ℤ := (7 * (n + 1) : ℕ)
      if c.toNat < 128 then
        let result := BitVec.ofNat 32
          (if n < 4 ∧ 64 ≤ payload c then number + (2 ^ 32 - 1) * 2 ^ (7 * (n + 1)) else number)
        .ok (0, ⟨result, shift, .lebFinished⟩, result.toInt)
      else .ok (-2, ⟨BitVec.ofNat 32 number, shift, .lebPartial⟩, res) := by
  obtain ⟨result, shift, bound⟩ := holds
  have next : ((7 * n : ℕ) : ℤ) + 7 = (7 * (n + 1) : ℕ) := by push_cast; ring
  have small := digit_lt c bound
  simp only [putChar, result, shift, shiftLeft_ok _ (show 7 * n < 32 by omega), ok_bind, and_payload,
    or_shift _ bound, intAdd_ok (show -2 ^ 31 ≤ ((7 * n : ℕ) : ℤ) + 7 by omega) (by omega), next,
    and_more, and_sign]
  by_cases last : c.toNat < 128
  · by_cases negative : n < 4 ∧ 64 ≤ payload c
    · rw [if_pos last, if_pos ⟨by omega, negative.2⟩, if_pos last, if_pos negative,
        shiftLeft_ok _ (show 7 * (n + 1) < 32 by omega), ← or_shift _ small]
      rfl
    · rw [if_pos last, if_neg (by omega), if_pos last, if_neg negative]
      rfl
  · rw [if_neg last, if_neg last]
    rfl

/-- A byte with the top bit set adds a digit. -/
theorem putChar_more (holds : Holds parser u n) (few : n < 5) (more : 128 ≤ c.toNat) (res : ℤ) :
    ∃ parser', putChar parser c res = .ok (-2, parser', res) ∧
      Holds parser' (u + payload c * 2 ^ (7 * n)) (n + 1) := by
  exact ⟨_, (putChar_digit holds few res).trans (if_neg (by omega)), rfl, rfl, digit_lt c holds.bound⟩

theorem bmod_congr {a b : ℤ} (k : ℤ) (equal : a = k * (2 ^ 32 : ℕ) + b) :
    a.bmod (2 ^ 32) = b.bmod (2 ^ 32) := by
  rw [equal, Int.mul_add_bmod_self_right]

/-- The last byte of a group stores the signed number of all its bytes. -/
theorem putChar_last (holds : Holds parser u n) (few : n < 5) (last : c.toNat < 128) (res : ℤ) :
    ∃ parser', putChar parser c res =
        .ok (0, parser', (u + 2 ^ (7 * n) * signed [c]).bmod (2 ^ 32)) ∧
      parser'.state = .lebFinished := by
  have digit := payload_lt c
  have sign : signed [c] = if payload c < 64 then (payload c : ℤ) else payload c - 128 := by
    rw [signed, unsigned, unsigned, List.length_singleton]
    split <;> split <;> omega
  have top : (2 : ℤ) ^ (7 * (n + 1)) = 128 * 2 ^ (7 * n) := by
    rw [Nat.mul_succ, pow_add, mul_comm]
    rfl
  rw [putChar_digit holds few res]
  simp only [if_pos last, BitVec.toInt_ofNat', sign]
  refine ⟨_, congrArg Except.ok (congrArg (Prod.mk 0) (congrArg (Prod.mk _) ?_)), rfl⟩
  by_cases negative : 64 ≤ payload c
  · have low : ¬payload c < 64 := by omega
    by_cases short : n < 4
    · rw [if_pos ⟨short, negative⟩, if_neg low]
      apply bmod_congr (2 ^ (7 * (n + 1)))
      push_cast
      rw [top]
      ring
    · obtain rfl : n = 4 := by omega
      rw [if_neg fun both => absurd both.1 (by decide), if_neg low]
      apply bmod_congr 8
      push_cast
      ring
  · rw [if_neg fun both => negative both.2, if_pos (by omega)]
    apply bmod_congr 0
    push_cast
    ring

theorem feed_append {parser' : Parser} {res res' : ℤ} {last : Parser × ℤ}
    {first second : List (BitVec 8)} {answers more : List (ℤ × ℤ)}
    (before : feed parser res first = .ok (answers, parser', res'))
    (after : feed parser' res' second = .ok (more, last)) :
    feed parser res (first ++ second) = .ok (answers ++ more, last) := by
  induction first generalizing parser res answers with
  | nil =>
    cases before
    exact after
  | cons c rest ih =>
    obtain ⟨⟨ret, parser₁, res₁⟩, called, later⟩ := ok_of_bind before
    obtain ⟨⟨others, last'⟩, fed, ended⟩ := ok_of_bind later
    cases ended
    simp only [List.cons_append, feed, called, ok_bind, ih fed]
    rfl

/-- The bytes of a group are answered by `-2`, and the last one by the value of the group. -/
theorem feed_group {group : List (BitVec 8)} (isGroup : IsGroup group) (holds : Holds parser u n)
    (few : n + group.length ≤ 5) (res : ℤ) :
    ∃ last, feed parser res group = .ok (List.replicate (group.length - 1) (-2, res) ++
        [(0, (u + 2 ^ (7 * n) * signed group).bmod (2 ^ 32))],
        last, (u + 2 ^ (7 * n) * signed group).bmod (2 ^ 32)) ∧
      last.state = .lebFinished := by
  induction group generalizing parser u n with
  | nil => exact absurd isGroup id
  | cons c rest ih =>
    rw [List.length_cons] at few
    cases rest with
    | nil =>
      obtain ⟨last, called, finished⟩ := putChar_last holds (by omega) isGroup res
      refine ⟨last, ?_, finished⟩
      rw [feed, called]
      rfl
    | cons next rest =>
      obtain ⟨more, isGroup⟩ := isGroup
      obtain ⟨parser', called, holds'⟩ := putChar_more holds (by omega) more res
      obtain ⟨last, fed, finished⟩ := ih isGroup holds' (by omega)
      refine ⟨last, ?_, finished⟩
      have value : (u : ℤ) + 2 ^ (7 * n) * signed (c :: next :: rest) =
          ((u + payload c * 2 ^ (7 * n) : ℕ) : ℤ) + 2 ^ (7 * (n + 1)) * signed (next :: rest) := by
        rw [signed_cons (List.cons_ne_nil _ _), Nat.mul_succ, pow_add]
        push_cast
        ring
      simp only [feed, called, ok_bind] at fed ⊢
      rw [fed, value]
      rfl

/-- A stream of groups is answered group by group. -/
theorem feed_groups {groups : List (List (BitVec 8))}
    (valid : ∀ group ∈ groups, IsGroup group ∧ group.length ≤ 5) (fresh : Holds parser 0 0) (res : ℤ) :
    ∃ answers last, feed parser res groups.flatten = .ok (answers, last) ∧
      answers.map Prod.fst =
        groups.flatMap (fun group => List.replicate (group.length - 1) (-2) ++ [0]) ∧
      printed answers = groups.map fun group => (signed group).bmod (2 ^ 32) := by
  induction groups generalizing parser res with
  | nil => exact ⟨[], _, rfl, rfl, rfl⟩
  | cons group rest ih =>
    obtain ⟨isGroup, short⟩ := valid group List.mem_cons_self
    obtain ⟨middle, fed, finished⟩ := feed_group isGroup fresh (by omega) res
    obtain ⟨answers, last, later, returned, values⟩ :=
      ih (fun other member => valid other (List.mem_cons_of_mem _ member)) (.fresh finished)
        ((signed group).bmod (2 ^ 32))
    simp only [Nat.cast_zero, Nat.mul_zero, pow_zero, one_mul, zero_add] at fed
    refine ⟨_, last, feed_append fed later, ?_, ?_⟩
    · simp [returned]
    · simp only [printed, List.filter_append, List.map_append, List.map_cons] at values ⊢
      rw [values]
      simp

/-- A stream of groups of at most five bytes is answered by zero at the last byte of each group and
by `-2` elsewhere, and the values stored are the signed values of the groups, reduced to 32 bits. In
particular the stream of the shortest groups of any 32-bit integers gives back these integers. -/
theorem put_char_decodes (res : ℤ) :
    (∀ groups : List (List (BitVec 8)), (∀ group ∈ groups, IsGroup group ∧ group.length ≤ 5) →
      ∃ answers last, feed .zero res groups.flatten = .ok (answers, last) ∧
        answers.map Prod.fst =
          groups.flatMap (fun group => List.replicate (group.length - 1) (-2) ++ [0]) ∧
        printed answers = groups.map fun group => (signed group).bmod (2 ^ 32)) ∧
    ∀ values : List ℤ, (∀ v ∈ values, -2 ^ 31 ≤ v ∧ v < 2 ^ 31) →
      ∃ answers last, feed .zero res (values.flatMap encode) = .ok (answers, last) ∧
        printed answers = values := by
  have fresh : Holds .zero 0 0 := ⟨rfl, rfl, Nat.one_pos⟩
  refine ⟨fun groups valid => feed_groups valid fresh res, fun values range => ?_⟩
  have valid : ∀ group ∈ values.map encode, IsGroup group ∧ group.length ≤ 5 := by
    intro group member
    obtain ⟨v, inside, rfl⟩ := List.mem_map.mp member
    have bounds := range v inside
    exact ⟨isGroup_encode v, length_encode_le (k := 4) (by omega) (by omega)⟩
  obtain ⟨answers, last, fed, _, values_⟩ := feed_groups valid fresh res
  refine ⟨answers, last, fed, values_.trans ?_⟩
  rw [List.map_map]
  refine (List.map_congr_left fun v member => ?_).trans (List.map_id values)
  have bounds := range v member
  rw [Function.comp_apply, signed_encode, id]
  exact Int.bmod_eq_of_le (by omega) (by omega)

/-- A group of three bytes, a padded one and the five bytes of the least integer. -/
theorem put_char_decodes_three :
    ∃ answers last, feed .zero 0 [0xe5, 0x8e, 0x26, 0xff, 0x7f, 0x80, 0x80, 0x80, 0x80, 0x78] =
        .ok (answers, last) ∧ printed answers = [624485, -1, -2147483648] := by
  obtain ⟨answers, last, fed, _, values⟩ := (put_char_decodes 0).1
    [[0xe5, 0x8e, 0x26], [0xff, 0x7f], [0x80, 0x80, 0x80, 0x80, 0x78]] (by simp [IsGroup])
  exact ⟨answers, last, fed, values.trans (by decide)⟩

end Hseos.Mmap
