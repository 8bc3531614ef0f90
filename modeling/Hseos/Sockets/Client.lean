import Hseos.Lib.CString
import Hseos.Lib.Machine
import Mathlib.Data.Int.Basic

/-! # The loop of the example client

The client sends each word that is typed and reads as many bytes back as it has sent. The peer echoes what it
receives, and the connection is a stream of bytes: `write` may take a part of the word, `read` may return a part
of what is under way, and the rest of it is the start of the next answer.

The environment chooses the words and the result of every call.
-/

namespace Hseos.Sockets

open CString

/-- `sizeof(data)`. -/
def sizeofData : ℕ := 1024

/-- What `read` returns. -/
inductive ReadResult where
  | chunk (count : ℕ)
  | zero
  | failed

/-- One pass of the loop: the word, how much of it `write` takes (nothing, if it fails) and what `read` returns. -/
structure Round where
  word : List (BitVec 8)
  sent : ℕ
  result : ReadResult

/-- The string that is left of a word in which a NUL was typed. -/
def Round.string (r : Round) : List (BitVec 8) := r.word.takeWhile (· ≠ 0)

/-- The array of the client, the bytes under way to the peer and back, and whether the end of the stream was
read; all words typed and all lines printed. -/
structure Client where
  data : List (BitVec 8)
  underWay : List (BitVec 8)
  ended : Bool
  typed : List (List (BitVec 8))
  printed : List (List (BitVec 8))

namespace Client

/-- The client with its connection, before the first word. -/
def start (data : List (BitVec 8)) : Client := ⟨data, [], false, [], []⟩

/-- `data[recv_size] = c`. -/
def terminate (data : List (BitVec 8)) (c : BitVec 8) : ℤ → Except Fault (List (BitVec 8))
  | .ofNat i => store data i c
  | .negSucc _ => .error .outOfBounds

/-- `scanf("%s", data)` and `strlen(data)`. -/
def scan (s : Client) (word : List (BitVec 8)) : Except Fault (Client × ℕ) := do
  let data ← strcpy s.data 0 word
  let len ← strlen data
  .ok ({ s with data := data, typed := s.typed ++ [word] }, len)

/-- `write`, from the start of `data`. -/
def write (s : Client) (count : ℕ) : Client := { s with underWay := s.underWay ++ s.data.take count }

/-- `read` of at most `len` bytes. Without an error nothing is read at the end of the stream, or if nothing is
asked for. -/
def read (s : Client) (len : ℕ) : ReadResult → Except Fault (Client × ℤ)
  | .chunk count => do
      let data ← CString.write s.data 0 (s.underWay.take count)
      .ok ({ s with data := data, underWay := s.underWay.drop count }, count)
  | .zero => .ok ({ s with ended := s.ended || decide (0 < len) }, 0)
  | .failed => .ok (s, -1)

/-- `printf("%s\n", data)`. -/
def print (s : Client) : Except Fault Client := do
  let line ← CString.string s.data
  .ok { s with printed := s.printed ++ [line] }

/-- The body of the loop. -/
def round (s : Client) (r : Round) : Except Fault Client := do
  let (s, len) ← s.scan r.word
  let (s, recvSize) ← (s.write r.sent).read len r.result
  let data ← terminate s.data 0 recvSize
  { s with data := data }.print

/-- A word has a byte, no more is taken than was written, and no more is read than was asked for and is under way;
the end of the stream is final. -/
def Possible (s : Client) (r : Round) : Prop :=
  r.word ≠ [] ∧ r.sent ≤ r.string.length ∧
    match r.result with
    | .chunk count => s.ended = false ∧ 1 ≤ count ∧ count ≤ r.string.length ∧ count ≤ s.underWay.length + r.sent
    | .zero | .failed => True

instance (s : Client) : DecidablePred s.Possible := fun r =>
  match r with
  | ⟨_, _, .chunk _⟩ => instDecidableAnd
  | ⟨_, _, .zero⟩ | ⟨_, _, .failed⟩ => instDecidableAnd

/-- While the connection lasts, the lines printed are the words typed. -/
def Sound (s : Client) : Prop := s.ended = false → s.printed = s.typed

/-- The pass accesses the array inside of its bounds, and leads to a sound state. -/
def Repeats (s : Client) (r : Round) : Prop := s.Possible r → ∃ s', s.round r = .ok s' ∧ s'.Sound

/-- The word fits with its NUL, and `read` does not fail; unless it has come to the end of the stream, it returns
as many bytes as the word has. -/
def Whole (s : Client) (r : Round) : Prop :=
  s.Possible r → r.word.length < sizeofData ∧
    match r.result with
    | .chunk count => count = r.word.length
    | .zero => s.ended ∨ r.string ≠ []
    | .failed => False

end Client

/-- The sequences of passes. -/
def client : Machine Client Round where
  start s := ∃ data, data.length = sizeofData ∧ s = .start data
  step s r := if s.Possible r then (s.round r).toOption else none

theorem Round.length_string (r : Round) : r.string.length ≤ r.word.length := (List.takeWhile_prefix _).length_le

namespace Client

variable {s s' : Client} {r : Round}

/-- Nothing is under way before a word is typed, and all words were printed. -/
structure Flow (s : Client) : Prop where
  size : s.data.length = sizeofData
  clear : s.ended = false → s.underWay = []
  sound : s.Sound

/-- A word that fits leaves its string in the array. -/
theorem scan_fits (size : s.data.length = sizeofData) (fits : r.word.length < sizeofData) :
    ∃ rest, (r.string ++ 0 :: rest).length = sizeofData ∧ s.scan r.word =
      .ok ({ s with data := r.string ++ 0 :: rest, typed := s.typed ++ [r.word] }, r.string.length) := by
  have copied := strcpy_start (fits.trans_eq size.symm)
  obtain ⟨rest, same⟩ := exists_string r.word (s.data.drop (r.word.length + 1))
  refine ⟨rest, ?_, ?_⟩
  · rw [Round.string, ← same, List.length_append, List.length_cons, List.length_drop]
    omega
  · rw [scan, copied, ok_bind, same, strlen_of_string (clean_takeWhile r.word)]
    rfl

theorem scan_beyond (size : s.data.length = sizeofData) (beyond : sizeofData ≤ r.word.length) :
    s.scan r.word = .error .outOfBounds := by
  have outside : strcpy s.data 0 r.word = .error .outOfBounds := strcpy_beyond (Nat.zero_le _) (by omega)
  rw [scan, outside]
  rfl

/-- The array after an answer that fits: the answer, and a NUL behind it. -/
theorem terminate_answer {data : List (BitVec 8)} (answer : List (BitVec 8)) (fits : answer.length < data.length) :
    ∃ rest, (answer ++ 0 :: rest).length = data.length ∧
      (CString.write data 0 answer >>= fun data => terminate data 0 answer.length) = .ok (answer ++ 0 :: rest) := by
  have same : (data.take answer.length).length = answer.length := List.length_take_of_le fits.le
  have written := write_middle [] (data.drop answer.length) same
  rw [List.nil_append, List.nil_append, List.take_append_drop] at written
  have inside : answer.length < (answer ++ data.drop answer.length).length := by
    rw [List.length_append, List.length_drop]
    omega
  obtain ⟨c, rest, split⟩ := List.exists_cons_of_length_pos (List.length_drop.symm ▸ Nat.sub_pos_of_lt fits :
    0 < (data.drop answer.length).length)
  refine ⟨rest, ?_, ?_⟩
  · have length := congrArg List.length split
    rw [List.length_drop, List.length_cons] at length
    rw [List.length_append, List.length_cons]
    omega
  · rw [List.length_nil] at written
    rw [written, ok_bind]
    show store (answer ++ data.drop answer.length) answer.length 0 = _
    rw [store, if_pos inside, split, List.set_append_right _ _ le_rfl, Nat.sub_self]
    rfl

/-- A `read` that returns bytes of the word: these are printed. -/
theorem round_chunk {count : ℕ} (size : s.data.length = sizeofData) (fits : r.word.length < sizeofData)
    (clear : s.underWay = []) (taken : r.sent ≤ r.string.length) (asked : count ≤ r.string.length)
    (arrived : count ≤ r.sent) (result : r.result = .chunk count) :
    ∃ data, data.length = sizeofData ∧ s.round r = .ok ⟨data, (r.string.take r.sent).drop count, s.ended,
      s.typed ++ [r.word], s.printed ++ [r.string.take count]⟩ := by
  obtain ⟨rest, length, scanned⟩ := scan_fits size fits
  have answer : (r.string.take r.sent).take count = r.string.take count := by
    rw [List.take_take, Nat.min_eq_left arrived]
  have counted : (r.string.take count).length = count := List.length_take_of_le asked
  have room : (r.string.take count).length < (r.string ++ 0 :: rest).length := by
    rw [List.length_append, List.length_cons]
    omega
  obtain ⟨after, same, answered⟩ := terminate_answer _ room
  obtain ⟨data, written, terminated⟩ := ok_of_bind answered
  have clean : 0 ∉ r.string.take count := fun member =>
    clean_takeWhile r.word (List.mem_of_mem_take member)
  refine ⟨_, same.trans length, ?_⟩
  have sent : (s.underWay ++ (r.string ++ 0 :: rest).take r.sent) = r.string.take r.sent := by
    rw [clear, List.nil_append, List.take_append_of_le_length taken]
  rw [counted] at terminated
  have returned : ({ s with data := r.string ++ 0 :: rest, typed := s.typed ++ [r.word] }.write r.sent).read
      r.string.length (.chunk count) =
      .ok (⟨data, (r.string.take r.sent).drop count, s.ended, s.typed ++ [r.word], s.printed⟩, count) := by
    rw [write, read, sent, answer, written]
    rfl
  rw [round, scanned, ok_bind, result]
  simp only
  rw [returned, ok_bind]
  change (terminate data 0 count >>= _) = _
  rw [terminated, ok_bind, print, string_of_string clean]
  rfl

/-- A `read` that returns nothing: an empty line is printed. -/
theorem round_zero (size : s.data.length = sizeofData) (fits : r.word.length < sizeofData)
    (result : r.result = .zero) :
    ∃ data underWay, data.length = sizeofData ∧ s.round r = .ok ⟨data, underWay,
      s.ended || decide (0 < r.string.length), s.typed ++ [r.word], s.printed ++ [[]]⟩ := by
  obtain ⟨rest, length, scanned⟩ := scan_fits size fits
  have inside : 0 < (r.string ++ 0 :: rest).length := by
    rw [length, sizeofData]
    decide
  obtain ⟨after, same, terminated⟩ := terminate_answer [] inside
  refine ⟨_, s.underWay ++ (r.string ++ 0 :: rest).take r.sent, same.trans length, ?_⟩
  rw [round, scanned, result]
  change (terminate (r.string ++ 0 :: rest) 0 0 >>= _) = _
  change terminate (r.string ++ 0 :: rest) 0 0 = _ at terminated
  rw [terminated, ok_bind, print, string_of_string List.not_mem_nil]
  rfl

theorem round_failed (size : s.data.length = sizeofData) (fits : r.word.length < sizeofData)
    (result : r.result = .failed) : s.round r = .error .outOfBounds := by
  obtain ⟨rest, length, scanned⟩ := scan_fits size fits
  rw [round, scanned, result]
  rfl

/-- The end of the stream was read before, or is read now. -/
theorem ended_iff (ended : Bool) (string : List (BitVec 8)) :
    (ended || decide (0 < string.length)) = true ↔ ended = true ∨ string ≠ [] := by
  rw [Bool.or_eq_true, decide_eq_true_iff, List.length_pos_iff]

/-- In the flow the bytes that are read are the first ones of the word. -/
theorem Flow.chunk {count : ℕ} (flow : s.Flow) (possible : s.Possible r) (fits : r.word.length < sizeofData)
    (result : r.result = .chunk count) :
    s.ended = false ∧ count ≤ r.string.length ∧ ∃ data, data.length = sizeofData ∧
      s.round r = .ok ⟨data, (r.string.take r.sent).drop count, s.ended, s.typed ++ [r.word],
        s.printed ++ [r.string.take count]⟩ := by
  obtain ⟨-, taken, possible⟩ := possible
  rw [result] at possible
  obtain ⟨lasts, -, asked, arrived⟩ := possible
  have clear := flow.clear lasts
  rw [clear, List.length_nil, Nat.zero_add] at arrived
  exact ⟨lasts, asked, round_chunk flow.size fits clear taken asked arrived result⟩

/-- The word is printed exactly if all of it was read. -/
theorem take_string_eq_word {count : ℕ} (asked : count ≤ r.string.length) :
    r.string.take count = r.word ↔ count = r.word.length := by
  constructor
  · intro whole
    rw [← whole, List.length_take_of_le asked]
  · rintro rfl
    have all : r.string = r.word := (List.takeWhile_prefix _).eq_of_length_le asked
    rw [List.take_of_length_le r.length_string, all]

/-- Exactly the passes that are whole keep the client sound. -/
theorem Flow.repeats_iff (flow : s.Flow) (r : Round) : s.Repeats r ↔ s.Whole r := by
  apply forall_congr'
  intro possible
  rcases Nat.lt_or_ge r.word.length sizeofData with fits | beyond
  · rw [and_iff_right fits]
    cases result : r.result with
    | chunk count =>
      obtain ⟨lasts, asked, data, -, ran⟩ := flow.chunk possible fits result
      simp only
      rw [ran, ← take_string_eq_word asked]
      constructor
      · rintro ⟨s', same, sound⟩
        cases same
        have lines : s.printed ++ [r.string.take count] = s.typed ++ [r.word] := sound lasts
        rwa [flow.sound lasts, List.append_cancel_left_eq, List.singleton_inj] at lines
      · intro word
        refine ⟨_, rfl, fun _ => ?_⟩
        show s.printed ++ [r.string.take count] = s.typed ++ [r.word]
        rw [word, flow.sound lasts]
    | zero =>
      obtain ⟨data, underWay, -, ran⟩ := round_zero flow.size fits result
      simp only
      rw [ran, ← ended_iff]
      constructor
      · rintro ⟨s', same, sound⟩
        cases same
        by_contra lasts
        rw [Bool.not_eq_true] at lasts
        have lines : s.printed ++ [[]] = s.typed ++ [r.word] := sound lasts
        rw [flow.sound (Bool.or_eq_false_iff.mp lasts).1, List.append_cancel_left_eq, List.singleton_inj] at lines
        exact possible.1 lines.symm
      · intro ended
        refine ⟨_, rfl, fun lasts => ?_⟩
        cases ended.symm.trans lasts
    | failed =>
      rw [round_failed flow.size fits result]
      apply iff_of_false
      · rintro ⟨s', ⟨⟩, _⟩
      · exact id
  · rw [round, scan_beyond flow.size beyond]
    apply iff_of_false
    · rintro ⟨s', ⟨⟩, _⟩
    · rintro ⟨fits, -⟩
      omega

/-- A whole pass keeps the flow. -/
theorem Flow.next (flow : s.Flow) (possible : s.Possible r) (whole : s.Whole r) (ran : s.round r = .ok s') :
    s'.Flow := by
  obtain ⟨s'', ran', sound⟩ := (flow.repeats_iff r).mpr whole possible
  cases ran.symm.trans ran'
  obtain ⟨fits, whole⟩ := whole possible
  cases result : r.result with
  | chunk count =>
    rw [result] at whole
    obtain ⟨lasts, asked, data, size, leads⟩ := flow.chunk possible fits result
    cases ran.symm.trans leads
    refine ⟨size, fun _ => ?_, sound⟩
    apply List.drop_eq_nil_of_le
    rw [List.length_take]
    have shorter := r.length_string
    omega
  | zero =>
    rw [result] at whole
    obtain ⟨data, underWay, size, leads⟩ := round_zero flow.size fits result
    cases ran.symm.trans leads
    refine ⟨size, fun lasts => ?_, sound⟩
    cases ((ended_iff _ _).mpr whole).symm.trans lasts
  | failed =>
    rw [result] at whole
    exact whole.elim

/-- Along a sequence of passes the client repeats the words, with all accesses inside of its array, exactly if each
word fits, no `read` fails, and each `read` before the end of the stream returns as many bytes as the word has. -/
theorem client_repeats_iff (data : List (BitVec 8)) (size : data.length = sizeofData) (rounds : List Round) :
    client.AllSteps Repeats (start data) rounds ↔ client.AllSteps Whole (start data) rounds := by
  apply Machine.allSteps_iff Flow
  · intro s r flow
    exact flow.repeats_iff r
  · intro s s' r flow whole moved
    obtain ⟨possible, ran⟩ := Option.ite_none_right_eq_some.mp moved
    exact flow.next possible whole (toOption_eq_some.mp ran)
  · exact ⟨size, fun _ => rfl, fun _ => rfl⟩

/-- The word `ab` comes back as it was typed. -/
theorem client_repeats_ab :
    client.AllSteps Repeats (start (List.replicate 1024 0)) [⟨[97, 98], 2, .chunk 2⟩] :=
  (client_repeats_iff (List.replicate 1024 0) List.length_replicate [⟨[97, 98], 2, .chunk 2⟩]).mpr
    ⟨fun _ => ⟨by decide, rfl⟩, fun _ _ => trivial⟩

/-- Of two bytes one is read; a word of 1024 bytes is typed; `read` fails. -/
theorem client_short_read :
    ¬client.AllSteps Repeats (start (List.replicate 1024 0)) [⟨[97, 98], 2, .chunk 1⟩] ∧
    ¬client.AllSteps Repeats (start (List.replicate 1024 0)) [⟨List.replicate 1024 97, 0, .zero⟩] ∧
    ¬client.AllSteps Repeats (start (List.replicate 1024 0)) [⟨[97], 1, .failed⟩] := by
  have flow : (start (List.replicate 1024 0)).Flow := ⟨List.length_replicate, fun _ => rfl, fun _ => rfl⟩
  refine ⟨?_, ?_, ?_⟩ <;> rintro ⟨repeats, -⟩ <;> rw [flow.repeats_iff] at repeats
  · have count : 1 = 2 := (repeats ⟨by decide, by decide, rfl, le_rfl, by decide, Nat.le_add_left 1 1⟩).2
    omega
  · have length : (List.replicate 1024 (97 : BitVec 8)).length = 1024 := List.length_replicate
    have nonempty := List.ne_nil_of_length_pos (Nat.lt_of_lt_of_eq (by decide : 0 < 1024) length.symm)
    have fits : _ < 1024 := (repeats ⟨nonempty, Nat.zero_le _, trivial⟩).1
    exact absurd length fits.ne
  · exact (repeats ⟨by decide, by decide, trivial⟩).2

end Client

end Hseos.Sockets
