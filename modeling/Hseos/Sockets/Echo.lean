import Hseos.Sockets.Client
import Hseos.Sockets.Server

/-! # The example client at the example server

The server writes a page header before it sends back what it receives, and the client knows nothing of that. Both
sides take their steps in any order, and the connection is a stream of bytes in each direction: a call may take or
return a part of them.

The client was described with its answers under way from a peer that echoes; here they come from the server.
-/

namespace Hseos.Sockets

open CString

/-- The header with its NUL, which `write` is asked for as well. -/
def header : List (BitVec 8) :=
  (String.toList ("HTTP/1.1 200 OK\nServer: Fake\nContent-Language: ru\n" ++
    "Content-Type: text/html; charset=utf-8\n\n\x00")).map fun c => BitVec.ofNat 8 c.toNat

/-- The call that the client makes next, and the length of its word. -/
inductive ClientPc where
  | scanf
  | write (len : ℕ)
  | read (len : ℕ)
  | returned
deriving DecidableEq

/-- Client and server, and the bytes under way to the server; those to the client are with the client. What the
server has written of the header, all bytes that the client has written, and what each of its reads has
returned. -/
structure Echo where
  pc : ClientPc
  client : Client
  greeted : Bool
  server : Connection
  toServer : List (BitVec 8)
  greeting : List (BitVec 8)
  written : List (BitVec 8)
  answers : List (List (BitVec 8))

/-- A call of the client, or of the server. The client leaves its loop when `scanf` reads no word. -/
inductive EchoCall where
  | scanf (word : List (BitVec 8))
  | leave
  | write (count : ℕ)
  | read (result : ReadResult)
  | greet (count : ℕ)
  | serve (call : SocketCall)

/-- The bytes that a call takes from the connection. -/
def SocketCall.received : SocketCall → List (BitVec 8)
  | .recv (.chunk data) => data
  | .recv .ended | .recv (.failed _) | .send _ => []

/-- The bytes that a call puts into the connection. -/
def Connection.sent (s : Connection) : SocketCall → List (BitVec 8)
  | .send (.taken count) => s.bytes count
  | .recv _ | .send (.failed _) => []

/-- `read`, the NUL behind the answer, and `printf`. -/
def Client.answer (c : Client) (len : ℕ) (result : ReadResult) : Except Fault Client := do
  let (c, recvSize) ← c.read len result
  let data ← terminate c.data 0 recvSize
  { c with data := data }.print

namespace Echo

/-- Behind `accept` and `connect`, with the variables of both processes. -/
def start (data : List (BitVec 8)) (recvSize errno : ℤ) (buf : ℕ → BitVec 8) : Echo :=
  ⟨.scanf, .start data, false, .start recvSize errno buf, [], [], [], []⟩

/-- A read returns at least a byte and no more than was asked for and is under way; nothing at the end of the
stream, or if nothing is asked for. -/
def Readable (s : Echo) (len : ℕ) : ReadResult → Prop
  | .chunk count => 1 ≤ count ∧ count ≤ len ∧ count ≤ s.client.underWay.length
  | .zero => len = 0 ∨ s.server.pc = .closed ∧ s.client.underWay = []
  | .failed => True

instance (s : Echo) (len : ℕ) : DecidablePred (s.Readable len) := fun result =>
  match result with
  | .chunk _ => instDecidableAnd
  | .zero => instDecidableOr
  | .failed => .isTrue trivial

/-- What the server receives is what is under way; the stream ends when the client has returned. -/
def Receivable (s : Echo) : SocketCall → Prop
  | .recv (.chunk data) => data <+: s.toServer
  | .recv .ended => s.pc = .returned ∧ s.toServer = []
  | .recv (.failed _) | .send _ => True

instance (s : Echo) : DecidablePred s.Receivable := fun call =>
  match call with
  | .recv (.chunk data) => inferInstanceAs (Decidable (data <+: s.toServer))
  | .recv .ended => instDecidableAnd
  | .recv (.failed _) | .send _ => .isTrue trivial

/-- The bytes that a read returns. -/
def returned (s : Echo) : ReadResult → List (BitVec 8)
  | .chunk count => s.client.underWay.take count
  | .zero | .failed => []

/-- A call with what is done behind it. An access outside of the array of the client has no result. -/
def step (s : Echo) : EchoCall → Option Echo
  | .scanf word =>
      if s.pc = .scanf ∧ word ≠ [] then
        (s.client.scan word).toOption.map fun (client, len) => { s with pc := .write len, client := client }
      else none
  | .leave => if s.pc = .scanf then some { s with pc := .returned } else none
  | .write count =>
      match s.pc with
      | .write len =>
          if count ≤ len then
            some { s with
              pc := .read len, toServer := s.toServer ++ s.client.data.take count,
              written := s.written ++ s.client.data.take count }
          else none
      | .scanf | .read _ | .returned => none
  | .read result =>
      match s.pc with
      | .read len =>
          if s.Readable len result then
            (s.client.answer len result).toOption.map fun client =>
              { s with pc := .scanf, client := client, answers := s.answers ++ [s.returned result] }
          else none
      | .scanf | .write _ | .returned => none
  | .greet count =>
      if s.greeted = false ∧ count ≤ header.length then
        some { s with
          greeted := true, greeting := header.take count,
          client := { s.client with underWay := s.client.underWay ++ header.take count } }
      else none
  | .serve call =>
      if s.greeted = true ∧ s.server.Possible call ∧ s.Receivable call then
        some { s with
          server := s.server.next call, toServer := s.toServer.drop call.received.length,
          client := { s.client with underWay := s.client.underWay ++ s.server.sent call } }
      else none

end Echo

/-- All orders of the calls. -/
def echo : Machine Echo EchoCall where
  start s := ∃ data recvSize errno buf, data.length = sizeofData ∧ s = .start data recvSize errno buf
  step := Echo.step

/-- An answer that fits is printed up to its first NUL. -/
theorem Client.answer_chunk {c : Client} {len count : ℕ} (size : c.data.length = sizeofData) (fits : len < sizeofData)
    (asked : count ≤ len) (arrived : count ≤ c.underWay.length) :
    ∃ data, data.length = sizeofData ∧ c.answer len (.chunk count) = .ok { c with
      data := data, underWay := c.underWay.drop count,
      printed := c.printed ++ [(c.underWay.take count).takeWhile (· ≠ 0)] } := by
  have counted : (c.underWay.take count).length = count := List.length_take_of_le arrived
  obtain ⟨after, same, answered⟩ := @terminate_answer c.data (c.underWay.take count) (by omega)
  obtain ⟨data, written, terminated⟩ := ok_of_bind answered
  rw [counted] at terminated
  obtain ⟨rest, string⟩ := exists_string (c.underWay.take count) after
  refine ⟨_, same.trans size, ?_⟩
  rw [answer, read, written]
  change (terminate data 0 count >>= _) = _
  rw [terminated, ok_bind, print, string, string_of_string (clean_takeWhile _)]
  rfl

theorem Client.answer_zero {c : Client} (size : c.data.length = sizeofData) (len : ℕ) :
    ∃ data, data.length = sizeofData ∧ c.answer len .zero = .ok { c with
      data := data, ended := c.ended || decide (0 < len), printed := c.printed ++ [[]] } := by
  have inside : 0 < c.data.length := by
    rw [size, sizeofData]
    decide
  obtain ⟨after, same, terminated⟩ := terminate_answer [] inside
  change terminate c.data 0 0 = .ok (0 :: after) at terminated
  refine ⟨_, same.trans size, ?_⟩
  rw [answer, read]
  change (terminate c.data 0 0 >>= _) = _
  rw [terminated, ok_bind, print]
  rfl

namespace Echo

variable {s s' : Echo} {server : Connection} {call : SocketCall}

/-- What the server has received and not sent back: its chunk, before the `send`. -/
def held (server : Connection) : List (BitVec 8) :=
  if server.pc = .send then server.bytes server.delivered else []

/-- What the server has received was sent back, but for its chunk. -/
structure Serves (server : Connection) : Prop where
  flow : server.Flow
  kept : server.received = server.accepted ++ held server

/-- A whole call of the server moves bytes from one stream to the other. -/
theorem Serves.next (serves : Serves server) (possible : server.Possible call) (whole : server.Whole call) :
    Serves (server.next call) ∧ (server.next call).received = server.received ++ call.received ∧
      (server.next call).accepted = server.accepted ++ server.sent call := by
  have flow := serves.flow.next possible whole
  match call with
  | .recv (.chunk data) =>
    have pc := (serves.flow.recv_chunk possible.1 possible.2.1 possible.2.2).1
    refine ⟨⟨flow, ?_⟩, rfl, (List.append_nil _).symm⟩
    rw [held, if_pos pc]
    exact flow.held pc
  | .recv .ended =>
    have same : server.accepted = server.received := serves.flow.empty possible
    refine ⟨⟨flow, ?_⟩, (List.append_nil _).symm, (List.append_nil _).symm⟩
    show server.received = server.accepted ++ []
    rw [same, List.append_nil]
  | .recv (.failed errno) =>
    have other : errno ≠ eintr := by
      rintro rfl
      exact whole possible rfl
    have pc : (server.next (.recv (.failed errno))).pc = .closed := by
      have checked := Connection.checkSocketResult_failed errno
      rw [if_neg other] at checked
      exact if_pos checked
    have same : server.accepted = server.received := serves.flow.empty possible
    refine ⟨⟨flow, ?_⟩, (List.append_nil _).symm, (List.append_nil _).symm⟩
    rw [held, pc]
    show server.received = server.accepted ++ []
    rw [same, List.append_nil]
  | .send result =>
    obtain rfl : result = .taken server.delivered := whole possible
    have holds : server.pc = .send := possible.1
    have pc := serves.flow.send_pc holds (.taken server.delivered)
    refine ⟨⟨flow, ?_⟩, (List.append_nil _).symm, rfl⟩
    rw [held, pc]
    show server.received = server.accepted ++ server.bytes server.delivered ++ []
    rw [serves.flow.held holds, List.append_nil]

/-- The calls of the server are whole. -/
def ServerWhole (s : Echo) : EchoCall → Prop
  | .serve call => s.server.Whole call
  | .scanf _ | .leave | .write _ | .read _ | .greet _ => True

/-- No byte is lost between the two sides. -/
structure Streams (s : Echo) : Prop where
  size : s.client.data.length = sizeofData
  fits : ∀ len, s.pc = .write len ∨ s.pc = .read len → len < sizeofData
  serves : Serves s.server
  header : s.greeting <+: header
  quiet : s.greeted = false → s.greeting = [] ∧ s.server.accepted = []
  up : s.written = s.server.received ++ s.toServer
  down : s.greeting ++ s.server.accepted = s.answers.flatten ++ s.client.underWay
  printed : s.client.printed = s.answers.map fun answer => answer.takeWhile (· ≠ 0)

/-- What a word leaves in the client; one that does not fit has no result. -/
theorem scanf_cases (size : s.client.data.length = sizeofData) {word : List (BitVec 8)}
    (moved : s.step (.scanf word) = some s') :
    ∃ rest, s.pc = .scanf ∧ word.length < sizeofData ∧ (word.takeWhile (· ≠ 0) ++ 0 :: rest).length = sizeofData ∧
      s' = { s with
        pc := .write (word.takeWhile (· ≠ 0)).length,
        client := { s.client with
          data := word.takeWhile (· ≠ 0) ++ 0 :: rest, typed := s.client.typed ++ [word] } } := by
  simp only [step] at moved
  split_ifs at moved with calls
  let r : Round := ⟨word, 0, .zero⟩
  rcases Nat.lt_or_ge word.length sizeofData with small | beyond
  · obtain ⟨rest, length, scanned⟩ := Client.scan_fits (r := r) size small
    rw [show word = r.word from rfl, scanned] at moved
    cases moved
    exact ⟨rest, calls.1, small, length, rfl⟩
  · rw [show word = r.word from rfl, Client.scan_beyond size beyond] at moved
    cases moved

theorem write_cases {count : ℕ} (moved : s.step (.write count) = some s') :
    ∃ len, s.pc = .write len ∧ count ≤ len ∧ s' = { s with
      pc := .read len, toServer := s.toServer ++ s.client.data.take count,
      written := s.written ++ s.client.data.take count } := by
  cases here : s.pc with
  | scanf | read | returned =>
    simp only [step, here] at moved
    cases moved
  | write len =>
    simp only [step, here] at moved
    split_ifs at moved with inside
    cases moved
    exact ⟨len, rfl, inside, rfl⟩

/-- What a read that returns leaves in the client. -/
theorem read_cases (size : s.client.data.length = sizeofData) (fits : ∀ len, s.pc = .read len → len < sizeofData)
    {result : ReadResult} (moved : s.step (.read result) = some s') :
    ∃ len data ended, s.pc = .read len ∧ s.Readable len result ∧ (s.returned result).length ≤ len ∧
      data.length = sizeofData ∧
      s.client.underWay = s.returned result ++ s.client.underWay.drop (s.returned result).length ∧
      s' = { s with
        pc := .scanf, answers := s.answers ++ [s.returned result],
        client := ⟨data, s.client.underWay.drop (s.returned result).length, ended, s.client.typed,
          s.client.printed ++ [(s.returned result).takeWhile (· ≠ 0)]⟩ } := by
  cases here : s.pc with
  | scanf | write | returned =>
    simp only [step, here] at moved
    cases moved
  | read len =>
    simp only [step, here] at moved
    split_ifs at moved with readable
    cases result with
    | chunk count =>
      have ⟨_, asked, arrived⟩ := readable
      obtain ⟨data, length, answered⟩ := Client.answer_chunk size (fits len here) asked arrived
      rw [answered] at moved
      cases moved
      have counted : (s.returned (.chunk count)).length = count := List.length_take_of_le arrived
      refine ⟨len, data, s.client.ended, rfl, readable, counted.trans_le asked, length, ?_, ?_⟩
      · rw [counted]
        exact (List.take_append_drop _ _).symm
      · rw [counted]
        rfl
    | zero =>
      obtain ⟨data, length, answered⟩ := Client.answer_zero size len
      rw [answered] at moved
      cases moved
      exact ⟨len, data, _, rfl, readable, Nat.zero_le _, length, rfl, rfl⟩
    | failed =>
      cases moved

/-- A call keeps all bytes. -/
theorem Streams.step {a : EchoCall} (streams : Streams s) (whole : s.ServerWhole a) (moved : s.step a = some s') :
    Streams s' := by
  obtain ⟨size, fits, serves, header, quiet, up, down, printed⟩ := streams
  cases a with
  | scanf word =>
    obtain ⟨rest, -, small, length, rfl⟩ := scanf_cases size moved
    refine ⟨length, ?_, serves, header, quiet, up, down, printed⟩
    rintro len (same | same)
    · cases same
      exact (List.takeWhile_prefix _).length_le.trans_lt small
    · cases same
  | leave =>
    simp only [Echo.step] at moved
    split_ifs at moved with calls
    cases moved
    exact ⟨size, by simp, serves, header, quiet, up, down, printed⟩
  | write count =>
    obtain ⟨len, here, -, rfl⟩ := write_cases moved
    refine ⟨size, ?_, serves, header, quiet, ?_, down, printed⟩
    · rintro _ (same | same)
      · cases same
      · cases same
        exact fits len (.inl here)
    · show s.written ++ _ = s.server.received ++ (s.toServer ++ _)
      rw [up, List.append_assoc]
  | read result =>
    obtain ⟨len, data, ended, here, readable, most, length, split, rfl⟩ :=
      read_cases size (fun len here => fits len (.inr here)) moved
    refine ⟨length, by simp, serves, header, quiet, up, ?_, ?_⟩
    · show s.greeting ++ s.server.accepted = (s.answers ++ [s.returned result]).flatten ++ _
      rw [List.flatten_append, List.flatten_singleton, List.append_assoc, ← split, down]
    · show s.client.printed ++ _ = (s.answers ++ [s.returned result]).map _
      rw [printed, List.map_append]
      rfl
  | greet count =>
    simp only [Echo.step] at moved
    split_ifs at moved with calls
    cases moved
    obtain ⟨nothing, none⟩ := quiet calls.1
    refine ⟨size, fits, serves, List.take_prefix _ _, nofun, up, ?_, printed⟩
    show Sockets.header.take count ++ s.server.accepted = _ ++ (s.client.underWay ++ _)
    rw [nothing, none] at down
    rw [none, List.append_nil, ← List.append_assoc, ← down]
    rfl
  | serve call =>
    simp only [Echo.step] at moved
    split_ifs at moved with calls
    cases moved
    obtain ⟨greeted, possible, receivable⟩ := calls
    obtain ⟨serves', received, accepted⟩ := serves.next possible whole
    have taken : s.toServer = call.received ++ s.toServer.drop call.received.length := by
      match call with
      | .recv (.chunk data) => exact (List.prefix_iff_eq_append.mp receivable).symm
      | .recv .ended | .recv (.failed _) | .send _ => rfl
    refine ⟨size, fits, serves', header, ?_, ?_, ?_, printed⟩
    · intro not
      cases greeted.symm.trans not
    · show s.written = _ ++ _
      rw [received, List.append_assoc, ← taken, up]
    · show s.greeting ++ _ = s.answers.flatten ++ (s.client.underWay ++ _)
      rw [accepted, ← List.append_assoc, down, List.append_assoc]

theorem streams_start (started : echo.start s) : Streams s := by
  obtain ⟨data, recvSize, errno, buf, size, rfl⟩ := started
  refine ⟨size, by simp [start], ⟨⟨fun _ => rfl, nofun, nofun, nofun⟩, rfl⟩, List.nil_prefix, ?_, rfl, rfl, rfl⟩
  exact fun _ => ⟨rfl, rfl⟩

theorem streams_of_reachable (reachable : echo.Reachable ServerWhole s) : Streams s := by
  apply reachable.invariant
  · intro s started
    exact streams_start started
  · intro s s' a whole streams moved
    exact streams.step whole moved

/-- The calls are whole on both sides, and no `recv` fails. -/
def Full (s : Echo) : EchoCall → Prop
  | .serve call => s.server.Whole call ∧ ∀ errno, call ≠ .recv (.failed errno)
  | .write count => s.pc = .write count
  | .greet count => count = header.length
  | .scanf _ | .leave | .read _ => True

/-- What the client has typed and not written. -/
def unsent (s : Echo) : List (BitVec 8) :=
  match s.pc with
  | .write len => s.client.data.take len
  | .scanf | .read _ | .returned => []

/-- How many bytes the client waits for. -/
def awaited (s : Echo) : ℕ :=
  match s.pc with
  | .read len => len
  | .scanf | .write _ | .returned => 0

/-- The strings of all words. -/
def strings (s : Echo) : List (BitVec 8) := (s.client.typed.map fun word => word.takeWhile (· ≠ 0)).flatten

/-- The client has read no more than it has written, so that the header is never made up for. -/
structure Behind (s : Echo) : Prop where
  streams : Streams s
  complete : s.greeted = true → s.greeting = header
  strings : s.strings = s.written ++ s.unsent
  asked : s.answers.flatten.length + s.awaited ≤ s.written.length
  closed : s.server.pc = .closed → s.pc = .returned

theorem Full.serverWhole {a : EchoCall} (full : s.Full a) : s.ServerWhole a := by
  cases a with
  | serve call => exact full.1
  | scanf | leave | write | read | greet => trivial

/-- The server goes on as long as the client does. -/
theorem closed_next (serves : Serves s.server) (possible : s.server.Possible call) (receivable : s.Receivable call)
    (whole : s.server.Whole call) (works : ∀ errno, call ≠ .recv (.failed errno))
    (closed : (s.server.next call).pc = .closed) : s.pc = .returned := by
  match call with
  | .recv (.chunk data) =>
    cases closed.symm.trans (serves.flow.recv_chunk possible.1 possible.2.1 possible.2.2).1
  | .recv .ended => exact receivable.1
  | .recv (.failed errno) => exact absurd rfl (works errno)
  | .send result =>
    obtain rfl : result = .taken s.server.delivered := whole possible
    cases closed.symm.trans (serves.flow.send_pc possible.1 (.taken s.server.delivered))

theorem Behind.step {a : EchoCall} (behind : Behind s) (full : s.Full a) (moved : s.step a = some s') :
    Behind s' := by
  have streams' := behind.streams.step full.serverWhole moved
  obtain ⟨streams, complete, strings, asked, closed⟩ := behind
  cases a with
  | scanf word =>
    obtain ⟨rest, here, -, -, rfl⟩ := scanf_cases streams.size moved
    rw [unsent, here, List.append_nil] at strings
    rw [awaited, here] at asked
    refine ⟨streams', complete, ?_, asked, ?_⟩
    · show ((s.client.typed ++ [word]).map _).flatten = s.written ++ (word.takeWhile _ ++ 0 :: rest).take _
      rw [List.map_append, List.flatten_append, List.take_left' rfl, ← strings, List.map_singleton,
        List.flatten_singleton]
      rfl
    · intro not
      cases here.symm.trans (closed not)
  | leave =>
    simp only [Echo.step] at moved
    split_ifs at moved with calls
    cases moved
    rw [unsent, calls] at strings
    rw [awaited, calls] at asked
    exact ⟨streams', complete, strings, asked, fun _ => rfl⟩
  | write count =>
    obtain ⟨len, here, -, rfl⟩ := write_cases moved
    obtain rfl : len = count := ClientPc.write.inj (here.symm.trans full)
    have length : (s.client.data.take len).length = len := by
      have small := streams.fits len (.inl here)
      rw [List.length_take, streams.size]
      omega
    rw [unsent, here] at strings
    rw [awaited, here] at asked
    refine ⟨streams', complete, ?_, ?_, ?_⟩
    · show s.strings = s.written ++ _ ++ []
      rw [strings, List.append_nil]
    · show s.answers.flatten.length + len ≤ (s.written ++ s.client.data.take len).length
      rw [List.length_append, length]
      omega
    · intro not
      cases here.symm.trans (closed not)
  | read result =>
    obtain ⟨len, data, ended, here, readable, most, length, split, rfl⟩ :=
      read_cases streams.size (fun len here => streams.fits len (.inr here)) moved
    rw [unsent, here] at strings
    rw [awaited, here] at asked
    change s.answers.flatten.length + len ≤ s.written.length at asked
    refine ⟨streams', complete, strings, ?_, ?_⟩
    · show (s.answers ++ [s.returned result]).flatten.length + 0 ≤ s.written.length
      rw [List.flatten_append, List.flatten_singleton, List.length_append]
      omega
    · intro not
      cases here.symm.trans (closed not)
  | greet count =>
    obtain rfl : count = Sockets.header.length := full
    simp only [Echo.step] at moved
    split_ifs at moved with calls
    cases moved
    exact ⟨streams', fun _ => List.take_length, strings, asked, closed⟩
  | serve call =>
    simp only [Echo.step] at moved
    split_ifs at moved with calls
    cases moved
    refine ⟨streams', complete, strings, asked, ?_⟩
    exact closed_next streams.serves calls.2.1 calls.2.2 full.1 full.2

theorem behind_of_reachable (reachable : echo.Reachable Full s) : Behind s := by
  apply reachable.invariant
  · intro s started
    have streams := streams_start started
    obtain ⟨data, recvSize, errno, buf, size, rfl⟩ := started
    exact ⟨streams, nofun, rfl, le_rfl, nofun⟩
  · intro s s' a full behind moved
    exact behind.step full moved

section Answered

/-! A client that waits gets an answer: the header alone is more than it has asked for before. -/

variable {len : ℕ}

/-- The client has its answer after these calls. -/
def Answers (s : Echo) : Prop :=
  ∃ schedule s', echo.run s schedule = some s' ∧ s'.answers.length = s.answers.length + 1

theorem answers_of_step {a : EchoCall} (moved : s.step a = some s') (same : s'.answers = s.answers)
    (answers : Answers s') : Answers s := by
  obtain ⟨schedule, s'', ran, length⟩ := answers
  refine ⟨a :: schedule, s'', ?_, same ▸ length⟩
  rw [Machine.run, show echo.step s a = some s' from moved, Option.bind_some, ran]

theorem step_read {client : Client} {result : ReadResult} (here : s.pc = .read len)
    (readable : s.Readable len result) (answered : s.client.answer len result = .ok client) :
    s.step (.read result) =
      some { s with pc := .scanf, client := client, answers := s.answers ++ [s.returned result] } := by
  simp only [step, here, if_pos readable, answered]
  rfl

theorem answers_of_read {client : Client} {result : ReadResult} (here : s.pc = .read len)
    (readable : s.Readable len result) (answered : s.client.answer len result = .ok client) : Answers s := by
  have moved := step_read here readable answered
  refine ⟨[.read result], _, (congrArg (Option.bind · fun s => some s) moved).trans rfl, ?_⟩
  exact List.length_append

theorem answers_of_arrived (streams : Streams s) (here : s.pc = .read len)
    (arrived : len = 0 ∨ s.client.underWay ≠ []) : Answers s := by
  have fits := streams.fits len (.inr here)
  by_cases empty : len = 0
  · have readable : s.Readable len .zero := .inl empty
    obtain ⟨data, -, answered⟩ := Client.answer_zero streams.size len
    exact answers_of_read here readable answered
  · have positive := Nat.pos_of_ne_zero empty
    have arrived := List.length_pos_iff.mpr (arrived.resolve_left empty)
    have readable : s.Readable len (.chunk 1) := ⟨le_rfl, positive, arrived⟩
    obtain ⟨data, -, answered⟩ := Client.answer_chunk streams.size fits positive arrived
    exact answers_of_read here readable answered

/-- A server that holds a chunk sends it. -/
theorem answers_of_send (streams : Streams s) (here : s.pc = .read len) (greeted : s.greeted = true)
    (holds : s.server.pc = .send) : Answers s := by
  have bounds := streams.serves.flow.bounds holds
  have possible : s.server.Possible (.send (.taken s.server.delivered)) :=
    ⟨holds, bounds.1, (streams.serves.flow.requested holds).ge⟩
  have whole : s.ServerWhole (.serve (.send (.taken s.server.delivered))) := fun _ => rfl
  have moved : s.step (.serve (.send (.taken s.server.delivered))) = _ := if_pos ⟨greeted, possible, trivial⟩
  refine answers_of_step moved rfl (answers_of_arrived (streams.step whole moved) here (.inr ?_))
  apply List.append_ne_nil_of_right_ne_nil
  apply List.ne_nil_of_length_pos
  exact bounds.1.trans_eq (Connection.length_bytes ..).symm

theorem Behind.answers (behind : Behind s) (here : s.pc = .read len) : Answers s := by
  obtain ⟨streams, complete, -, asked, closed⟩ := behind
  by_cases arrived : len = 0 ∨ s.client.underWay ≠ []
  · exact answers_of_arrived streams here arrived
  · rw [not_or, not_not] at arrived
    obtain ⟨positive, nothing⟩ := arrived
    cases greeted : s.greeted with
    | false =>
      have whole : s.ServerWhole (.greet header.length) := trivial
      have moved : s.step (.greet header.length) = _ := if_pos ⟨greeted, le_rfl⟩
      refine answers_of_step moved rfl (answers_of_arrived (streams.step whole moved) here (.inr ?_))
      apply List.append_ne_nil_of_right_ne_nil
      rw [List.take_length]
      exact List.cons_ne_nil _ _
    | true =>
      cases place : s.server.pc with
      | send => exact answers_of_send streams here greeted place
      | closed => cases here.symm.trans (closed place)
      | recv =>
        -- what the client has written is longer than what has come back without the header
        have kept := streams.serves.kept
        rw [held, place] at kept
        have down := congrArg List.length streams.down
        have up := congrArg List.length streams.up
        rw [awaited, here] at asked
        change s.answers.flatten.length + len ≤ s.written.length at asked
        have received := congrArg List.length kept
        change s.server.received.length = (s.server.accepted ++ []).length at received
        rw [List.append_nil] at received
        rw [nothing, complete greeted, List.length_append, List.append_nil] at down
        rw [List.length_append] at up
        have more : 0 < s.toServer.length := by omega
        obtain ⟨c, rest, waiting⟩ := List.exists_cons_of_length_pos more
        have fits : [c].length ≤ sizeofBuf := Nat.le_of_ble_eq_true rfl
        have possible : s.server.Possible (.recv (.chunk [c])) := ⟨place, le_rfl, fits⟩
        have receivable : s.Receivable (.recv (.chunk [c])) := ⟨rest, waiting.symm⟩
        have whole : s.ServerWhole (.serve (.recv (.chunk [c]))) := by
          rintro - ⟨⟩
        have moved : s.step (.serve (.recv (.chunk [c]))) = _ := if_pos ⟨greeted, possible, receivable⟩
        refine answers_of_step moved rfl (answers_of_send (streams.step whole moved) here greeted ?_)
        exact (streams.serves.flow.recv_chunk place le_rfl fits).1

end Answered

end Echo

/-- However the calls take turns and cut the streams into pieces, the client reads the header of the server and
then what it has written, without a gap and in this order, and prints each answer up to its first NUL, if the
server is not interrupted and its calls of `send` take their chunks whole. -/
theorem echo_in_order {s : Echo} (reachable : echo.Reachable Echo.ServerWhole s) :
    s.answers.flatten <+: s.greeting ++ s.written ∧ s.greeting <+: header ∧
      s.client.printed = s.answers.map fun answer => answer.takeWhile (· ≠ 0) := by
  have streams := Echo.streams_of_reachable reachable
  refine ⟨?_, streams.header, streams.printed⟩
  have sent : s.server.accepted <+: s.written := by
    rw [streams.up, streams.serves.kept, List.append_assoc]
    exact List.prefix_append _ _
  calc s.answers.flatten
    _ <+: s.answers.flatten ++ s.client.underWay := List.prefix_append _ _
    _ = s.greeting ++ s.server.accepted := streams.down.symm
    _ <+: s.greeting ++ s.written := (List.prefix_append_right_inj _).mpr sent

/-- Where all calls are whole, what the client prints stays behind what was typed by the length of the header
for as long as it runs, and yet no read of the client waits for ever. -/
theorem echo_behind {s : Echo} (reachable : echo.Reachable Echo.Full s) :
    s.answers.flatten <+: (header ++ s.strings).take s.strings.length ∧
      ∀ len, s.pc = .read len →
        ∃ schedule s', echo.run s schedule = some s' ∧ s'.answers.length = s.answers.length + 1 := by
  have behind := Echo.behind_of_reachable reachable
  refine ⟨?_, fun len here => behind.answers here⟩
  apply List.prefix_take_iff.mpr
  constructor
  · cases greeted : s.greeted with
    | false =>
      have down := behind.streams.down
      obtain ⟨nothing, none⟩ := behind.streams.quiet greeted
      rw [nothing, none] at down
      rw [(List.append_eq_nil_iff.mp down.symm).1]
      exact List.nil_prefix
    | true =>
      calc s.answers.flatten
        _ <+: s.greeting ++ s.written :=
          (echo_in_order (reachable.mono fun _ _ full => Echo.Full.serverWhole full)).1
        _ <+: header ++ s.strings := by
          rw [behind.complete greeted, behind.strings, ← List.append_assoc]
          exact List.prefix_append _ _
  · have asked := behind.asked
    rw [behind.strings, List.length_append]
    omega

/-- A word is typed, and the client gets the start of the header. -/
theorem Echo.typed_ab : ∃ s, echo.Reachable Echo.Full s ∧ s.strings = [97, 98] ∧ s.answers = [[72, 84]] := by
  let r : Round := ⟨[97, 98], 2, .chunk 2⟩
  obtain ⟨data, size⟩ : ∃ data : List (BitVec 8), data.length = sizeofData :=
    ⟨List.replicate sizeofData 0, List.length_replicate⟩
  let first : Echo := .start data 0 0 fun _ => 0
  have fits : 2 < sizeofData := Nat.le_of_ble_eq_true rfl
  obtain ⟨rest, length, scanned⟩ := Client.scan_fits (s := .start data) (r := r) size fits
  let second : Echo := { first with
    pc := .write 2, client := { first.client with data := [97, 98] ++ 0 :: rest, typed := [[97, 98]] } }
  have started : echo.Reachable Full first := .start ⟨_, 0, 0, _, size, rfl⟩
  have typed : first.step (.scanf [97, 98]) = some second := by
    show Option.map _ ((Client.start data).scan r.word).toOption = _
    rw [scanned]
    rfl
  let calls : List EchoCall := [.write 2, .greet 91, .serve (.recv (.chunk [97, 98])), .serve (.send (.taken 2))]
  obtain ⟨third, ran, here, same, strings, none, arrived, under⟩ : ∃ s, echo.run second calls = some s ∧
      s.pc = .read 2 ∧ s.client.data = [97, 98] ++ 0 :: rest ∧ s.strings = [97, 98] ∧ s.answers = [] ∧
      2 ≤ s.client.underWay.length ∧ s.client.underWay.take 2 = [72, 84] :=
    ⟨_, rfl, rfl, rfl, rfl, rfl, Nat.le_of_ble_eq_true rfl, rfl⟩
  have full : echo.AllSteps Full second calls := by
    refine ⟨rfl, ?_⟩
    rintro s ⟨⟩
    refine ⟨rfl, ?_⟩
    rintro s ⟨⟩
    refine ⟨⟨fun _ => nofun, nofun⟩, ?_⟩
    rintro s ⟨⟩
    exact ⟨⟨fun _ => rfl, nofun⟩, fun _ _ => trivial⟩
  have reachable : echo.Reachable Full second := .step (a := .scanf [97, 98]) started trivial typed
  obtain ⟨data, -, answered⟩ := @Client.answer_chunk third.client 2 2 (same ▸ length) fits le_rfl arrived
  have readable : third.Readable 2 (.chunk 2) := ⟨Nat.le_succ 1, le_rfl, arrived⟩
  refine ⟨_, .step (a := .read (.chunk 2)) (.run_of_allSteps reachable full ran) trivial
    (step_read here readable answered), strings, ?_⟩
  rw [none, returned, under]
  rfl

theorem echo_in_order_ab : ∃ s, echo.Reachable Echo.ServerWhole s ∧ s.client.printed = [[72, 84]] := by
  obtain ⟨s, reachable, -, answers⟩ := Echo.typed_ab
  have whole := reachable.mono fun _ _ full => Echo.Full.serverWhole full
  refine ⟨s, whole, (echo_in_order whole).2.2.trans ?_⟩
  rw [answers]
  decide

theorem echo_behind_ab :
    ∃ s, echo.Reachable Echo.Full s ∧ s.answers = [[72, 84]] ∧ s.answers.flatten <+: (header ++ [97, 98]).take 2 := by
  obtain ⟨s, reachable, strings, answers⟩ := Echo.typed_ab
  have behind := (echo_behind reachable).1
  rw [strings] at behind
  exact ⟨s, reachable, answers, behind⟩

end Hseos.Sockets
