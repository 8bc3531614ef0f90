import Hseos.Lib.Machine
import Mathlib.Algebra.Group.Int.Defs
import Mathlib.Data.Int.Basic

/-! # The echo loop of the example server

For each connection the server sends back what it receives, one buffer at a time. After `send` it checks
the result of `recv` a second time, so what `send` returns has no effect: the rest of a chunk that is taken
in part is lost. An interrupted `recv` passes the check, and its result is the size of the next `send`.

The environment chooses the result of every call; the bytes behind `buf` are part of the memory, as a
`send` may be asked for them.
-/

namespace Hseos.Sockets

/-- `EINTR`. -/
def eintr : ℤ := 4

/-- `check_socket_result`, with the value of `errno`. -/
def checkSocketResult (res errno : ℤ) : ℤ :=
  if res = -1 ∧ errno ≠ eintr then -1
  else if res = 0 then -1
  else 0

/-- `sizeof(buf)`. -/
def sizeofBuf : ℕ := 1024

inductive RecvResult where
  | chunk (data : List (BitVec 8))
  | ended
  | failed (errno : ℤ)

inductive SendResult where
  | taken (count : ℕ)
  | failed (errno : ℤ)

inductive SocketCall where
  | recv (result : RecvResult)
  | send (result : SendResult)

/-- The call that is made next, if any. -/
inductive ServerPc where
  | recv
  | send
  | closed
deriving DecidableEq

/-- The variables of the loop with the memory from `buf` on; how many bytes the last `recv` has delivered,
all bytes received, and all that `send` has accepted. -/
structure Connection where
  pc : ServerPc
  recvSize : ℤ
  errno : ℤ
  buf : ℕ → BitVec 8
  delivered : ℕ
  received : List (BitVec 8)
  accepted : List (BitVec 8)

namespace Connection

/-- Before the first `recv`. -/
def start (recvSize errno : ℤ) (buf : ℕ → BitVec 8) : Connection := ⟨.recv, recvSize, errno, buf, 0, [], []⟩

/-- `(size_t)recv_size`. -/
def requested (s : Connection) : ℕ := (s.recvSize % 2 ^ 64).toNat

/-- The first bytes of the memory from `buf` on. -/
def bytes (s : Connection) (count : ℕ) : List (BitVec 8) := (List.range count).map s.buf

/-- The call is made in this state, and may have this result. -/
def Possible (s : Connection) : SocketCall → Prop
  | .recv (.chunk data) => s.pc = .recv ∧ 1 ≤ data.length ∧ data.length ≤ sizeofBuf
  | .recv .ended | .recv (.failed _) => s.pc = .recv
  | .send (.taken count) => s.pc = .send ∧ 1 ≤ count ∧ count ≤ s.requested
  | .send (.failed _) => s.pc = .send

instance (s : Connection) : DecidablePred s.Possible := fun call =>
  match call with
  | .recv (.chunk _) | .send (.taken _) => instDecidableAnd
  | .recv .ended | .recv (.failed _) | .send (.failed _) => instDecidableEqServerPc ..

/-- `recv`. -/
def recv (s : Connection) : RecvResult → Connection
  | .chunk data => { s with
      recvSize := data.length, buf := fun i => data[i]?.getD (s.buf i), delivered := data.length,
      received := s.received ++ data }
  | .ended => { s with recvSize := 0, delivered := 0 }
  | .failed errno => { s with recvSize := -1, errno := errno, delivered := 0 }

/-- `send`; the variable that gets its result is not used. -/
def send (s : Connection) : SendResult → Connection
  | .taken count => { s with accepted := s.accepted ++ s.bytes count }
  | .failed errno => { s with errno := errno }

/-- Leave the loop if the check of `recv_size` says so. -/
def check (s : Connection) (next : ServerPc) : Connection :=
  { s with pc := if checkSocketResult s.recvSize s.errno = -1 then .closed else next }

/-- A call with the check behind it. -/
def next (s : Connection) : SocketCall → Connection
  | .recv result => (s.recv result).check .send
  | .send result => (s.send result).check .recv

/-- What is accepted is a prefix of what was received, with nothing missing before a `recv`, and a `send`
is asked for bytes of the last chunk only. -/
structure Sound (s : Connection) : Prop where
  ordered : s.accepted <+: s.received
  complete : s.pc = .recv → s.accepted = s.received
  inside : s.pc = .send → s.requested ≤ s.delivered

/-- The call leads to a sound state. -/
def Echoes (s : Connection) (call : SocketCall) : Prop := s.Possible call → (s.next call).Sound

/-- No `recv` is interrupted, and each `send` takes the whole chunk. -/
def Whole (s : Connection) (call : SocketCall) : Prop :=
  s.Possible call →
    match call with
    | .recv result => result ≠ .failed eintr
    | .send result => result = .taken s.delivered

end Connection

/-- The schedules of the results of the calls. -/
def server : Machine Connection SocketCall where
  start s := ∃ recvSize errno buf, s = .start recvSize errno buf
  step s call := if s.Possible call then some (s.next call) else none

namespace Connection

variable {s : Connection} {data : List (BitVec 8)} {count : ℕ} {errno : ℤ}

theorem checkSocketResult_positive {n : ℕ} (positive : 1 ≤ n) (errno : ℤ) :
    checkSocketResult n errno = 0 := by
  rw [checkSocketResult, if_neg (by omega), if_neg (by omega)]

theorem checkSocketResult_failed (errno : ℤ) :
    checkSocketResult (-1) errno = if errno = eintr then 0 else -1 := by
  rw [checkSocketResult]
  split_ifs <;> simp_all

/-- While a chunk is held, it is all that was received and not accepted; before a `recv` there is none. -/
structure Flow (s : Connection) : Prop where
  empty : s.pc = .recv → s.accepted = s.received
  size : s.pc = .send → s.recvSize = s.delivered
  bounds : s.pc = .send → 1 ≤ s.delivered ∧ s.delivered ≤ sizeofBuf
  held : s.pc = .send → s.received = s.accepted ++ s.bytes s.delivered

theorem length_bytes (s : Connection) (count : ℕ) : (s.bytes count).length = count := by
  rw [bytes, List.length_map, List.length_range]

/-- The buffer starts with the chunk that was received. -/
theorem bytes_recv (s : Connection) (data : List (BitVec 8)) :
    (s.recv (.chunk data)).bytes data.length = data := by
  apply List.ext_getElem
  · exact length_bytes ..
  · intro i _ bound
    simp [bytes, recv, bound]

theorem Flow.requested (flow : s.Flow) (holds : s.pc = .send) : s.requested = s.delivered := by
  have bound := (flow.bounds holds).2
  rw [sizeofBuf] at bound
  rw [Connection.requested, flow.size holds]
  omega

/-- A chunk that was received is to be sent. -/
theorem Flow.recv_chunk (flow : s.Flow) (waits : s.pc = .recv) (positive : 1 ≤ data.length)
    (fits : data.length ≤ sizeofBuf) :
    (s.next (.recv (.chunk data))).pc = .send ∧ (s.next (.recv (.chunk data))).Flow := by
  have pc : (s.next (.recv (.chunk data))).pc = .send := by
    have passed : checkSocketResult data.length s.errno ≠ -1 := by
      rw [checkSocketResult_positive positive]
      decide
    exact if_neg passed
  refine ⟨pc, ⟨fun other => ?_, fun _ => rfl, fun _ => ⟨positive, fits⟩, fun _ => ?_⟩⟩
  · rw [pc] at other
    cases other
  · show s.received ++ data = s.accepted ++ (s.recv (.chunk data)).bytes data.length
    rw [bytes_recv, flow.empty waits]

/-- After the `send` of a chunk comes a `recv`, whatever has become of it. -/
theorem Flow.send_pc (flow : s.Flow) (holds : s.pc = .send) (result : SendResult) :
    (s.next (.send result)).pc = .recv := by
  have size : (s.send result).recvSize = s.delivered := by
    cases result <;> exact flow.size holds
  have passed : checkSocketResult (s.send result).recvSize (s.send result).errno ≠ -1 := by
    rw [size, checkSocketResult_positive (flow.bounds holds).1]
    decide
  exact if_neg passed

/-- A chunk is accepted whole exactly if `send` says so. -/
theorem Flow.send_complete (flow : s.Flow) (holds : s.pc = .send) (result : SendResult) :
    (s.next (.send result)).accepted = (s.next (.send result)).received ↔ result = .taken s.delivered := by
  have positive := (flow.bounds holds).1
  cases result with
  | taken count =>
    show s.accepted ++ s.bytes count = s.received ↔ _
    rw [flow.held holds, List.append_cancel_left_eq, SendResult.taken.injEq]
    constructor
    · intro same
      rw [← length_bytes s count, same, length_bytes]
    · rintro rfl
      rfl
  | failed errno =>
    show s.accepted = s.received ↔ _
    rw [flow.held holds]
    apply iff_of_false
    · intro same
      have length := congrArg List.length same
      rw [List.length_append, length_bytes] at length
      omega
    · rintro ⟨⟩

/-- Exactly the calls that are whole keep the server sound. -/
theorem Flow.echoes_iff (flow : s.Flow) (call : SocketCall) : s.Echoes call ↔ s.Whole call := by
  apply forall_congr'
  intro possible
  match call with
  | .recv (.chunk data) =>
    obtain ⟨waits, positive, fits⟩ := possible
    obtain ⟨pc, flow'⟩ := flow.recv_chunk waits positive fits
    apply iff_of_true
    · refine ⟨?_, fun other => ?_, fun _ => Nat.le_of_eq (flow'.requested pc)⟩
      · rw [flow'.held pc]
        exact List.prefix_append ..
      · rw [pc] at other
        cases other
    · rintro ⟨⟩
  | .recv .ended =>
    have same : s.accepted = s.received := flow.empty possible
    apply iff_of_true
    · exact ⟨same ▸ List.prefix_rfl, nofun, nofun⟩
    · rintro ⟨⟩
  | .recv (.failed errno) =>
    have same : s.accepted = s.received := flow.empty possible
    have checked := checkSocketResult_failed errno
    rcases eq_or_ne errno eintr with rfl | other
    · apply iff_of_false
      · intro sound
        have inside : 2 ^ 64 - 1 ≤ 0 := sound.inside rfl
        omega
      · exact fun different => different rfl
    · have pc : (s.next (.recv (.failed errno))).pc = .closed := by
        rw [if_neg other] at checked
        exact if_pos checked
      apply iff_of_true
      · refine ⟨same ▸ List.prefix_rfl, fun recv => ?_, fun send => ?_⟩
        · cases pc.symm.trans recv
        · cases pc.symm.trans send
      · rintro ⟨⟩
        exact other rfl
  | .send result =>
    have holds : s.pc = .send := by
      cases result with
      | taken count => exact possible.1
      | failed errno => exact possible
    have pc := flow.send_pc holds result
    show Sound _ ↔ result = _
    rw [← flow.send_complete holds result]
    constructor
    · intro sound
      exact sound.complete pc
    · intro complete
      refine ⟨complete ▸ List.prefix_rfl, fun _ => complete, fun send => ?_⟩
      cases pc.symm.trans send

/-- A whole call keeps the flow. -/
theorem Flow.next {call : SocketCall} (flow : s.Flow) (possible : s.Possible call) (whole : s.Whole call) :
    (s.next call).Flow := by
  match call with
  | .recv (.chunk data) => exact (flow.recv_chunk possible.1 possible.2.1 possible.2.2).2
  | .recv .ended => exact ⟨nofun, nofun, nofun, nofun⟩
  | .recv (.failed errno) =>
    have other : errno ≠ eintr := by
      rintro rfl
      exact whole possible rfl
    have pc : (s.next (.recv (.failed errno))).pc = .closed := by
      have checked := checkSocketResult_failed errno
      rw [if_neg other] at checked
      exact if_pos checked
    constructor <;> intro open_ <;> cases pc.symm.trans open_
  | .send result =>
    have holds : s.pc = .send := by
      cases result with
      | taken count => exact possible.1
      | failed errno => exact possible
    have pc := flow.send_pc holds result
    have complete := (flow.send_complete holds result).mpr (whole possible)
    refine ⟨fun _ => complete, ?_, ?_, ?_⟩ <;> intro send <;> cases pc.symm.trans send

/-- Along a schedule the server echoes what it receives exactly if no `recv` is interrupted and each `send`
takes its whole chunk. -/
theorem server_echoes_iff (recvSize errno : ℤ) (buf : ℕ → BitVec 8) (schedule : List SocketCall) :
    server.AllSteps Echoes (start recvSize errno buf) schedule ↔
      server.AllSteps Whole (start recvSize errno buf) schedule := by
  apply Machine.allSteps_iff Flow
  · intro s call flow
    exact flow.echoes_iff call
  · intro s s' call flow whole moved
    obtain ⟨possible, leads⟩ := Option.ite_none_right_eq_some.mp moved
    cases leads
    exact flow.next possible whole
  · exact ⟨fun _ => rfl, nofun, nofun, nofun⟩

/-- Of two bytes one is accepted; and an interrupted `recv` asks for all of the memory. -/
theorem server_loses :
    ¬server.AllSteps Echoes (start 0 0 fun _ => 0) [.recv (.chunk [97, 98]), .send (.taken 1)] ∧
    ¬server.AllSteps Echoes (start 0 0 fun _ => 0) [.recv (.failed eintr)] := by
  constructor
  · rintro ⟨-, rest⟩
    have sound := (rest _ rfl).1 ⟨rfl, by decide, by decide⟩
    have complete := sound.complete rfl
    cases complete
  · rintro ⟨sound, -⟩
    exact absurd ((sound rfl).inside rfl) (by decide)

end Connection

end Hseos.Sockets
