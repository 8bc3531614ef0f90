import Hseos.Lib.Machine
import Mathlib.Data.Int.Basic

/-! # Writing all of a buffer

`ensure_write` calls `write` until all bytes are written, moving its pointer and its count by what each call
has written. The copy loop of `main` passes to it what each `read` has delivered. The environment chooses
the result of every call.
-/

namespace Hseos.PipeSend

/-- The bytes of the memory from a pointer on. -/
def slice (memory : ℕ → UInt8) (data size : ℕ) : List UInt8 := (List.range size).map fun i => memory (data + i)

/-- The parameters of `ensure_write`, which it changes, the bytes it has written, whether a `write` has failed,
and what it has returned. -/
structure EnsureWrite where
  data : ℕ
  size : ℕ
  written : List UInt8
  failed : Bool
  ret : Option ℤ

/-- A call of `write` with its result, or the end of the loop. -/
inductive WriteAction where
  | write (res : ℤ)
  | leave
deriving DecidableEq

namespace EnsureWrite

def call (data size : ℕ) : EnsureWrite := ⟨data, size, [], false, none⟩

/-- The condition of the loop and its body. A `write` fails, or it writes at least one byte and no more than
it is given. -/
def step (memory : ℕ → UInt8) (e : EnsureWrite) (a : WriteAction) : Option EnsureWrite :=
  match e.ret, a with
  | some _, _ => none
  | none, .leave => if e.size = 0 then some { e with ret := some 0 } else none
  | none, .write res =>
      if e.size = 0 then none
      else if res = -1 then some { e with failed := true, ret := some (-1) }
      else if 1 ≤ res ∧ res ≤ e.size then
        some { e with
          size := e.size - res.toNat
          data := e.data + res.toNat
          written := e.written ++ slice memory e.data res.toNat }
      else none

end EnsureWrite

/-- All calls of `ensure_write` with these arguments. -/
def ensureWrite (memory : ℕ → UInt8) (data size : ℕ) : Machine EnsureWrite WriteAction where
  start e := e = .call data size
  step := EnsureWrite.step memory

/-- `sizeof(buf)`. -/
def sizeofBuf : ℕ := 1024

/-- Where the loop of `main` is: at its `read`, in a call of `ensure_write`, or behind it. -/
inductive CopyPc where
  | read
  | ensureWrite (call : EnsureWrite)
  | ended

/-- The variables of the loop, the bytes that were read, and those written by calls that have returned. -/
structure Copy where
  pc : CopyPc
  buf : ℕ → UInt8
  size : ℤ
  received : List UInt8
  written : List UInt8

inductive CopyAction where
  | chunk (bytes : List UInt8)
  | readEnd
  | readError
  | write (a : WriteAction)
  | return

namespace Copy

/-- The bytes written so far. -/
def output (s : Copy) : List UInt8 :=
  match s.pc with
  | .ensureWrite call => s.written ++ call.written
  | .read | .ended => s.written

def step (s : Copy) (a : CopyAction) : Option Copy :=
  match s.pc, a with
  | .read, .chunk bytes =>
      if 1 ≤ bytes.length ∧ bytes.length ≤ sizeofBuf then
        some { s with
          pc := .ensureWrite (.call 0 bytes.length)
          buf := fun i => bytes[i]?.getD (s.buf i)
          size := bytes.length
          received := s.received ++ bytes }
      else none
  | .read, .readEnd => some { s with pc := .ended, size := 0 }
  | .read, .readError => some { s with pc := .ended, size := -1 }
  | .ensureWrite call, .write a =>
      (call.step s.buf a).map fun call => { s with pc := .ensureWrite call }
  | .ensureWrite call, .return =>
      call.ret.map fun (ret : ℤ) =>
        { s with pc := if ret < 0 then .ended else .read, written := s.written ++ call.written }
  | _, _ => none

end Copy

/-- All runs of the copy loop. -/
def copyLoop : Machine Copy CopyAction where
  start s := ∃ buf, s = ⟨.read, buf, 0, [], []⟩
  step := Copy.step

section Slice

variable {memory : ℕ → UInt8} {data m n size : ℕ}

@[simp] theorem length_slice (memory : ℕ → UInt8) (data size : ℕ) : (slice memory data size).length = size := by
  rw [slice, List.length_map, List.length_range]

theorem slice_add (memory : ℕ → UInt8) (data m n : ℕ) :
    slice memory data (m + n) = slice memory data m ++ slice memory (data + m) n := by
  simp only [slice, List.range_add, List.map_append, List.map_map, Function.comp_def, Nat.add_assoc]

theorem slice_mono (le : m ≤ n) : slice memory data m <+: slice memory data n := by
  obtain ⟨rest, rfl⟩ := Nat.exists_eq_add_of_le le
  rw [slice_add]
  exact List.prefix_append ..

/-- A part of the bytes from a pointer on is all of them only if it is as long. -/
theorem slice_eq_iff : slice memory data m = slice memory data n ↔ m = n := by
  constructor
  · intro same
    rw [← length_slice memory data m, same, length_slice]
  · rintro rfl
    rfl

/-- The buffer begins with the bytes that were read into it. -/
theorem slice_chunk (bytes : List UInt8) (buf : ℕ → UInt8) :
    slice (fun i => bytes[i]?.getD (buf i)) 0 bytes.length = bytes := by
  apply List.ext_getElem (length_slice ..)
  intro i _ bound
  simp [slice, bound]

end Slice

namespace EnsureWrite

variable {memory : ℕ → UInt8} {data size : ℕ} {e e' : EnsureWrite} {a : WriteAction}

/-- After some bytes are written, pointer and count tell the rest; how the call has returned, if it has. -/
structure Partway (memory : ℕ → UInt8) (data size done : ℕ) (e : EnsureWrite) : Prop where
  le : done ≤ size
  pointer : e.data = data + done
  count : e.size = size - done
  wrote : e.written = slice memory data done
  outcome : e.ret = none ∧ e.failed = false ∨ e.ret = some 0 ∧ e.failed = false ∧ done = size ∨
    e.ret = some (-1) ∧ e.failed = true ∧ done < size

theorem partway_call (memory : ℕ → UInt8) (data size : ℕ) : Partway memory data size 0 (call data size) :=
  ⟨Nat.zero_le _, rfl, rfl, rfl, .inl ⟨rfl, rfl⟩⟩

theorem Partway.not_failed {done : ℕ} (partway : Partway memory data size done e) (open_ : e.ret = none) :
    e.failed = false := by
  rcases partway.outcome with ⟨_, kept⟩ | ⟨returned, _⟩ | ⟨returned, _⟩
  · exact kept
  · cases open_.symm.trans returned
  · cases open_.symm.trans returned

/-- A step of a call that has not returned yet: it leaves the loop when nothing is left, or returns -1 with a
rest, or writes some of the rest. -/
theorem Partway.step {done : ℕ} (partway : Partway memory data size done e) (moved : e.step memory a = some e') :
    e.ret = none ∧ ∃ done', Partway memory data size done' e' ∧
      (done = size ∧ done' = done ∧ e'.ret = some 0 ∨ done < size ∧ done' = done ∧ e'.ret = some (-1) ∨
        done < done' ∧ e'.ret = none) := by
  have kept := partway.not_failed
  obtain ⟨le, pointer, count, wrote, _⟩ := partway
  unfold EnsureWrite.step at moved
  split at moved
  · cases moved
  · next open_ =>
    split_ifs at moved with empty
    cases moved
    have whole : done = size := by omega
    exact ⟨open_, done, ⟨le, pointer, count, wrote, .inr (.inl ⟨rfl, kept open_, whole⟩)⟩,
      .inl ⟨whole, rfl, rfl⟩⟩
  · next res open_ =>
    split_ifs at moved with empty failed bounds
    · cases moved
      have rest : done < size := by omega
      exact ⟨open_, done, ⟨le, pointer, count, wrote, .inr (.inr ⟨rfl, rfl, rest⟩)⟩,
        .inr (.inl ⟨rest, rfl, rfl⟩)⟩
    · cases moved
      refine ⟨open_, done + res.toNat, ⟨?_, ?_, ?_, ?_, .inl ⟨open_, kept open_⟩⟩,
        .inr (.inr ⟨?_, open_⟩)⟩
      · omega
      · show e.data + res.toNat = data + (done + res.toNat)
        omega
      · show e.size - res.toNat = size - (done + res.toNat)
        omega
      · show e.written ++ slice memory e.data res.toNat = slice memory data (done + res.toNat)
        rw [slice_add, wrote, pointer]
      · omega

theorem partway_of_reachable (reachable : (ensureWrite memory data size).Reachable (fun _ _ => True) e) :
    ∃ done, Partway memory data size done e := by
  apply reachable.invariant
  · rintro e rfl
    exact ⟨0, partway_call memory data size⟩
  · rintro e e' a _ ⟨done, partway⟩ moved
    obtain ⟨_, done', partway', _⟩ := partway.step moved
    exact ⟨done', partway'⟩

/-- What a call has written, and what it returns. -/
theorem Partway.returns {done : ℕ} (partway : Partway memory data size done e) :
    e.written <+: slice memory data size ∧ ∀ ret, e.ret = some ret →
      (ret = 0 ∨ ret = -1) ∧ (ret = 0 ↔ e.written = slice memory data size) ∧
        (ret = -1 → e.failed = true ∧ e.written ≠ slice memory data size) := by
  obtain ⟨le, _, _, wrote, outcome⟩ := partway
  refine ⟨wrote ▸ slice_mono le, fun ret returned => ?_⟩
  rw [wrote, Ne, slice_eq_iff]
  rcases outcome with ⟨open_, _⟩ | ⟨zero, _, whole⟩ | ⟨minus, failed, rest⟩
  · cases returned.symm.trans open_
  · obtain rfl : ret = 0 := Option.some.inj (returned.symm.trans zero)
    exact ⟨.inl rfl, iff_of_true rfl whole, nofun⟩
  · obtain rfl : ret = -1 := Option.some.inj (returned.symm.trans minus)
    exact ⟨.inr rfl, iff_of_false nofun (Nat.ne_of_lt rest), fun _ => ⟨failed, Nat.ne_of_lt rest⟩⟩

/-- A call that has not returned goes on, and after no more than one step for each byte and one more it has
returned. -/
theorem Partway.length_le {done : ℕ} (partway : Partway memory data size done e) {schedule : List WriteAction}
    (ran : (ensureWrite memory data size).run e schedule = some e') : schedule.length ≤ size - done + 1 := by
  induction schedule generalizing e done with
  | nil => exact Nat.zero_le _
  | cons a rest ih =>
    obtain ⟨next, moved, remaining⟩ := Option.bind_eq_some_iff.mp ran
    obtain ⟨_, done', partway', cases_⟩ := partway.step moved
    have tail := ih partway' remaining
    have returned (ret : ℤ) (returns : next.ret = some ret) : rest = [] := by
      cases rest with
      | nil => rfl
      | cons b _ =>
        obtain ⟨_, moved', _⟩ := Option.bind_eq_some_iff.mp remaining
        cases returns.symm.trans (partway'.step moved').1
    rw [List.length_cons]
    rcases cases_ with ⟨_, _, returns⟩ | ⟨_, _, returns⟩ | ⟨more, _⟩
    · rw [returned 0 returns, List.length_nil]
      omega
    · rw [returned (-1) returns, List.length_nil]
      omega
    · have := partway'.le
      omega

/-- A call that has written all bytes returns zero next. -/
theorem Partway.returns_zero {done : ℕ} (partway : Partway memory data size done e)
    (whole : e.written = slice memory data size) (moved : e.step memory a = some e') : e'.ret = some 0 := by
  rw [partway.wrote, slice_eq_iff] at whole
  obtain ⟨_, done', partway', cases_⟩ := partway.step moved
  rcases cases_ with ⟨_, _, returns⟩ | ⟨rest, _⟩ | ⟨more, _⟩
  · exact returns
  · omega
  · have := partway'.le
    omega

/-- A call that has not returned goes on. -/
theorem exists_step (memory : ℕ → UInt8) (open_ : e.ret = none) : ∃ a e', e.step memory a = some e' := by
  rcases Nat.eq_zero_or_pos e.size with empty | more
  · exact ⟨.leave, { e with ret := some 0 }, by simp [EnsureWrite.step, open_, empty]⟩
  · have rest : e.size ≠ 0 := by omega
    exact ⟨.write (-1), { e with failed := true, ret := some (-1) }, by simp [EnsureWrite.step, open_, rest]⟩

end EnsureWrite

namespace Copy

variable {s s' : Copy} {a : CopyAction}

/-- Before a `read`, all is written that was read. In a call, the rest of the buffer is still to be written.
Behind the loop something may be missing, but not if the last `read` returned zero. -/
def Flow (s : Copy) : Prop :=
  match s.pc with
  | .read => s.written = s.received
  | .ensureWrite call => ∃ size done : ℕ, 1 ≤ size ∧ s.size = size ∧
      call.Partway s.buf 0 size done ∧ s.received = s.written ++ slice s.buf 0 size
  | .ended => s.written <+: s.received ∧ (s.size = 0 → s.written = s.received)

theorem Flow.step (flow : s.Flow) (moved : s.step a = some s') : s'.Flow := by
  obtain ⟨pc, buf, size, received, written⟩ := s
  unfold Copy.step at moved
  split at moved
  · next bytes at_ =>
    split_ifs at moved with bounds
    cases at_
    cases moved
    refine ⟨bytes.length, 0, bounds.1, rfl, EnsureWrite.partway_call _ _ _, ?_⟩
    dsimp only
    rw [slice_chunk, show written = received from flow]
  · next at_ =>
    cases at_
    cases moved
    have all : written = received := flow
    exact ⟨all ▸ List.prefix_rfl, fun _ => all⟩
  · next at_ =>
    cases at_
    cases moved
    have all : written = received := flow
    exact ⟨all ▸ List.prefix_rfl, nofun⟩
  · next call a at_ =>
    cases at_
    obtain ⟨call', stepped, rfl⟩ := Option.map_eq_some_iff.mp moved
    obtain ⟨size', done, positive, same, partway, rest⟩ := flow
    obtain ⟨_, done', partway', _⟩ := partway.step stepped
    exact ⟨size', done', positive, same, partway', rest⟩
  · next call at_ =>
    cases at_
    obtain ⟨ret, returned, rfl⟩ := Option.map_eq_some_iff.mp moved
    obtain ⟨size', done, positive, same, partway, rest⟩ := flow
    change size = size' at same
    change received = written ++ slice buf 0 size' at rest
    rcases partway.outcome with ⟨open_, _⟩ | ⟨zero, _, whole⟩ | ⟨minus, _, _⟩
    · cases returned.symm.trans open_
    · obtain rfl : ret = 0 := Option.some.inj (returned.symm.trans zero)
      show written ++ call.written = received
      rw [rest, partway.wrote, whole]
    · obtain rfl : ret = -1 := Option.some.inj (returned.symm.trans minus)
      refine ⟨?_, fun zero => ?_⟩
      · show written ++ call.written <+: received
        rw [rest, partway.wrote]
        exact (List.prefix_append_right_inj _).mpr (slice_mono partway.le)
      · change size = 0 at zero
        omega
  · cases moved

theorem flow_of_reachable (reachable : copyLoop.Reachable (fun _ _ => True) s) : s.Flow := by
  apply reachable.invariant
  · rintro s ⟨buf, rfl⟩
    exact rfl
  · intro s s' a _ flow moved
    exact flow.step moved

theorem Flow.output_prefix (flow : s.Flow) : s.output <+: s.received := by
  obtain ⟨pc, buf, size, received, written⟩ := s
  cases pc with
  | read =>
    have all : written = received := flow
    exact all ▸ List.prefix_rfl
  | ensureWrite call =>
    obtain ⟨size', done, _, _, partway, rest⟩ := flow
    show written ++ call.written <+: received
    rw [show received = _ from rest, partway.wrote]
    exact (List.prefix_append_right_inj _).mpr (slice_mono partway.le)
  | ended => exact flow.1

theorem Flow.output_whole (flow : s.Flow) (ended : s.pc = .ended) (zero : s.size = 0) :
    s.output = s.received := by
  obtain ⟨pc, buf, size, received, written⟩ := s
  cases ended
  exact flow.2 zero

end Copy

/-- For all results of the calls of `write`, a call of `ensure_write` writes a prefix of its bytes, goes on
until it returns, and does so after no more than one step for each byte and one more. It returns zero exactly
if all bytes are written, and otherwise -1, when a `write` has failed and some bytes are missing. And in the
copy loop, for all results of `read` as well, what is written is always a prefix of what was read, and all of
it when the loop has ended with a `read` of zero. -/
theorem copy_writes_all :
    (∀ memory data size e, (ensureWrite memory data size).Reachable (fun _ _ => True) e →
      e.written <+: slice memory data size ∧
      (∀ ret, e.ret = some ret → (ret = 0 ∨ ret = -1) ∧ (ret = 0 ↔ e.written = slice memory data size) ∧
        (ret = -1 → e.failed = true ∧ e.written ≠ slice memory data size)) ∧
      (e.ret = none → ∃ a e', e.step memory a = some e') ∧
      (e.written = slice memory data size → ∀ a e', e.step memory a = some e' → e'.ret = some 0)) ∧
    (∀ memory data size schedule e, (ensureWrite memory data size).run (.call data size) schedule = some e →
      schedule.length ≤ size + 1) ∧
    ∀ s, copyLoop.Reachable (fun _ _ => True) s →
      s.output <+: s.received ∧ (s.pc = .ended → s.size = 0 → s.output = s.received) := by
  refine ⟨fun memory data size e reachable => ?_, fun memory data size schedule e ran => ?_,
    fun s reachable => ?_⟩
  · obtain ⟨done, partway⟩ := EnsureWrite.partway_of_reachable reachable
    obtain ⟨front, returns⟩ := partway.returns
    exact ⟨front, returns, EnsureWrite.exists_step memory, fun whole a e' => partway.returns_zero whole⟩
  · exact (EnsureWrite.partway_call memory data size).length_le ran
  · have flow := Copy.flow_of_reachable reachable
    exact ⟨flow.output_prefix, flow.output_whole⟩

/-- Two bytes are read and written one by one, then the input ends. -/
def oneByOne : List CopyAction :=
  [.chunk [97, 98], .write (.write 1), .write (.write 1), .write .leave, .return, .readEnd]

theorem copy_writes_all_two :
    ∃ s, copyLoop.Reachable (fun _ _ => True) s ∧ s.received = [97, 98] ∧ s.output = s.received := by
  obtain ⟨s, ran, ended, zero, received⟩ : ∃ s, copyLoop.run ⟨.read, fun _ => 0, 0, [], []⟩ oneByOne = some s ∧
      s.pc = .ended ∧ s.size = 0 ∧ s.received = [97, 98] :=
    ⟨_, rfl, rfl, rfl, rfl⟩
  have reachable : copyLoop.Reachable (fun _ _ => True) s :=
    .run (.start ⟨_, rfl⟩) (fun _ _ _ => trivial) ran
  exact ⟨s, reachable, received, (copy_writes_all.2.2 s reachable).2 ended zero⟩

end Hseos.PipeSend
