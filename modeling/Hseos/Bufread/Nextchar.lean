import Hseos.Lib.Word
import Mathlib.Data.List.Basic
import Mathlib.Tactic.Common

/-! # Characters from a buffer

`nextchar` takes the next byte of a buffer and reads a new chunk when there is none. The bytes are unsigned,
so that none of them is the `-1` that stands for an empty buffer and for the end of the file. The results
are the bytes of the chunks, one chunk after the other, whatever their sizes.
-/

namespace Hseos.Bufread

/-- What a call of `read` does: it delivers bytes, or returns a result that is not positive. -/
inductive ReadResult where
  | chunk (bytes : List (BitVec 8))
  | status (res : ℤ)
deriving DecidableEq

/-- `struct FileReadState`. The buffer is told by its contents. -/
structure FileReadState where
  fd : ℤ
  buf : List (BitVec 8)
  bufsize : ℤ
  lc : ℤ
  readOffset : ℤ
  size : ℤ
deriving DecidableEq

/-- `stin_state`, with these bytes in a buffer of its size. -/
def stinState (buffer : List (BitVec 8)) : FileReadState := ⟨0, buffer, buffer.length, -1, 0, 0⟩

/-- `lastchar`. -/
def lastchar (stin : FileReadState) : ℤ := stin.lc

/-- `buf[i]`. -/
def charAt (buf : List (BitVec 8)) (i : ℤ) : Except Fault (BitVec 8) :=
  match if 0 ≤ i then buf[i.toNat]? else none with
  | some c => .ok c
  | none => .error .outOfBounds

/-- `nextchar_from_buffer`: its result, and the state after it. -/
def nextcharFromBuffer (stin : FileReadState) : Except Fault (ℤ × FileReadState) := do
  if stin.readOffset < stin.size then
    let c ← charAt stin.buf stin.readOffset
    let readOffset ← intAdd stin.readOffset 1
    let stin := { stin with lc := c.toNat, readOffset := readOffset }
    return (lastchar stin, stin)
  else return (-1, stin)

/-- `read_call` into a buffer: its result, and the bytes of the buffer. -/
def readCall (buf : List (BitVec 8)) : ReadResult → ℤ × List (BitVec 8)
  | .chunk bytes => (bytes.length, bytes ++ buf.drop bytes.length)
  | .status res => (res, buf)

/-- `nextchar`: its result, the state after it and the results of `read` that are left. A call that needs
one more than there are does not return. -/
def nextchar (stin : FileReadState) (reads : List ReadResult) :
    Except Fault (ℤ × FileReadState × List ReadResult) := do
  let (res, stin) ← nextcharFromBuffer stin
  if res ≠ -1 then return (res, stin, reads)
  let stin := { stin with readOffset := 0, size := 0 }
  match reads with
  | [] => .error .outOfFuel
  | result :: reads =>
      let (res, buf) := readCall stin.buf result
      let stin := { stin with buf := buf }
      if res ≤ 0 then return (-1, { stin with lc := -1 }, reads)
      let (res, stin) ← nextcharFromBuffer { stin with size := res }
      return (res, stin, reads)

/-- A call of `nextchar` in a run: its result, the state after it and the results of `read` it has used. -/
structure Call where
  result : ℤ
  after : FileReadState
  used : List ReadResult

/-- As many calls of `nextchar`, one after the other. -/
def calls (stin : FileReadState) (reads : List ReadResult) : ℕ → Except Fault (List Call)
  | 0 => .ok []
  | count + 1 => do
      let (result, after, rest) ← nextchar stin reads
      let later ← calls after rest count
      return ⟨result, after, reads.take (reads.length - rest.length)⟩ :: later

/-- The results of `read` on a buffer of this size: a chunk has at least one byte and fits, a status is not
positive. -/
def ReadResult.Fits (bufsize : ℕ) : ReadResult → Prop
  | .chunk bytes => 1 ≤ bytes.length ∧ bytes.length ≤ bufsize
  | .status res => res ≤ 0

/-- What the caller is to see of a result of `read`: its bytes in order, or `-1`. -/
def ReadResult.characters : ReadResult → List ℤ
  | .chunk bytes => bytes.map fun c => (c.toNat : ℤ)
  | .status _ => [-1]

/-- After a call `lastchar` gives its result, the offset is inside of the buffer, and the result is `-1`
exactly if a `read` of the call returned no bytes. -/
structure Call.Correct (call : Call) (bufsize : ℕ) : Prop where
  last : lastchar call.after = call.result
  offset : 0 ≤ call.after.readOffset ∧ call.after.readOffset ≤ call.after.size
  size : call.after.size ≤ bufsize
  ended : call.result = -1 ↔ ∃ res, .status res ∈ call.used

/-- The bytes of the buffer that are still to be taken. -/
structure Holds (bufsize : ℕ) (stin : FileReadState) (pending : List (BitVec 8)) : Prop where
  length : stin.buf.length = bufsize
  segment : ∃ before after, stin.buf = before ++ pending ++ after ∧ stin.readOffset = before.length ∧
    stin.size = (before.length + pending.length : ℕ)

variable {bufsize : ℕ} {stin : FileReadState} {pending rest : List (BitVec 8)} {c : BitVec 8}
  {reads : List ReadResult}

theorem Holds.bounds (holds : Holds bufsize stin pending) :
    (0 ≤ stin.readOffset ∧ stin.readOffset ≤ stin.size) ∧ stin.size ≤ bufsize := by
  obtain ⟨length, before, after, buf, offset, size⟩ := holds
  rw [buf, List.length_append, List.length_append] at length
  omega

/-- The next byte of the buffer. -/
theorem Holds.take (holds : Holds bufsize stin (c :: rest)) (word : bufsize < 2 ^ 31) :
    ∃ stin', nextcharFromBuffer stin = .ok ((c.toNat : ℤ), stin') ∧ lastchar stin' = c.toNat ∧
      Holds bufsize stin' rest := by
  obtain ⟨length, before, after, buf, offset, size⟩ := holds
  have first : charAt stin.buf stin.readOffset = .ok c := by
    have found : (before ++ c :: rest ++ after)[before.length]? = some c := by
      rw [List.append_assoc, List.getElem?_append_right (Nat.le_refl _), Nat.sub_self]
      rfl
    rw [charAt, offset, if_pos (Int.natCast_nonneg _), Int.toNat_natCast, buf, found]
  rw [List.length_cons] at size
  have total := length
  rw [buf, List.length_append, List.length_append, List.length_cons] at total
  have more : stin.readOffset < stin.size := by omega
  have next : intAdd stin.readOffset 1 = .ok (stin.readOffset + 1) := intAdd_ok (by omega) (by omega)
  refine ⟨{ stin with lc := c.toNat, readOffset := stin.readOffset + 1 }, ?_, rfl,
    length, before ++ [c], after, ?_, ?_, ?_⟩
  · simp only [nextcharFromBuffer, if_pos more, first, next, ok_bind]
    rfl
  · rw [buf, List.append_cons before c rest]
  · change stin.readOffset + 1 = _
    rw [offset, List.length_append, List.length_singleton]
    rfl
  · change stin.size = _
    rw [size, List.length_append, List.length_singleton]
    omega

/-- An empty buffer. -/
theorem Holds.empty (holds : Holds bufsize stin []) : nextcharFromBuffer stin = .ok (-1, stin) := by
  obtain ⟨-, before, after, -, offset, size⟩ := holds
  rw [List.length_nil, Nat.add_zero] at size
  exact if_neg (by omega)

/-- A chunk that fits is in the buffer. -/
theorem Holds.fill (length : stin.buf.length = bufsize) {bytes : List (BitVec 8)}
    (fits : bytes.length ≤ bufsize) (lc : ℤ) :
    Holds bufsize ⟨stin.fd, bytes ++ stin.buf.drop bytes.length, stin.bufsize, lc, 0, bytes.length⟩
      bytes := by
  refine ⟨?_, [], stin.buf.drop bytes.length, by simp, rfl, by simp⟩
  rw [List.length_append, List.length_drop]
  omega

/-- A byte is no `-1`. -/
theorem byte_ne (c : BitVec 8) : (c.toNat : ℤ) ≠ -1 := by
  omega

/-- What the caller is to see from here on. -/
def expected (pending : List (BitVec 8)) (reads : List ReadResult) : List ℤ :=
  (ReadResult.chunk pending).characters ++ reads.flatMap ReadResult.characters

theorem nextchar_pending (reads : List ReadResult) (holds : Holds bufsize stin (c :: rest))
    (word : bufsize < 2 ^ 31) :
    ∃ stin', nextchar stin reads = .ok ((c.toNat : ℤ), stin', reads) ∧ lastchar stin' = c.toNat ∧
      Holds bufsize stin' rest := by
  obtain ⟨stin', taken, last, holds'⟩ := holds.take word
  refine ⟨stin', ?_, last, holds'⟩
  simp only [nextchar, taken, ok_bind, if_pos (byte_ne c)]
  rfl

/-- With an empty buffer a chunk is read first. -/
theorem nextchar_chunk (reads : List ReadResult) (holds : Holds bufsize stin []) (word : bufsize < 2 ^ 31)
    (fits : (c :: rest).length ≤ bufsize) :
    ∃ stin', nextchar stin (.chunk (c :: rest) :: reads) = .ok ((c.toNat : ℤ), stin', reads) ∧
      lastchar stin' = c.toNat ∧ Holds bufsize stin' rest := by
  obtain ⟨stin', taken, last, holds'⟩ := (Holds.fill holds.length fits stin.lc).take word
  have positive : ¬((c :: rest).length : ℤ) ≤ 0 := by
    rw [List.length_cons]
    omega
  refine ⟨stin', ?_, last, holds'⟩
  simp only [nextchar, holds.empty, ok_bind, ne_eq, not_true_eq_false, if_false, readCall, if_neg positive,
    taken]
  rfl

theorem nextchar_status (reads : List ReadResult) (holds : Holds bufsize stin []) {res : ℤ} (ended : res ≤ 0) :
    ∃ stin', nextchar stin (.status res :: reads) = .ok (-1, stin', reads) ∧ lastchar stin' = -1 ∧
      Holds bufsize stin' [] := by
  refine ⟨{ stin with readOffset := 0, size := 0, lc := -1 }, ?_, rfl, holds.length, [], stin.buf, rfl, rfl, rfl⟩
  simp only [nextchar, holds.empty, ok_bind, ne_eq, not_true_eq_false, if_false, readCall]
  exact if_pos ended

/-- A call gives the next value that is expected, if there is one. -/
theorem nextchar_expected {x : ℤ} {xs : List ℤ} (holds : Holds bufsize stin pending) (word : bufsize < 2 ^ 31)
    (fits : ∀ result ∈ reads, result.Fits bufsize) (more : expected pending reads = x :: xs) :
    ∃ stin' used reads' pending', nextchar stin reads = .ok (x, stin', reads') ∧ reads = used ++ reads' ∧
      lastchar stin' = x ∧ (x = -1 ↔ ∃ res, .status res ∈ used) ∧ Holds bufsize stin' pending' ∧
      expected pending' reads' = xs := by
  cases pending with
  | cons c rest =>
    obtain ⟨rfl, later⟩ := List.cons.inj more
    obtain ⟨stin', called, last, holds'⟩ := nextchar_pending reads holds word
    refine ⟨stin', [], reads, rest, called, rfl, last, ?_, holds', later⟩
    apply iff_of_false
    · exact byte_ne c
    · rintro ⟨res, member⟩
      cases member
  | nil =>
    cases reads with
    | nil => cases more
    | cons result reads =>
      cases result with
      | status res =>
        obtain ⟨rfl, later⟩ := List.cons.inj more
        obtain ⟨stin', called, last, holds'⟩ := nextchar_status reads holds (fits _ List.mem_cons_self)
        exact ⟨stin', [.status res], reads, [], called, rfl, last,
          iff_of_true rfl ⟨res, List.mem_cons_self⟩, holds', later⟩
      | chunk bytes =>
        obtain ⟨positive, short⟩ := fits _ List.mem_cons_self
        obtain ⟨c, rest, rfl⟩ := List.exists_cons_of_length_pos positive
        obtain ⟨rfl, later⟩ := List.cons.inj more
        obtain ⟨stin', called, last, holds'⟩ := nextchar_chunk reads holds word short
        refine ⟨stin', [.chunk (c :: rest)], reads, rest, called, rfl, last, ?_, holds', later⟩
        apply iff_of_false
        · exact byte_ne c
        · rintro ⟨res, member⟩
          cases List.mem_singleton.mp member

/-- Calls in a row give the values expected, as many as there are. -/
theorem calls_expected (count : ℕ) (holds : Holds bufsize stin pending) (word : bufsize < 2 ^ 31)
    (fits : ∀ result ∈ reads, result.Fits bufsize) (enough : count ≤ (expected pending reads).length) :
    ∃ trace, calls stin reads count = .ok trace ∧
      trace.map Call.result = (expected pending reads).take count ∧
      ∀ call ∈ trace, call.Correct bufsize := by
  induction count generalizing stin reads pending with
  | zero => exact ⟨[], rfl, rfl, nofun⟩
  | succ count ih =>
    obtain ⟨x, xs, more⟩ := List.exists_cons_of_length_pos (Nat.zero_lt_of_lt enough)
    obtain ⟨stin', used, reads', pending', called, rfl, last, ended, holds', later⟩ :=
      nextchar_expected holds word fits more
    have fits' : ∀ result ∈ reads', result.Fits bufsize := fun result member =>
      fits result (List.mem_append_right used member)
    rw [more, List.length_cons] at enough
    obtain ⟨trace, ran, results, correct⟩ := ih holds' fits' (by rw [later]; omega)
    have taken : (used ++ reads').take ((used ++ reads').length - reads'.length) = used := by
      rw [List.length_append, Nat.add_sub_cancel, List.take_left]
    refine ⟨⟨x, stin', used⟩ :: trace, ?_, ?_, ?_⟩
    · simp only [calls, called, ok_bind, ran, taken]
      rfl
    · rw [List.map_cons, results, more, later, List.take_succ_cons]
    · rintro call member
      rcases List.mem_cons.mp member with rfl | member
      · exact ⟨last, holds'.bounds.1, holds'.bounds.2, ended⟩
      · exact correct call member

/-- A stream that ends is told by its bytes, whatever its chunks are. -/
theorem characters_chunks (chunks : List (List (BitVec 8))) (res : ℤ) :
    (chunks.map ReadResult.chunk ++ [ReadResult.status res]).flatMap ReadResult.characters =
      chunks.flatten.map (fun c => (c.toNat : ℤ)) ++ [-1] := by
  rw [List.flatMap_append, List.flatMap_map, List.map_flatten, List.flatMap_def]
  rfl

/-- From an empty buffer on, calls in a row give the bytes of the chunks in order and `-1` for each `read`
without bytes. So the results on a stream that ends do not depend on the way it is cut into chunks. -/
theorem nextchar_stream (buffer : List (BitVec 8)) (word : buffer.length < 2 ^ 31) :
    (∀ reads, (∀ result ∈ reads, result.Fits buffer.length) →
      ∀ count ≤ (reads.flatMap ReadResult.characters).length,
        ∃ trace, calls (stinState buffer) reads count = .ok trace ∧
          trace.map Call.result = (reads.flatMap ReadResult.characters).take count ∧
          ∀ call ∈ trace, call.Correct buffer.length) ∧
    ∀ (chunks : List (List (BitVec 8))) (res : ℤ),
      (∀ bytes ∈ chunks, (ReadResult.chunk bytes).Fits buffer.length) → res ≤ 0 →
        ∃ trace, calls (stinState buffer) (chunks.map .chunk ++ [.status res]) (chunks.flatten.length + 1) =
            .ok trace ∧
          trace.map Call.result = chunks.flatten.map (fun c => (c.toNat : ℤ)) ++ [-1] := by
  have holds : Holds buffer.length (stinState buffer) [] := ⟨rfl, [], buffer, rfl, rfl, rfl⟩
  have stream : ∀ reads, (∀ result ∈ reads, result.Fits buffer.length) →
      ∀ count ≤ (reads.flatMap ReadResult.characters).length,
        ∃ trace, calls (stinState buffer) reads count = .ok trace ∧
          trace.map Call.result = (reads.flatMap ReadResult.characters).take count ∧
          ∀ call ∈ trace, call.Correct buffer.length := by
    intro reads fits count enough
    exact calls_expected count holds word fits enough
  refine ⟨stream, fun chunks res fits ended => ?_⟩
  have fits' : ∀ result ∈ chunks.map ReadResult.chunk ++ [.status res], result.Fits buffer.length := by
    intro result member
    rcases List.mem_append.mp member with chunk | status
    · obtain ⟨bytes, inside, rfl⟩ := List.mem_map.mp chunk
      exact fits bytes inside
    · rwa [List.mem_singleton.mp status]
  have length : ((chunks.map ReadResult.chunk ++ [ReadResult.status res]).flatMap ReadResult.characters).length =
      chunks.flatten.length + 1 := by
    rw [characters_chunks, List.length_append, List.length_map, List.length_singleton]
  obtain ⟨trace, ran, results, -⟩ := stream _ fits' _ length.ge
  refine ⟨trace, ran, ?_⟩
  rw [results, ← length, List.take_length, characters_chunks]

/-- The end of the file is met between two chunks, and the first chunk fills the buffer. -/
theorem nextchar_stream_two : ∃ trace,
    calls (stinState [0, 0]) [.chunk [0xff, 0x61], .status 0, .chunk [0x62], .status (-9)] 5 = .ok trace ∧
      trace.map Call.result = [255, 97, -1, 98, -1] := by
  have fits : ∀ result ∈ [ReadResult.chunk [0xff, 0x61], .status 0, .chunk [0x62], .status (-9)],
      result.Fits 2 := by
    simp [ReadResult.Fits]
  obtain ⟨trace, ran, results, -⟩ := (nextchar_stream [0, 0] (by decide)).1 _ fits 5 (by decide)
  exact ⟨trace, ran, results⟩

end Hseos.Bufread
