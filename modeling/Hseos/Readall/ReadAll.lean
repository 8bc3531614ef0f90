import Hseos.Lib.Heap
import Mathlib.Tactic.IntervalCases

/-! # Reading a whole file

`read_all` measures a file by seeking to its end, and reads until that many bytes have arrived. One flag
carries the failures of its stages to the end, where the buffer is freed and the result becomes
`{NULL, -1}`. The environment gives the results of all system calls; an interrupted `read` is repeated.
-/

namespace Hseos.Readall

/-- `EINTR`. -/
def eintr : ℤ := 4

/-- What a `read` does. Of a chunk it delivers no more than it is asked for, but at least one byte. -/
inductive ReadResult where
  | chunk (first : BitVec 8) (rest : List (BitVec 8))
  | ended
  | failed (errno : ℤ)
deriving DecidableEq

def ReadResult.bytes : ReadResult → List (BitVec 8)
  | .chunk first rest => first :: rest
  | .ended | .failed _ => []

/-- The results of the calls: a descriptor, an offset that is not negative, whether the second `lseek`
succeeds, the bytes that `malloc` finds; none where a call fails. -/
structure System (Path : Type*) where
  opened : Path → Option ℕ
  seekEnd : Option (BitVec 63)
  seekSet : Bool
  garbage : Option (ℕ → BitVec 8)
  read : ℕ → ReadResult

/-- `struct FileContent`. -/
structure FileContent where
  data : Option ℕ
  size : ℤ
deriving DecidableEq

/-- What `read_all` returns and leaves, with the descriptors it has closed. -/
structure Run where
  content : FileContent
  heap : Heap (BitVec 8)
  closed : List ℤ

/-- The conversion to `size_t`. -/
def toSizeT (n : ℤ) : ℕ := (n % 2 ^ 64).toNat

/-- The loop, from this call of `read` on: `res`, and the heap. -/
def readLoop (read : ℕ → ReadResult) (ans : FileContent) :
    ℕ → ℕ → Bool → ℕ → Heap (BitVec 8) → Except Fault (Bool × Heap (BitVec 8))
  | 0, _, _, _, _ => .error .outOfFuel
  | fuel + 1, n, res, offset, heap =>
      if res ∧ offset < toSizeT ans.size then
        let toRead := wordSub 64 (toSizeT ans.size) offset
        match read n with
        | .failed errno => readLoop read ans fuel (n + 1) (decide (errno = eintr)) offset heap
        | .ended => readLoop read ans fuel (n + 1) false offset heap
        | .chunk first rest => do
            let bytes := (first :: rest).take toRead
            let heap ← heap.memcpy ⟨ans.data, offset⟩ bytes bytes.length
            readLoop read ans fuel (n + 1) res (wordAdd 64 offset bytes.length) heap
      else .ok (res, heap)

variable {Path : Type*}

/-- `read_all`. -/
def readAll (system : System Path) (path : Path) (fuel : ℕ) (heap : Heap (BitVec 8)) : Except Fault Run := do
  let f : ℤ := ((system.opened path).map fun fd => (fd : ℤ)).getD (-1)
  let endOffset : ℤ := if f ≠ -1 then (system.seekEnd.map fun offset => (offset.toNat : ℤ)).getD (-1) else -1
  let res : Bool := f ≠ -1 ∧ endOffset ≠ -1 ∧ system.seekSet
  let ans : FileContent := ⟨none, -1⟩
  let (res, ans, heap) :=
    if res then
      let (data, heap) := heap.malloc system.garbage (wordAdd 64 (toSizeT endOffset) 1)
      (data.isSome, (⟨data, toSizeT endOffset⟩ : FileContent), heap)
    else (res, ans, heap)
  let (res, heap) ←
    if res then do
      let (res, heap) ← readLoop system.read ans fuel 0 res 0 heap
      let heap ← heap.memcpy ⟨ans.data, ans.size.toNat⟩ [0] 1
      pure (res, heap)
    else pure (res, heap)
  let (ans, heap) ←
    if !res then do
      let heap ← if ans.data.isSome then heap.free ans.data else pure heap
      pure ((⟨none, -1⟩ : FileContent), heap)
    else pure (ans, heap)
  return ⟨ans, heap, if f ≠ -1 then [f] else []⟩

/-- The bytes that the first calls of `read` have delivered, each asked for what is missing. -/
def delivered (read : ℕ → ReadResult) (size : ℕ) : ℕ → List (BitVec 8)
  | 0 => []
  | n + 1 => delivered read size n ++ (read n).bytes.take (size - (delivered read size n).length)

/-- The call of `read` finds the end of the file, or fails and was not interrupted. -/
def Stops (read : ℕ → ReadResult) (n : ℕ) : Prop :=
  read n = .ended ∨ ∃ errno, read n = .failed errno ∧ errno ≠ eintr

/-- A call fails, or a `read` stops before all bytes have arrived. -/
def System.Fails (system : System Path) (path : Path) : Prop :=
  system.opened path = none ∨ system.seekEnd = none ∨ system.seekSet = false ∨ system.garbage = none ∨
    ∃ size n, system.seekEnd = some size ∧ (delivered system.read size.toNat n).length < size.toNat ∧
      Stops system.read n

/-- The descriptor of the file, if it is open. -/
def System.descriptors (system : System Path) (path : Path) : List ℤ :=
  match system.opened path with
  | none => []
  | some fd => [(fd : ℤ)]

/-- The file is in a new block with a NUL behind it, and the other blocks are as before. -/
def Run.Whole (run : Run) (system : System Path) (heap : Heap (BitVec 8)) : Prop :=
  ∃ size b n, system.seekEnd = some size ∧ run.content = ⟨some b, size.toNat⟩ ∧
    (delivered system.read size.toNat n).length = size.toNat ∧ heap.block b = none ∧
    run.heap.block b = some (delivered system.read size.toNat n ++ [0]) ∧
    ∀ c ≠ b, run.heap.block c = heap.block c

/-- The result is `{NULL, -1}`, and the live blocks are as before. -/
def Run.Failed (run : Run) (heap : Heap (BitVec 8)) : Prop :=
  run.content = ⟨none, -1⟩ ∧ run.heap.block = heap.block

section Loop

variable {read : ℕ → ReadResult} {size b n : ℕ} {heap : Heap (BitVec 8)}

theorem length_delivered_le (read : ℕ → ReadResult) (size n : ℕ) : (delivered read size n).length ≤ size := by
  induction n with
  | zero => exact Nat.zero_le _
  | succ n ih =>
    rw [delivered, List.length_append, List.length_take]
    omega

theorem length_delivered_mono (read : ℕ → ReadResult) (size : ℕ) {m n : ℕ} (le : m ≤ n) :
    (delivered read size m).length ≤ (delivered read size n).length := by
  induction le with
  | refl => exact le_rfl
  | step _ ih =>
    rw [delivered, List.length_append]
    omega

theorem delivered_of_empty (empty : (read n).bytes = []) : delivered read size (n + 1) = delivered read size n := by
  rw [delivered, empty, List.take_nil, List.append_nil]

theorem toSizeT_of_lt (bound : size < 2 ^ 64) : toSizeT size = size := by
  rw [toSizeT]
  omega

/-- What the first calls of `read` have delivered is in the block, which has one byte more than the file. -/
def Filled (read : ℕ → ReadResult) (size b n : ℕ) (heap : Heap (BitVec 8)) : Prop :=
  ∃ tail, heap.block b = some (delivered read size n ++ tail) ∧
    (delivered read size n).length + tail.length = size + 1

/-- How the loop ends: with all bytes, or at a call that stops it. -/
structure Ends (read : ℕ → ReadResult) (size b n : ℕ) (heap heap' : Heap (BitVec 8)) (res : Bool) (m : ℕ) :
    Prop where
  filled : Filled read size b m heap'
  others : ∀ c ≠ b, heap'.block c = heap.block c
  passed : ∀ j, n ≤ j → j < m → ¬Stops read j
  outcome : res = true ∧ (delivered read size m).length = size ∨
    res = false ∧ (delivered read size m).length < size ∧ Stops read m

variable {fuel : ℕ} (bound : size < 2 ^ 63)
include bound

theorem readLoop_whole (whole : (delivered read size n).length = size) :
    readLoop read ⟨some b, size⟩ (fuel + 1) n true (delivered read size n).length heap = .ok (true, heap) := by
  have converted : toSizeT size = size := toSizeT_of_lt (by omega)
  rw [readLoop, converted]
  exact if_neg fun more => more.2.ne whole

theorem readLoop_stops (missing : (delivered read size n).length < size) (stops : Stops read n) :
    readLoop read ⟨some b, size⟩ (fuel + 2) n true (delivered read size n).length heap = .ok (false, heap) := by
  have converted : toSizeT size = size := toSizeT_of_lt (by omega)
  have left : readLoop read ⟨some b, size⟩ (fuel + 1) (n + 1) false (delivered read size n).length heap =
      .ok (false, heap) := by
    rw [readLoop]
    exact if_neg fun more => Bool.noConfusion more.1
  rw [readLoop, converted, if_pos ⟨rfl, missing⟩]
  rcases stops with ended | ⟨errno, failed, other⟩
  · simp only [ended, left]
  · simp only [failed, decide_eq_false other, left]

theorem readLoop_interrupted (missing : (delivered read size n).length < size)
    (interrupted : read n = .failed eintr) :
    readLoop read ⟨some b, size⟩ (fuel + 1) n true (delivered read size n).length heap =
      readLoop read ⟨some b, size⟩ fuel (n + 1) true (delivered read size (n + 1)).length heap := by
  have converted : toSizeT size = size := toSizeT_of_lt (by omega)
  have kept : delivered read size (n + 1) = delivered read size n :=
    delivered_of_empty (by rw [interrupted]; rfl)
  rw [readLoop, converted, if_pos ⟨rfl, missing⟩, kept]
  simp only [interrupted, decide_true]

/-- A chunk is put behind the bytes that have arrived. -/
theorem readLoop_chunk (missing : (delivered read size n).length < size) {first : BitVec 8}
    {rest : List (BitVec 8)} (arrives : read n = .chunk first rest) (filled : Filled read size b n heap) :
    ∃ heap', (∀ fuel, readLoop read ⟨some b, size⟩ (fuel + 1) n true (delivered read size n).length heap =
        readLoop read ⟨some b, size⟩ fuel (n + 1) true (delivered read size (n + 1)).length heap') ∧
      Filled read size b (n + 1) heap' ∧ ∀ c ≠ b, heap'.block c = heap.block c := by
  obtain ⟨tail, live, total⟩ := filled
  have converted : toSizeT size = size := toSizeT_of_lt (by omega)
  have toRead : wordSub 64 size (delivered read size n).length = size - (delivered read size n).length :=
    wordSub_of_le (by omega) missing.le
  set bytes := (first :: rest).take (size - (delivered read size n).length) with taken
  have next : delivered read size (n + 1) = delivered read size n ++ bytes := by
    rw [delivered, arrives]
    rfl
  have atMost : bytes.length ≤ size - (delivered read size n).length := List.length_take_le ..
  have live' : heap.block b =
      some (delivered read size n ++ tail.take bytes.length ++ tail.drop bytes.length) := by
    rw [live, List.append_assoc, List.take_append_drop]
  have same : (tail.take bytes.length).length = bytes.length := by
    rw [List.length_take]
    omega
  have copied := Heap.memcpy_segment live' same
  refine ⟨heap.set b (some (delivered read size n ++ bytes ++ tail.drop bytes.length)) (Heap.used live'),
    fun fuel => ?_, ⟨tail.drop bytes.length, ?_, ?_⟩, fun c other => Heap.block_set_of_ne _ other⟩
  · have offset : wordAdd 64 (delivered read size n).length bytes.length =
        (delivered read size (n + 1)).length := by
      rw [next, List.length_append]
      exact wordAdd_of_lt (by omega)
    rw [readLoop, converted, if_pos ⟨rfl, missing⟩]
    simp only [arrives, toRead, ← taken, copied, ok_bind, offset]
  · rw [Heap.block_set, next]
  · rw [next, List.length_append, List.length_drop]
    omega

omit bound in
/-- A call that does not stop the loop can be put in front. -/
theorem Ends.step {heap₁ heap' : Heap (BitVec 8)} {res : Bool} {m : ℕ} (goes : ¬Stops read n)
    (others : ∀ c ≠ b, heap₁.block c = heap.block c) (ends : Ends read size b (n + 1) heap₁ heap' res m) :
    Ends read size b n heap heap' res m := by
  obtain ⟨filled, others', passed, outcome⟩ := ends
  refine ⟨filled, fun c other => (others' c other).trans (others c other), ?_, outcome⟩
  intro j from_ below
  rcases from_.eq_or_lt with rfl | later
  · exact goes
  · exact passed j later below

omit bound in
theorem length_delivered_chunk (missing : (delivered read size n).length < size) {first : BitVec 8}
    {rest : List (BitVec 8)} (arrives : read n = .chunk first rest) :
    (delivered read size n).length < (delivered read size (n + 1)).length := by
  rw [delivered, arrives, List.length_append, List.length_take, ReadResult.bytes, List.length_cons]
  omega

/-- From a call on, the loop ends; at the latest the call number `m` is not interrupted. -/
theorem readLoop_ends_of_proceeds (progress : ∀ n, ∃ m ≥ n, read m ≠ .failed eintr) {n m : ℕ}
    {heap : Heap (BitVec 8)} (later : n ≤ m) (proceeds : read m ≠ .failed eintr)
    (filled : Filled read size b n heap) :
    ∃ enough res heap' last, (∀ fuel ≥ enough,
        readLoop read ⟨some b, size⟩ fuel n true (delivered read size n).length heap = .ok (res, heap')) ∧
      Ends read size b n heap heap' res last := by
  have stopped (missing : (delivered read size n).length < size) (stops : Stops read n) :
      ∃ enough res heap' last, (∀ fuel ≥ enough,
          readLoop read ⟨some b, size⟩ fuel n true (delivered read size n).length heap = .ok (res, heap')) ∧
        Ends read size b n heap heap' res last := by
    refine ⟨2, false, heap, n, fun fuel enough => ?_, ⟨filled, fun _ _ => rfl, fun j from_ below => ?_,
      .inr ⟨rfl, missing, stops⟩⟩⟩
    · obtain ⟨fuel, rfl⟩ : ∃ f, fuel = f + 2 := ⟨fuel - 2, by omega⟩
      exact readLoop_stops bound missing stops
    · omega
  rcases (length_delivered_le read size n).eq_or_lt with whole | missing
  · refine ⟨1, true, heap, n, fun fuel enough => ?_, ⟨filled, fun _ _ => rfl, fun j from_ below => ?_,
      .inl ⟨rfl, whole⟩⟩⟩
    · obtain ⟨fuel, rfl⟩ : ∃ f, fuel = f + 1 := ⟨fuel - 1, by omega⟩
      exact readLoop_whole bound whole
    · omega
  · cases arrives : read n with
    | chunk first rest =>
      obtain ⟨heap₁, step, filled₁, others⟩ := readLoop_chunk bound missing arrives filled
      obtain ⟨m', later', proceeds'⟩ := progress (n + 1)
      have more := length_delivered_chunk missing arrives
      obtain ⟨enough, res, heap', last, runs, ends⟩ :=
        readLoop_ends_of_proceeds progress later' proceeds' filled₁
      have goes : ¬Stops read n := by
        rintro (ended | ⟨errno, failed, -⟩)
        · cases arrives.symm.trans ended
        · cases arrives.symm.trans failed
      refine ⟨enough + 1, res, heap', last, fun fuel le => ?_, ends.step goes others⟩
      obtain ⟨fuel, rfl⟩ : ∃ f, fuel = f + 1 := ⟨fuel - 1, by omega⟩
      rw [step]
      exact runs fuel (by omega)
    | ended => exact stopped missing (.inl arrives)
    | failed errno =>
      rcases eq_or_ne errno eintr with rfl | other
      · have before : n ≠ m := by
          rintro rfl
          exact proceeds arrives
        have kept : delivered read size (n + 1) = delivered read size n :=
          delivered_of_empty (by rw [arrives]; rfl)
        have filled₁ : Filled read size b (n + 1) heap := by
          rw [Filled, kept]
          exact filled
        obtain ⟨enough, res, heap', last, runs, ends⟩ :=
          readLoop_ends_of_proceeds progress (lt_of_le_of_ne later before) proceeds filled₁
        have goes : ¬Stops read n := by
          rintro (ended | ⟨errno, failed, other⟩)
          · cases arrives.symm.trans ended
          · cases arrives.symm.trans failed
            exact other rfl
        refine ⟨enough + 1, res, heap', last, fun fuel le => ?_, ends.step goes fun _ _ => rfl⟩
        obtain ⟨fuel, rfl⟩ : ∃ f, fuel = f + 1 := ⟨fuel - 1, by omega⟩
        rw [readLoop_interrupted bound missing arrives]
        exact runs fuel (by omega)
      · exact stopped missing (.inr ⟨errno, arrives, other⟩)
termination_by (size - (delivered read size n).length, m - n)
decreasing_by
  · exact .left _ _ (by omega)
  · rw [kept]
    exact .right _ (by omega)

/-- The loop stops before the file is whole exactly if some call of `read` does. -/
theorem readLoop_spec (progress : ∀ n, ∃ m ≥ n, read m ≠ .failed eintr) (filled : Filled read size b 0 heap) :
    ∃ enough res heap' tail n, (∀ fuel ≥ enough,
        readLoop read ⟨some b, size⟩ fuel 0 true 0 heap = .ok (res, heap')) ∧
      heap'.block b = some (delivered read size n ++ tail) ∧
      (delivered read size n).length + tail.length = size + 1 ∧ (∀ c ≠ b, heap'.block c = heap.block c) ∧
      (res = true ↔ (delivered read size n).length = size) ∧
      (res = false ↔ ∃ j, (delivered read size j).length < size ∧ Stops read j) := by
  obtain ⟨m, later, proceeds⟩ := progress 0
  obtain ⟨enough, res, heap', n, runs, ⟨⟨tail, live, total⟩, others, passed, outcome⟩⟩ :=
    readLoop_ends_of_proceeds bound progress later proceeds filled
  refine ⟨enough, res, heap', tail, n, runs, live, total, others, ?_⟩
  rcases outcome with ⟨rfl, whole⟩ | ⟨rfl, missing, stops⟩
  · refine ⟨iff_of_true rfl whole, iff_of_false nofun ?_⟩
    rintro ⟨j, missing, stops⟩
    rcases Nat.lt_or_ge j n with early | late
    · exact passed j (Nat.zero_le j) early stops
    · have grown := length_delivered_mono read size late
      omega
  · exact ⟨iff_of_false nofun missing.ne, iff_of_true rfl ⟨n, missing, stops⟩⟩

end Loop

/-- The NUL behind the place of the file, which may be filled in part. -/
theorem put_nul {heap : Heap (BitVec 8)} {b size : ℕ} {content tail : List (BitVec 8)}
    (live : heap.block b = some (content ++ tail)) (total : content.length + tail.length = size + 1) :
    ∃ heap' bytes, heap.memcpy ⟨some b, size⟩ [0] 1 = .ok heap' ∧ heap'.block b = some bytes ∧
      (∀ c ≠ b, heap'.block c = heap.block c) ∧ (content.length = size → bytes = content ++ [0]) := by
  have length : (content ++ tail).length = size + 1 := by
    rw [List.length_append, total]
  obtain ⟨last, final⟩ : ∃ last, (content ++ tail).drop size = [last] := by
    apply List.length_eq_one_iff.mp
    rw [List.length_drop, length]
    exact Nat.add_sub_cancel_left size 1
  have taken : ((content ++ tail).take size).length = size := by
    rw [List.length_take, length]
    omega
  have live' : heap.block b = some ((content ++ tail).take size ++ [last] ++ []) := by
    rw [live, List.append_nil, ← final, List.take_append_drop]
  have copied := Heap.memcpy_segment live' (show [last].length = [(0 : BitVec 8)].length from rfl)
  rw [taken] at copied
  refine ⟨_, _, copied, Heap.block_set _, fun c other => Heap.block_set_of_ne _ other, fun whole => ?_⟩
  rw [List.append_nil, List.take_left' whole]

section Stages

variable {system : System Path} {path : Path} {fd : ℕ} {size : BitVec 63} {garbage : ℕ → BitVec 8}

/-- The results of the calls before the loop, if they succeed. -/
structure System.Opens (system : System Path) (path : Path) (fd : ℕ) (size : BitVec 63)
    (garbage : ℕ → BitVec 8) : Prop where
  opened : system.opened path = some fd
  seekEnd : system.seekEnd = some size
  seekSet : system.seekSet = true
  garbage : system.garbage = some garbage

/-- Without one of these calls there is no buffer. -/
theorem readAll_unopened (fuel : ℕ) (heap : Heap (BitVec 8))
    (fails : system.opened path = none ∨ system.seekEnd = none ∨ system.seekSet = false ∨
      system.garbage = none) :
    readAll system path fuel heap = .ok ⟨⟨none, -1⟩, heap, system.descriptors path⟩ := by
  rcases opened : system.opened path with _ | fd
  · simp [readAll, opened, System.descriptors]
    rfl
  · rcases sought : system.seekEnd with _ | size
    · simp [readAll, opened, sought, System.descriptors]
      rfl
    · rcases rewound : system.seekSet with _ | _
      · simp [readAll, opened, sought, rewound, System.descriptors]
        rfl
      · rcases found : system.garbage with _ | garbage
        · simp [readAll, opened, sought, rewound, found, System.descriptors, Heap.malloc]
          rfl
        · simp_all

/-- With a buffer, the file is read into it, and the buffer is freed if that has failed. -/
theorem System.Opens.readAll (opens : system.Opens path fd size garbage) (fuel : ℕ) (heap : Heap (BitVec 8)) :
    Readall.readAll system path fuel heap =
      readLoop system.read ⟨some heap.next, size.toNat⟩ fuel 0 true 0
          (heap.insert (Heap.fill garbage (size.toNat + 1))) >>= fun filled =>
        filled.2.memcpy ⟨some heap.next, size.toNat⟩ [0] 1 >>= fun heap' =>
          if filled.1 then .ok ⟨⟨some heap.next, size.toNat⟩, heap', system.descriptors path⟩
          else heap'.free (some heap.next) >>= fun heap'' =>
            .ok ⟨⟨none, -1⟩, heap'', system.descriptors path⟩ := by
  obtain ⟨opened, sought, rewound, found⟩ := opens
  have bound := size.isLt
  have converted : toSizeT size.toNat = size.toNat := toSizeT_of_lt (by omega)
  have bytes : wordAdd 64 size.toNat 1 = size.toNat + 1 := wordAdd_of_lt (by omega)
  simp [Readall.readAll, opened, sought, rewound, found, System.descriptors, Heap.malloc, converted, bytes]
  congr 1
  funext filled
  congr 1
  funext heap'
  cases filled.1
  · cases heap'.free (some heap.next) <;> rfl
  · rfl

/-- A `read_all` with a buffer ends in one of the two ways. -/
theorem System.Opens.outcome (opens : system.Opens path fd size garbage)
    (progress : ∀ n, ∃ m ≥ n, system.read m ≠ .failed eintr) (heap : Heap (BitVec 8)) :
    ∃ enough run, (∀ fuel ≥ enough, Readall.readAll system path fuel heap = .ok run) ∧
      run.closed = system.descriptors path ∧
      (system.Fails path ∧ run.Failed heap ∨ ¬system.Fails path ∧ run.Whole system heap) := by
  have readAll := opens.readAll
  obtain ⟨opened, sought, rewound, found⟩ := opens
  have fresh : heap.block heap.next = none := heap.unused _ le_rfl
  have filled : Filled system.read size.toNat heap.next 0
      (heap.insert (Heap.fill garbage (size.toNat + 1))) :=
    ⟨Heap.fill garbage (size.toNat + 1), Heap.block_insert, by
      rw [Heap.length_fill]
      exact Nat.zero_add _⟩
  obtain ⟨enough, res, heap₁, tail, n, runs, live, total, others, whole, failed⟩ :=
    readLoop_spec size.isLt progress filled
  have fails : system.Fails path ↔ res = false := by
    rw [failed, System.Fails, opened, sought, rewound, found]
    simp
  obtain ⟨heap₂, bytes, ended, live₂, others₂, content⟩ := put_nul live total
  have apart (c : ℕ) (other : c ≠ heap.next) : heap₂.block c = heap.block c :=
    (others₂ c other).trans ((others c other).trans (Heap.block_insert_of_ne other))
  cases res with
  | true =>
    have complete := whole.mp rfl
    refine ⟨enough, ⟨⟨some heap.next, size.toNat⟩, heap₂, system.descriptors path⟩, fun fuel le => ?_, rfl,
      .inr ⟨fun failing => Bool.noConfusion (fails.mp failing), size, heap.next, n, sought, rfl, complete, fresh,
        ?_, apart⟩⟩
    · simp only [readAll, runs fuel le, ok_bind, ended, if_true]
    · exact live₂.trans (congrArg some (content complete))
  | false =>
    obtain ⟨heap₃, freed, blocks⟩ := Heap.free_live live₂
    refine ⟨enough, ⟨⟨none, -1⟩, heap₃, system.descriptors path⟩, fun fuel le => ?_, rfl,
      .inl ⟨fails.mpr rfl, rfl, ?_⟩⟩
    · simp only [readAll, runs fuel le, ok_bind, ended, freed, Bool.false_eq_true, if_false]
    · show heap₃.block = heap.block
      rw [blocks]
      funext c
      rcases eq_or_ne c heap.next with rfl | other
      · rw [Function.update_self, fresh]
      · rw [Function.update_of_ne other, apart c other]

end Stages

/-- Every schedule of results ends in one of two ways: some call has failed, the result is `{NULL, -1}` and the
buffer, if there was one, is freed; or the result is the file with a NUL behind it. The descriptor is closed
once if it was opened. -/
theorem read_all_outcome (system : System Path) (path : Path) (heap : Heap (BitVec 8))
    (progress : ∀ n, ∃ m ≥ n, system.read m ≠ .failed eintr) :
    ∃ enough run, (∀ fuel ≥ enough, readAll system path fuel heap = .ok run) ∧
      run.closed = system.descriptors path ∧
      (system.Fails path ∧ run.Failed heap ∨ ¬system.Fails path ∧ run.Whole system heap) := by
  by_cases fails : system.opened path = none ∨ system.seekEnd = none ∨ system.seekSet = false ∨
      system.garbage = none
  · refine ⟨0, _, fun fuel _ => readAll_unopened fuel heap fails, rfl, .inl ⟨?_, rfl, rfl⟩⟩
    rw [System.Fails]
    tauto
  · rw [not_or, not_or, not_or, Bool.not_eq_false] at fails
    obtain ⟨opened, sought, rewound, found⟩ := fails
    obtain ⟨fd, opened⟩ := Option.ne_none_iff_exists'.mp opened
    obtain ⟨size, sought⟩ := Option.ne_none_iff_exists'.mp sought
    obtain ⟨garbage, found⟩ := Option.ne_none_iff_exists'.mp found
    exact System.Opens.outcome ⟨opened, sought, rewound, found⟩ progress heap

/-- A file of two bytes, of which the first arrives after an interruption. -/
def twoBytes : System Unit where
  opened _ := some 3
  seekEnd := some 2
  seekSet := true
  garbage := some fun _ => 0
  read
    | 0 => .failed eintr
    | 1 => .chunk 97 []
    | 2 => .chunk 98 []
    | _ => .ended

theorem read_all_outcome_two : ∃ enough run, (∀ fuel ≥ enough, readAll twoBytes () fuel .empty = .ok run) ∧
    run.closed = [3] ∧ run.Whole twoBytes .empty := by
  have progress : ∀ n, ∃ m ≥ n, twoBytes.read m ≠ .failed eintr :=
    fun n => ⟨n + 3, Nat.le_add_right .., nofun⟩
  obtain ⟨enough, run, runs, closed, outcome⟩ := read_all_outcome twoBytes () .empty progress
  have works : ¬twoBytes.Fails () := by
    rintro (none | none | none | none | ⟨size, n, found, missing, stops⟩)
    · cases none
    · cases none
    · cases none
    · cases none
    · cases found
      have early : n < 3 := by
        by_contra late
        have whole : (2 : ℕ) ≤ (delivered twoBytes.read 2 n).length :=
          length_delivered_mono twoBytes.read 2 (Nat.le_of_not_lt late)
        exact absurd missing (Nat.not_lt.mpr whole)
      interval_cases n <;> rcases stops with ended | ⟨errno, failed, other⟩
      all_goals first | cases ended | cases failed
      exact other rfl
  exact ⟨enough, run, runs, closed, (outcome.resolve_left fun failed => works failed.1).2⟩

end Hseos.Readall
