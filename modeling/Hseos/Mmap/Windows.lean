import Hseos.Mmap.PutChar
import Mathlib.Data.List.GetD

/-! # Decoding a file through mappings

`main` looks for the longest mapping it can get, in steps of a page, and then maps the file block by
block. The inner loop is bounded by the size of the file instead of the length of the block. Both are the
same for a file that fits in one mapping, and then each byte is passed to `put_char` once; in a longer
file the loop runs behind the end of its first mapping.

A mapping succeeds if its offset is a multiple of the page size and its length is positive and not beyond
a limit; it holds the bytes of the file from its offset on. An access behind its length fails. The file
could be opened, and its size is an `off_t` that is not negative.
-/

namespace Hseos.Mmap

/-- What `main` has passed to `put_char` and printed. From a call without a defined result on there is no
parser, but the bytes are passed on. -/
structure Reading where
  parser : Except Fault (Parser × ℤ)
  passed : List (BitVec 8)
  printed : List ℤ

/-- `parser` and `value` before the loops. -/
def Reading.start (value : ℤ) : Reading := ⟨.ok (.zero, value), [], []⟩

/-- One byte: `put_char`, and `printf` if it returned zero. -/
def Reading.put (reading : Reading) (c : BitVec 8) : Reading :=
  let passed := reading.passed ++ [c]
  match reading.parser with
  | .error reason => ⟨.error reason, passed, reading.printed⟩
  | .ok (parser, value) =>
      match putChar parser c value with
      | .error reason => ⟨.error reason, passed, reading.printed⟩
      | .ok (ret, parser, value) =>
          ⟨.ok (parser, value), passed,
            if ret = 0 then reading.printed ++ [value] else reading.printed⟩

/-- `mmap` of `length` bytes of the file from `offset` on: the length of the mapping. -/
def mmapFile (pageSize limit length offset : ℕ) : Option ℕ :=
  if offset % pageSize = 0 ∧ 0 < length ∧ length ≤ limit then some length else none

/-- The loop that looks for `block_size`. -/
def probeBlockSize (pageSize limit size : ℕ) : ℕ → ℕ → Except Fault ℕ
  | 0, _ => .error .outOfFuel
  | fuel + 1, blockSize =>
      if blockSize < size then
        let nextBlockSize := wordAdd 64 blockSize pageSize
        let nextBlockSize := if nextBlockSize > size then size else nextBlockSize
        match mmapFile pageSize limit nextBlockSize 0 with
        | none => .ok blockSize
        | some _ => probeBlockSize pageSize limit size fuel nextBlockSize
      else .ok blockSize

/-- `mem[i]`; there is no access through `MAP_FAILED`. -/
def readMapping (file : List (BitVec 8)) (mapping : Option ℕ) (offset i : ℕ) : Except Fault (BitVec 8) :=
  match mapping with
  | none => .error .outOfBounds
  | some length => if i < length then .ok (file.getD (offset + i) 0) else .error .outOfBounds

/-- The inner loop, from `i` on. -/
def passMapping (file : List (BitVec 8)) (mapping : Option ℕ) (offset : ℕ) :
    ℕ → ℕ → Reading → Except Fault Reading
  | 0, _, _ => .error .outOfFuel
  | fuel + 1, i, reading =>
      if i < file.length then do
        let c ← readMapping file mapping offset i
        passMapping file mapping offset fuel (wordAdd 64 i 1) (reading.put c)
      else .ok reading

/-- The outer loop, from `sz` on. -/
def passBlocks (pageSize limit : ℕ) (file : List (BitVec 8)) :
    ℕ → ℕ → ℕ → Reading → Except Fault Reading
  | 0, _, _, _ => .error .outOfFuel
  | fuel + 1, sz, blockSize, reading =>
      if sz < file.length then do
        let rest := wordSub 64 file.length sz
        let blockSize := if rest < blockSize then rest else blockSize
        let mapping := mmapFile pageSize limit blockSize sz
        let reading ← passMapping file mapping sz (file.length + 1) 0 reading
        passBlocks pageSize limit file fuel (wordAdd 64 sz blockSize) blockSize reading
      else .ok reading

/-- `main` behind the opening of the file, with what `value` holds before. -/
def decodeFile (pageSize limit : ℕ) (file : List (BitVec 8)) (value : ℤ) : Except Fault Reading := do
  let blockSize ← probeBlockSize pageSize limit file.length (file.length + 1) 0
  passBlocks pageSize limit file (file.length + 1) 0 blockSize (.start value)

variable {pageSize limit size blockSize fuel i length : ℕ} {file : List (BitVec 8)} {reading : Reading}

theorem put_passed (reading : Reading) (c : BitVec 8) : (reading.put c).passed = reading.passed ++ [c] := by
  rw [Reading.put]
  split
  · rfl
  · split <;> rfl

theorem foldl_put_passed (bytes : List (BitVec 8)) (reading : Reading) :
    (bytes.foldl Reading.put reading).passed = reading.passed ++ bytes := by
  induction bytes generalizing reading with
  | nil => exact (List.append_nil _).symm
  | cons c rest ih => rw [List.foldl_cons, ih, put_passed, List.append_assoc, List.singleton_append]

/-- As long as `put_char` has defined results, what is printed are the values of its answers. -/
theorem foldl_put_feed {bytes : List (BitVec 8)} {parser last : Parser} {value res : ℤ}
    {answers : List (ℤ × ℤ)} (holds : reading.parser = .ok (parser, value))
    (fed : feed parser value bytes = .ok (answers, last, res)) :
    (bytes.foldl Reading.put reading).parser = .ok (last, res) ∧
      (bytes.foldl Reading.put reading).printed = reading.printed ++ printed answers := by
  induction bytes generalizing reading parser value answers with
  | nil =>
    cases fed
    exact ⟨holds, (List.append_nil _).symm⟩
  | cons c rest ih =>
    rw [feed] at fed
    obtain ⟨⟨ret, parser', value'⟩, put, fed⟩ := ok_of_bind fed
    obtain ⟨⟨answers', last', res'⟩, fed, same⟩ := ok_of_bind fed
    cases same
    have parsers : (reading.put c).parser = .ok (parser', value') := by
      simp only [Reading.put, holds, put]
    have lines : (reading.put c).printed =
        if ret = 0 then reading.printed ++ [value'] else reading.printed := by
      simp only [Reading.put, holds, put]
    obtain ⟨last, all⟩ := ih parsers fed
    rw [List.foldl_cons, all, lines]
    refine ⟨last, ?_⟩
    by_cases zero : ret = 0 <;> simp [printed, zero]

section Probe

variable (positive : 0 < pageSize) (page : pageSize < 2 ^ 31) (word : size < 2 ^ 63)
include positive page word

/-- A file within the limit is mapped in one block. -/
theorem probeBlockSize_fits (fits : size ≤ limit) (inside : blockSize ≤ size)
    (enough : size - blockSize < fuel) : probeBlockSize pageSize limit size fuel blockSize = .ok size := by
  induction fuel generalizing blockSize with
  | zero => omega
  | succ fuel ih =>
    by_cases more : blockSize < size
    · have next : wordAdd 64 blockSize pageSize = blockSize + pageSize := wordAdd_of_lt (by omega)
      rw [probeBlockSize, if_pos more]
      simp only [next]
      generalize taken : (if blockSize + pageSize > size then size else blockSize + pageSize) = step
      have bounds : blockSize < step ∧ step ≤ size := by
        rw [← taken]
        split <;> omega
      rw [mmapFile, if_pos ⟨Nat.zero_mod _, by omega, by omega⟩]
      exact ih bounds.2 (by omega)
    · rw [probeBlockSize, if_neg more]
      congr 1
      omega

/-- For a longer file the block is shorter than the file. -/
theorem probeBlockSize_exceeds (least : pageSize ≤ limit) (exceeds : limit < size)
    (inside : blockSize ≤ limit) (enough : size - blockSize < fuel) :
    ∃ found, probeBlockSize pageSize limit size fuel blockSize = .ok found ∧ 0 < found ∧ found ≤ limit := by
  induction fuel generalizing blockSize with
  | zero => omega
  | succ fuel ih =>
    have next : wordAdd 64 blockSize pageSize = blockSize + pageSize := wordAdd_of_lt (by omega)
    rw [probeBlockSize, if_pos (by omega)]
    simp only [next]
    generalize taken : (if blockSize + pageSize > size then size else blockSize + pageSize) = step
    have shorter : step = min size (blockSize + pageSize) := by
      rw [← taken]
      split <;> omega
    by_cases fits : step ≤ limit
    · rw [mmapFile, if_pos ⟨Nat.zero_mod _, by omega, fits⟩]
      exact ih fits (by omega)
    · rw [mmapFile, if_neg fun mapped => fits mapped.2.2]
      exact ⟨blockSize, rfl, by omega, inside⟩

end Probe

section Pass

variable (word : file.length < 2 ^ 63)
include word

/-- In a mapping of the whole file the inner loop passes each byte on. -/
theorem passMapping_whole (inside : i ≤ file.length) (enough : file.length - i < fuel) :
    passMapping file (some file.length) 0 fuel i reading =
      .ok ((file.drop i).foldl Reading.put reading) := by
  induction fuel generalizing i reading with
  | zero => omega
  | succ fuel ih =>
    by_cases more : i < file.length
    · have next : wordAdd 64 i 1 = i + 1 := wordAdd_of_lt (by omega)
      rw [passMapping, if_pos more, readMapping, if_pos more, ok_bind, next, ih more (by omega),
        List.drop_eq_getElem_cons more, List.foldl_cons, Nat.zero_add, List.getD_eq_getElem _ _ more]
    · rw [passMapping, if_neg more, List.drop_of_length_le (by omega)]
      rfl

/-- In a shorter mapping the inner loop runs behind the end. -/
theorem passMapping_short (short : length < file.length) (inside : i ≤ length)
    (enough : length - i < fuel) :
    passMapping file (some length) 0 fuel i reading = .error .outOfBounds := by
  induction fuel generalizing i reading with
  | zero => omega
  | succ fuel ih =>
    rw [passMapping, if_pos (by omega)]
    by_cases more : i < length
    · have next : wordAdd 64 i 1 = i + 1 := wordAdd_of_lt (by omega)
      rw [readMapping, if_pos more, ok_bind, next]
      exact ih more (by omega)
    · rw [readMapping, if_neg more]
      rfl

end Pass

section Decode

variable (positive : 0 < pageSize) (page : pageSize < 2 ^ 31) (word : file.length < 2 ^ 63) (value : ℤ)
include positive page word

theorem decodeFile_fits (fits : file.length ≤ limit) :
    decodeFile pageSize limit file value = .ok (file.foldl Reading.put (.start value)) := by
  rw [decodeFile, probeBlockSize_fits positive page word fits (Nat.zero_le _) (by omega), ok_bind, passBlocks]
  by_cases more : 0 < file.length
  · have rest : wordSub 64 file.length 0 = file.length := wordSub_of_le (by omega) (Nat.zero_le _)
    have stop : wordAdd 64 0 file.length = file.length := (wordAdd_of_lt (by omega)).trans (Nat.zero_add _)
    have whole : mmapFile pageSize limit file.length 0 = some file.length :=
      if_pos ⟨Nat.zero_mod _, more, fits⟩
    simp only [if_pos more, rest, lt_irrefl, if_false, whole, stop]
    rw [passMapping_whole word (Nat.zero_le _) (by omega), ok_bind]
    obtain ⟨fuel, enough⟩ := Nat.exists_eq_add_of_le' more
    rw [enough, passBlocks, if_neg (by omega)]
    rfl
  · have empty : file = [] := List.length_eq_zero_iff.mp (by omega)
    rw [if_neg more, empty]
    rfl

theorem decodeFile_exceeds (least : pageSize ≤ limit) (exceeds : limit < file.length) :
    decodeFile pageSize limit file value = .error .outOfBounds := by
  obtain ⟨found, probed, nonempty, inside⟩ := probeBlockSize_exceeds positive page word least exceeds
    (Nat.zero_le _) (show file.length - 0 < file.length + 1 by omega)
  have rest : wordSub 64 file.length 0 = file.length := wordSub_of_le (by omega) (Nat.zero_le _)
  have mapped : mmapFile pageSize limit found 0 = some found :=
    if_pos ⟨Nat.zero_mod _, nonempty, inside⟩
  rw [decodeFile, probed, ok_bind, passBlocks, if_pos (by omega)]
  simp only [rest, if_neg (show ¬file.length < found by omega), mapped]
  rw [passMapping_short word (by omega) (Nat.zero_le _) (by omega)]
  rfl

end Decode

/-- For every file, page size and limit: all accesses are within their mappings and the bytes passed to
`put_char` are those of the file, in order, if and only if the file fits in one mapping. -/
theorem decode_file_iff (pageSize limit : ℕ) (file : List (BitVec 8)) (value : ℤ) (positive : 0 < pageSize)
    (page : pageSize < 2 ^ 31) (least : pageSize ≤ limit) (word : file.length < 2 ^ 63) :
    (∃ reading, decodeFile pageSize limit file value = .ok reading ∧ reading.passed = file) ↔
      file.length ≤ limit := by
  constructor
  · rintro ⟨reading, decoded, _⟩
    by_contra exceeds
    rw [decodeFile_exceeds positive page word value least (by omega)] at decoded
    cases decoded
  · intro fits
    refine ⟨_, decodeFile_fits positive page word value fits, ?_⟩
    rw [foldl_put_passed]
    rfl

/-- Two pages of two bytes in a mapping of three bytes. -/
theorem decode_file_fits_three :
    ∃ reading, decodeFile 2 3 [0xe5, 0x8e, 0x26] 0 = .ok reading ∧ reading.passed = [0xe5, 0x8e, 0x26] :=
  (decode_file_iff 2 3 [0xe5, 0x8e, 0x26] 0 (by decide) (by decide) (by decide) (by decide)).mpr (by decide)

/-- With mappings of a page of two bytes at most, the third byte is read behind the end. -/
theorem decode_file_exceeds_three : decodeFile 2 2 [0xe5, 0x8e, 0x26] 0 = .error .outOfBounds := rfl

end Hseos.Mmap
