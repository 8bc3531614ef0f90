import Hseos.Lib.Word
import Mathlib.Logic.Function.Basic
import Mathlib.Tactic.Ring

/-! # A heap of blocks

Live blocks are lists of bytes under numbers that are never used again, so a pointer into a block that was
freed or moved is never mistaken for one into a later block. `malloc` and `realloc` fail where the
environment says so, and leave the bytes they add to the environment. An access outside of a live block, a
`realloc` or a `free` of a block that is not live, and an access through a null pointer are failures.
-/

namespace Hseos

variable {α : Type*}

/-- The live blocks and the next number; no block of this number or a larger one has been allocated. -/
structure Heap (α : Type*) where
  block : ℕ → Option (List α)
  next : ℕ
  unused : ∀ b, next ≤ b → block b = none

/-- A block and an offset into it; the block of the null pointer is none. -/
structure Pointer where
  block : Option ℕ
  offset : ℕ
deriving DecidableEq

namespace Pointer

/-- `p + n`. -/
def add (p : Pointer) (n : ℕ) : Pointer := ⟨p.block, p.offset + n⟩

/-- `p + d` for a signed distance, which must not lead in front of the block. -/
def move (p : Pointer) (d : ℤ) : Except Fault Pointer :=
  if 0 ≤ p.offset + d then .ok ⟨p.block, (p.offset + d).toNat⟩ else .error .outOfBounds

/-- `p - q`, for pointers into one block. -/
def distance (p q : Pointer) : Except Fault ℤ :=
  if p.block = q.block then .ok (p.offset - q.offset) else .error .outOfBounds

theorem add_injective (p : Pointer) : Function.Injective p.add := by
  intro m n same
  exact Nat.add_left_cancel (congrArg Pointer.offset same)

theorem move_add {p : Pointer} {i j : ℕ} {d : ℤ} (leads : (j : ℤ) = i + d) :
    (p.add i).move d = .ok (p.add j) := by
  have place : ((p.add i).offset : ℤ) + d = (p.offset + j : ℕ) := by
    rw [add]
    push_cast
    rw [leads, add_assoc]
  rw [move, place, if_pos (Int.natCast_nonneg _), Int.toNat_natCast]
  rfl

theorem distance_add (p : Pointer) (n : ℕ) : (p.add n).distance p = .ok n := by
  rw [distance, add, if_pos rfl]
  congr 1
  push_cast
  ring

end Pointer

namespace Heap

/-- No block is live. -/
def empty : Heap α := ⟨fun _ => none, 0, fun _ _ => rfl⟩

/-- Bytes that nobody has written. -/
def fill (garbage : ℕ → α) (size : ℕ) : List α := (List.range size).map garbage

@[simp] theorem length_fill (garbage : ℕ → α) (size : ℕ) : (fill garbage size).length = size := by
  simp [fill]

/-- The heap with one more block. -/
def insert (bytes : List α) (h : Heap α) : Heap α where
  block := Function.update h.block h.next (some bytes)
  next := h.next + 1
  unused b above := by
    rw [Function.update_of_ne (by omega)]
    exact h.unused b (by omega)

/-- The heap with other bytes in a block, or without the block. -/
def set (b : ℕ) (bytes : Option (List α)) (h : Heap α) (used : b < h.next) : Heap α where
  block := Function.update h.block b bytes
  next := h.next
  unused c above := by
    rw [Function.update_of_ne (by omega)]
    exact h.unused c above

theorem used {h : Heap α} {b : ℕ} {bytes : List α} (live : h.block b = some bytes) : b < h.next := by
  by_contra above
  rw [h.unused b (Nat.le_of_not_lt above)] at live
  cases live

/-- A live block is not the next one. -/
theorem ne_next {h : Heap α} {b : ℕ} {bytes : List α} (live : h.block b = some bytes) : b ≠ h.next :=
  (used live).ne

/-- `malloc`, which finds these bytes in the new block or fails. -/
def malloc (garbage : Option (ℕ → α)) (size : ℕ) (h : Heap α) : Option ℕ × Heap α :=
  match garbage with
  | none => (none, h)
  | some garbage => (some h.next, h.insert (fill garbage size))

/-- `free`. -/
def free (b : Option ℕ) (h : Heap α) : Except Fault (Heap α) :=
  match b with
  | none => .ok h
  | some b =>
    match live : h.block b with
    | none => .error .outOfBounds
    | some _ => .ok (h.set b none (used live))

/-- `realloc` of a block that is not null, which keeps the bytes that fit and moves. For the size zero
it frees the block. -/
def realloc (garbage : Option (ℕ → α)) (b size : ℕ) (h : Heap α) :
    Except Fault (Option ℕ × Heap α) :=
  match live : h.block b with
  | none => .error .outOfBounds
  | some bytes =>
    if size = 0 then .ok (none, h.set b none (used live))
    else
      match garbage with
      | none => .ok (none, h)
      | some garbage =>
        .ok (some h.next,
          (h.set b none (used live)).insert (bytes.take size ++ (fill garbage size).drop bytes.length))

/-- The bytes from a pointer on. -/
def read (p : Pointer) (size : ℕ) (h : Heap α) : Except Fault (List α) :=
  match p.block with
  | none => .error .nullPointer
  | some b =>
    match h.block b with
    | none => .error .outOfBounds
    | some bytes =>
      if p.offset + size ≤ bytes.length then .ok ((bytes.drop p.offset).take size)
      else .error .outOfBounds

/-- `*p`. -/
def load (p : Pointer) (h : Heap α) : Except Fault α :=
  match p.block with
  | none => .error .nullPointer
  | some b =>
    match (h.block b).bind fun cells => cells[p.offset]? with
    | none => .error .outOfBounds
    | some cell => .ok cell

/-- The bytes behind a pointer to a block, none behind the null pointer. -/
def blockSize (b : Option ℕ) (h : Heap α) : ℕ := ((b.bind h.block).map List.length).getD 0

/-- The bytes of a block with some of them replaced. -/
def overwrite (bytes : List α) (offset : ℕ) (new : List α) : List α :=
  bytes.take offset ++ new ++ bytes.drop (offset + new.length)

/-- `memcpy` of `size` bytes from these to a pointer. -/
def memcpy (p : Pointer) (source : List α) (size : ℕ) (h : Heap α) : Except Fault (Heap α) :=
  match p.block with
  | none => .error .nullPointer
  | some b =>
    match live : h.block b with
    | none => .error .outOfBounds
    | some bytes =>
      if size ≤ source.length ∧ p.offset + size ≤ bytes.length then
        .ok (h.set b (some (overwrite bytes p.offset (source.take size))) (used live))
      else .error .outOfBounds

variable {h : Heap α} {b c size offset : ℕ} {bytes new : List α}

@[simp] theorem block_insert : (h.insert bytes).block h.next = some bytes := Function.update_self ..

theorem block_insert_of_ne (other : b ≠ h.next) : (h.insert bytes).block b = h.block b :=
  Function.update_of_ne other ..

@[simp] theorem block_set {bytes : Option (List α)} (used : b < h.next) :
    (h.set b bytes used).block b = bytes := Function.update_self ..

theorem block_set_of_ne {bytes : Option (List α)} (used : b < h.next) (other : c ≠ b) :
    (h.set b bytes used).block c = h.block c := Function.update_of_ne other ..

theorem length_overwrite (fits : offset + new.length ≤ bytes.length) :
    (overwrite bytes offset new).length = bytes.length := by
  simp [overwrite]
  omega

/-- The bytes up to the end of an overwritten part. -/
theorem take_overwrite (fits : offset ≤ bytes.length) :
    (overwrite bytes offset new).take (offset + new.length) = bytes.take offset ++ new := by
  rw [overwrite]
  apply List.take_left'
  simp [fits]

/-- The size of an array of elements of one size. -/
theorem length_flatten {elements : List (List α)} {elementSize : ℕ}
    (uniform : ∀ e ∈ elements, e.length = elementSize) :
    elements.flatten.length = elements.length * elementSize := by
  induction elements with
  | nil => exact (Nat.zero_mul _).symm
  | cons e rest ih =>
    rw [List.flatten_cons, List.length_append, uniform e List.mem_cons_self,
      ih fun f member => uniform f (List.mem_cons_of_mem e member), List.length_cons, Nat.succ_mul,
      Nat.add_comm]

/-- The elements of an array of elements of one size. -/
theorem take_drop_flatten {elements : List (List α)} {elementSize i : ℕ}
    (uniform : ∀ e ∈ elements, e.length = elementSize) (bound : i < elements.length) :
    (elements.flatten.drop (elementSize * i)).take elementSize = elements[i] := by
  induction elements generalizing i with
  | nil => cases bound
  | cons e rest ih =>
    have head : e.length = elementSize := uniform e List.mem_cons_self
    have tail := fun f member => uniform f (List.mem_cons_of_mem e member)
    rw [List.flatten_cons]
    cases i with
    | zero => exact List.take_left' head
    | succ i =>
      rw [Nat.mul_succ, Nat.add_comm, ← List.drop_drop, List.drop_left' head]
      exact ih tail (Nat.lt_of_succ_lt_succ bound)

/-- A block that grows keeps its bytes, has the new size and leaves the other blocks alone. -/
theorem realloc_grow (garbage : ℕ → α) (live : h.block b = some bytes) (grows : bytes.length ≤ size)
    (positive : 0 < size) :
    ∃ h' new, h.realloc (some garbage) b size = .ok (some h.next, h') ∧
      h'.block h.next = some new ∧ new.length = size ∧ new.take bytes.length = bytes ∧
      ∀ c ≠ b, c ≠ h.next → h'.block c = h.block c := by
  refine ⟨(h.set b none (used live)).insert (bytes.take size ++ (fill garbage size).drop bytes.length),
    bytes.take size ++ (fill garbage size).drop bytes.length, ?_, block_insert, ?_, ?_, ?_⟩
  · unfold realloc
    split
    · simp_all
    · rename_i bytes' live'
      obtain rfl : bytes = bytes' := Option.some.inj (live.symm.trans live')
      rw [if_neg positive.ne']
  · simp [grows]
  · rw [List.take_of_length_le grows]
    exact List.take_left' rfl
  · intro c other unused
    have apart : c ≠ (h.set b none (used live)).next := unused
    rw [block_insert_of_ne apart, block_set_of_ne _ other]

theorem free_live (live : h.block b = some bytes) :
    ∃ h', h.free (some b) = .ok h' ∧ h'.block = Function.update h.block b none := by
  unfold free
  split
  · cases ‹some b = none›
  · rename_i same
    cases same
    split
    · simp_all
    · exact ⟨_, rfl, rfl⟩

theorem free_block {h' : Heap α} (ran : h.free (some b) = .ok h') : h'.block b = none := by
  unfold free at ran
  split at ran
  · cases ‹some b = none›
  · rename_i same
    cases same
    split at ran
    · cases ran
    · cases ran
      exact block_set _

theorem malloc_blockSize (garbage : Option (ℕ → α)) (size : ℕ) (h : Heap α) :
    (h.malloc garbage size).2.blockSize (h.malloc garbage size).1 = if garbage.isSome then size else 0 := by
  cases garbage <;> simp [malloc, blockSize]

/-- Where it succeeds, `realloc` gives a block of the size it is asked for. -/
theorem realloc_blockSize (garbage : Option (ℕ → α)) (size : ℕ) (live : h.block b = some bytes) :
    ∃ memory h', h.realloc garbage b size = .ok (memory, h') ∧
      (h'.blockSize memory = if garbage.isSome then size else 0) ∧
      ∀ c, memory = some c → (h'.block c).isSome := by
  unfold realloc
  split
  · simp_all
  · rename_i bytes' live'
    rcases Nat.eq_zero_or_pos size with rfl | positive
    · exact ⟨none, _, if_pos rfl, by rw [ite_self]; rfl, nofun⟩
    · rw [if_neg positive.ne']
      cases garbage with
      | none => exact ⟨none, h, rfl, rfl, nofun⟩
      | some garbage =>
        have moved (new : List α) : ((h.set b none (used live')).insert new).block h.next = some new :=
          block_insert
        refine ⟨_, _, rfl, ?_, ?_⟩
        · simp [blockSize, moved]
          omega
        · rintro c ⟨⟩
          rw [moved]
          rfl

/-- A copy leaves the blocks and their sizes. -/
theorem memcpy_length {h' : Heap α} {p : Pointer} {source : List α} (ran : h.memcpy p source size = .ok h')
    (c : ℕ) : (h'.block c).map List.length = (h.block c).map List.length := by
  unfold memcpy at ran
  split at ran
  · cases ran
  · rename_i b block
    split at ran
    · cases ran
    · rename_i bytes live
      split_ifs at ran with fits
      · cases ran
        rcases eq_or_ne c b with rfl | other
        · rw [block_set, live, Option.map_some, Option.map_some,
            length_overwrite (by rw [List.length_take, Nat.min_eq_left fits.1]; exact fits.2)]
        · rw [block_set_of_ne _ other]

theorem memcpy_blockSize {h' : Heap α} {p : Pointer} {source : List α} (ran : h.memcpy p source size = .ok h')
    (block : Option ℕ) : h'.blockSize block = h.blockSize block := by
  cases block with
  | none => rfl
  | some c => simp only [blockSize, Option.bind_some, memcpy_length ran]

theorem memcpy_isSome {h' : Heap α} {p : Pointer} {source : List α} (ran : h.memcpy p source size = .ok h')
    (c : ℕ) : (h'.block c).isSome = (h.block c).isSome := by
  have same := congrArg Option.isSome (memcpy_length ran c)
  rwa [Option.isSome_map, Option.isSome_map] at same

/-- A copy inside a live block. -/
theorem memcpy_inside (live : h.block b = some bytes) (fits : offset + new.length ≤ bytes.length) :
    h.memcpy ⟨some b, offset⟩ new new.length =
      .ok (h.set b (some (overwrite bytes offset new)) (used live)) := by
  unfold memcpy
  dsimp only
  split
  · simp_all
  · rename_i bytes' live'
    obtain rfl : bytes = bytes' := Option.some.inj (live.symm.trans live')
    rw [if_pos ⟨le_rfl, fits⟩, List.take_length]

theorem read_inside (live : h.block b = some bytes) (fits : offset + size ≤ bytes.length) :
    h.read ⟨some b, offset⟩ size = .ok ((bytes.drop offset).take size) := by
  simp [read, live, fits]

theorem read_ok_iff {p : Pointer} {cells : List α} : h.read p size = .ok cells ↔
    ∃ b bytes, p.block = some b ∧ h.block b = some bytes ∧ p.offset + size ≤ bytes.length ∧
      (bytes.drop p.offset).take size = cells := by
  constructor
  · intro ran
    unfold read at ran
    split at ran
    · cases ran
    · split at ran
      · cases ran
      · split at ran
        · exact ⟨_, _, ‹_›, ‹_›, ‹_›, Except.ok.inj ran⟩
        · cases ran
  · rintro ⟨b, bytes, block, live, fits, rfl⟩
    rw [← read_inside live fits, ← block]

/-- What is read stays readable as long as its block is unchanged. -/
theorem read_of_kept {h' : Heap α} {p : Pointer} {cells : List α} (ran : h.read p size = .ok cells)
    (kept : ∀ b bytes, h.block b = some bytes → h'.block b = some bytes) : h'.read p size = .ok cells := by
  obtain ⟨b, bytes, block, live, fits, taken⟩ := read_ok_iff.mp ran
  exact read_ok_iff.mpr ⟨b, bytes, block, kept b bytes live, fits, taken⟩

/-- The cells that are read are those that are loaded one by one. -/
theorem load_of_read {p : Pointer} {cells : List α} {i : ℕ} (ran : h.read p size = .ok cells)
    (bound : i < size) : ∃ cell, cells[i]? = some cell ∧ h.load (p.add i) = .ok cell := by
  obtain ⟨b, bytes, block, live, fits, rfl⟩ := read_ok_iff.mp ran
  refine ⟨bytes[p.offset + i], ?_, ?_⟩
  · rw [List.getElem?_take_of_lt bound, List.getElem?_drop, List.getElem?_eq_getElem]
  · simp only [load, Pointer.add, block, live, Option.bind_some, List.getElem?_eq_getElem (show
      p.offset + i < bytes.length by omega)]

/-- A part of a block, told by the parts before and behind it. -/
theorem read_segment {before segment after : List α}
    (live : h.block b = some (before ++ segment ++ after)) :
    h.read ⟨some b, before.length⟩ segment.length = .ok segment := by
  rw [read_inside live (by simp)]
  congr 1
  rw [List.append_assoc, List.drop_left, List.take_left]

/-- A copy onto a part of a block. -/
theorem memcpy_segment {before segment after : List α}
    (live : h.block b = some (before ++ segment ++ after)) (same : segment.length = new.length) :
    h.memcpy ⟨some b, before.length⟩ new new.length =
      .ok (h.set b (some (before ++ new ++ after)) (used live)) := by
  have front : (before ++ segment ++ after).take before.length = before := by
    rw [List.append_assoc, List.take_left]
  have back : (before ++ segment ++ after).drop (before.length + new.length) = after := by
    rw [← same, ← List.length_append, List.drop_left]
  rw [memcpy_inside live (by simp; omega)]
  simp only [overwrite, front, back]

end Heap

end Hseos
