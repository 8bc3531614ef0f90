import Hseos.Lib.Family
import Hseos.Sample2.Requests

/-! # The vector is a list of blocks

The heap block of a vector starts with the elements that were pushed, one after the other. Reallocation
keeps them, and leaves the blocks of the other vectors alone.
-/

namespace Hseos.Sample2

variable {α : Type*} {heap heap' : Heap α} {v v' v'' : VectorT} {pushed : List (List α)}

/-- The block of a vector starts with these elements; a vector without a block has room for none. -/
inductive VectorT.Stores (heap : Heap α) (v : VectorT) (pushed : List (List α)) : Prop
  | null (memory : v.memory = none) (empty : v.capacity = 0)
  | block {b : ℕ} {bytes : List α} (memory : v.memory = some b) (live : heap.block b = some bytes)
      (length : bytes.length = v.capacity * v.elementSize)
      (start : bytes.take (v.size * v.elementSize) = pushed.flatten)

/-- The vector is the list of these elements. -/
structure VectorT.Represents (heap : Heap α) (v : VectorT) (pushed : List (List α)) : Prop where
  positive : 1 ≤ v.elementSize
  size : v.size = pushed.length
  room : v.size ≤ v.capacity
  small : v.capacity * v.elementSize < 2 ^ 64
  uniform : ∀ e ∈ pushed, e.length = v.elementSize
  stores : v.Stores heap pushed

/-- A call for one vector keeps all blocks but its own, and takes none of them. -/
def Untouched (heap : Heap α) (v : VectorT) (heap' : Heap α) (v' : VectorT) : Prop :=
  ∀ b bytes, heap.block b = some bytes → v.memory ≠ some b →
    heap'.block b = some bytes ∧ v'.memory ≠ some b

theorem Untouched.refl : Untouched heap v heap v := fun _ _ live other => ⟨live, other⟩

theorem Untouched.trans {heap'' : Heap α} (first : Untouched heap v heap' v')
    (second : Untouched heap' v' heap'' v'') : Untouched heap v heap'' v'' := by
  intro b bytes live other
  obtain ⟨live', other'⟩ := first b bytes live other
  exact second b bytes live' other'

namespace VectorT.Represents

theorem make {elementSize : ℕ} (positive : 1 ≤ elementSize) :
    (makeVector elementSize).Represents heap ([] : List (List α)) :=
  ⟨positive, rfl, le_rfl, by simp [makeVector], nofun, .null rfl rfl⟩

/-- A `reserve` that needs more room than there is. -/
theorem reserve_more (garbage : ℕ → α) {capacity : ℕ} (represents : v.Represents heap pushed)
    (more : v.capacity < max capacity 1) (fits : max capacity 1 * v.elementSize < 2 ^ 64) :
    ∃ heap', Sample2.reserve (some garbage) v capacity heap =
        .ok ({ v with memory := some heap.next, capacity := max capacity 1 }, heap') ∧
      Represents heap' { v with memory := some heap.next, capacity := max capacity 1 } pushed ∧
      Untouched heap v heap' { v with memory := some heap.next, capacity := max capacity 1 } := by
  have product : wordMul 64 (max capacity 1) v.elementSize = max capacity 1 * v.elementSize :=
    wordMul_of_lt fits
  have larger : v.capacity * v.elementSize ≤ max capacity 1 * v.elementSize :=
    Nat.mul_le_mul_right _ more.le
  obtain ⟨positive, size, room, small, uniform, stores⟩ := represents
  simp only [Sample2.reserve, ite_lt_one, if_neg (Nat.not_le_of_lt more), product]
  cases stores with
  | null memory empty =>
    have none : v.size = 0 := Nat.le_zero.mp (empty ▸ room)
    obtain rfl : pushed = [] := List.eq_nil_of_length_eq_zero (size ▸ none)
    refine ⟨_, by rw [memory]; rfl, ⟨positive, size, room.trans more.le, fits, uniform, ?_⟩, ?_⟩
    · exact .block rfl Heap.block_insert (Heap.length_fill ..) (by simp [none])
    · intro b bytes live other
      have apart := Heap.ne_next live
      refine ⟨(Heap.block_insert_of_ne apart).trans live, ?_⟩
      intro same
      exact apart (Option.some.inj same).symm
  | @block b bytes memory live length start =>
    have need : 0 < max capacity 1 * v.elementSize := Nat.mul_pos (Nat.zero_lt_of_lt more) positive
    obtain ⟨heap', new, moved, live', length', kept, others⟩ :=
      Heap.realloc_grow garbage live (length ▸ larger) need
    refine ⟨heap', ?_, ⟨positive, size, room.trans more.le, fits, uniform, ?_⟩, ?_⟩
    · simp only [memory, moved]
      rfl
    · have inside : v.size * v.elementSize ≤ bytes.length := by
        rw [length]
        exact Nat.mul_le_mul_right _ room
      refine .block rfl live' length' ?_
      rw [← start, ← kept, List.take_take, Nat.min_eq_left inside]
    · intro c content liveC other
      have apart := Heap.ne_next liveC
      have notOld : c ≠ b := by
        rintro rfl
        exact other memory
      refine ⟨(others c notOld apart).trans liveC, ?_⟩
      intro same
      exact apart (Option.some.inj same).symm

/-- `reserve` has room for the capacity, and keeps the elements. -/
theorem reserve (garbage : ℕ → α) {capacity : ℕ} (represents : v.Represents heap pushed)
    (fits : max capacity 1 * v.elementSize < 2 ^ 64) :
    ∃ v' heap', Sample2.reserve (some garbage) v capacity heap = .ok (v', heap') ∧
      v'.Represents heap' pushed ∧ Untouched heap v heap' v' ∧ v'.elementSize = v.elementSize ∧
      v'.size = v.size ∧ v.capacity ≤ v'.capacity ∧ max capacity 1 ≤ v'.capacity := by
  rcases Nat.lt_or_ge v.capacity (max capacity 1) with more | room
  · obtain ⟨heap', grown, represents', untouched⟩ := represents.reserve_more garbage more fits
    exact ⟨_, heap', grown, represents', untouched, rfl, rfl, more.le, le_rfl⟩
  · refine ⟨v, heap, ?_, represents, .refl, rfl, rfl, le_rfl, room⟩
    exact reserve_of_room room

/-- `get_ith` of an element, or of the first free place, is an offset into the block. -/
theorem getIth_eq (represents : v.Represents heap pushed) {b i : ℕ} (memory : v.memory = some b)
    (bound : i ≤ v.capacity) : v.getIth i = ⟨some b, v.elementSize * i⟩ := by
  have inside : v.elementSize * i ≤ v.capacity * v.elementSize := by
    rw [Nat.mul_comm]
    exact Nat.mul_le_mul_right _ bound
  rw [getIth, memory, wordMul_of_lt (inside.trans_lt represents.small)]

/-- A vector that is full grows before it is pushed to. -/
theorem ready (garbage : ℕ → α) (represents : v.Represents heap pushed)
    (fits : v.size = v.capacity → max (2 * v.capacity) 1 * v.elementSize < 2 ^ 64) :
    ∃ v' heap', makeRoom (some garbage) v heap = .ok (v', heap') ∧
      v'.Represents heap' pushed ∧ Untouched heap v heap' v' ∧ v'.elementSize = v.elementSize ∧
      v.capacity ≤ v'.capacity ∧ v'.size < v'.capacity := by
  rw [makeRoom]
  split_ifs with full
  · have product := fits full
    have twice : 2 * v.capacity < 2 ^ 64 := by
      have := Nat.le_mul_of_pos_right (max (2 * v.capacity) 1) represents.positive
      omega
    rw [wordMul_two twice]
    obtain ⟨v', heap', reserved, represents', untouched, elementSize, size, more, room⟩ :=
      represents.reserve garbage product
    exact ⟨v', heap', reserved, represents', untouched, elementSize, more, by omega⟩
  · exact ⟨v, heap, rfl, represents, .refl, rfl, le_rfl, represents.room.lt_of_ne full⟩

/-- A copy to the first free place appends an element. -/
theorem append {element : List α} (represents : v.Represents heap pushed)
    (whole : element.length = v.elementSize) (room : v.size < v.capacity) :
    ∃ heap', heap.memcpy (v.getIth v.size) element v.elementSize = .ok heap' ∧
      Represents heap' { v with size := wordAdd 64 v.size 1 } (pushed ++ [element]) ∧
      Untouched heap v heap' { v with size := wordAdd 64 v.size 1 } := by
  cases represents.stores with
  | null _ empty => omega
  | @block b bytes memory live length start =>
    have fits : v.elementSize * v.size + element.length ≤ bytes.length := by
      rw [length, whole, ← Nat.mul_succ, Nat.mul_comm]
      exact Nat.mul_le_mul_right _ room
    have copied := Heap.memcpy_inside live fits
    rw [whole, ← represents.getIth_eq memory room.le] at copied
    have next : wordAdd 64 v.size 1 = v.size + 1 := by
      have := Nat.le_mul_of_pos_right v.capacity represents.positive
      have := represents.small
      exact wordAdd_of_lt (by omega)
    rw [next]
    refine ⟨_, copied, ⟨represents.positive, ?_, room, represents.small, ?_, ?_⟩, ?_⟩
    · simp [represents.size]
    · intro e member
      rcases List.mem_append.mp member with old | new
      · exact represents.uniform e old
      · rw [List.mem_singleton.mp new]
        exact whole
    · refine .block memory (Heap.block_set _) ?_ ?_
      · rw [Heap.length_overwrite fits]
        exact length
      · have upTo : (v.size + 1) * v.elementSize = v.elementSize * v.size + element.length := by
          rw [whole, Nat.succ_mul, Nat.mul_comm]
        rw [upTo, Heap.take_overwrite (by omega), Nat.mul_comm, start]
        simp
    · intro c content liveC other
      have apart : c ≠ b := by
        rintro rfl
        exact other memory
      exact ⟨(Heap.block_set_of_ne _ apart).trans liveC, other⟩

/-- `push_back` writes inside of the block, and appends the element. -/
theorem pushBack (garbage : ℕ → α) {element : List α} (represents : v.Represents heap pushed)
    (whole : element.length = v.elementSize)
    (fits : v.size = v.capacity → max (2 * v.capacity) 1 * v.elementSize < 2 ^ 64) :
    ∃ v' heap', Sample2.pushBack (some garbage) v element heap = .ok (v', heap') ∧
      v'.Represents heap' (pushed ++ [element]) ∧ Untouched heap v heap' v' ∧
      v'.elementSize = v.elementSize ∧ v.capacity ≤ v'.capacity := by
  obtain ⟨grown, heap₁, ready, represents₁, untouched₁, elementSize, more, room⟩ :=
    represents.ready garbage fits
  obtain ⟨heap₂, copied, represents₂, untouched₂⟩ :=
    represents₁.append (whole.trans elementSize.symm) room
  refine ⟨_, heap₂, ?_, represents₂, untouched₁.trans untouched₂, elementSize, more⟩
  rw [pushBack_makeRoom, ready]
  simp only [ok_bind, copied]

end VectorT.Represents

/-- A call for another vector changes nothing. -/
theorem VectorT.Represents.frame {w w' : VectorT} (represents : v.Represents heap pushed)
    (untouched : Untouched heap w heap' w')
    (apart : ∀ b, v.memory = some b → w.memory ≠ some b) :
    v.Represents heap' pushed ∧ ∀ b, v.memory = some b → w'.memory ≠ some b := by
  obtain ⟨positive, size, room, small, uniform, stores⟩ := represents
  cases stores with
  | null memory empty =>
    refine ⟨⟨positive, size, room, small, uniform, .null memory empty⟩, ?_⟩
    intro b same
    cases memory.symm.trans same
  | @block b bytes memory live length start =>
    obtain ⟨live', apart'⟩ := untouched b bytes live (apart b memory)
    refine ⟨⟨positive, size, room, small, uniform, .block memory live' length start⟩, ?_⟩
    intro c same
    obtain rfl : b = c := Option.some.inj (memory.symm.trans same)
    exact apart'

variable {ι : Type*} [DecidableEq ι] {s s' : Vectors ι α} {a : VectorCall ι α} {k : ι}

namespace Vectors

/-- Every vector is its list, and no two of them share a block. -/
structure Refines (s : Vectors ι α) : Prop where
  represents : ∀ k, (s.vector k).Represents s.heap (s.pushed k)
  apart : ∀ k l, k ≠ l → ∀ b, (s.vector k).memory = some b → (s.vector l).memory ≠ some b

/-- The vector of a call represents its list afterwards. -/
theorem Refines.set (refines : s.Refines) (result : VectorT × Heap α) {list : List (List α)}
    (represents : result.1.Represents result.2 list)
    (untouched : Untouched s.heap (s.vector k) result.2 result.1) :
    Refines { s.set k result with pushed := Function.update s.pushed k list } := by
  have others (l : ι) (other : l ≠ k) :=
    (refines.represents l).frame untouched (refines.apart l k other)
  have vector (l : ι) (other : l ≠ k) : Function.update s.vector k result.1 l = s.vector l :=
    Function.update_of_ne other ..
  have self : Function.update s.vector k result.1 k = result.1 := Function.update_self ..
  constructor
  · intro l
    simp only [Vectors.set]
    rcases eq_or_ne l k with rfl | other
    · rwa [self, Function.update_self]
    · rw [vector l other, Function.update_of_ne other]
      exact (others l other).1
  · intro l m distinct b
    simp only [Vectors.set]
    rcases eq_or_ne l k with rfl | first
    · rw [self, vector m distinct.symm]
      exact fun same another => (others m distinct.symm).2 b another same
    · rw [vector l first]
      rcases eq_or_ne m k with rfl | second
      · rw [self]
        exact (others l first).2 b
      · rw [vector m second]
        exact refines.apart l m distinct b

omit [DecidableEq ι] in
theorem capacity_update [DecidableEq ι] {result : VectorT}
    (more : (s.vector k).capacity ≤ result.capacity) (l : ι) :
    (s.vector l).capacity ≤ (Function.update s.vector k result l).capacity :=
  forall_update_all (P := fun l (v : VectorT) => (s.vector l).capacity ≤ v.capacity) more (fun _ => le_rfl) l

/-- A call whose allocations succeed does not fail, and keeps the refinement. -/
theorem Refines.call (refines : s.Refines) (fits : s.Fits a) :
    ∃ s', s.call a = .ok s' ∧ s'.Refines ∧
      ∀ k, (∀ elementSize, a ≠ .makeVector k elementSize) →
        (s.vector k).capacity ≤ (s'.vector k).capacity := by
  cases a with
  | makeVector k elementSize =>
    refine ⟨_, rfl, refines.set _ (.make fits) fun _ _ live _ => ⟨live, nofun⟩, ?_⟩
    intro l other
    have apart : l ≠ k := by
      rintro rfl
      exact other elementSize rfl
    exact le_of_eq (congrArg VectorT.capacity (Function.update_of_ne apart ..)).symm
  | reserve k capacity garbage =>
    obtain ⟨allocates, product⟩ := fits
    obtain ⟨garbage, rfl⟩ := Option.isSome_iff_exists.mp allocates
    obtain ⟨v, heap, reserved, represents, untouched, -, -, more, -⟩ :=
      (refines.represents k).reserve garbage product
    refine ⟨s.set k (v, heap), ?_, ?_, fun l _ => capacity_update more l⟩
    · simp only [Vectors.call, reserved]
      rfl
    · have kept := refines.set (v, heap) represents untouched
      rwa [Function.update_eq_self] at kept
  | pushBack k element garbage =>
    obtain ⟨allocates, whole, product⟩ := fits
    obtain ⟨garbage, rfl⟩ := Option.isSome_iff_exists.mp allocates
    obtain ⟨v, heap, pushed, represents, untouched, -, more⟩ :=
      (refines.represents k).pushBack garbage whole product
    refine ⟨_, ?_, refines.set (v, heap) represents untouched,
      fun l _ => capacity_update more l⟩
    simp only [Vectors.call, pushed]
    rfl
  | getIth k i => exact ⟨s, rfl, refines, fun _ _ => le_rfl⟩

end Vectors

theorem VectorT.Represents.blockSize (represents : v.Represents heap pushed) :
    heap.blockSize v.memory = v.capacity * v.elementSize := by
  cases represents.stores with
  | null memory empty =>
    rw [memory, empty, Nat.zero_mul]
    rfl
  | block memory live length =>
    rw [memory, ← length]
    simp [Heap.blockSize, live]

/-- `push_back` with an allocation that finds zeros. -/
def push (element : List ℕ) : VectorCall Unit ℕ := .pushBack () element (some fun _ => 0)

end Hseos.Sample2
