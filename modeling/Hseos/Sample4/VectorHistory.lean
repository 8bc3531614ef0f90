import Hseos.Sample4.HeaderVector

/-! # Histories of the vector

As long as every call finds the room it needs, the block is laid out as its header, the elements that were
pushed and the room that is left. The first call that needs more room hands the address of the variable to
`realloc`.
-/

namespace Hseos.Sample4

variable {heap : Memory} {s s' : Program} {b n size capacity elementSize : ℕ} {field : Field}
  {tail rest element : List (BitVec 8)}

section Header

theorem load_segment (before tail : List (BitVec 8))
    (live : heap.block b = some (before ++ numberBytes 8 n ++ tail)) (at_ : before.length = field.offset)
    (word : n < 2 ^ 64) : load (some b) field heap = .ok n := by
  have read := Heap.read_segment live
  rw [length_numberBytes, at_] at read
  rw [load, read]
  exact congrArg Except.ok (bytesNumber_numberBytes word)

theorem store_segment (field : Field) (before old tail : List (BitVec 8)) (n : ℕ)
    (live : heap.block b = some (before ++ old ++ tail)) (at_ : before.length = field.offset)
    (eight : old.length = 8) :
    ∃ heap', store (some b) field n heap = .ok heap' ∧
      heap'.block b = some (before ++ numberBytes 8 n ++ tail) := by
  have copied := Heap.memcpy_segment live (eight.trans (length_numberBytes 8 n).symm)
  rw [length_numberBytes, at_] at copied
  exact ⟨_, copied, Heap.block_set _⟩

/-- The bytes in front of `memory`. -/
def header (size capacity elementSize : ℕ) : List (BitVec 8) :=
  numberBytes 8 size ++ numberBytes 8 capacity ++ numberBytes 8 elementSize

@[simp] theorem length_header (size capacity elementSize : ℕ) :
    (header size capacity elementSize).length = sizeofVectorT := by
  simp [header, sizeofVectorT]

theorem load_size (live : heap.block b = some (header size capacity elementSize ++ tail))
    (word : size < 2 ^ 64) : load (some b) .size heap = .ok size := by
  refine load_segment [] (numberBytes 8 capacity ++ numberBytes 8 elementSize ++ tail) ?_ rfl word
  simpa [header] using live

theorem load_capacity (live : heap.block b = some (header size capacity elementSize ++ tail))
    (word : capacity < 2 ^ 64) : load (some b) .capacity heap = .ok capacity := by
  refine load_segment (numberBytes 8 size) (numberBytes 8 elementSize ++ tail) ?_
    (length_numberBytes ..) word
  simpa [header] using live

theorem load_elementSize (live : heap.block b = some (header size capacity elementSize ++ tail))
    (word : elementSize < 2 ^ 64) : load (some b) .elementSize heap = .ok elementSize := by
  refine load_segment (numberBytes 8 size ++ numberBytes 8 capacity) tail ?_ ?_ word
  · simpa [header] using live
  · simp [Field.offset]

theorem store_size (n : ℕ) (live : heap.block b = some (header size capacity elementSize ++ tail)) :
    ∃ heap', store (some b) .size n heap = .ok heap' ∧
      heap'.block b = some (header n capacity elementSize ++ tail) := by
  have split : heap.block b = some ([] ++ numberBytes 8 size ++
      (numberBytes 8 capacity ++ numberBytes 8 elementSize ++ tail)) := by
    simpa [header] using live
  obtain ⟨heap', stored, live'⟩ := store_segment .size [] _ _ n split rfl (length_numberBytes 8 size)
  exact ⟨heap', stored, by simpa [header] using live'⟩

/-- The assignments of `make_vector` to a block that has room for a header. -/
theorem store_header {bytes : List (BitVec 8)} (live : heap.block b = some bytes)
    (room : sizeofVectorT ≤ bytes.length) (size capacity elementSize : ℕ) :
    ∃ heap₁ heap₂ heap₃, store (some b) .elementSize elementSize heap = .ok heap₁ ∧
      store (some b) .capacity capacity heap₁ = .ok heap₂ ∧ store (some b) .size size heap₂ = .ok heap₃ ∧
      heap₃.block b = some (header size capacity elementSize ++ bytes.drop sizeofVectorT) := by
  obtain ⟨x, y, z, tail, rfl, first, second, third⟩ : ∃ x y z tail, bytes = x ++ y ++ z ++ tail ∧
      x.length = 8 ∧ y.length = 8 ∧ z.length = 8 := by
    rw [sizeofVectorT] at room
    refine ⟨bytes.take 8, (bytes.drop 8).take 8, (bytes.drop 16).take 8, bytes.drop 24, ?_, ?_, ?_, ?_⟩
    · conv_lhs => rw [← List.take_append_drop 8 bytes, ← List.take_append_drop 8 (bytes.drop 8),
        ← List.take_append_drop 8 ((bytes.drop 8).drop 8)]
      simp
    · rw [List.length_take]
      omega
    · rw [List.length_take, List.length_drop]
      omega
    · rw [List.length_take, List.length_drop]
      omega
  obtain ⟨heap₁, stored₁, live₁⟩ := store_segment .elementSize (x ++ y) z tail elementSize live
    (by simp [first, second, Field.offset]) third
  rw [List.append_assoc (x ++ y)] at live₁
  obtain ⟨heap₂, stored₂, live₂⟩ := store_segment .capacity x y _ capacity live₁ first second
  have live₂' : heap₂.block b = some ([] ++ x ++ (numberBytes 8 capacity ++
      (numberBytes 8 elementSize ++ tail))) := by
    rw [live₂, List.append_assoc, List.nil_append]
  obtain ⟨heap₃, stored₃, live₃⟩ := store_segment .size [] x _ size live₂' rfl first
  refine ⟨heap₁, heap₂, heap₃, stored₁, stored₂, stored₃, ?_⟩
  have dropped : (x ++ y ++ z ++ tail).drop sizeofVectorT = tail :=
    List.drop_left' (by simp [first, second, third, sizeofVectorT])
  rw [live₃, dropped]
  simp [header]

end Header

theorem Calls.bind_assoc {β γ δ : Type} (first : Calls β) (second : β → Calls γ) (third : γ → Calls δ) :
    (first >>= second) >>= third = first >>= fun b => second b >>= third := by
  obtain ⟨handed, reason | b⟩ := first
  · rfl
  · simp only [Bind.bind]
    cases (second b).result <;> simp [List.append_assoc]

/-- `push_back` copies to what it has got for room. -/
theorem pushBack_eq (garbage : Option (ℕ → BitVec 8)) (vector : Option ℕ) (element : List (BitVec 8))
    (heap : Memory) :
    pushBack garbage vector element heap =
      makeRoom garbage vector heap >>= fun grown => putBehind grown.1 element grown.2 := by
  rw [pushBack, makeRoom, Calls.bind_assoc]
  congr 1
  funext size
  rw [Calls.bind_assoc]
  congr 1
  funext capacity
  split_ifs
  · rw [Calls.bind_assoc]
    rfl
  · rfl

/-- An element that is put behind the others is counted. -/
theorem putBehind_segment {before segment after : List (BitVec 8)}
    (live : heap.block b = some (header size capacity elementSize ++ (before ++ segment ++ after)))
    (place : before.length = elementSize * size) (same : segment.length = element.length)
    (sized : element.length = elementSize) (size_lt : size + 1 < 2 ^ 64) (elementSize_lt : elementSize < 2 ^ 64)
    (offset_lt : elementSize * size < 2 ^ 64) :
    ∃ heap', putBehind (some b) element heap =
        ⟨[], .ok (⟨some b, sizeofVectorT + elementSize * size⟩, some b, heap')⟩ ∧
      heap'.block b = some (header (size + 1) capacity elementSize ++ (before ++ element ++ after)) := by
  have split : heap.block b = some (header size capacity elementSize ++ before ++ segment ++ after) := by
    rw [live]
    simp
  have copied := Heap.memcpy_segment split same
  rw [List.length_append, length_header, place, sized] at copied
  have live' : (heap.set b (some (header size capacity elementSize ++ before ++ element ++ after))
      (Heap.used split)).block b =
      some (header size capacity elementSize ++ (before ++ element ++ after)) := by
    rw [Heap.block_set]
    simp
  obtain ⟨heap', stored, live''⟩ := store_size (size + 1) live'
  have found : getIth (some b) size heap = .ok ⟨some b, sizeofVectorT + elementSize * size⟩ := by
    rw [getIth, load_elementSize live elementSize_lt, ok_bind, wordMul_of_lt offset_lt]
    rfl
  have next : wordAdd 64 size 1 = size + 1 := wordAdd_of_lt size_lt
  refine ⟨heap', ?_, live''⟩
  simp only [putBehind, load_size live (Nat.lt_of_succ_lt size_lt), load_elementSize live elementSize_lt, found,
    copied, Calls.lift_ok_bind, load_size live' (Nat.lt_of_succ_lt size_lt), next, stored]
  rfl

/-- The block of a vector of this capacity, with this much of it left. -/
structure Program.Layout (s : Program) (b capacity elementSize : ℕ) (rest : List (BitVec 8)) : Prop where
  vector : s.vector = some b
  live : s.heap.block b =
    some (header s.pushed.length capacity elementSize ++ (s.pushed.flatten ++ rest))
  within : s.pushed.length ≤ capacity
  room : rest.length = (capacity - s.pushed.length) * elementSize
  small : sizeofVectorT + capacity * elementSize < 2 ^ 64
  words : capacity < 2 ^ 64 ∧ elementSize < 2 ^ 64
  uniform : ∀ e ∈ s.pushed, e.length = elementSize

/-- A fresh block gets its header. -/
theorem make_layout (garbage : ℕ → BitVec 8) (heap : Memory)
    (words : capacity < 2 ^ 64 ∧ elementSize < 2 ^ 64)
    (small : sizeofVectorT + capacity * elementSize < 2 ^ 64) :
    ∃ s b rest, Program.make garbage elementSize capacity heap = .ok s ∧ s.pushed = [] ∧
      s.Layout b capacity elementSize rest := by
  have product : wordMul 64 elementSize capacity = capacity * elementSize := by
    rw [wordMul_of_lt (by rw [Nat.mul_comm]; omega), Nat.mul_comm]
  have bytes : wordAdd 64 sizeofVectorT (wordMul 64 elementSize capacity) =
      24 + capacity * elementSize := by
    rw [product, wordAdd_of_lt small]
    rfl
  have allocated : heap.malloc (some garbage) (24 + capacity * elementSize) =
      (some heap.next, heap.insert (Heap.fill garbage (24 + capacity * elementSize))) := rfl
  have fresh : (heap.insert (Heap.fill garbage (24 + capacity * elementSize))).block heap.next =
      some (Heap.fill garbage (24 + capacity * elementSize)) := Heap.block_insert
  obtain ⟨heap₁, heap₂, heap₃, stored₁, stored₂, stored₃, live⟩ := store_header fresh
    (by rw [Heap.length_fill, sizeofVectorT]; omega) 0 capacity elementSize
  refine ⟨⟨some heap.next, heap₃, []⟩, heap.next, _, ?_, rfl,
    ⟨rfl, live, Nat.zero_le _, ?_, small, words, ?_⟩⟩
  · simp only [Program.make, makeVector, bytes, allocated, stored₁, stored₂, stored₃, ok_bind]
    rfl
  · rw [List.length_drop, Heap.length_fill, sizeofVectorT, List.length_nil, Nat.sub_zero]
    omega
  · intro e member
    cases member

section Layout

variable (layout : s.Layout b capacity elementSize rest)
include layout

theorem Program.Layout.fields :
    load (some b) .size s.heap = .ok s.pushed.length ∧ load (some b) .capacity s.heap = .ok capacity ∧
      load (some b) .elementSize s.heap = .ok elementSize :=
  ⟨load_size layout.live (layout.within.trans_lt layout.words.1),
    load_capacity layout.live layout.words.1, load_elementSize layout.live layout.words.2⟩

theorem Program.Layout.field_eq :
    s.field .size = .ok s.pushed.length ∧ s.field .capacity = .ok capacity ∧
      s.field .elementSize = .ok elementSize := by
  have fields := layout.fields
  rw [← layout.vector] at fields
  exact fields

/-- The place of an element, or of the next one. -/
theorem Program.Layout.getIth {i : ℕ} (bound : i ≤ capacity) :
    getIth (some b) i s.heap = .ok ⟨some b, sizeofVectorT + elementSize * i⟩ := by
  have inside : elementSize * i ≤ capacity * elementSize := by
    rw [Nat.mul_comm]
    exact Nat.mul_le_mul_right _ bound
  have small := layout.small
  rw [Sample4.getIth, layout.fields.2.2, ok_bind, wordMul_of_lt (by omega)]
  rfl

/-- The elements are where `get_ith` says, in a block that is large enough. -/
theorem Program.Layout.holds : s.Holds := by
  have length : s.pushed.flatten.length = s.pushed.length * elementSize :=
    Heap.length_flatten layout.uniform
  have room := layout.room
  have filled : s.pushed.length * elementSize + (capacity - s.pushed.length) * elementSize =
      capacity * elementSize := by
    rw [← Nat.add_mul, Nat.add_sub_cancel' layout.within]
  obtain ⟨size_eq, capacity_eq, elementSize_eq⟩ := layout.field_eq
  refine ⟨b, _, capacity, elementSize, layout.vector, layout.live, size_eq, capacity_eq, elementSize_eq, ?_,
    layout.within, ?_⟩
  · rw [List.length_append, List.length_append, length_header, length, room, filled]
  · intro i bound
    have last : elementSize * i + elementSize ≤ s.pushed.flatten.length := by
      rw [length, ← Nat.mul_succ, Nat.mul_comm]
      exact Nat.mul_le_mul_right _ bound
    have fits : sizeofVectorT + elementSize * i + elementSize ≤
        (header s.pushed.length capacity elementSize ++ (s.pushed.flatten ++ rest)).length := by
      rw [List.length_append, List.length_append, length_header]
      omega
    rw [layout.vector]
    refine ⟨_, layout.getIth (Nat.le_of_lt bound |>.trans layout.within), ?_⟩
    rw [Heap.read_inside layout.live fits, ← Heap.take_drop_flatten layout.uniform bound]
    congr 1
    rw [← List.drop_drop, List.drop_left' (length_header ..), List.drop_append_of_le_length (by omega),
      List.take_append_of_le_length (by rw [List.length_drop]; omega)]

/-- A `reserve` that finds the room changes nothing. -/
theorem reserve_room {garbage : ℕ → BitVec 8} {requested : ℕ} (enough : max requested 1 ≤ capacity) :
    s.call (.reserve requested garbage) = ⟨[], .ok s⟩ := by
  have vector := layout.vector
  simp only [Program.call, reserve, ite_lt_one, vector, layout.fields.2.1, Calls.lift_ok_bind, if_pos enough,
    Calls.pure_bind]
  rw [← vector]
  rfl

/-- A `reserve` that needs more room hands over the address of the variable. -/
theorem reserve_grows (garbage : ℕ → BitVec 8) {requested : ℕ} (more : capacity < max requested 1) :
    reserve (some garbage) (some b) requested s.heap = ⟨[.variable], .error .outOfBounds⟩ := by
  simp only [reserve, ite_lt_one, layout.fields.2.1, layout.fields.2.2, Calls.lift_ok_bind,
    if_neg (Nat.not_le_of_lt more)]
  rfl

/-- A `push_back` that finds room puts the element behind the others. -/
theorem pushBack_room {garbage : ℕ → BitVec 8} (sized : element.length = elementSize)
    (spare : s.pushed.length < capacity) :
    ∃ s', s.call (.pushBack element garbage) = ⟨[], .ok s'⟩ ∧
      s'.Layout b capacity elementSize (rest.drop elementSize) := by
  have length : s.pushed.flatten.length = elementSize * s.pushed.length := by
    rw [Heap.length_flatten layout.uniform, Nat.mul_comm]
  have room := layout.room
  have words := layout.words
  have small := layout.small
  have split : (capacity - s.pushed.length) * elementSize =
      (capacity - (s.pushed.length + 1)) * elementSize + elementSize := by
    rw [← Nat.succ_mul]
    congr 1
    omega
  have inside : elementSize * s.pushed.length ≤ capacity * elementSize := by
    rw [Nat.mul_comm]
    exact Nat.mul_le_mul_right _ spare.le
  have live : s.heap.block b = some (header s.pushed.length capacity elementSize ++
      (s.pushed.flatten ++ rest.take elementSize ++ rest.drop elementSize)) := by
    rw [layout.live, List.append_assoc s.pushed.flatten, List.take_append_drop]
  have same : (rest.take elementSize).length = element.length := by
    rw [List.length_take]
    omega
  obtain ⟨heap', put, live'⟩ := putBehind_segment live length same sized (by omega) words.2 (by omega)
  have ready : makeRoom (some garbage) (some b) s.heap = ⟨[], .ok (some b, s.heap)⟩ := by
    simp only [makeRoom, layout.fields.1, layout.fields.2.1, Calls.lift_ok_bind, if_neg spare.ne]
    rfl
  refine ⟨⟨some b, heap', s.pushed ++ [element]⟩, ?_, ⟨rfl, ?_, ?_, ?_, small, words, ?_⟩⟩
  · rw [Program.call, layout.vector, pushBack_eq, ready]
    change ((putBehind (some b) element s.heap) >>= _) = _
    rw [put]
    rfl
  · rw [live', List.length_append, List.length_singleton, List.flatten_append, List.flatten_singleton]
  · rw [List.length_append, List.length_singleton]
    exact spare
  · rw [List.length_append, List.length_singleton, List.length_drop]
    omega
  · intro e member
    rcases List.mem_append.mp member with old | new
    · exact layout.uniform e old
    · rw [List.mem_singleton.mp new, sized]

/-- A `push_back` into a full vector calls `reserve` for twice the capacity. -/
theorem pushBack_full (garbage : ℕ → BitVec 8) (full : s.pushed.length = capacity)
    (double : 2 * capacity < 2 ^ 64) :
    s.call (.pushBack element garbage) = ⟨[.variable], .error .outOfBounds⟩ := by
  have grows := reserve_grows layout garbage (show capacity < max (2 * capacity) 1 by omega)
  simp only [Program.call, pushBack, layout.vector, layout.fields.1, layout.fields.2.1,
    Calls.lift_ok_bind, if_pos full, wordMul_two double, grows]
  rfl

/-- Either a call finds the room it needs, and the block keeps its layout, or it hands over the address of
the variable. -/
theorem call_layout {call : VectorCall} (fits : s.Fits call) :
    (s.HasRoom call ∧ ∃ s' rest', s.call call = ⟨[], .ok s'⟩ ∧ s'.Layout b capacity elementSize rest') ∨
    (¬s.HasRoom call ∧ s.call call = ⟨[.variable], .error .outOfBounds⟩) := by
  obtain ⟨size, room, width⟩ := layout.field_eq
  cases call with
  | reserve requested garbage =>
    rcases Nat.lt_or_ge capacity (max requested 1) with more | enough
    · right
      constructor
      · rintro ⟨current, found, enough⟩
        obtain rfl : capacity = current := Except.ok.inj (room.symm.trans found)
        exact Nat.not_le_of_lt more enough
      · rw [Program.call, layout.vector, reserve_grows layout _ more]
        rfl
    · exact .inl ⟨⟨capacity, room, enough⟩, s, rest, reserve_room layout enough, layout⟩
  | pushBack element garbage =>
    obtain ⟨size', capacity', found, found', sized, double⟩ := fits
    obtain rfl : s.pushed.length = size' := Except.ok.inj (size.symm.trans found)
    obtain rfl : capacity = capacity' := Except.ok.inj (room.symm.trans found')
    obtain rfl : elementSize = element.length := Except.ok.inj (width.symm.trans sized)
    rcases Nat.lt_or_eq_of_le layout.within with spare | full
    · obtain ⟨s', called, layout'⟩ := pushBack_room layout (Eq.refl element.length) spare
      exact .inl ⟨⟨_, _, size, room, spare⟩, s', _, called, layout'⟩
    · right
      constructor
      · rintro ⟨size', capacity', found, found', spare⟩
        obtain rfl : s.pushed.length = size' := Except.ok.inj (size.symm.trans found)
        obtain rfl : capacity = capacity' := Except.ok.inj (room.symm.trans found')
        exact spare.ne full
      · exact pushBack_full layout garbage full (double full).1

end Layout

/-- In a laid out block a call is sound exactly if it finds room. -/
theorem sound_iff {call : VectorCall} (layout : s.Layout b capacity elementSize rest) (fits : s.Fits call) :
    s.Sound call ↔ s.HasRoom call := by
  rcases call_layout layout fits with ⟨room, s', rest', called, layout'⟩ | ⟨full, called⟩
  · refine iff_of_true ⟨?_, s', congrArg Calls.result called, layout'.holds⟩ room
    rw [called]
    intro address member
    cases member
  · refine iff_of_false ?_ full
    rintro ⟨-, s', result, -⟩
    rw [called] at result
    cases result

/-- The vector is sound exactly in the histories in which no call has to grow its block. -/
theorem vector_sound_iff (garbage : ℕ → BitVec 8) (heap : Memory) (elementSize capacity : ℕ)
    (words : capacity < 2 ^ 64 ∧ elementSize < 2 ^ 64)
    (small : sizeofVectorT + capacity * elementSize < 2 ^ 64) :
    ∃ s, Program.make garbage elementSize capacity heap = .ok s ∧ s.Holds ∧
      ∀ history, vectorCalls.AllSteps Program.Fits s history →
        (vectorCalls.AllSteps Program.Sound s history ↔ vectorCalls.AllSteps Program.HasRoom s history) := by
  obtain ⟨s, b, rest, made, -, layout⟩ := make_layout garbage heap words small
  refine ⟨s, made, layout.holds, fun history fits => ?_⟩
  refine Machine.allSteps_iff_of (fun s : Program => ∃ rest, s.Layout b capacity elementSize rest) ?_ ?_
    ⟨rest, layout⟩ fits
  · rintro s call ⟨rest, layout⟩ fits
    exact sound_iff layout fits
  · rintro s s' call ⟨rest, layout⟩ fits room moved
    rcases call_layout layout fits with ⟨-, s'', rest', called, layout'⟩ | ⟨full, -⟩
    · have result := toOption_eq_some.mp moved
      rw [called] at result
      cases result
      exact ⟨rest', layout'⟩
    · exact absurd room full

theorem vector_sound_pushed_twice : ∃ s, Program.make (fun _ => 0) 1 2 Heap.empty = .ok s ∧
    vectorCalls.AllSteps Program.Sound s
      [.pushBack [7] (fun _ => 0), .pushBack [8] (fun _ => 0), .reserve 2 (fun _ => 0)] := by
  obtain ⟨s, made, -, sound⟩ := vector_sound_iff (fun _ => 0) Heap.empty 1 2 (by decide) (by decide)
  refine ⟨s, made, (sound _ ?_).mpr ?_⟩
  · obtain rfl := Except.ok.inj made
    rw [Machine.allSteps_cons_some rfl, Machine.allSteps_cons_some rfl, Machine.allSteps_cons_some rfl]
    exact ⟨⟨0, 2, rfl, rfl, rfl, nofun⟩, ⟨1, 2, rfl, rfl, rfl, nofun⟩, ⟨by decide, 1, rfl, by decide⟩,
      trivial⟩
  · obtain rfl := Except.ok.inj made
    rw [Machine.allSteps_cons_some rfl, Machine.allSteps_cons_some rfl, Machine.allSteps_cons_some rfl]
    exact ⟨⟨0, 2, rfl, rfl, by decide⟩, ⟨1, 2, rfl, rfl, by decide⟩, ⟨2, rfl, by decide⟩, trivial⟩

/-- The first `push_back` into a vector that was made with the capacity zero. -/
theorem vector_unsound_at_growth : ∃ s, Program.make (fun _ => 0) 1 0 Heap.empty = .ok s ∧
    vectorCalls.AllSteps Program.Fits s [.pushBack [7] fun _ => 0] ∧
    (s.call (.pushBack [7] fun _ => 0)).handed = [.variable] ∧
    ¬vectorCalls.AllSteps Program.Sound s [.pushBack [7] fun _ => 0] := by
  refine ⟨_, rfl, ⟨⟨0, 0, rfl, rfl, rfl, by decide⟩, fun _ _ => trivial⟩, rfl, ?_⟩
  rintro ⟨⟨blocks, -⟩, -⟩
  obtain ⟨_, _, -, -, same⟩ := blocks .variable List.mem_cons_self
  cases same

end Hseos.Sample4
