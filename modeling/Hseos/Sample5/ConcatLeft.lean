import Hseos.Sample5.NodeArray

/-! # Concatenation

The array that `concat_left` returns holds the nodes of both arrays, and only the left link of one node
differs from those that were copied. Since the links are distances, both trees stay what they were, up to the
place of the second one, which becomes a left subtree of the first.
-/

namespace Hseos.Sample5

variable {S : Type} {heap : Memory S} {rootA rootB : Pointer} {c k : ℕ}
  {a b nodes before segment after : List (NodeT S)}

section Copies

theorem copyNodes_segment {source : Pointer} (array : heap.read source nodes.length = .ok nodes)
    (live : heap.block c = some (before ++ segment ++ after)) (same : segment.length = nodes.length) :
    ∃ heap', copyNodes ⟨some c, before.length⟩ source (nodes.length * sizeofNode) heap = .ok heap' ∧
      heap'.block c = some (before ++ nodes ++ after) ∧ ∀ d ≠ c, heap'.block d = heap.block d := by
  have copied := Heap.memcpy_segment live same
  have number : nodes.length * sizeofNode / sizeofNode = nodes.length :=
    Nat.mul_div_cancel _ (by decide)
  refine ⟨_, ?_, Heap.block_set (Heap.used live), fun d other => Heap.block_set_of_ne (Heap.used live) other⟩
  rw [copyNodes, number, array, ok_bind, copied]

theorem storeLeft_modify (live : heap.block c = some nodes) (bound : k < nodes.length) (left : ℤ) :
    ∃ heap', storeLeft ⟨some c, k⟩ left heap = .ok heap' ∧
      heap'.block c = some (nodes.modify k fun node => { node with left := left }) ∧
      ∀ d ≠ c, heap'.block d = heap.block d := by
  have loaded : heap.load ⟨some c, k⟩ = .ok nodes[k] := by
    simp only [Heap.load, live, Option.bind_some, List.getElem?_eq_getElem bound]
  have split : heap.block c = some (nodes.take k ++ [nodes[k]] ++ nodes.drop (k + 1)) := by
    rw [live, List.append_assoc, List.singleton_append, ← List.drop_eq_getElem_cons bound,
      List.take_append_drop]
  have front : (nodes.take k).length = k := List.length_take_of_le bound.le
  have stored : storeLeft ⟨some c, k⟩ left heap = .ok (heap.set c (some (nodes.take k ++
      [{ nodes[k] with left := left }] ++ nodes.drop (k + 1))) (Heap.used split)) := by
    have copied := Heap.memcpy_segment split (show [nodes[k]].length =
      [{ nodes[k] with left := left }].length from rfl)
    rw [front] at copied
    rw [storeLeft, loaded, ok_bind]
    exact copied
  refine ⟨_, stored, ?_, fun d other => Heap.block_set_of_ne (Heap.used split) other⟩
  rw [Heap.block_set, List.modify_eq_take_cons_drop bound, List.append_assoc, List.singleton_append]

end Copies

/-- The nodes of both arrays, with the left link of one of them to the second array. -/
def graftNodes (a b : List (NodeT S)) (k : ℕ) : List (NodeT S) :=
  (a ++ b).modify k fun node => { node with left := a.length - k }

@[simp] theorem length_graftNodes : (graftNodes a b k).length = a.length + b.length := by
  simp [graftNodes]

/-- The call returns a new block with these nodes and leaves the other blocks alone. -/
theorem concatLeft_run (garbage : ℕ → NodeT S) (array_a : heap.read rootA a.length = .ok a)
    (array_b : heap.read rootB b.length = .ok b) (object_a : IsObject a) (object_b : IsObject b)
    (bound : k < a.length) :
    ∃ heap', concatLeft (some garbage) rootA a.length rootB b.length (rootA.add k) heap =
        .ok (⟨some heap.next, 0⟩, heap') ∧
      heap'.block heap.next = some (graftNodes a b k) ∧
      ∀ d cells, heap.block d = some cells → heap'.block d = some cells := by
  have bytes_a := object_a.bytes
  have bytes_b := object_b.bytes
  rw [IsObject, sizeofNode] at object_a object_b
  have bytes : wordMul 64 (wordAdd 64 a.length b.length) sizeofNode / sizeofNode = a.length + b.length := by
    rw [sizeofNode, wordAdd_of_lt (by omega), wordMul_of_lt (by omega), Nat.mul_div_cancel _ (by decide)]
  have offset : ((k : ℤ) % 2 ^ 64).toNat = k := by omega
  have link : Int.bmod (wordSub 64 a.length k) (2 ^ 64) = (a.length : ℤ) - k := by
    rw [wordSub_of_le (by omega) bound.le, Nat.cast_sub bound.le]
    apply Int.bmod_eq_of_le
    · omega
    · omega
  have kept_fresh : ∀ d cells, heap.block d = some cells → d ≠ heap.next ∧
      (heap.insert (Heap.fill garbage (a.length + b.length))).block d = some cells := by
    intro d cells live
    have other := Heap.ne_next live
    exact ⟨other, (Heap.block_insert_of_ne other).trans live⟩
  have fresh : (heap.insert (Heap.fill garbage (a.length + b.length))).block heap.next =
      some ([] ++ (Heap.fill garbage (a.length + b.length)).take a.length ++
        (Heap.fill garbage (a.length + b.length)).drop a.length) := by
    rw [Heap.block_insert, List.nil_append, List.take_append_drop]
  obtain ⟨heap₁, copied_a, live₁, kept₁⟩ := copyNodes_segment
    (Heap.read_of_kept array_a fun d cells live => (kept_fresh d cells live).2) fresh (by simp)
  have kept_first : ∀ d cells, heap.block d = some cells → heap₁.block d = some cells := by
    intro d cells live
    obtain ⟨other, kept⟩ := kept_fresh d cells live
    rw [kept₁ d other, kept]
  rw [List.nil_append, ← List.append_nil (List.drop _ _), ← List.append_assoc] at live₁
  obtain ⟨heap₂, copied_b, live₂, kept₂⟩ := copyNodes_segment (Heap.read_of_kept array_b kept_first) live₁
    (by simp)
  rw [List.append_nil] at live₂
  obtain ⟨heap₃, stored, live₃, kept₃⟩ := storeLeft_modify live₂
    (show k < (a ++ b).length by rw [List.length_append]; omega) (a.length - k)
  refine ⟨heap₃, ?_, live₃, ?_⟩
  · have allocated : heap.malloc (some garbage) (a.length + b.length) =
        (some heap.next, heap.insert (Heap.fill garbage (a.length + b.length))) := rfl
    rw [List.length_nil] at copied_a
    simp only [concatLeft, bytes, allocated, bytes_a, bytes_b, copied_a, copied_b, Pointer.distance_add,
      offset, link, stored, ok_bind]
    rfl
  · intro d cells live
    have other := (kept_fresh d cells live).1
    rw [kept₃ d other, kept₂ d other, kept_first d cells live]

section Nodes

variable {i : ℕ} {node : NodeT S}

theorem graftNodes_of_ne (other : i ≠ k) (found : a[i]? = some node) :
    (graftNodes a b k)[i]? = some node := by
  rw [graftNodes, List.getElem?_modify_ne _ _ other.symm,
    List.getElem?_append_left (List.getElem?_eq_some_iff.mp found).1, found]

theorem graftNodes_at (found : a[k]? = some node) :
    (graftNodes a b k)[k]? = some { node with left := a.length - k } := by
  rw [graftNodes, List.getElem?_modify_eq, List.getElem?_append_left (List.getElem?_eq_some_iff.mp found).1,
    found]
  rfl

theorem graftNodes_behind (bound : k < a.length) (found : b[i]? = some node) :
    (graftNodes a b k)[a.length + i]? = some node := by
  rw [graftNodes, List.getElem?_modify_ne _ _ (by omega), List.getElem?_append_right (Nat.le_add_right ..),
    Nat.add_sub_cancel_left, found]

/-- What is no left link is copied. -/
theorem map_graftNodes {β : Type} {field : NodeT S → β}
    (kept : ∀ (node : NodeT S) (left : ℤ), field { node with left := left } = field node) :
    (graftNodes a b k).map field = a.map field ++ b.map field := by
  rw [← List.map_append]
  apply List.ext_getElem?
  intro i
  rw [graftNodes, List.getElem?_map, List.getElem?_map, List.getElem?_modify, Option.map_eq_map,
    Option.map_map]
  congr 1
  funext node
  split_ifs
  · exact kept node _
  · rfl

/-- All links stay inside. -/
theorem graftNodes_inside (inside_a : links.Inside a) (inside_b : links.Inside b) (bound : k < a.length)
    (nonempty : 0 < b.length) : links.Inside (graftNodes a b k) := by
  intro i node found
  rw [length_graftNodes]
  rcases Nat.lt_or_ge i a.length with first | second
  · have found_a : a[i]? = some a[i] := List.getElem?_eq_getElem first
    have right_in := (inside_a i a[i] found_a).2.mono (Nat.le_add_right a.length b.length)
    rcases eq_or_ne i k with rfl | other
    · obtain rfl := Option.some.inj (found.symm.trans (graftNodes_at found_a))
      refine ⟨fun _ => ?_, right_in⟩
      change 0 ≤ (i : ℤ) + (a.length - i) ∧ (i : ℤ) + (a.length - i) < (a.length + b.length : ℕ)
      omega
    · obtain rfl := Option.some.inj (found.symm.trans (graftNodes_of_ne other found_a))
      exact ⟨(inside_a i a[i] found_a).1.mono (Nat.le_add_right ..), right_in⟩
  · obtain ⟨j, rfl⟩ := Nat.exists_eq_add_of_le second
    have bound_b : j < b.length := by
      have last := (List.getElem?_eq_some_iff.mp found).1
      rw [length_graftNodes] at last
      omega
    have found_b : b[j]? = some b[j] := List.getElem?_eq_getElem bound_b
    obtain rfl := Option.some.inj (found.symm.trans (graftNodes_behind bound found_b))
    exact ⟨(inside_b j b[j] found_b).1.shift a.length, (inside_b j b[j] found_b).2.shift a.length⟩

/-- The tree of the first array gets the tree of the second for a left subtree. -/
theorem graftNodes_tree {tree_a tree_b : BinaryTree (ℕ × S)} (at_a : links.TreeAt a (some 0) tree_a)
    (at_b : links.TreeAt b (some 0) tree_b) (bound : k < a.length) :
    links.TreeAt (graftNodes a b k) (some 0) (replaceLeft k (shiftTree a.length tree_b) tree_a) := by
  have shifted : links.TreeAt (graftNodes a b k) (some a.length) (shiftTree a.length tree_b) :=
    at_b.shift a.length fun i node found => graftNodes_behind bound found
  refine at_a.graft (fun i node other found => graftNodes_of_ne other found) ?_ shifted
  intro node found
  refine ⟨_, graftNodes_at found, rfl, rfl, ?_, ?_⟩
  · change (a.length : ℤ) - k ≠ 0
    omega
  · change (a.length : ℤ) = k + (a.length - k)
    omega

end Nodes

/-- The array that is returned holds the tree of the first array with the left subtree of one node replaced
by the tree of the second, in the payloads and right links that were copied. No block that was live has
changed, so both arrays are still there, also where they are one. -/
theorem concatLeft_tree (garbage : ℕ → NodeT S) {tree_a tree_b : BinaryTree (ℕ × S)}
    (holds_a : HoldsTree heap rootA a tree_a) (holds_b : HoldsTree heap rootB b tree_b)
    (object_a : IsObject a) (object_b : IsObject b) (nonempty : 1 ≤ b.length) (bound : k < a.length) :
    ∃ res heap' nodes,
      concatLeft (some garbage) rootA a.length rootB b.length (rootA.add k) heap = .ok (res, heap') ∧
      nodes.length = a.length + b.length ∧
      HoldsTree heap' res nodes (replaceLeft k (shiftTree a.length tree_b) tree_a) ∧
      (∀ tree, ReadsTree heap' res (some res) tree →
        tree = replaceLeft k (shiftTree a.length tree_b) tree_a) ∧
      nodes.map NodeT.s = a.map NodeT.s ++ b.map NodeT.s ∧
      nodes.map NodeT.right = a.map NodeT.right ++ b.map NodeT.right ∧
      (∀ d cells, heap.block d = some cells → heap'.block d = some cells) ∧
      heap'.read rootA a.length = .ok a ∧ heap'.read rootB b.length = .ok b := by
  obtain ⟨heap', ran, live, kept⟩ := concatLeft_run garbage holds_a.array holds_b.array object_a object_b
    bound
  have array : heap'.read ⟨some heap.next, 0⟩ (graftNodes a b k).length = .ok (graftNodes a b k) := by
    rw [Heap.read_inside live (Nat.zero_add _).le, List.drop_zero, List.take_length]
  have inside := graftNodes_inside holds_a.inside holds_b.inside bound nonempty
  have tree : ReadsTree heap' ⟨some heap.next, 0⟩ (some ⟨some heap.next, 0⟩)
      (replaceLeft k (shiftTree a.length tree_b) tree_a) :=
    (readsTree_root_iff array inside (by rw [length_graftNodes]; omega)).mpr
      (graftNodes_tree (holds_a.treeAt (by omega)) (holds_b.treeAt nonempty) bound)
  exact ⟨_, heap', graftNodes a b k, ran, length_graftNodes, ⟨array, inside, tree⟩,
    fun other reads => reads.unique tree, map_graftNodes fun _ _ => rfl,
    map_graftNodes fun _ _ => rfl, kept, Heap.read_of_kept holds_a.array kept,
    Heap.read_of_kept holds_b.array kept⟩

/-- An array of two nodes is concatenated with itself at the second one. -/
theorem concatLeft_tree_self : ∃ res heap' nodes,
    concatLeft (some fun _ => ⟨0, 0, ' '⟩) ⟨some 0, 0⟩ 2 ⟨some 0, 0⟩ 2 ⟨some 0, 1⟩
      (Heap.empty.insert [⟨1, 0, 'a'⟩, ⟨0, 0, 'b'⟩]) = .ok (res, heap') ∧
    HoldsTree heap' res nodes (.node (0, 'a') (.node (1, 'b')
      (.node (2, 'a') (.node (3, 'b') .nil .nil) .nil) .nil) .nil) ∧
    heap'.read ⟨some 0, 0⟩ 2 = .ok [⟨1, 0, 'a'⟩, ⟨0, 0, 'b'⟩] := by
  let heap : Memory Char := Heap.empty.insert [⟨1, 0, 'a'⟩, ⟨0, 0, 'b'⟩]
  have second : ReadsTree heap ⟨some 0, 0⟩ (some ⟨some 0, 1⟩)
      (.node (1, NodeT.s ⟨0, 0, 'b'⟩) .nil .nil) := .node rfl rfl rfl rfl .nil .nil
  have first : ReadsTree heap ⟨some 0, 0⟩ (some ⟨some 0, 0⟩)
      (.node (0, NodeT.s ⟨1, 0, 'a'⟩) (.node (1, 'b') .nil .nil) .nil) := .node rfl rfl rfl rfl second .nil
  have holds : HoldsTree heap ⟨some 0, 0⟩ [⟨1, 0, 'a'⟩, ⟨0, 0, 'b'⟩]
      (.node (0, 'a') (.node (1, 'b') .nil .nil) .nil) := by
    refine ⟨rfl, ?_, first⟩
    rintro (_ | _ | i) node found
    · cases found
      exact ⟨fun _ => by decide, fun nonzero => absurd rfl nonzero⟩
    · cases found
      exact ⟨fun nonzero => absurd rfl nonzero, fun nonzero => absurd rfl nonzero⟩
    · cases found
  have object : IsObject [(⟨1, 0, 'a'⟩ : NodeT Char), ⟨0, 0, 'b'⟩] := show 2 * 24 < 2 ^ 63 by decide
  obtain ⟨res, heap', nodes, ran, -, result, -, -, -, -, kept, -⟩ := concatLeft_tree (k := 1)
    (fun _ => ⟨0, 0, ' '⟩) holds holds object object (by decide) (by decide)
  exact ⟨res, heap', nodes, ran, result, kept⟩

end Hseos.Sample5
