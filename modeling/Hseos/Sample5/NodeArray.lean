import Hseos.Lib.Heap
import Hseos.Lib.OffsetTree
import Mathlib.Data.Int.ModEq

/-! # The array of nodes

The links of a node are distances to other nodes of its array, so that an array can be copied as it is.
`concat_left` copies two arrays behind each other and makes the root of the second the left child of a node
of the first. The cells of the heap are nodes, and the sizes of the calls are still computed in bytes.
-/

namespace Hseos.Sample5

variable {S : Type}

/-- `node_t`. -/
structure NodeT (S : Type) where
  left : ℤ
  right : ℤ
  s : S
deriving DecidableEq

/-- `sizeof(node_t)`. -/
def sizeofNode : ℕ := 24

abbrev Memory (S : Type) := Heap (NodeT S)

/-- The nodes fit an object. An object has at most `PTRDIFF_MAX` bytes, so that the difference of two pointers
into it is a `ptrdiff_t`. -/
def IsObject (nodes : List (NodeT S)) : Prop := nodes.length * sizeofNode < 2 ^ 63

/-- The child of the node behind a pointer at the end of one of its links. -/
def getChild (link : NodeT S → ℤ) (p : Pointer) (heap : Memory S) : Except Fault (Option Pointer) := do
  let node ← heap.load p
  if link node = 0 then return none
  else
    let child ← p.move (link node)
    return some child

/-- `get_left`. -/
def getLeft : Pointer → Memory S → Except Fault (Option Pointer) := getChild NodeT.left

/-- The right child, which the source has no function for, read as `get_left` reads the left one. -/
def getRight : Pointer → Memory S → Except Fault (Option Pointer) := getChild NodeT.right

/-- `memcpy` of this many bytes of nodes. -/
def copyNodes (dest source : Pointer) (bytes : ℕ) (heap : Memory S) : Except Fault (Memory S) := do
  let nodes ← heap.read source (bytes / sizeofNode)
  heap.memcpy dest nodes (bytes / sizeofNode)

/-- `p->left = left`. -/
def storeLeft (p : Pointer) (left : ℤ) (heap : Memory S) : Except Fault (Memory S) := do
  let node ← heap.load p
  heap.memcpy p [{ node with left := left }] 1

/-- `concat_left`. -/
def concatLeft (garbage : Option (ℕ → NodeT S)) (rootA : Pointer) (sizeA : ℕ) (rootB : Pointer) (sizeB : ℕ)
    (nodeA : Pointer) (heap : Memory S) : Except Fault (Pointer × Memory S) := do
  let bytes := wordMul 64 (wordAdd 64 sizeA sizeB) sizeofNode
  let (res, heap) := heap.malloc garbage (bytes / sizeofNode)
  let heap ← copyNodes ⟨res, 0⟩ rootA (wordMul 64 sizeA sizeofNode) heap
  let heap ← copyNodes ⟨res, sizeA⟩ rootB (wordMul 64 sizeB sizeofNode) heap
  let distance ← nodeA.distance rootA
  -- the distance is converted to `size_t`, and the difference back to `ssize_t`
  let offset := (distance % 2 ^ 64).toNat
  let heap ← storeLeft ⟨res, offset⟩ (Int.bmod (wordSub 64 sizeA offset) (2 ^ 64)) heap
  return (⟨res, 0⟩, heap)

/-- The links and the payload of a node. -/
def links : Links (NodeT S) S := ⟨NodeT.left, NodeT.right, NodeT.s⟩

/-- The finite tree that is read from a pointer on, with the distance of each node from the root of its
array in its label. -/
inductive ReadsTree (heap : Memory S) (root : Pointer) : Option Pointer → BinaryTree (ℕ × S) → Prop
  | nil : ReadsTree heap root none .nil
  | node {p : Pointer} {i : ℕ} {node : NodeT S} {l r : Option Pointer} {left right : BinaryTree (ℕ × S)}
      (place : p = root.add i) (loaded : heap.load p = .ok node) (to_left : getLeft p heap = .ok l)
      (to_right : getRight p heap = .ok r) (tree_left : ReadsTree heap root l left)
      (tree_right : ReadsTree heap root r right) :
      ReadsTree heap root (some p) (.node (i, node.s) left right)

/-- An array of nodes whose links stay inside, with a finite tree from its first node on. -/
structure HoldsTree (heap : Memory S) (root : Pointer) (nodes : List (NodeT S)) (tree : BinaryTree (ℕ × S)) :
    Prop where
  array : heap.read root nodes.length = .ok nodes
  inside : links.Inside nodes
  tree : ReadsTree heap root (some root) tree

variable {heap : Memory S} {root : Pointer} {nodes : List (NodeT S)} {tree : BinaryTree (ℕ × S)}

/-- The number of bytes of an array does not wrap around. -/
theorem IsObject.bytes (object : IsObject nodes) :
    wordMul 64 nodes.length sizeofNode = nodes.length * sizeofNode := by
  apply wordMul_of_lt
  rw [IsObject] at object
  omega

/-- A pointer leads to one tree only. -/
theorem ReadsTree.unique {p : Option Pointer} {other : BinaryTree (ℕ × S)}
    (first : ReadsTree heap root p tree) (second : ReadsTree heap root p other) : tree = other := by
  induction first generalizing other with
  | nil =>
    cases second
    rfl
  | node place loaded to_left to_right _ _ ih_left ih_right =>
    cases second with
    | node place' loaded' to_left' to_right' tree_left' tree_right' =>
      obtain rfl := root.add_injective (place.symm.trans place')
      obtain rfl := Except.ok.inj (loaded.symm.trans loaded')
      obtain rfl := Except.ok.inj (to_left.symm.trans to_left')
      obtain rfl := Except.ok.inj (to_right.symm.trans to_right')
      rw [ih_left tree_left', ih_right tree_right']

/-- A link leads to the node at its distance. -/
theorem getChild_of_leads {link : NodeT S → ℤ} {i : ℕ} {node : NodeT S} {target : Option ℕ}
    (loaded : heap.load (root.add i) = .ok node) (leads : Leads i (link node) target) :
    getChild link (root.add i) heap = .ok (target.map root.add) := by
  rw [getChild, loaded, ok_bind]
  cases target with
  | none => exact if_pos leads
  | some j =>
    obtain ⟨nonzero, place⟩ := leads
    rw [if_neg nonzero, Pointer.move_add place]
    rfl

/-- The tree that is read from a node of an array is the one its links describe. -/
theorem readsTree_iff (array : heap.read root nodes.length = .ok nodes) (inside : links.Inside nodes)
    {target : Option ℕ} (bound : ∀ i ∈ target, i < nodes.length) :
    ReadsTree heap root (target.map root.add) tree ↔ links.TreeAt nodes target tree := by
  constructor
  · intro reads
    generalize at_ : target.map root.add = p at reads
    induction reads generalizing target with
    | nil =>
      cases target with
      | none => exact .nil
      | some i => cases at_
    | @node p i node l r left right place loaded to_left to_right _ _ ih_left ih_right =>
      cases target with
      | none => cases at_
      | some j =>
        obtain rfl : j = i := root.add_injective ((Option.some.inj at_).trans place)
        obtain ⟨node', found, loaded'⟩ := Heap.load_of_read array (bound j rfl)
        obtain rfl : node' = node := by
          rw [place] at loaded
          exact Except.ok.inj (loaded'.symm.trans loaded)
        obtain ⟨left_in, right_in⟩ := inside j node' found
        obtain ⟨l', leads_l⟩ := left_in.leads
        obtain ⟨r', leads_r⟩ := right_in.leads
        rw [place] at to_left to_right
        have same_l := Except.ok.inj ((getChild_of_leads loaded' leads_l).symm.trans to_left)
        have same_r := Except.ok.inj ((getChild_of_leads loaded' leads_r).symm.trans to_right)
        exact .node found leads_l leads_r (ih_left (leads_l.bound left_in) same_l)
          (ih_right (leads_r.bound right_in) same_r)
  · intro tree_at
    induction tree_at with
    | nil => exact .nil
    | @node i node l r left right found to_left to_right _ _ ih_left ih_right =>
      obtain ⟨node', found', loaded⟩ := Heap.load_of_read array (bound i rfl)
      obtain rfl : node' = node := Option.some.inj (found'.symm.trans found)
      obtain ⟨left_in, right_in⟩ := inside i node' found
      refine .node rfl loaded (getChild_of_leads loaded to_left) (getChild_of_leads loaded to_right)
        (ih_left (to_left.bound left_in)) (ih_right (to_right.bound right_in))

/-- The same at the first node of the array. -/
theorem readsTree_root_iff (array : heap.read root nodes.length = .ok nodes) (inside : links.Inside nodes)
    (nonempty : 0 < nodes.length) :
    ReadsTree heap root (some root) tree ↔ links.TreeAt nodes (some 0) tree := by
  have first : ∀ i ∈ some 0, i < nodes.length := by
    rintro i member
    rwa [← Option.some.inj member]
  exact readsTree_iff array inside first

theorem HoldsTree.treeAt (holds : HoldsTree heap root nodes tree) (nonempty : 0 < nodes.length) :
    links.TreeAt nodes (some 0) tree :=
  (readsTree_root_iff holds.array holds.inside nonempty).mp holds.tree

end Hseos.Sample5
