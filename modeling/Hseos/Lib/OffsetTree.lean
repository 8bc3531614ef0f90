import Mathlib.Algebra.Order.Ring.Int
import Mathlib.Data.Tree.Basic

/-! # Trees in arrays of relative offsets

The links of a node are distances to other nodes of its array, zero where there is no child. The finite tree
that hangs from a link is read with the index of each node in its label, so that a part of it can be told by
its place.
-/

namespace Hseos

variable {ν α : Type*}

/-- The links and the label of a node. -/
structure Links (ν α : Type*) where
  left : ν → ℤ
  right : ν → ℤ
  label : ν → α

/-- An offset at node `i` leads nowhere or to a node. -/
def Leads (i : ℕ) (offset : ℤ) : Option ℕ → Prop
  | none => offset = 0
  | some j => offset ≠ 0 ∧ (j : ℤ) = i + offset

/-- An offset at node `i` does not lead out of an array of this size. -/
def LeadsInside (size i : ℕ) (offset : ℤ) : Prop := offset ≠ 0 → 0 ≤ i + offset ∧ i + offset < size

theorem Leads.bound {size i : ℕ} {offset : ℤ} {target : Option ℕ} (leads : Leads i offset target)
    (inside : LeadsInside size i offset) : ∀ j ∈ target, j < size := by
  rintro j rfl
  obtain ⟨nonzero, place⟩ := leads
  have high := (inside nonzero).2
  omega

theorem LeadsInside.leads {size i : ℕ} {offset : ℤ} (inside : LeadsInside size i offset) :
    ∃ target, Leads i offset target := by
  by_cases zero : offset = 0
  · exact ⟨none, zero⟩
  · exact ⟨some (i + offset).toNat, zero, Int.toNat_of_nonneg (inside zero).1⟩

theorem Leads.shift {i : ℕ} {offset : ℤ} {target : Option ℕ} (leads : Leads i offset target) (d : ℕ) :
    Leads (d + i) offset (target.map (d + ·)) := by
  cases target with
  | none => exact leads
  | some j =>
    obtain ⟨nonzero, place⟩ := leads
    exact ⟨nonzero, by push_cast; rw [place, add_assoc]⟩

theorem LeadsInside.shift {size i : ℕ} {offset : ℤ} (inside : LeadsInside size i offset) (d : ℕ) :
    LeadsInside (d + size) (d + i) offset := by
  intro nonzero
  obtain ⟨low, high⟩ := inside nonzero
  push_cast
  omega

theorem LeadsInside.mono {size size' i : ℕ} {offset : ℤ} (inside : LeadsInside size i offset)
    (larger : size ≤ size') : LeadsInside size' i offset := by
  intro nonzero
  obtain ⟨low, high⟩ := inside nonzero
  omega

/-- The tree with the left subtree of each node at `k` replaced. -/
def replaceLeft (k : ℕ) (subtree : BinaryTree (ℕ × α)) : BinaryTree (ℕ × α) → BinaryTree (ℕ × α)
  | .nil => .nil
  | .node (i, a) left right =>
      .node (i, a) (if i = k then subtree else replaceLeft k subtree left) (replaceLeft k subtree right)

/-- The tree whose nodes lie `d` places further. -/
def shiftTree (d : ℕ) (tree : BinaryTree (ℕ × α)) : BinaryTree (ℕ × α) := tree.map fun (i, a) => (d + i, a)

namespace Links

variable {links : Links ν α} {nodes nodes' : List ν} {target : Option ℕ} {tree subtree : BinaryTree (ℕ × α)}
  {k : ℕ}

/-- No link leads out of the array. -/
def Inside (links : Links ν α) (nodes : List ν) : Prop :=
  ∀ i node, nodes[i]? = some node →
    LeadsInside nodes.length i (links.left node) ∧ LeadsInside nodes.length i (links.right node)

/-- The finite tree that hangs from a link. -/
inductive TreeAt (links : Links ν α) (nodes : List ν) : Option ℕ → BinaryTree (ℕ × α) → Prop
  | nil : TreeAt links nodes none .nil
  | node {i : ℕ} {node : ν} {l r : Option ℕ} {left right : BinaryTree (ℕ × α)}
      (found : nodes[i]? = some node) (to_left : Leads i (links.left node) l)
      (to_right : Leads i (links.right node) r) (tree_left : TreeAt links nodes l left)
      (tree_right : TreeAt links nodes r right) :
      TreeAt links nodes (some i) (.node (i, links.label node) left right)

/-- A tree stays a tree where its array is copied to. -/
theorem TreeAt.shift (d : ℕ)
    (copied : ∀ (i : ℕ) (node : ν), nodes[i]? = some node → nodes'[d + i]? = some node)
    (tree_at : TreeAt links nodes target tree) :
    TreeAt links nodes' (target.map (d + ·)) (shiftTree d tree) := by
  induction tree_at with
  | nil => exact .nil
  | node found to_left to_right _ _ ih_left ih_right =>
    exact .node (copied _ _ found) (to_left.shift d) (to_right.shift d) ih_left ih_right

/-- If only node `k` changes, and this in its left link, its left subtree is replaced. -/
theorem TreeAt.graft {j : ℕ} (tree_at : TreeAt links nodes target tree)
    (others : ∀ (i : ℕ) (node : ν), i ≠ k → nodes[i]? = some node → nodes'[i]? = some node)
    (changed : ∀ node, nodes[k]? = some node → ∃ node', nodes'[k]? = some node' ∧
      links.label node' = links.label node ∧ links.right node' = links.right node ∧
      Leads k (links.left node') (some j))
    (grafted : TreeAt links nodes' (some j) subtree) :
    TreeAt links nodes' target (replaceLeft k subtree tree) := by
  induction tree_at with
  | nil => exact .nil
  | @node i node l r left right found to_left to_right _ _ ih_left ih_right =>
    rw [replaceLeft]
    split_ifs with same
    · subst same
      obtain ⟨node', found', label, right_link, to_left'⟩ := changed node found
      rw [← label]
      exact .node found' to_left' (right_link ▸ to_right) grafted ih_right
    · exact .node (others i node same found) to_left to_right ih_left ih_right

end Links

end Hseos
