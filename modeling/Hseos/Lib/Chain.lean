import Mathlib.Data.List.Nodup
import Mathlib.Logic.Function.Basic

/-! # Linked lists in a memory

`IsChain next start cells` says that following the `next` fields from `start` visits these cells in this
order and then ends. A start has one such list at most, so the cells of a chain are distinct. Writing the
field of a cell outside the chain leaves the chain as it is, and a cell that already points to the
successor of another one is inserted after it by a single write.
-/

namespace Hseos

variable {Cell : Type*} {next : Cell → Option Cell} {start : Option Cell} {cells : List Cell}

/-- The cells from `start` to the end of its list. -/
def IsChain (next : Cell → Option Cell) : Option Cell → List Cell → Prop
  | start, [] => start = none
  | start, cell :: rest => start = some cell ∧ IsChain next (next cell) rest

instance IsChain.decidable [DecidableEq Cell] : ∀ start cells, Decidable (IsChain next start cells)
  | start, [] => inferInstanceAs (Decidable (start = none))
  | start, cell :: rest =>
    have := IsChain.decidable (next cell) rest
    inferInstanceAs (Decidable (start = some cell ∧ IsChain next (next cell) rest))

namespace IsChain

theorem cons {cell : Cell} {rest : List Cell} (chain : IsChain next (next cell) rest) :
    IsChain next (some cell) (cell :: rest) :=
  ⟨rfl, chain⟩

/-- A start has one list at most. -/
theorem unique {cells' : List Cell} (first : IsChain next start cells)
    (second : IsChain next start cells') : cells = cells' := by
  induction cells generalizing start cells' with
  | nil =>
    cases cells' with
    | nil => rfl
    | cons => exact absurd (first.symm.trans second.1) nofun
  | cons cell rest ih =>
    cases cells' with
    | nil => exact absurd (first.1.symm.trans second) nofun
    | cons cell' rest' =>
      obtain rfl : cell = cell' := Option.some.inj (first.1.symm.trans second.1)
      rw [ih first.2 second.2]

/-- The rest of a chain is the chain of its first cell. -/
theorem suffix {before rest : List Cell} {cell : Cell}
    (chain : IsChain next start (before ++ cell :: rest)) : IsChain next (next cell) rest := by
  induction before generalizing start with
  | nil => exact chain.2
  | cons _ _ ih => exact ih chain.2

/-- A chain that returned to one of its cells would not end. -/
theorem nodup (chain : IsChain next start cells) : cells.Nodup := by
  induction cells generalizing start with
  | nil => exact List.nodup_nil
  | cons cell rest ih =>
    refine List.nodup_cons.mpr ⟨?_, ih chain.2⟩
    intro again
    obtain ⟨between, after, rfl⟩ := List.append_of_mem again
    have same := chain.2.unique chain.2.suffix
    have length := congrArg List.length same
    simp only [List.length_append, List.length_cons] at length
    omega

theorem congr {next' : Cell → Option Cell} (chain : IsChain next start cells)
    (unchanged : ∀ cell ∈ cells, next' cell = next cell) : IsChain next' start cells := by
  induction cells generalizing start with
  | nil => exact chain
  | cons cell rest ih =>
    refine ⟨chain.1, ?_⟩
    rw [unchanged cell List.mem_cons_self]
    exact ih chain.2 fun other member => unchanged other (List.mem_cons_of_mem _ member)

variable [DecidableEq Cell]

/-- A write to a cell outside a chain. -/
theorem update {cell : Cell} {value : Option Cell} (chain : IsChain next start cells)
    (outside : cell ∉ cells) : IsChain (Function.update next cell value) start cells := by
  apply chain.congr
  intro other member
  exact Function.update_of_ne (ne_of_mem_of_not_mem member outside) _ _

/-- A cell that points to the successor of the first one is linked in between by one write. -/
theorem insert {first cell : Cell} {rest : List Cell}
    (chain : IsChain next (some first) (first :: rest)) (outside : cell ∉ first :: rest)
    (prepared : next cell = next first) :
    IsChain (Function.update next first (some cell)) (some first) (first :: cell :: rest) := by
  have apart : cell ≠ first := List.ne_of_not_mem_cons outside
  have tail : first ∉ rest := (List.nodup_cons.mp chain.nodup).1
  refine .cons ⟨Function.update_self .., ?_⟩
  rw [Function.update_of_ne apart, prepared]
  exact chain.2.update tail

end IsChain

end Hseos
