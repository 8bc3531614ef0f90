import Mathlib.Data.Set.Finite.Lattice
import Mathlib.Logic.Relation
import Mathlib.Order.WellFoundedSet

/-! # Walks over the live vertices of a directed graph

`Walk edge live i j` says that `j` can be reached from `i` along edges all of whose vertices, the
two ends included, are live. A traversal that stops at dead vertices visits exactly these vertices.
When a first traversal makes all vertices it visits dead, a second one from another vertex visits
exactly those of its own vertices that the first one left (`walk_after_iff`).
-/

namespace Hseos

variable {ι : Type*} {edge : ι → ι → Prop} {live live' : ι → Prop} {i j k : ι}

/-- Reachability along edges between live vertices. -/
inductive Walk (edge : ι → ι → Prop) (live : ι → Prop) : ι → ι → Prop
  | here {i : ι} (alive : live i) : Walk edge live i i
  | step {i j k : ι} (alive : live i) (next : edge i j) (rest : Walk edge live j k) :
      Walk edge live i k

namespace Walk

theorem source (walk : Walk edge live i j) : live i := by
  cases walk <;> assumption

theorem target (walk : Walk edge live i j) : live j := by
  induction walk with
  | here alive => exact alive
  | step _ _ _ ih => exact ih

theorem trans (first : Walk edge live i j) (second : Walk edge live j k) : Walk edge live i k := by
  induction first with
  | here => exact second
  | step alive next _ ih => exact .step alive next (ih second)

theorem snoc (first : Walk edge live i j) (next : edge j k) (alive : live k) : Walk edge live i k :=
  first.trans (.step first.target next (.here alive))

theorem mono (weaker : ∀ i, live i → live' i) (walk : Walk edge live i j) : Walk edge live' i j := by
  induction walk with
  | here alive => exact .here (weaker _ alive)
  | step alive next _ ih => exact .step (weaker _ alive) next ih

/-- A walk stays at its start or leaves it along an edge. -/
theorem iff_edge : Walk edge live i k ↔ live i ∧ (k = i ∨ ∃ j, edge i j ∧ Walk edge live j k) := by
  constructor
  · intro walk
    cases walk with
    | here alive => exact ⟨alive, .inl rfl⟩
    | step alive next rest => exact ⟨alive, .inr ⟨_, next, rest⟩⟩
  · rintro ⟨alive, rfl | ⟨j, next, rest⟩⟩
    · exact .here alive
    · exact .step alive next rest

/-- If all vertices are live, a walk is reachability. -/
theorem iff_reflTransGen : Walk edge (fun _ => True) i j ↔ Relation.ReflTransGen edge i j := by
  constructor
  · intro walk
    induction walk with
    | here => exact .refl
    | step _ next _ ih => exact .head next ih
  · intro path
    induction path using Relation.ReflTransGen.head_induction_on with
    | refl => exact .here trivial
    | head next _ ih => exact .step trivial next ih

theorem reachable (walk : Walk edge live i j) : Relation.ReflTransGen edge i j :=
  iff_reflTransGen.mp (walk.mono fun _ _ => trivial)

end Walk

/-- After all vertices a walk from `i` visits became dead, walks from elsewhere visit exactly the
vertices they visited before, less these. -/
theorem walk_after_iff {start : ι} (dead : ∀ v, live' v ↔ live v ∧ ¬Walk edge live start v) :
    Walk edge live' j k ↔ Walk edge live j k ∧ ¬Walk edge live start k := by
  constructor
  · intro walk
    exact ⟨walk.mono fun v alive => ((dead v).mp alive).1, ((dead k).mp walk.target).2⟩
  · rintro ⟨walk, unseen⟩
    induction walk with
    | here alive => exact .here ((dead _).mpr ⟨alive, unseen⟩)
    | step alive next rest ih =>
      -- a vertex the first walk had seen would have led it on to `k`
      have fresh : ¬Walk edge live start _ := fun seen => unseen (seen.trans (.step alive next rest))
      exact .step ((dead _).mpr ⟨alive, fresh⟩) next (ih unseen)

/-- Each element of the list comes when all its successors are done or stand before it. -/
def Scheduled (edge : ι → ι → Prop) : (ι → Prop) → List ι → Prop
  | _, [] => True
  | finished, i :: rest =>
      (∀ j, edge i j → finished j) ∧ Scheduled edge (fun j => finished j ∨ j = i) rest

theorem Scheduled.mono {finished finished' : ι → Prop} (more : ∀ j, finished j → finished' j)
    {list : List ι} (scheduled : Scheduled edge finished list) : Scheduled edge finished' list := by
  induction list generalizing finished finished' with
  | nil => trivial
  | cons i rest ih =>
    obtain ⟨first, later⟩ := scheduled
    exact ⟨fun j next => more j (first j next), ih (fun j before => before.imp_left (more j)) later⟩

theorem scheduled_append {finished : ι → Prop} {first second : List ι} :
    Scheduled edge finished (first ++ second) ↔
      Scheduled edge finished first ∧ Scheduled edge (fun j => finished j ∨ j ∈ first) second := by
  induction first generalizing finished with
  | nil => simp [Scheduled]
  | cons i rest ih => simp only [List.cons_append, Scheduled, ih, and_assoc, List.mem_cons, or_assoc]

/-- Each successor of an element is done from the start or stands before it. -/
theorem Scheduled.successor {finished : ι → Prop} {before after : List ι}
    (scheduled : Scheduled edge finished (before ++ i :: after)) (next : edge i j) :
    finished j ∨ j ∈ before :=
  (scheduled_append.mp scheduled).2.1 j next

/-- On finitely many vertices a graph without cycles is well-founded against its edges. -/
theorem wellFounded_of_acyclic {vertices : Set ι} (finite : vertices.Finite)
    (inside : ∀ i j, edge i j → i ∈ vertices ∧ j ∈ vertices)
    (acyclic : ∀ i, ¬Relation.TransGen edge i i) : WellFounded (fun j i => edge i j) := by
  let below : ι → ι → Prop := fun j i => Relation.TransGen edge i j
  have : IsStrictOrder ι below :=
    { irrefl := acyclic
      trans := fun _ _ _ first second => second.trans first }
  have founded := Set.wellFoundedOn_iff.mp (finite.wellFoundedOn (r := below))
  refine Subrelation.wf ?_ founded
  intro j i next
  exact ⟨.single next, (inside i j next).2, (inside i j next).1⟩

end Hseos
