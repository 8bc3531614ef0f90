import Hseos.Lib.ForkJoin
import Hseos.Lib.SharedCell

/-! # Programs whose workers add to a shared word

A worker that adds an amount to a word of the shared data, with a load and a store, takes part in the
additions to a shared cell: the word is the amount times the cell, up to its size. What is lost in the one is
lost in the other, and each schedule of the additions is one of the workers.
-/

namespace Hseos

/-- What a step of a worker does to the word and to the worker's own additions. -/
inductive Adder.Turn (size amount : ℕ) : ℕ → Adder → ℕ → Adder → Prop
  | quiet (x : ℕ) (a : Adder) : Turn size amount x a x a
  | load (x l : ℕ) : Turn size amount x ⟨l + 1, none⟩ x ⟨l + 1, some x⟩
  | store (x v l : ℕ) : Turn size amount x ⟨l + 1, some v⟩ ((v + amount) % size) ⟨l, none⟩

namespace Additions

variable {ι : Type*} [DecidableEq ι] {size amount x x' : ℕ} {view : ι → Adder} {a : Adder} {t : ι}
variable {s s' : Additions ι}

/-- The word and the workers' additions are those of the cell. -/
structure Counts (size amount x : ℕ) (view : ι → Adder) (s : Additions ι) : Prop where
  cell : x = amount * s.cell % size
  left : ∀ t, (view t).left = (s.adder t).left
  loaded : ∀ t, (view t).loaded = (s.adder t).loaded.map fun v => amount * v % size

theorem Counts.update (counts : Counts size amount x view s) {b : Adder} (cell : x' = amount * s'.cell % size)
    (adder : s'.adder = Function.update s.adder t b) (left : a.left = b.left)
    (loaded : a.loaded = b.loaded.map fun v => amount * v % size) :
    Counts size amount x' (Function.update view t a) s' := by
  refine ⟨cell, ?_, ?_⟩
  all_goals
    intro u
    rw [adder]
    simp only [Function.update_apply]
    split_ifs
  · exact left
  · exact counts.left u
  · exact loaded
  · exact counts.loaded u

/-- A turn of a worker is a step of its additions, or none. -/
theorem Counts.turn (counts : Counts size amount x view s) (turn : Adder.Turn size amount x (view t) x' a) :
    ∃ s', (s' = s ∨ view t ≠ a ∧ s.step t = some s') ∧ Counts size amount x' (Function.update view t a) s' := by
  have left := counts.left t
  have loaded := counts.loaded t
  generalize here : view t = before at turn left loaded ⊢
  cases turn with
  | quiet =>
    refine ⟨s, .inl rfl, ?_⟩
    rw [← here, Function.update_eq_self]
    exact counts
  | load l =>
    have none : (s.adder t).loaded = none := Option.map_eq_none_iff.mp loaded.symm
    refine ⟨s.setAdder t ⟨l + 1, some s.cell⟩, .inr ⟨by rintro ⟨⟩, ?_⟩, ?_⟩
    · simp only [step, none, ← left, if_neg (Nat.succ_ne_zero l)]
    · refine counts.update (b := ⟨l + 1, some s.cell⟩) counts.cell rfl rfl ?_
      rw [counts.cell]
      rfl
  | store v l =>
    obtain ⟨w, seen, same⟩ := Option.map_eq_some_iff.mp loaded.symm
    refine ⟨{ s.setAdder t ⟨l, none⟩ with cell := w + 1 }, .inr ⟨by rintro ⟨⟩, ?_⟩, ?_⟩
    · simp only [step, seen, ← left, Nat.add_sub_cancel]
    · refine counts.update ?_ rfl rfl rfl
      rw [← same, Nat.mod_add_mod, Nat.mul_succ]

/-- A step of the additions is a turn of the worker. -/
theorem Counts.of_step (counts : Counts size amount x view s) (some_ : ∀ t v, (s.adder t).loaded = some v →
      0 < (s.adder t).left) (moved : s.step t = some s') :
    ∃ x' a, Adder.Turn size amount x (view t) x' a ∧ view t ≠ a ∧
      Counts size amount x' (Function.update view t a) s' := by
  have left := counts.left t
  have loaded := counts.loaded t
  obtain ⟨v, seen, rfl⟩ | ⟨none, positive, rfl⟩ := step_cases moved
  · obtain ⟨l, more⟩ := Nat.exists_eq_add_one_of_ne_zero (some_ t v seen).ne'
    rw [seen, Option.map_some] at loaded
    rw [more] at left
    have here : view t = ⟨l + 1, some (amount * v % size)⟩ := by rw [← left, ← loaded]
    refine ⟨(amount * v % size + amount) % size, ⟨l, Option.none⟩, ?_, ?_, ?_⟩
    · rw [here]
      exact .store x _ l
    · rw [here]
      rintro ⟨⟩
    · refine counts.update ?_ rfl ?_ rfl
      · rw [Nat.mod_add_mod, Nat.mul_succ]
      · rw [more, Nat.add_sub_cancel]
  · obtain ⟨l, more⟩ := Nat.exists_eq_add_one_of_ne_zero positive.ne'
    rw [none, Option.map_none] at loaded
    rw [more] at left ⊢
    have here : view t = ⟨l + 1, Option.none⟩ := by rw [← left, ← loaded]
    refine ⟨x, ⟨l + 1, some x⟩, ?_, ?_, ?_⟩
    · rw [here]
      exact .load x l
    · rw [here]
      rintro ⟨⟩
    · refine counts.update (b := ⟨l + 1, some s.cell⟩) counts.cell rfl rfl ?_
      rw [counts.cell]
      rfl

omit [DecidableEq ι] in
/-- Nothing has been lost when all additions have been stored. -/
theorem Counts.of_done [Fintype ι] {n : ℕ} (counts : Counts size amount x view s) (exact : s.Exact n)
    (done : ∀ t, (view t).left = 0) : x = amount * (Fintype.card ι * n) % size := by
  have sum := exact.sum
  rw [missing_of_done fun t => (counts.left t).symm.trans (done t), Nat.add_zero] at sum
  rw [counts.cell, sum]

end Additions

namespace ForkJoin

variable {ι Shared Local Choice : Type*} [DecidableEq ι] {p : ForkJoin ι Shared Local Choice}
variable {s : State ι Shared Local} {size amount n : ℕ} (cell : Shared → ℕ) (view : Local → Adder)

variable (size amount) in
/-- In every run of workers that add `n` times, the word is that of a run of the additions. What holds in
every run of the program decides which steps of the additions this run takes. -/
theorem additions_of_reachable (Inv : Shared → (ι → Local) → Prop) (allowed : Additions ι → ι → Prop)
    (zero : cell p.initial = 0) (entry : view p.entry = ⟨n, none⟩) (initial : Inv p.initial fun _ => p.entry)
    (works : ∀ shared place t choice shared' l, Inv shared place →
      p.work t choice shared (place t) = some (shared', l) → Inv shared' (Function.update place t l) ∧
        Adder.Turn size amount (cell shared) (view (place t)) (cell shared') (view l))
    (runs : ∀ f, .run f ∈ p.script → ∀ shared place, Inv shared place →
      Inv (f shared) place ∧ cell (f shared) = cell shared)
    (permits : ∀ shared place t choice shared' l a, Inv shared place →
      p.work t choice shared (place t) = some (shared', l) → view (place t) ≠ view l →
      Additions.Counts size amount (cell shared) (fun t => view (place t)) a → allowed a t)
    (reachable : p.machine.Reachable (fun _ _ => True) s) :
    Inv s.shared (p.place s) ∧ ∃ a, (Additions.machine ι n).Reachable allowed a ∧
      Additions.Counts size amount (cell s.shared) (fun t => view (p.place s t)) a := by
  apply And.right (invariant (fun shared place => Inv shared place ∧
    ∃ a, (Additions.machine ι n).Reachable allowed a ∧
      Additions.Counts size amount (cell shared) (fun t => view (place t)) a) ?_ ?_ ?_ reachable)
  · refine ⟨initial, _, .start rfl, ?_, ?_, ?_⟩
    · rw [zero, Nat.mul_zero, Nat.zero_mod]
    · intro t
      rw [entry]
    · intro t
      rw [entry]
      rfl
  · rintro shared place t choice shared' l ⟨inv, a, reached, counts⟩ worked
    obtain ⟨inv', turn⟩ := works _ _ _ _ _ _ inv worked
    obtain ⟨a', moved, counts'⟩ := counts.turn turn
    have same : (fun u => view (Function.update place t l u)) =
        Function.update (fun u => view (place u)) t (view l) := by
      funext u
      exact Function.apply_update (fun _ => view) place t l u
    rw [same]
    refine ⟨inv', a', ?_, counts'⟩
    obtain rfl | ⟨changes, stepped⟩ := moved
    · exact reached
    · exact .step reached (permits _ _ _ _ _ _ _ inv worked changes counts) stepped
  · rintro f member shared place ⟨inv, a, reached, counts⟩
    obtain ⟨inv', same⟩ := runs f member shared place inv
    rw [same]
    exact ⟨inv', a, reached, counts⟩

/-- What a step of a worker does to a lock. -/
inductive LockTurn (t : ι) : Option ι → Bool → Option ι → Bool → Prop
  | keep (owner : Option ι) (holds : Bool) : LockTurn t owner holds owner holds
  | take : LockTurn t none false (some t) true
  | release (owner : Option ι) : LockTurn t owner true none false

/-- The owner of a lock is the worker that holds it. -/
theorem LockTurn.owner_iff {t : ι} {owner owner' : Option ι} {has : Bool} (holds : ι → Bool)
    (turn : LockTurn t owner (holds t) owner' has) (owner_iff : ∀ u, owner = some u ↔ holds u = true) (u : ι) :
    owner' = some u ↔ Function.update holds t has u = true := by
  have mine := owner_iff t
  rw [Function.update_apply]
  generalize here : holds t = before at turn mine
  cases turn with
  | keep =>
    rw [owner_iff u]
    split_ifs with same
    · rw [same, here]
    · exact Iff.rfl
  | take =>
    split_ifs with same
    · rw [same]
      exact iff_of_true rfl rfl
    · exact iff_of_false (fun other => same (Option.some_inj.mp other).symm)
        fun holds => nomatch (owner_iff u).mpr holds
  | release =>
    split_ifs with same
    · exact iff_of_false nofun nofun
    · refine iff_of_false nofun fun other => same ?_
      exact Option.some_inj.mp (((owner_iff u).mpr other).symm.trans (mine.mpr rfl))

/-- Workers that add only while they hold a lock lose nothing, and at most one holds it. -/
theorem exact_of_locked [Fintype ι] (owner : Shared → Option ι) (holds : Local → Bool) (Good : Local → Prop)
    (zero : cell p.initial = 0) (entry : view p.entry = ⟨n, none⟩) (free : owner p.initial = none)
    (outside : holds p.entry = false) (good : Good p.entry)
    (inside : ∀ l, (view l).loaded ≠ none → holds l = true)
    (works : ∀ shared l t choice shared' l', Good l → p.work t choice shared l = some (shared', l') → Good l' ∧
      LockTurn t (owner shared) (holds l) (owner shared') (holds l') ∧ (view l ≠ view l' → holds l = true) ∧
        Adder.Turn size amount (cell shared) (view l) (cell shared') (view l'))
    (runs : ∀ f, .run f ∈ p.script → ∀ shared, owner (f shared) = owner shared ∧ cell (f shared) = cell shared)
    (reachable : p.machine.Reachable (fun _ _ => True) s) :
    (∀ t, Good (p.place s t)) ∧ (∀ t, owner s.shared = some t ↔ holds (p.place s t) = true) ∧
      ∃ a : Additions ι, a.Exact n ∧
        Additions.Counts size amount (cell s.shared) (fun t => view (p.place s t)) a := by
  have result := additions_of_reachable size amount cell view (n := n)
    (fun shared place => (∀ t, Good (place t)) ∧ ∀ t, owner shared = some t ↔ holds (place t) = true)
    Additions.Alone zero entry
    ⟨fun _ => good, fun t => by rw [free, outside]; exact iff_of_false nofun nofun⟩ ?_ ?_ ?_ reachable
  · obtain ⟨⟨allGood, owner_iff⟩, a, reached, counts⟩ := result
    exact ⟨allGood, owner_iff, a, Additions.exact_of_reachable (fun _ _ alone => alone) reached, counts⟩
  · rintro shared place t choice shared' l ⟨allGood, owner_iff⟩ worked
    obtain ⟨good', lock, -, turn⟩ := works _ _ _ _ _ _ (allGood t) worked
    refine ⟨⟨forall_update_all good' allGood, ?_⟩, turn⟩
    intro u
    have iff := lock.owner_iff (fun t => holds (place t)) owner_iff u
    rw [iff, Function.apply_update (fun _ => holds) place t l u]
  · rintro f member shared place ⟨allGood, owner_iff⟩
    obtain ⟨same, same'⟩ := runs f member shared
    rw [same]
    exact ⟨⟨allGood, owner_iff⟩, same'⟩
  · rintro shared place t choice shared' l a ⟨allGood, owner_iff⟩ worked changes counts u other
    obtain ⟨-, -, holding, -⟩ := works _ _ _ _ _ _ (allGood t) worked
    have mine := (owner_iff t).mpr (holding changes)
    by_contra seen
    have loaded := counts.loaded u
    have holds_u : holds (place u) = true := by
      apply inside
      rw [loaded]
      exact fun none => seen (Option.map_eq_none_iff.mp none)
    exact other (Option.some_inj.mp (((owner_iff u).mpr holds_u).symm.trans mine))

/-- Where a worker comes closer to its end whenever the lock is free or its own, the main thread can always come
to its end. -/
theorem exists_ended_of_locked [Fintype ι] (owner : Shared → Option ι) (holds : Local → Bool) (Good : Local → Prop)
    (left : Local → ℕ) (outside : holds p.entry = false) (returned : ∀ l, p.returned l = true → holds l = false)
    (goes : ∀ t shared l, Good l → p.returned l = false → owner shared = none ∨ holds l = true →
      ∃ choice shared' l', p.work t choice shared l = some (shared', l') ∧ left l' < left l)
    (locked : ∀ s, p.machine.Reachable (fun _ _ => True) s →
      (∀ t, Good (p.place s t)) ∧ ∀ t, owner s.shared = some t ↔ holds (p.place s t) = true)
    (reachable : p.machine.Reachable (fun _ _ => True) s) :
    ∃ schedule s', p.machine.run s schedule = some s' ∧ s'.main = [] := by
  apply exists_ended left _ reachable
  intro s reachable t l here working
  obtain ⟨good, owner_iff⟩ := locked s reachable
  cases holder : owner s.shared with
  | none =>
    obtain ⟨choice, shared, l', worked, less⟩ :=
      goes t s.shared l (place_of_worker (p := p) here ▸ good t) working (.inl holder)
    exact ⟨t, choice, shared, l, l', here, worked, less⟩
  | some u =>
    have has := (owner_iff u).mp holder
    cases there : s.worker u with
    | none =>
      rw [place, there, Option.getD_none, outside] at has
      cases has
    | some l₀ =>
      have good := good u
      rw [place_of_worker there] at has good
      have running : p.returned l₀ = false := by
        by_contra back
        cases has.symm.trans (returned l₀ (Bool.eq_true_of_not_eq_false back))
      obtain ⟨choice, shared, l', worked, less⟩ := goes u s.shared l₀ good running (.inr has)
      exact ⟨u, choice, shared, l₀, l', there, worked, less⟩

/-- Where all workers that were created add whenever it is their turn, each schedule of the additions is one of
the workers. The rest of the shared data is left alone. -/
theorem replay [Fintype ι] [Nonempty ι] {Rest : Type*} (rest : Shared → Rest) (ready : Local → Prop)
    (follows : ∀ t shared l x a, ready l → Adder.Turn size amount (cell shared) (view l) x a → view l ≠ a →
      ∃ choice shared' l', p.work t choice shared l = some (shared', l') ∧ cell shared' = x ∧ view l' = a ∧
        rest shared' = rest shared ∧ ready l')
    {schedule : List ι} {a a' : Additions ι}
    (reached : (Additions.machine ι n).Reachable (fun _ _ => True) a)
    (ran : (Additions.machine ι n).run a schedule = some a')
    (reachable : p.machine.Reachable (fun _ _ => True) s) (working : ∀ t, ∃ l, s.worker t = some l ∧ ready l)
    (counts : Additions.Counts size amount (cell s.shared) (fun t => view (p.place s t)) a) :
    ∃ s', p.machine.Reachable (fun _ _ => True) s' ∧ s'.main = s.main ∧ rest s'.shared = rest s.shared ∧
      (∀ t, ∃ l, s'.worker t = some l ∧ ready l) ∧
      Additions.Counts size amount (cell s'.shared) (fun t => view (p.place s' t)) a' := by
  induction schedule generalizing a s with
  | nil =>
    cases ran
    exact ⟨s, reachable, rfl, rfl, working, counts⟩
  | cons t later ih =>
    obtain ⟨next, moved, remaining⟩ := Option.bind_eq_some_iff.mp ran
    have some_ (u : ι) (v : ℕ) (seen : (a.adder u).loaded = some v) : 0 < (a.adder u).left :=
      ((Additions.raced_of_reachable reached).loaded u v seen).1
    obtain ⟨x, b, turn, changes, counts'⟩ := counts.of_step some_ moved
    obtain ⟨l, here, isReady⟩ := working t
    rw [place_of_worker here] at turn changes
    obtain ⟨choice, shared, l', worked, same, looks, kept, ready'⟩ := follows t _ l x b isReady turn changes
    have stepped : p.workStep t choice s =
        some { s with shared := shared, worker := Function.update s.worker t (some l') } :=
      Option.bind_eq_some_iff.mpr ⟨l, here, Option.map_eq_some_iff.mpr ⟨_, worked, rfl⟩⟩
    have view_eq : (fun u => view (Function.update (p.place s) t l' u)) =
        Function.update (fun u => view (p.place s u)) t b := by
      rw [← looks]
      funext u
      exact Function.apply_update (fun _ => view) (p.place s) t l' u
    have result := ih (.step reached trivial moved) remaining
      (.step reachable (a := .work t choice) trivial stepped) ?_ ?_
    · obtain ⟨s', reachable', main, unchanged, working', counts''⟩ := result
      exact ⟨s', reachable', main, unchanged.trans kept, working', counts''⟩
    · intro u
      simp only [Function.update_apply]
      split_ifs
      · exact ⟨l', rfl, ready'⟩
      · exact working u
    · rw [place_work, view_eq, same]
      exact counts'

end ForkJoin

end Hseos
