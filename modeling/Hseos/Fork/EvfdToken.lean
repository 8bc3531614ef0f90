import Hseos.Fork.EvfdSync
import Hseos.Lib.Family

/-! # The token of the ring

The number that is passed on is a token: it is in one eventfd or with one child. The children take turns,
and once `u` numbers have been passed on, the next one is `u + 1` and goes to child `u % THREADS`. A child
that passes on a number above `N` exits, so the last lap sends each child the number it exits with, and
the number after that stays in the eventfd of the child that exited first.
-/

namespace Hseos.EvfdSync

variable {threads n u : ℕ} [NeZero threads] {s s' : Ring threads} {i : Fin threads}

/-- A child has read a number that it has not passed on. -/
def ChildPc.holds : ChildPc → Bool
  | .print _ | .write _ => true
  | .notForked | .read | .test _ | .exited => false

/-- The eventfds with a number in them and the children between their read and their write. -/
def Ring.tokens (s : Ring threads) : ℕ :=
  (Finset.univ.filter fun i => s.fds i ≠ 0).card +
    (Finset.univ.filter fun i => (s.children i).holds).card

/-- The lines with the numbers up to `k`, printed by the children in turn. -/
def numbers (threads k : ℕ) : List Line := (List.range k).map fun x => .number (x % threads) (x + 1)

/-- The child that is sent `u + 1`. -/
def turn (threads : ℕ) [NeZero threads] (u : ℕ) : Fin threads := Fin.ofNat threads u

theorem nextId_turn : nextId (turn threads u) = turn threads (u + 1) :=
  Fin.ext (Nat.mod_add_mod u threads 1)

theorem turn_add : turn threads (u + threads) = turn threads u := Fin.ext (Nat.add_mod_right u threads)

/-- Two turns of one child are a lap apart. -/
theorem turn_lap {w : ℕ} (same : turn threads w = turn threads u) (before : w < u) : w + threads ≤ u := by
  have residue : u ≡ w [MOD threads] := (Fin.val_eq_of_eq same).symm
  have lap := Nat.le_of_dvd (Nat.sub_pos_of_lt before) ((Nat.modEq_iff_dvd' before.le).mp residue.symm)
  omega

theorem numbers_succ (k : ℕ) :
    numbers threads (k + 1) = numbers threads k ++ [.number (turn threads k) (k + 1)] := by
  simp [numbers, List.range_succ, turn]

/-- What a child that does not hold the token may be doing once `u` numbers have been passed on. -/
inductive Idle (n u : ℕ) (i : Fin threads) : ChildPc → Prop
  | read (alive : ∀ w < u, turn threads w = i → w + 1 < n) : Idle n u i .read
  | test {w : ℕ} (past : w < u) (own : turn threads w = i) (last : u ≤ w + threads) :
      Idle n u i (.test (w + 2))
  | exited {w : ℕ} (past : w < u) (own : turn threads w = i) (beyond : n ≤ w + 1) : Idle n u i .exited

/-- A child that is not next is idle after the next number as well. -/
theorem Idle.pass {pc : ChildPc} (idle : Idle n u i pc) (other : i ≠ turn threads u) :
    Idle n (u + 1) i pc := by
  cases idle with
  | read alive =>
    apply Idle.read
    intro w before own
    have apart : w ≠ u := by
      rintro rfl
      exact other own.symm
    exact alive w (by omega) own
  | @test w past own last =>
    have apart : u ≠ w + threads := by
      rintro rfl
      exact other (own.symm.trans turn_add.symm)
    exact .test (by omega) own (by omega)
  | exited past own beyond => exact .exited (by omega) own beyond

/-- An idle child with an empty eventfd can only finish its test. -/
theorem Idle.step (idle : Idle n u i (s.children i)) (moved : s.childStep n i = some s') :
    (s.children i = .read ∧ s.fds i ≠ 0) ∨ ∃ pc, Idle n u i pc ∧ s' = s.setChild i pc := by
  simp only [Ring.childStep] at moved
  generalize at_ : s.children i = pc at idle moved
  cases idle with
  | read =>
    left
    refine ⟨rfl, ?_⟩
    intro empty
    rw [empty, eventRead_zero] at moved
    cases moved
  | @test w past own last =>
    right
    cases moved
    refine ⟨_, ?_, rfl⟩
    split_ifs with beyond
    · exact .exited past own (by omega)
    · apply Idle.read
      intro earlier before same
      rcases Nat.lt_or_ge w earlier with late | early
      · have lap := turn_lap (own.trans same.symm) late
        omega
      · omega
  | exited => cases moved

/-- The parent has sent the first number. -/
def Ring.Waits (s : Ring threads) : Prop := s.parent = .wait ∨ s.parent = .exited

/-- Where the token is: nowhere before the first write, in the eventfd of the child whose turn it is, or
with that child. -/
inductive Phase (n : ℕ) (s : Ring threads) : Prop
  | forking {f : ℕ} (parent : s.parent = .fork f)
      (children : ∀ i : Fin threads, s.children i = if i < f then .read else .notForked)
      (empty : s.fds = fun _ => 0) (printed : s.printed = [])
  | forked (parent : s.parent = .write) (children : ∀ i, s.children i = .read)
      (empty : s.fds = fun _ => 0) (printed : s.printed = [])
  | sent {u : ℕ} (parent : s.Waits) (token : s.fds = Function.update (fun _ => 0) (turn threads u) (u + 1))
      (idle : ∀ i, Idle n u i (s.children i)) (printed : s.printed = numbers threads (min u n))
  | taken {u : ℕ} (parent : s.Waits) (empty : s.fds = fun _ => 0)
      (idle : ∀ i ≠ turn threads u, Idle n u i (s.children i))
      (holder : s.children (turn threads u) = .print (u + 1)) (bound : u + 2 ≤ n + threads)
      (printed : s.printed = numbers threads (min u n))
  | written {u : ℕ} (parent : s.Waits) (empty : s.fds = fun _ => 0)
      (idle : ∀ i ≠ turn threads u, Idle n u i (s.children i))
      (holder : s.children (turn threads u) = .write (u + 2)) (bound : u + 2 ≤ n + threads)
      (printed : s.printed = numbers threads (min (u + 1) n))

/-- A child whose turn it is has not exited, which bounds the number it is sent. -/
theorem Idle.bound (positive : 1 ≤ n) (idle : Idle n u (turn threads u) .read) :
    u + 2 ≤ n + threads := by
  cases idle with
  | read alive =>
    rcases Nat.lt_or_ge u threads with first | later
    · omega
    · have previous : turn threads (u - threads) = turn threads u := by
        rw [← turn_add, Nat.sub_add_cancel later]
      have short : u - threads < u := by
        have := Nat.pos_of_neZero threads
        omega
      have below := alive (u - threads) short previous
      omega

variable (positive : 1 ≤ n) (small : n + threads < 2 ^ 64 - 1)
include positive small

theorem Phase.child (phase : Phase n s) (moved : s.childStep n i = some s') : Phase n s' := by
  cases phase with
  | forking parent children empty printed =>
    simp only [Ring.childStep, children, empty, eventRead_zero] at moved
    split_ifs at moved
    all_goals cases moved
  | forked parent children empty printed =>
    simp only [Ring.childStep, children, empty, eventRead_zero] at moved
    cases moved
  | @sent u parent token idle printed =>
    obtain ⟨reads, pending⟩ | ⟨pc, new, rfl⟩ := (idle i).step moved
    · obtain rfl : i = turn threads u := by
        by_contra other
        rw [token, Function.update_of_ne other] at pending
        exact pending rfl
      have bound := Idle.bound positive (reads ▸ idle (turn threads u))
      simp only [Ring.childStep, reads, token, Function.update_self, eventRead_pos (Nat.succ_ne_zero u),
        Option.map_some, Option.some.injEq] at moved
      subst moved
      refine .taken parent ?_ ?_ (Function.update_self ..) bound printed
      · simp [Ring.setChild, Ring.setFd, token]
      · intro j other
        simpa [Ring.setChild, Ring.setFd, Function.update_of_ne other] using idle j
    · exact .sent parent token (forall_update_all new idle) printed
  | @taken u parent empty idle holder bound printed =>
    rcases eq_or_ne i (turn threads u) with rfl | other
    · simp only [Ring.childStep, holder, Option.some.injEq] at moved
      have next : wordAdd 64 (u + 1) 1 = u + 2 := wordAdd_of_lt (by omega)
      have rest : ∀ i ≠ turn threads u,
          Idle n u i ((s.setChild (turn threads u) (.write (u + 2))).children i) := by
        intro j other
        simpa [Ring.setChild, Function.update_of_ne other] using idle j other
      rw [next] at moved
      subst moved
      split_ifs with within
      · refine .written parent empty rest (Function.update_self ..) bound ?_
        rw [Nat.min_eq_left within, numbers_succ, ← Nat.min_eq_left (Nat.le_of_succ_le within), ← printed]
        simp [Ring.setChild, Ring.print]
      · refine .written parent empty rest (Function.update_self ..) bound ?_
        rw [Nat.min_eq_right (by omega), ← Nat.min_eq_right (Nat.le_of_not_lt within)]
        exact printed
    · obtain ⟨-, pending⟩ | ⟨pc, new, rfl⟩ := (idle i other).step moved
      · exact absurd (congrFun empty i) pending
      · refine .taken parent empty (forall_update (· ≠ turn threads u) (fun _ => new) idle) ?_ bound printed
        exact (Function.update_of_ne other.symm _ _).trans holder
  | @written u parent empty idle holder bound printed =>
    rcases eq_or_ne i (turn threads u) with rfl | other
    · have written : eventWrite 0 (u + 2) = some (true, u + 2) := eventWrite_empty (by omega)
      simp only [Ring.childStep, holder, empty, written, Option.map_some, Option.some.injEq] at moved
      subst moved
      have past : Idle n (u + 1) (turn threads u) (.test (u + 2)) :=
        .test (Nat.lt_succ_self u) rfl (Nat.add_le_add_left (Nat.pos_of_neZero threads) u)
      refine .sent (u := u + 1) parent ?_ ?_ printed
      · simp [Ring.setChild, Ring.setFd, Ring.checkResult, empty, nextId_turn]
      · intro j
        simp only [Ring.setChild, Ring.setFd, Ring.checkResult, if_true, Function.update_apply]
        split_ifs with same
        · exact same ▸ past
        · exact (idle j same).pass same
    · obtain ⟨-, pending⟩ | ⟨pc, new, rfl⟩ := (idle i other).step moved
      · exact absurd (congrFun empty i) pending
      · refine .written parent empty (forall_update (· ≠ turn threads u) (fun _ => new) idle) ?_ bound printed
        exact (Function.update_of_ne other.symm _ _).trans holder

omit positive small

/-- Behind the first write, the parent changes only how many children it has waited for. -/
theorem Ring.Waits.step (waits : s.Waits) (moved : s.parentStep = some s') :
    s'.Waits ∧ s'.children = s.children ∧ s'.fds = s.fds ∧ s'.printed = s.printed := by
  obtain parent | parent := waits
  · simp only [Ring.parentStep, parent] at moved
    split_ifs at moved
    · cases moved
      exact ⟨.inl rfl, rfl, rfl, rfl⟩
    · cases moved
      exact ⟨.inr rfl, rfl, rfl, rfl⟩
  · simp only [Ring.parentStep, parent] at moved
    cases moved

theorem Phase.parent (phase : Phase n s) (moved : s.parentStep = some s') : Phase n s' := by
  cases phase with
  | @forking f parent children empty printed =>
    simp only [Ring.parentStep, parent] at moved
    split_ifs at moved with more
    · cases moved
      refine .forking (f := f + 1) rfl ?_ empty printed
      intro i
      simp only [Ring.setChild, Function.update_apply, children, Fin.ext_iff]
      split_ifs <;> first | rfl | omega
    · cases moved
      refine .forked rfl ?_ empty printed
      intro i
      rw [children i, if_pos (i.isLt.trans_le (Nat.le_of_not_lt more))]
  | forked parent children empty printed =>
    simp only [Ring.parentStep, parent, empty] at moved
    cases moved
    refine .sent (u := 0) (.inl rfl) ?_ ?_ ?_
    · rw [← empty]
      rfl
    · intro i
      exact (children i).symm ▸ .read fun w before => absurd before (Nat.not_lt_zero w)
    · simpa [numbers, Ring.checkResult, Ring.setFd] using printed
  | sent waits token idle printed =>
    obtain ⟨waits', children, fds, lines⟩ := waits.step moved
    exact .sent waits' (fds.trans token) (children ▸ idle) (lines.trans printed)
  | taken waits empty idle holder bound printed =>
    obtain ⟨waits', children, fds, lines⟩ := waits.step moved
    exact .taken waits' (fds.trans empty) (children ▸ idle) (children ▸ holder) bound
      (lines.trans printed)
  | written waits empty idle holder bound printed =>
    obtain ⟨waits', children, fds, lines⟩ := waits.step moved
    exact .written waits' (fds.trans empty) (children ▸ idle) (children ▸ holder) bound
      (lines.trans printed)

include positive small in
theorem phase_of_reachable (reachable : (evfdSync threads n).Reachable (fun _ _ => True) s) :
    Phase n s := by
  apply reachable.invariant
  · rintro s rfl
    exact .forking rfl (fun _ => (if_neg (Nat.not_lt_zero _)).symm) rfl rfl
  · intro s s' a _ phase moved
    cases a with
    | parent => exact phase.parent moved
    | child i => exact phase.child positive small moved

theorem Idle.not_holds {pc : ChildPc} (idle : Idle n u i pc) : pc.holds = false := by
  cases idle <;> rfl

/-- The token is in one place at most. -/
theorem Phase.tokens (phase : Phase n s) : s.tokens ≤ 1 := by
  have noNumber (empty : s.fds = fun _ => 0) :=
    card_filter_none (p := fun i => s.fds i ≠ 0) fun i => not_not_intro (congrFun empty i)
  have oneHolder (t : Fin threads) (idle : ∀ i ≠ t, (s.children i).holds = false) :=
    card_filter_only (p := fun i => (s.children i).holds) t fun i other => by simp [idle i other]
  have noHolder (idle : ∀ i, (s.children i).holds = false) :=
    card_filter_none (p := fun i => (s.children i).holds) fun i => by simp [idle i]
  unfold Ring.tokens
  cases phase with
  | forking _ children empty =>
    rw [noNumber empty, noHolder]
    · exact Nat.zero_le 1
    · intro i
      rw [children i]
      split_ifs <;> rfl
  | forked _ children empty =>
    rw [noNumber empty, noHolder]
    · exact Nat.zero_le 1
    · intro i
      rw [children i]
      rfl
  | @sent u _ token idle =>
    rw [noHolder fun i => (idle i).not_holds]
    apply card_filter_only (turn threads u)
    intro i other
    rw [token, Function.update_of_ne other]
    exact not_not_intro rfl
  | taken _ empty idle | written _ empty idle =>
    rw [noNumber empty, Nat.zero_add]
    exact oneHolder _ fun i other => (idle i other).not_holds

theorem Phase.printed (phase : Phase n s) : ∃ k ≤ n, s.printed = numbers threads k := by
  cases phase with
  | forking _ _ _ printed | forked _ _ _ printed => exact ⟨0, Nat.zero_le n, printed⟩
  | sent _ _ _ printed | taken _ _ _ _ _ printed | written _ _ _ _ _ printed =>
    exact ⟨_, Nat.min_le_right _ n, printed⟩

/-- Every child has a turn in the lap that starts at `first`. -/
theorem exists_turn (first : ℕ) (i : Fin threads) :
    ∃ w, first ≤ w ∧ w < first + threads ∧ turn threads w = i := by
  have lap : first ≤ threads * first := Nat.le_mul_of_pos_left first i.pos
  refine ⟨first + (i + threads * first - first) % threads, Nat.le_add_right .., ?_, ?_⟩
  · exact Nat.add_lt_add_left (Nat.mod_lt _ i.pos) first
  · apply Fin.ext
    change (first + (i + threads * first - first) % threads) % threads = i
    rw [Nat.add_mod_mod, Nat.add_sub_cancel' (by omega), Nat.add_mul_mod_self_left,
      Nat.mod_eq_of_lt i.isLt]

/-- A child that cannot move and has nothing to read has exited, if it was sent a number from `n` on. -/
theorem Idle.exited_of_blocked {w : ℕ} (idle : Idle n u i (s.children i))
    (blocked : s.childStep n i = none) (past : w < u) (own : turn threads w = i) (beyond : n ≤ w + 1) :
    s.children i = .exited := by
  generalize at_ : s.children i = pc at idle
  cases idle with
  | read alive => exact absurd (alive w past own) (Nat.not_lt_of_le beyond)
  | test => simp [Ring.childStep, at_] at blocked
  | exited => rfl

include positive small in
/-- When no process can move, the number that is left is for a child that has exited. -/
theorem Phase.stuck (phase : Phase n s) (stuck : (evfdSync threads n).Stuck s) :
    s.printed = numbers threads n ∧ (∀ i, s.children i = .exited) ∧ s.parent = .exited := by
  have parentBlocked : s.parentStep = none := stuck .parent
  have blocked (i : Fin threads) : s.childStep n i = none := stuck (.child i)
  cases phase with
  | forking parent =>
    simp only [Ring.parentStep, parent] at parentBlocked
    split_ifs at parentBlocked
  | forked parent _ empty =>
    simp [Ring.parentStep, parent, empty, eventWrite_empty] at parentBlocked
  | @sent u waits token idle printed =>
    obtain ⟨w, past, own, beyond⟩ : ∃ w < u, turn threads w = turn threads u ∧ n ≤ w + 1 := by
      have next := idle (turn threads u)
      generalize at_ : s.children (turn threads u) = pc at next
      cases next with
      | read =>
        have := blocked (turn threads u)
        simp [Ring.childStep, at_, token, eventRead_pos] at this
      | test =>
        have := blocked (turn threads u)
        simp [Ring.childStep, at_] at this
      | exited past own beyond => exact ⟨_, past, own, beyond⟩
    have lap := turn_lap own past
    have exited (i : Fin threads) : s.children i = .exited := by
      obtain ⟨w', first, last, own'⟩ := exists_turn (n - 1) i
      exact (idle i).exited_of_blocked (blocked i) (by omega) own' (by omega)
    have all : s.exited = threads := by simp [Ring.exited, exited]
    refine ⟨?_, exited, ?_⟩
    · rw [printed, Nat.min_eq_right (by have := Nat.pos_of_neZero threads; omega)]
    · apply waits.resolve_left
      intro waiting
      simp only [Ring.parentStep, waiting, all] at parentBlocked
      split_ifs at parentBlocked
  | @taken u _ _ _ holder =>
    have := blocked (turn threads u)
    simp [Ring.childStep, holder] at this
  | @written u _ empty _ holder bound =>
    have := blocked (turn threads u)
    have written : eventWrite 0 (u + 2) = some (true, u + 2) := eventWrite_empty (by omega)
    simp [Ring.childStep, holder, empty, written] at this

/-- In every run there is at most one token, the numbers are printed in order and in turn, and a state
in which no process can move has all of them printed and all processes ended. The constants are ints, so
the numbers never get near the largest one that an eventfd holds. -/
theorem evfd_sync_correct {threads n : ℕ} [NeZero threads] {s : Ring threads} (positive : 1 ≤ n)
    (small : n + threads < 2 ^ 64 - 1)
    (reachable : (evfdSync threads n).Reachable (fun _ _ => True) s) :
    s.tokens ≤ 1 ∧ (∃ k ≤ n, s.printed = numbers threads k) ∧
      ((evfdSync threads n).Stuck s →
        s.printed = numbers threads n ∧ (∀ i, s.children i = .exited) ∧ s.parent = .exited) := by
  have phase := phase_of_reachable positive small reachable
  exact ⟨phase.tokens, phase.printed, phase.stuck positive small⟩

/-- Both children run until the second one is blocked or exits. -/
def twoChildren (first second : Fin 2) : List (RingAction 2) :=
  [.parent, .parent, .parent, .parent, .child first, .child first, .child first, .child second, .child second,
    .child first, .child second, .child second, .parent, .parent, .parent]

theorem evfd_sync_correct_two :
    ∃ s, (evfdSync 2 1).Reachable (fun _ _ => True) s ∧ s.parent = .exited ∧
      s.printed = [.number 0 1] ∧ s.fds 0 = 3 ∧ s.tokens ≤ 1 := by
  obtain ⟨s, ran, parent, printed, last⟩ : ∃ s, (evfdSync 2 1).run
      ⟨.fork 0, fun _ => .notForked, fun _ => 0, 0, []⟩ (twoChildren 0 1) = some s ∧ s.parent = .exited ∧
        s.printed = [.number 0 1] ∧ s.fds 0 = 3 :=
    ⟨_, rfl, rfl, rfl, rfl⟩
  have reachable : (evfdSync 2 1).Reachable (fun _ _ => True) s :=
    .run (.start rfl) (fun _ _ _ => trivial) ran
  exact ⟨s, reachable, parent, printed, last,
    (evfd_sync_correct (by decide) (by decide) reachable).1⟩

end Hseos.EvfdSync
