import Hseos.Fork.DivisorRounds

/-! # The bounds of the array of responses

Nothing but the number of its divisors keeps the stores of a round within `MAX_RESPONSES`. A round stores
two responses for each divisor from two to the root, so it stays within the array if there are at most
thirty-two; and if there are more, the workers coming one after the other reserve a slot behind it.
-/

namespace Hseos.Fork

/-- The slots the workers have reserved and not written yet, and the one the master reads next, are in
the array. -/
structure InBounds (s : Server) : Prop where
  stores : ∀ k, ∀ slot ∈ (s.workers k).reserved, slot < maxResponses
  reads : ∀ i, s.master = .print i → i < s.ctx.responseSize → i < maxResponses

/-- The master works with a number that wakes nobody, or waits for ever. -/
def Master.Silent : Master → Prop
  | .reset x | .request x _ => ¬Wakes x ∧ x < 2 ^ 64
  | .collect i => i = 0
  | .scanf | .print _ | .fault _ => False

/-- A round in which no worker is woken. -/
structure Silent (s : Server) : Prop where
  master : s.master.Silent
  idle : ∀ k, s.workers k = .read ∧ s.inputFd k = 0 ∧ s.outputFd k = 0

variable {sqrtPart : ℕ → ℕ} {mapped : ℕ} {s s' : Server} {k : Fin threads}

/-- A worker that waits for a request without one does not move. -/
theorem workerStep_idle (reading : s.workers k = .read) (empty : s.inputFd k = 0) :
    s.workerStep sqrtPart mapped k = none := by
  simp only [Server.workerStep, reading, empty, eventRead_zero, Option.map_none]

/-- A silent round stays silent. -/
theorem Silent.step {a : ServerAction} (silent : Silent s)
    (moved : (divisorServer sqrtPart mapped).step s a = some s') : Silent s' := by
  have quiet := silent.master
  have idle := silent.idle
  cases a with
  | worker k =>
    simp only [divisorServer, Server.step, workerStep_idle (idle k).1 (idle k).2.1, reduceCtorEq] at moved
  | scanf result =>
    simp only [divisorServer, Server.step] at moved
    split_ifs at moved with scanning
    rw [scanning.1] at quiet
    exact absurd quiet id
  | master =>
    simp only [divisorServer, Server.step] at moved
    cases at_ : s.master with
    | scanf | print | fault =>
      rw [at_] at quiet
      exact absurd quiet id
    | reset x =>
      rw [at_] at quiet
      simp only [Server.masterStep, at_] at moved
      cases moved
      exact ⟨quiet, idle⟩
    | request x i =>
      rw [at_] at quiet
      obtain ⟨accepted, unheard⟩ := eventWrite_silent quiet.1 quiet.2
      simp only [Server.masterStep, at_] at moved
      split_ifs at moved with worker
      · simp only [(idle ⟨i, worker⟩).2.1, unheard, Option.map_some] at moved
        cases moved
        refine ⟨quiet, fun k => ⟨(idle k).1, ?_, (idle k).2.2⟩⟩
        change Function.update s.inputFd ⟨i, worker⟩ 0 k = 0
        rw [Function.update_apply, (idle k).2.1, ite_self]
      · cases moved
        exact ⟨rfl, idle⟩
    | collect i =>
      rw [at_] at quiet
      obtain rfl : i = 0 := quiet
      simp only [Server.masterStep, at_, show 0 < threads by decide, dite_true,
        (idle _).2.2, eventRead_zero, Option.map_none, reduceCtorEq] at moved

theorem Silent.inBounds (silent : Silent s) : InBounds s := by
  constructor
  · intro k slot held
    rw [(silent.idle k).1] at held
    exact absurd held List.not_mem_nil
  · intro i at_
    have quiet := silent.master
    rw [at_] at quiet
    exact absurd quiet id

section Few

/-- In the rounds for a number with few divisors the stores are accounted for, whatever numbers the other
rounds are for. -/
theorem round_of_few {v : ℕ} (exact_ : sqrtPart v = v.sqrt + 1) (room : maxResponses ≤ mapped)
    (few : Wakes v → (divisorPairs v).length ≤ 32)
    (reachable : (divisorServer sqrtPart mapped).Reachable (fun _ _ => True) s) :
    Silent s ∨ PhaseInv s ∧ (s.value = v → (∃ x, s.master = .reset x) ∨ RoundInv s) := by
  induction reachable with
  | start started => exact .inr ⟨.start started, fun _ => .inr (.start started)⟩
  | @step s s' a _ _ moved ih =>
    obtain silent | ⟨phases, rounds⟩ := ih
    · exact .inl (silent.step moved)
    · cases a with
      | scanf result =>
        simp only [divisorServer, Server.step] at moved
        split_ifs at moved with scanning
        cases moved
        by_cases wakes : Wakes (result.getD 0)
        · exact .inr ⟨phases.scanned scanning.1 wakes, fun _ => .inl ⟨_, rfl⟩⟩
        · refine .inl ⟨⟨wakes, scanning.2⟩, fun k => phases.idle k ?_⟩
          rw [scanning.1]
          exact id
      | worker k =>
        obtain ⟨master, value⟩ := workerStep_frame moved
        refine .inr ⟨workerStep_phases phases moved, fun same => ?_⟩
        rw [value] at same
        obtain ⟨x, at_⟩ | inv := rounds same
        · exact .inl ⟨x, master.trans at_⟩
        · exact .inr (workerStep_round (fun _ => same ▸ exact_) room phases inv moved)
      | master =>
        refine .inr ⟨masterStep_phases phases moved, fun same => .inr ?_⟩
        by_cases resets : ∃ x, s.master = .reset x
        · obtain ⟨x, at_⟩ := resets
          have valid := phases.valid
          rw [at_] at valid
          refine .reset phases at_ ?_ moved
          simp only [divisorServer, Server.step, Server.masterStep, at_] at moved
          cases moved
          obtain rfl : x = v := same
          exact few valid
        · have value := (masterStep_frame moved).2.resolve_left fun at_ => resets ⟨_, at_⟩
          exact masterStep_round room phases ((rounds (value ▸ same)).resolve_left resets) moved

theorem inBounds_of_few {v : ℕ} (exact_ : sqrtPart v = v.sqrt + 1) (room : maxResponses ≤ mapped)
    (few : Wakes v → (divisorPairs v).length ≤ 32)
    (reachable : (divisorServer sqrtPart mapped).Reachable (fun _ _ => True) s) (value : s.value = v) :
    InBounds s := by
  obtain silent | ⟨phases, rounds⟩ := round_of_few exact_ room few reachable
  · exact silent.inBounds
  · obtain ⟨x, at_⟩ | inv := rounds value
    · have idle := phases.idle
      simp only [at_, Master.Awaits, not_false_eq_true, true_imp_iff] at idle
      constructor
      · intro k slot held
        rw [(idle k).1] at held
        exact absurd held List.not_mem_nil
      · intro i printing
        rw [at_] at printing
        cases printing
    · have size := inv.size_le phases
      constructor
      · intro k slot held
        have own : (s.workers k).reserved = [slot] := by
          cases at_ : s.workers k <;> rw [at_] at held <;> simp_all [Worker.reserved]
        exact (inv.slot_unwritten own).1.trans_le size
      · intro i _ inside
        exact inside.trans_le size

end Few

section Safe

/-- A step of a worker has touched no other worker. -/
structure Elsewhere (k : Fin threads) (s s' : Server) : Prop where
  value : s'.value = s.value
  others : ∀ j ≠ k, s'.workers j = s.workers j ∧ s'.inputFd j = s.inputFd j

theorem Elsewhere.refl (k : Fin threads) (s : Server) : Elsewhere k s s := ⟨rfl, fun _ _ => ⟨rfl, rfl⟩⟩

theorem Elsewhere.trans {s'' : Server} (first : Elsewhere k s s') (second : Elsewhere k s' s'') :
    Elsewhere k s s'' := by
  constructor
  · exact second.value.trans first.value
  · intro j other
    obtain ⟨worker, input⟩ := second.others j other
    exact ⟨worker.trans (first.others j other).1, input.trans (first.others j other).2⟩

theorem Elsewhere.of_update {next : Worker} (value : s'.value = s.value)
    (workers : s'.workers = Function.update s.workers k next) (inputs : s'.inputFd = s.inputFd) :
    Elsewhere k s s' := by
  refine ⟨value, fun j other => ?_⟩
  rw [workers, inputs, Function.update_of_ne other]
  exact ⟨rfl, rfl⟩

theorem reachable_worker (reachable : (divisorServer sqrtPart mapped).Reachable (fun _ _ => True) s)
    (moved : s.workerStep sqrtPart mapped k = some s') :
    (divisorServer sqrtPart mapped).Reachable (fun _ _ => True) s' :=
  reachable.step (a := .worker k) trivial moved

theorem reachable_master (reachable : (divisorServer sqrtPart mapped).Reachable (fun _ _ => True) s)
    (moved : s.masterStep mapped = some s') :
    (divisorServer sqrtPart mapped).Reachable (fun _ _ => True) s' :=
  reachable.step (a := .master) trivial moved

variable {v : ℕ} (room : maxResponses ≤ mapped)
  (safe : ∀ s, (divisorServer sqrtPart mapped).Reachable (fun _ _ => True) s → s.value = v → InBounds s)
include room safe

/-- A slot is reserved and written: if that keeps to the array, `response_size` has grown by one. -/
theorem reserve_and_store (held : ℕ → Worker) (x : ℕ) (next : Worker)
    (reachable : (divisorServer sqrtPart mapped).Reachable (fun _ _ => True) s) (value : s.value = v)
    (reserve : s.workerStep sqrtPart mapped k =
      some (s.fetchAndAdd.2.setWorker k (held s.fetchAndAdd.1)))
    (own : ∀ slot, (held slot).reserved = [slot])
    (store : ∀ (t : Server) slot, t.workers k = held slot →
      t.workerStep sqrtPart mapped k = some (t.store mapped k slot x next)) :
    ∃ s', (divisorServer sqrtPart mapped).Reachable (fun _ _ => True) s' ∧ Elsewhere k s s' ∧
      s'.workers k = next ∧ s'.ctx.responseSize = s.ctx.responseSize + 1 ∧
      s'.ctx.responseSize ≤ maxResponses := by
  have reserved := reachable_worker reachable reserve
  have at_ : (s.fetchAndAdd.2.setWorker k (held s.fetchAndAdd.1)).workers k =
      held s.ctx.responseSize :=
    Function.update_self ..
  have inside : s.ctx.responseSize < maxResponses := by
    apply (safe _ reserved value).stores k _
    rw [at_, own]
    exact List.mem_singleton_self _
  have grown : wordAdd 64 s.ctx.responseSize 1 = s.ctx.responseSize + 1 := by
    rw [maxResponses] at inside
    exact wordAdd_of_lt (by omega)
  have stored := reachable_worker reserved (store _ _ at_)
  rw [Server.store, if_pos (inside.trans_le room)] at stored
  exact ⟨_, stored, .of_update rfl (Function.update_idem ..) rfl, Function.update_self .., grown,
    grown.trans_le inside⟩

/-- A scan that keeps to the array counts all responses it has to give. -/
theorem scan_counts {r i : ℕ} (two : 2 ≤ i) (range : r ≤ 2 ^ 32)
    (reachable : (divisorServer sqrtPart mapped).Reachable (fun _ _ => True) s) (value : s.value = v)
    (at_ : s.workers k = .test v r i) (size : s.ctx.responseSize ≤ maxResponses) :
    ∃ s', (divisorServer sqrtPart mapped).Reachable (fun _ _ => True) s' ∧ Elsewhere k s s' ∧
      s'.ctx.responseSize = s.ctx.responseSize + (responsesFrom v r i).length ∧
      s'.ctx.responseSize ≤ maxResponses := by
  have beside (s : Server) (next : Worker) : Elsewhere k s (s.setWorker k next) := .of_update rfl rfl rfl
  induction gap : r - i generalizing i s with
  | zero =>
    refine ⟨s, reachable, .refl k s, ?_, size⟩
    rw [responsesFrom_end (by omega)]
    rfl
  | succ gap ih =>
    have inside : i < r := by omega
    by_cases small : i * i ≤ v
    · have tried : s.workerStep sqrtPart mapped k = some (s.setWorker k
          (if v % i = 0 then .reserveI v r i else .test v r (i + 1))) := by
        simp only [Server.workerStep, at_]
        rw [square_exact (by omega), if_pos ⟨inside, small⟩, wordMod_of_pos (by omega),
          next_exact inside range]
        cases v % i <;> rfl
      have first := reachable_worker reachable tried
      by_cases divides : v % i = 0
      · rw [if_pos divides] at first
        have reserving : (s.setWorker k (.reserveI v r i)).workers k = .reserveI v r i :=
          Function.update_self ..
        obtain ⟨s₁, reachable₁, elsewhere₁, at₁, grown₁, _⟩ :=
          reserve_and_store room safe (.storeI v r i) i (.reserveJ v r i) first value
            (by rw [Server.workerStep, reserving]) (fun _ => rfl)
            (fun t slot holds => by rw [Server.workerStep, holds])
        obtain ⟨s₂, reachable₂, elsewhere₂, at₂, grown₂, size₂⟩ :=
          reserve_and_store room safe (.storeJ v r i) (v / i) (.test v r (i + 1)) reachable₁
            (elsewhere₁.value.trans value) (by rw [Server.workerStep, at₁]) (fun _ => rfl)
            (fun t slot holds => by simp only [Server.workerStep, holds, next_exact inside range])
        have elsewhere := ((beside s _).trans elsewhere₁).trans elsewhere₂
        obtain ⟨s', reachable', elsewhere', counted, size'⟩ := ih (by omega) reachable₂
          (elsewhere.value.trans value) at₂ size₂ (by omega)
        refine ⟨s', reachable', elsewhere.trans elsewhere', ?_, size'⟩
        change s₁.ctx.responseSize = s.ctx.responseSize + 1 at grown₁
        rw [counted, grown₂, grown₁, responsesFrom_divisor inside small divides, List.length_cons,
          List.length_cons]
        omega
      · rw [if_neg divides] at first
        obtain ⟨s', reachable', elsewhere', counted, size'⟩ := ih (by omega) first value
          (Function.update_self ..) size (by omega)
        refine ⟨s', reachable', (beside s _).trans elsewhere', ?_, size'⟩
        rw [counted, responsesFrom_other inside divides]
        rfl
    · refine ⟨s, reachable, .refl k s, ?_, size⟩
      rw [responsesFrom_end fun found => small found.2]
      rfl

omit room safe in
/-- The master has written a request to every worker, and none has read it. -/
theorem requested (wakes : Wakes v) (i : ℕ) (bound : i ≤ threads) :
    ∃ s, (divisorServer sqrtPart mapped).Reachable (fun _ _ => True) s ∧ s.master = .request v i ∧
      s.value = v ∧ s.ctx.responseSize = 0 ∧ (∀ k, s.workers k = .read) ∧
      ∀ k, s.inputFd k = if k.val < i then v else 0 := by
  induction i with
  | zero =>
    have word : v < 2 ^ 64 := Nat.lt_trans wakes.2 (by decide)
    have scan : (divisorServer sqrtPart mapped).Reachable (fun _ _ => True) _ :=
      .step (a := .scanf (some v)) (.start rfl) trivial (if_pos ⟨rfl, word⟩)
    exact ⟨_, reachable_master scan rfl, rfl, rfl, rfl, fun _ => rfl, fun _ => rfl⟩
  | succ i ih =>
    obtain ⟨s, reachable, at_, value, size, reading, inputs⟩ := ih (by omega)
    have empty : s.inputFd ⟨i, bound⟩ = 0 := by
      rw [inputs]
      exact if_neg (lt_irrefl i)
    have moved : s.masterStep mapped = some { s with
        master := .request v (i + 1)
        inputFd := Function.update s.inputFd ⟨i, bound⟩ v } := by
      simp only [Server.masterStep, at_, dif_pos (show i < threads from bound), empty,
        eventWrite_empty wakes.2, Option.map_some]
    refine ⟨_, reachable_master reachable moved, rfl, value, size, reading, fun k => ?_⟩
    change Function.update s.inputFd ⟨i, bound⟩ v k = _
    by_cases same : k = ⟨i, bound⟩
    · subst same
      rw [Function.update_self, if_pos (Nat.lt_succ_self i)]
    · have other : k.val ≠ i := fun equal => same (Fin.ext equal)
      rw [Function.update_of_ne same, inputs]
      congr 1
      exact propext (by omega)

/-- The first workers have ended their scans, the others have not begun them. -/
theorem workers_count (exact_ : sqrtPart v = v.sqrt + 1) (wakes : Wakes v) (n : ℕ) (bound : n ≤ threads) :
    ∃ s, (divisorServer sqrtPart mapped).Reachable (fun _ _ => True) s ∧ s.value = v ∧
      s.ctx.responseSize = ((List.range n).flatMap (workload v)).length ∧
      s.ctx.responseSize ≤ maxResponses ∧
      ∀ k : Fin threads, n ≤ k → s.workers k = .read ∧ s.inputFd k = v := by
  have word : v < 2 ^ 64 := Nat.lt_trans wakes.2 (by decide)
  induction n with
  | zero =>
    obtain ⟨s, reachable, _, value, size, reading, inputs⟩ := requested wakes threads le_rfl
    refine ⟨s, reachable, value, size, by omega, fun k _ => ⟨reading k, ?_⟩⟩
    rw [inputs, if_pos k.isLt]
  | succ n ih =>
    obtain ⟨s, reachable, value, size, small, waiting⟩ := ih (by omega)
    obtain ⟨reading, input⟩ := waiting ⟨n, bound⟩ le_rfl
    have positive : v ≠ 0 := by
      have := wakes.1
      omega
    have begun : Worker.begin sqrtPart n v = .test v (rangeHigh (rangeStep (v.sqrt + 1)) n)
        (rangeLow (rangeStep (v.sqrt + 1)) n) := by
      rw [Worker.begin, if_neg positive, exact_]
    have moved : s.workerStep sqrtPart mapped ⟨n, bound⟩ = some
        { s.setWorker ⟨n, bound⟩ (.begin sqrtPart n v) with
          inputFd := Function.update s.inputFd ⟨n, bound⟩ 0 } := by
      simp only [Server.workerStep, reading, input, eventRead_pos positive, Option.map_some]
    obtain ⟨s', reachable', elsewhere, counted, size'⟩ := scan_counts room safe (k := ⟨n, bound⟩)
      (rangeLow_ge _ n) (rangeHigh_le word bound) (reachable_worker reachable moved)
      value ((Function.update_self ..).trans begun) small
    refine ⟨s', reachable', elsewhere.value.trans value, ?_, size', fun k later => ?_⟩
    · rw [counted, List.range_succ, List.flatMap_append, List.flatMap_singleton, List.length_append, ← size]
      rfl
    · have other : k ≠ ⟨n, bound⟩ := by
        rintro rfl
        exact Nat.not_succ_le_self n later
      obtain ⟨worker, held⟩ := elsewhere.others k other
      rw [worker, held]
      change Function.update s.workers _ _ k = _ ∧ Function.update s.inputFd _ _ k = _
      rw [Function.update_of_ne other, Function.update_of_ne other]
      exact waiting k (by omega)

theorem few_of_safe (exact_ : sqrtPart v = v.sqrt + 1) (wakes : Wakes v) :
    (divisorPairs v).length ≤ 32 := by
  obtain ⟨s, _, _, size, small, _⟩ := workers_count room safe exact_ wakes threads le_rfl
  have all := congrArg List.length (responsesFrom_split (Nat.lt_trans wakes.2 (by decide) : v < 2 ^ 64))
  rw [size, maxResponses] at small
  have pairs : ((divisorPairs v).flatMap fun pair => [pair.1, pair.2]).length =
      2 * (divisorPairs v).length := by
    simp [List.length_flatMap, Nat.mul_comm]
  change ((List.range threads).flatMap (workload v)).length = _ at all
  omega

end Safe

/-- In every round for a number, in whatever run, all slots are in the array, if and only if the number
wakes nobody or has at most thirty-two divisors from two to its root. -/
theorem inBounds_iff (sqrtPart : ℕ → ℕ) (mapped v : ℕ) (exact_ : sqrtPart v = v.sqrt + 1)
    (room : maxResponses ≤ mapped) :
    (∀ s, (divisorServer sqrtPart mapped).Reachable (fun _ _ => True) s → s.value = v → InBounds s) ↔
      (Wakes v → (divisorPairs v).length ≤ 32) :=
  ⟨fun safe wakes => few_of_safe room safe exact_ wakes,
    fun few _ reachable value => inBounds_of_few exact_ room few reachable value⟩

/-- The thirty-one pairs of 7560 fit. -/
theorem inBounds_7560 :
    (divisorPairs 7560).length = 31 ∧
      ∀ s, (divisorServer (fun v => v.sqrt + 1) 511).Reachable (fun _ _ => True) s → s.value = 7560 →
        InBounds s := by
  have root : Nat.sqrt 7560 = 86 := (Nat.eq_sqrt.mpr (by decide)).symm
  have pairs : (divisorPairs 7560).length = 31 := by
    rw [divisorPairs, root]
    rfl
  exact ⟨pairs, (inBounds_iff _ 511 7560 rfl (by decide)).mpr fun _ => pairs.trans_le (by decide)⟩

/-- The thirty-five pairs of 10080 do not. -/
theorem not_inBounds_10080 :
    ∃ s, (divisorServer (fun v => v.sqrt + 1) 511).Reachable (fun _ _ => True) s ∧ s.value = 10080 ∧
      ¬InBounds s := by
  have root : Nat.sqrt 10080 = 100 := (Nat.eq_sqrt.mpr (by decide)).symm
  have pairs : (divisorPairs 10080).length = 35 := by
    rw [divisorPairs, root]
    rfl
  by_contra never
  have safe : ∀ s, (divisorServer (fun v => v.sqrt + 1) 511).Reachable (fun _ _ => True) s →
      s.value = 10080 → InBounds s := by
    intro s reachable value
    by_contra outside
    exact never ⟨s, reachable, value, outside⟩
  have few := few_of_safe (by decide) safe rfl ⟨by decide, by decide⟩
  rw [pairs] at few
  exact absurd few (by decide)

end Hseos.Fork
