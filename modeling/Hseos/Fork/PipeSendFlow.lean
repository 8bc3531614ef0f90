import Hseos.Fork.PipeSend

/-! # What arrives at the end of the pipe

The bytes that are on their way, from the output of the child back to the input of the parent, are always
the whole input with the message of `check_result` behind it. Every step moves bytes on or brings a process
closer to its end, and some process can always move, so every run comes to its end; there the child has
written the input and the message.
-/

namespace Hseos.PipeSend

/-- The descriptors of the parent in its loop. -/
def parentFds : Descriptors := ⟨some .input, some .pipeWrite, none, none⟩

/-- The descriptors of the child in its loop. -/
def childFds : Descriptors := ⟨some .pipeRead, some .output, none, none⟩

/-- The parent, which has printed the message. -/
inductive ParentAt (message input : List UInt8) : Process → Prop
  | close : ParentAt message input .forked
  | dup2 : ParentAt message input
      ⟨.dup2, ⟨some .input, none, some .pipeRead, some .pipeWrite⟩, []⟩
  | checkResult : ParentAt message input
      ⟨.checkResult 0, ⟨some .input, some .pipeWrite, some .pipeRead, some .pipeWrite⟩, []⟩
  | closeFd0 : ParentAt message input
      ⟨.closeFd0, ⟨some .input, some .pipeWrite, some .pipeRead, some .pipeWrite⟩, message⟩
  | closeFd1 : ParentAt message input
      ⟨.closeFd1, ⟨some .input, some .pipeWrite, none, some .pipeWrite⟩, message⟩
  | read : ParentAt message input ⟨.read, parentFds, message⟩
  | write {data : List UInt8} (more : data ≠ []) :
      ParentAt message input ⟨.ensureWrite data, parentFds, message⟩
  | flush {rest : List UInt8} (ended : input = []) : ParentAt message input ⟨.flush, parentFds, rest⟩
  | exited (ended : input = []) : ParentAt message input ⟨.exited, .closed, []⟩

/-- The child, which prints nothing and ends behind the parent. -/
inductive ChildAt (parent : Pc) (pipe : List UInt8) : Process → Prop
  | close : ChildAt parent pipe .forked
  | dup2 : ChildAt parent pipe ⟨.dup2, ⟨none, some .output, some .pipeRead, some .pipeWrite⟩, []⟩
  | checkResult : ChildAt parent pipe
      ⟨.checkResult (-1), ⟨some .pipeRead, some .output, some .pipeRead, some .pipeWrite⟩, []⟩
  | closeFd0 : ChildAt parent pipe
      ⟨.closeFd0, ⟨some .pipeRead, some .output, some .pipeRead, some .pipeWrite⟩, []⟩
  | closeFd1 : ChildAt parent pipe
      ⟨.closeFd1, ⟨some .pipeRead, some .output, none, some .pipeWrite⟩, []⟩
  | read : ChildAt parent pipe ⟨.read, childFds, []⟩
  | write {data : List UInt8} (more : data ≠ []) : ChildAt parent pipe ⟨.ensureWrite data, childFds, []⟩
  | flush (last : parent = .exited) (drained : pipe = []) : ChildAt parent pipe ⟨.flush, childFds, []⟩
  | exited (last : parent = .exited) (drained : pipe = []) : ChildAt parent pipe ⟨.exited, .closed, []⟩

/-- The data a process has read and not written yet. -/
def Process.data (p : Process) : List UInt8 :=
  match p.pc with
  | .ensureWrite data => data
  | .close | .dup2 | .checkResult _ | .closeFd0 | .closeFd1 | .read | .flush | .exited | .killed => []

/-- What the parent has printed or is going to print, and not written yet. -/
def Process.printed (message : List UInt8) (p : Process) : List UInt8 :=
  match p.pc with
  | .close | .dup2 | .checkResult _ => message
  | .closeFd0 | .closeFd1 | .read | .ensureWrite _ | .flush | .exited | .killed => p.stdio

/-- How far a process is from its end, apart from its data. -/
def Pc.rank : Pc → ℕ
  | .close => 7
  | .dup2 => 6
  | .checkResult _ => 5
  | .closeFd0 => 4
  | .closeFd1 => 3
  | .read | .ensureWrite _ => 2
  | .flush => 1
  | .exited | .killed => 0

/-- The steps that are left: each byte on its way counts the transfers ahead of it. -/
def System.left (message : List UInt8) (s : System) : ℕ :=
  4 * s.input.length + 3 * s.parent.data.length + 3 * (s.parent.printed message).length +
    2 * s.pipe.length + s.child.data.length + s.parent.pc.rank + s.child.pc.rank

/-- The bytes on their way are the input and the message. -/
structure Flow (message source : List UInt8) (s : System) : Prop where
  parent : ParentAt message s.input s.parent
  child : ChildAt s.parent.pc s.pipe s.child
  bytes : s.output ++ (s.child.data ++ (s.pipe ++ (s.parent.data ++
    (s.input ++ s.parent.printed message)))) = source ++ message

variable {message source strerror input pipe : List UInt8} {capacity : ℕ} {s s' : System} {parent : Pc}
variable {p : Process}

/-! A process goes on writing until it has written all of its data, and then reads again. -/

theorem data_next {rest stdio : List UInt8} {fds : Descriptors} :
    Process.data ⟨if rest = [] then .read else .ensureWrite rest, fds, stdio⟩ = rest := by
  split_ifs with all
  · exact all.symm
  · rfl

theorem printed_next {rest stdio : List UInt8} {fds : Descriptors} :
    Process.printed message ⟨if rest = [] then .read else .ensureWrite rest, fds, stdio⟩ = stdio := by
  split_ifs
  · rfl
  · rfl

theorem rank_next {rest : List UInt8} :
    Pc.rank (if rest = [] then .read else .ensureWrite rest) = 2 := by
  split_ifs
  · rfl
  · rfl

theorem ParentAt.next {rest : List UInt8} :
    ParentAt message input ⟨if rest = [] then .read else .ensureWrite rest, parentFds, message⟩ := by
  split_ifs with all
  · exact .read
  · exact .write all

theorem ChildAt.next {rest : List UInt8} :
    ChildAt parent pipe ⟨if rest = [] then .read else .ensureWrite rest, childFds, []⟩ := by
  split_ifs with all
  · exact .read
  · exact .write all

/-- While the parent runs the child does as well, whatever the parent does. -/
theorem ChildAt.running (child : ChildAt parent pipe p) (runs : parent ≠ .exited) (parent' : Pc)
    (pipe' : List UInt8) : ChildAt parent' pipe' p ∧ p.fds.holds .pipeRead = true := by
  cases child with
  | close => exact ⟨.close, rfl⟩
  | dup2 => exact ⟨.dup2, rfl⟩
  | checkResult => exact ⟨.checkResult, rfl⟩
  | closeFd0 => exact ⟨.closeFd0, rfl⟩
  | closeFd1 => exact ⟨.closeFd1, rfl⟩
  | read => exact ⟨.read, rfl⟩
  | write more => exact ⟨.write more, rfl⟩
  | flush last | exited last => exact absurd last runs

/-- The child does not exit before the parent. -/
theorem ChildAt.last (child : ChildAt parent pipe p) (exited : p.pc = .exited) : parent = .exited := by
  cases child with
  | exited last => exact last
  | _ => cases exited

/-- The parent keeps the pipe open for writing until it exits. -/
theorem ParentAt.open_or_exited (at_ : ParentAt message input p) :
    p.fds.holds .pipeWrite = true ∨ p = ⟨.exited, .closed, []⟩ ∧ input = [] := by
  cases at_ with
  | exited ended => exact .inr ⟨rfl, ended⟩
  | _ => exact .inl rfl

/-- A transfer cuts some bytes off. -/
theorem transfer_split (bytes : List UInt8) {count : ℕ} (some_ : 1 ≤ count)
    (enough : count ≤ bytes.length) :
    ∃ byte rest, bytes.take count = byte :: rest ∧ bytes = byte :: rest ++ bytes.drop count ∧
      bytes.length = rest.length + 1 + (bytes.drop count).length := by
  cases taken : bytes.take count with
  | nil =>
    have length := congrArg List.length taken
    rw [List.length_take, Nat.min_eq_left enough, List.length_nil] at length
    omega
  | cons byte rest =>
    have whole : bytes = byte :: rest ++ bytes.drop count := by
      rw [← taken, List.take_append_drop]
    refine ⟨byte, rest, rfl, whole, ?_⟩
    have length := congrArg List.length whole
    rwa [List.length_append, List.length_cons] at length

/-- A read of the input ends or takes some of it. -/
theorem System.read_input (count : ℕ) {result : Option (List UInt8) × System}
    (got : s.read (some .input) count = some result) :
    s.input = [] ∧ result = (some [], s) ∨
      1 ≤ count ∧ count ≤ s.input.length ∧
        result = (some (s.input.take count), { s with input := s.input.drop count }) := by
  simp only [System.read] at got
  split_ifs at got with ended possible
  · cases got
    exact .inl ⟨ended, rfl⟩
  · cases got
    exact .inr ⟨possible.1, possible.2.2, rfl⟩

/-- A read of the pipe ends when nobody may write to it, or takes some of what it holds. -/
theorem System.read_pipe (count : ℕ) {result : Option (List UInt8) × System}
    (got : s.read (some .pipeRead) count = some result) :
    s.pipe = [] ∧ ¬s.isOpen .pipeWrite ∧ result = (some [], s) ∨
      1 ≤ count ∧ count ≤ s.pipe.length ∧
        result = (some (s.pipe.take count), { s with pipe := s.pipe.drop count }) := by
  simp only [System.read] at got
  split_ifs at got with drained writable possible
  · cases got
    exact .inl ⟨drained, writable, rfl⟩
  · cases got
    exact .inr ⟨possible.1, possible.2.2, rfl⟩

/-- A write to a pipe that somebody may read appends some of the data. -/
theorem System.write_pipe (data : List UInt8) (count : ℕ) {result : Written × System}
    (readable : s.isOpen .pipeRead = true)
    (written : s.write capacity (some .pipeWrite) data count = some result) :
    1 ≤ count ∧ count ≤ data.length ∧
      result = (.bytes count, { s with pipe := s.pipe ++ data.take count }) := by
  simp only [System.write, readable, not_true_eq_false, if_false] at written
  split_ifs at written with possible
  cases written
  exact ⟨possible.1, possible.2.1, rfl⟩

/-- A write to the output appends some of the data. -/
theorem System.write_output (data : List UInt8) (count : ℕ) {result : Written × System}
    (written : s.write capacity (some .output) data count = some result) :
    1 ≤ count ∧ count ≤ data.length ∧
      result = (.bytes count, { s with output := s.output ++ data.take count }) := by
  simp only [System.write] at written
  split_ifs at written with possible
  cases written
  exact ⟨possible.1, possible.2, rfl⟩

/-- The parent goes on without a transfer. -/
theorem Flow.parent_goes_on {p' : Process} (flow : Flow message source s)
    (runs : s.parent.pc ≠ .exited) (at' : ParentAt message s.input p')
    (data : p'.data = s.parent.data) (printed : p'.printed message = s.parent.printed message)
    (rank : s.parent.pc.rank = p'.pc.rank + 1) :
    Flow message source { s with parent := p' } ∧
      System.left message { s with parent := p' } < s.left message := by
  refine ⟨⟨at', (flow.child.running runs _ _).1, ?_⟩, ?_⟩
  · rw [← flow.bytes, data, printed]
  · simp only [System.left, data, printed]
    omega

/-- The child goes on without a transfer. -/
theorem Flow.child_goes_on {p' : Process} (flow : Flow message source s)
    (at' : ChildAt s.parent.pc s.pipe p') (data : p'.data = s.child.data)
    (rank : s.child.pc.rank = p'.pc.rank + 1) :
    Flow message source { s with child := p' } ∧
      System.left message { s with child := p' } < s.left message := by
  refine ⟨⟨flow.parent, at', ?_⟩, ?_⟩
  · rw [← flow.bytes, data]
  · simp only [System.left, data]
    omega

section Transfers

variable {c : Process} {output data rest : List UInt8} {count : ℕ}

/-- The parent has read some of the input. -/
theorem Flow.parent_read (flow : Flow message source ⟨⟨.read, parentFds, message⟩, c, input, pipe, output⟩)
    (some_ : 1 ≤ count) (enough : count ≤ input.length) :
    let s' : System :=
      ⟨⟨.ensureWrite (input.take count), parentFds, message⟩, c, input.drop count, pipe, output⟩
    Flow message source s' ∧
      s'.left message < System.left message ⟨⟨.read, parentFds, message⟩, c, input, pipe, output⟩ := by
  obtain ⟨byte, rest, taken, whole, length⟩ := transfer_split input some_ enough
  have bytes := flow.bytes
  simp only [Process.data, Process.printed] at bytes
  rw [whole] at bytes
  simp only [taken]
  refine ⟨⟨.write (List.cons_ne_nil byte rest), (flow.child.running nofun _ _).1, ?_⟩, ?_⟩
  · simpa [Process.data, Process.printed] using bytes
  · simp only [System.left, Process.data, Process.printed, Pc.rank, List.length_cons, List.length_nil]
    omega

/-- The parent has written some of its data. -/
theorem Flow.parent_write
    (flow : Flow message source ⟨⟨.ensureWrite data, parentFds, message⟩, c, input, pipe, output⟩)
    (some_ : 1 ≤ count) (enough : count ≤ data.length) :
    let s' : System :=
      ⟨⟨if data.drop count = [] then .read else .ensureWrite (data.drop count), parentFds, message⟩, c, input,
        pipe ++ data.take count, output⟩
    Flow message source s' ∧ s'.left message <
      System.left message ⟨⟨.ensureWrite data, parentFds, message⟩, c, input, pipe, output⟩ := by
  obtain ⟨byte, rest, taken, whole, length⟩ := transfer_split data some_ enough
  have bytes := flow.bytes
  simp only [Process.data, Process.printed] at bytes
  rw [whole] at bytes
  simp only [taken]
  refine ⟨⟨.next, (flow.child.running nofun _ _).1, ?_⟩, ?_⟩
  · simp only [data_next, printed_next]
    simpa [Process.data] using bytes
  · simp only [System.left, data_next, printed_next, rank_next, List.length_append, List.length_cons]
    simp only [Process.data, Process.printed, Pc.rank]
    omega

/-- The parent has written some of what it has printed. -/
theorem Flow.parent_flush (flow : Flow message source ⟨⟨.flush, parentFds, rest⟩, c, [], pipe, output⟩)
    (some_ : 1 ≤ count) (enough : count ≤ rest.length) :
    let s' : System := ⟨⟨.flush, parentFds, rest.drop count⟩, c, [], pipe ++ rest.take count, output⟩
    Flow message source s' ∧
      s'.left message < System.left message ⟨⟨.flush, parentFds, rest⟩, c, [], pipe, output⟩ := by
  obtain ⟨byte, tail, taken, whole, length⟩ := transfer_split rest some_ enough
  have bytes := flow.bytes
  simp only [Process.data, Process.printed] at bytes
  rw [whole] at bytes
  simp only [taken]
  refine ⟨⟨.flush rfl, (flow.child.running nofun _ _).1, ?_⟩, ?_⟩
  · simpa [Process.data, Process.printed] using bytes
  · simp only [System.left, Process.data, Process.printed, Pc.rank, List.length_append, List.length_cons]
    omega

/-- The child has read some of the pipe. -/
theorem Flow.child_read (flow : Flow message source ⟨p, ⟨.read, childFds, []⟩, input, pipe, output⟩)
    (some_ : 1 ≤ count) (enough : count ≤ pipe.length) :
    let s' : System := ⟨p, ⟨.ensureWrite (pipe.take count), childFds, []⟩, input, pipe.drop count, output⟩
    Flow message source s' ∧
      s'.left message < System.left message ⟨p, ⟨.read, childFds, []⟩, input, pipe, output⟩ := by
  obtain ⟨byte, rest, taken, whole, length⟩ := transfer_split pipe some_ enough
  have bytes := flow.bytes
  simp only [Process.data] at bytes
  rw [whole] at bytes
  simp only [taken]
  refine ⟨⟨flow.parent, .write (List.cons_ne_nil byte rest), ?_⟩, ?_⟩
  · simpa [Process.data] using bytes
  · simp only [System.left, Process.data, Pc.rank, List.length_cons, List.length_nil]
    omega

/-- The child has written some of its data. -/
theorem Flow.child_write
    (flow : Flow message source ⟨p, ⟨.ensureWrite data, childFds, []⟩, input, pipe, output⟩)
    (some_ : 1 ≤ count) (enough : count ≤ data.length) :
    let s' : System :=
      ⟨p, ⟨if data.drop count = [] then .read else .ensureWrite (data.drop count), childFds, []⟩, input, pipe,
        output ++ data.take count⟩
    Flow message source s' ∧
      s'.left message < System.left message ⟨p, ⟨.ensureWrite data, childFds, []⟩, input, pipe, output⟩ := by
  obtain ⟨byte, rest, taken, whole, length⟩ := transfer_split data some_ enough
  have bytes := flow.bytes
  simp only [Process.data] at bytes
  rw [whole] at bytes
  simp only [taken]
  refine ⟨⟨flow.parent, .next, ?_⟩, ?_⟩
  · simp only [data_next]
    simpa [Process.data] using bytes
  · simp only [System.left, data_next, rank_next]
    simp only [Process.data, Pc.rank]
    omega

end Transfers

/-- A step of the parent. -/
theorem Flow.parentStep {count : ℕ} (flow : Flow (checkMessage strerror) source s)
    (moved : s.step capacity strerror ⟨.parent, count⟩ = some s') :
    Flow (checkMessage strerror) source s' ∧
      s'.left (checkMessage strerror) < s.left (checkMessage strerror) := by
  obtain ⟨p, c, input, pipe, output⟩ := s
  have at_ := flow.parent
  dsimp only at at_
  have readable (runs : p.pc ≠ .exited) : System.isOpen .pipeRead ⟨p, c, input, pipe, output⟩ = true := by
    rw [System.isOpen, (flow.child.running runs .read []).2, Bool.or_true]
  cases at_ with
  | close =>
    cases moved
    exact flow.parent_goes_on nofun .dup2 rfl rfl rfl
  | dup2 =>
    cases moved
    exact flow.parent_goes_on nofun .checkResult rfl rfl rfl
  | checkResult =>
    cases moved
    exact flow.parent_goes_on nofun .closeFd0 rfl rfl rfl
  | closeFd0 =>
    cases moved
    exact flow.parent_goes_on nofun .closeFd1 rfl rfl rfl
  | closeFd1 =>
    cases moved
    exact flow.parent_goes_on nofun .read rfl rfl rfl
  | read =>
    obtain ⟨result, got, rfl⟩ := Option.map_eq_some_iff.mp moved
    obtain ⟨ended, rfl⟩ | ⟨some_, enough, rfl⟩ := System.read_input count got
    · exact flow.parent_goes_on nofun (.flush ended) rfl rfl rfl
    · obtain ⟨byte, rest, taken, -, -⟩ := transfer_split input some_ enough
      have reads := flow.parent_read some_ enough
      simp only [taken] at reads ⊢
      exact reads
  | @write data more =>
    obtain ⟨result, written, rfl⟩ := Option.map_eq_some_iff.mp moved
    obtain ⟨some_, enough, rfl⟩ := System.write_pipe data count (readable nofun) written
    exact flow.parent_write some_ enough
  | @flush rest ended =>
    subst ended
    by_cases all : rest = []
    · subst all
      cases moved
      exact flow.parent_goes_on nofun (.exited rfl) rfl rfl rfl
    · rw [System.step, System.process, if_neg all] at moved
      obtain ⟨result, written, rfl⟩ := Option.map_eq_some_iff.mp moved
      obtain ⟨some_, enough, rfl⟩ := System.write_pipe rest count (readable nofun) written
      exact flow.parent_flush some_ enough
  | exited => cases moved

/-- A step of the child. -/
theorem Flow.childStep {count : ℕ} (flow : Flow message source s)
    (moved : s.step capacity strerror ⟨.child, count⟩ = some s') :
    Flow message source s' ∧ s'.left message < s.left message := by
  obtain ⟨p, c, input, pipe, output⟩ := s
  have at_ := flow.child
  dsimp only at at_
  cases at_ with
  | close =>
    cases moved
    exact flow.child_goes_on .dup2 rfl rfl
  | dup2 =>
    cases moved
    exact flow.child_goes_on .checkResult rfl rfl
  | checkResult =>
    cases moved
    exact flow.child_goes_on .closeFd0 rfl rfl
  | closeFd0 =>
    cases moved
    exact flow.child_goes_on .closeFd1 rfl rfl
  | closeFd1 =>
    cases moved
    exact flow.child_goes_on .read rfl rfl
  | read =>
    obtain ⟨result, got, rfl⟩ := Option.map_eq_some_iff.mp moved
    obtain ⟨drained, unwritable, rfl⟩ | ⟨some_, enough, rfl⟩ := System.read_pipe count got
    · have last : p.pc = .exited := by
        obtain holds | ⟨exited, -⟩ := flow.parent.open_or_exited
        · exact absurd (by simp [System.isOpen, holds]) unwritable
        · exact congrArg Process.pc exited
      exact flow.child_goes_on (.flush last drained) rfl rfl
    · obtain ⟨byte, rest, taken, -, -⟩ := transfer_split pipe some_ enough
      have reads := flow.child_read some_ enough
      simp only [taken] at reads ⊢
      exact reads
  | @write data more =>
    obtain ⟨result, written, rfl⟩ := Option.map_eq_some_iff.mp moved
    obtain ⟨some_, enough, rfl⟩ := System.write_output data count written
    exact flow.child_write some_ enough
  | flush last drained =>
    cases moved
    exact flow.child_goes_on (.exited last drained) rfl rfl
  | exited => cases moved

/-- A step of either process. -/
theorem Flow.step (flow : Flow (checkMessage strerror) source s) (a : SystemAction)
    (moved : s.step capacity strerror a = some s') :
    Flow (checkMessage strerror) source s' ∧
      s'.left (checkMessage strerror) < s.left (checkMessage strerror) := by
  obtain ⟨role, count⟩ := a
  cases role with
  | parent => exact flow.parentStep moved
  | child => exact flow.childStep moved

theorem flow_of_reachable
    (reachable : (pipeSend capacity strerror source).Reachable (fun _ _ => True) s) :
    Flow (checkMessage strerror) source s := by
  apply reachable.invariant _
  · intro s initial
    cases initial
    exact ⟨.close, .close, rfl⟩
  · intro s s' a _ flow moved
    exact (flow.step a moved).1

/-- There is something to read in a pipe, or its end. -/
theorem System.read_pipe_ready (ready : s.pipe ≠ [] ∨ ¬s.isOpen .pipeWrite) :
    ∃ result, s.read (some .pipeRead) 1 = some result := by
  by_cases drained : s.pipe = []
  · have unwritable := ready.resolve_left (not_not_intro drained)
    exact ⟨_, by rw [System.read, if_pos drained, if_neg unwritable]⟩
  · have length : 1 ≤ s.pipe.length := List.length_pos_of_ne_nil drained
    exact ⟨_, by rw [System.read, if_neg drained, if_pos ⟨le_rfl, by decide, length⟩]⟩

theorem System.read_input_ready : ∃ result, s.read (some .input) 1 = some result := by
  by_cases ended : s.input = []
  · exact ⟨_, by rw [System.read, if_pos ended]⟩
  · have length : 1 ≤ s.input.length := List.length_pos_of_ne_nil ended
    exact ⟨_, by rw [System.read, if_neg ended, if_pos ⟨le_rfl, by decide, length⟩]⟩

/-- A pipe with room takes another byte. -/
theorem System.write_pipe_ready {data : List UInt8} (more : data ≠ [])
    (readable : s.isOpen .pipeRead = true) (room : s.pipe.length < capacity) :
    ∃ result, s.write capacity (some .pipeWrite) data 1 = some result := by
  have length : 1 ≤ data.length := List.length_pos_of_ne_nil more
  exact ⟨_, by rw [System.write, if_neg (not_not_intro readable), if_pos ⟨le_rfl, length, room⟩]⟩

theorem System.write_output_ready {data : List UInt8} (more : data ≠ []) :
    ∃ result, s.write capacity (some .output) data 1 = some result := by
  have length : 1 ≤ data.length := List.length_pos_of_ne_nil more
  exact ⟨_, by rw [System.write, if_pos ⟨le_rfl, length⟩]⟩

/-- The child moves while there is data in the pipe, and when the parent has closed it. -/
theorem Flow.child_moves (flow : Flow message source s) (runs : s.child.pc ≠ .exited)
    (ready : s.pipe ≠ [] ∨ s.parent.fds = .closed) :
    ∃ a s', s.step capacity strerror a = some s' := by
  obtain ⟨p, c, input, pipe, output⟩ := s
  have at_ := flow.child
  dsimp only at at_
  cases at_ with
  | read =>
    have ready : pipe ≠ [] ∨ ¬System.isOpen .pipeWrite ⟨p, ⟨.read, childFds, []⟩, input, pipe, output⟩ := by
      apply ready.imp_right
      intro closed
      dsimp only at closed
      rw [System.isOpen, closed]
      exact Bool.false_ne_true
    obtain ⟨result, got⟩ := System.read_pipe_ready (s := ⟨p, _, input, pipe, output⟩) ready
    exact ⟨⟨.child, 1⟩, _, Option.map_eq_some_iff.mpr ⟨result, got, rfl⟩⟩
  | write more =>
    obtain ⟨result, written⟩ := System.write_output_ready more
    exact ⟨⟨.child, 1⟩, _, Option.map_eq_some_iff.mpr ⟨result, written, rfl⟩⟩
  | exited => exact absurd rfl runs
  | _ => exact ⟨⟨.child, 0⟩, _, rfl⟩

/-- A parent that has something to write writes it, or leaves it to the child to make room. -/
theorem Flow.parent_writes (positive : 0 < capacity) (flow : Flow message source s)
    (runs : s.parent.pc ≠ .exited) {data : List UInt8} (more : data ≠ []) :
    (∃ result, s.write capacity (some .pipeWrite) data 1 = some result) ∨
      ∃ a s', s.step capacity strerror a = some s' := by
  obtain ⟨-, holds⟩ := flow.child.running runs .exited []
  by_cases room : s.pipe.length < capacity
  · left
    apply System.write_pipe_ready more _ room
    rw [System.isOpen, holds, Bool.or_true]
  · right
    refine flow.child_moves ?_ (.inl ?_)
    · intro exited
      exact runs (flow.child.last exited)
    · intro drained
      rw [drained] at room
      exact room positive

/-- A process moves until both have exited. -/
theorem Flow.progress (positive : 0 < capacity) (flow : Flow message source s)
    (runs : ¬(s.parent.pc = .exited ∧ s.child.pc = .exited)) :
    ∃ a s', s.step capacity strerror a = some s' := by
  obtain ⟨p, c, input, pipe, output⟩ := s
  have at_ := flow.parent
  dsimp only at at_
  cases at_ with
  | read =>
    obtain ⟨result, got⟩ := System.read_input_ready
    exact ⟨⟨.parent, 1⟩, _, Option.map_eq_some_iff.mpr ⟨result, got, rfl⟩⟩
  | write more =>
    obtain ⟨result, written⟩ | moves := flow.parent_writes positive nofun more
    · exact ⟨⟨.parent, 1⟩, _, Option.map_eq_some_iff.mpr ⟨result, written, rfl⟩⟩
    · exact moves
  | @flush rest ended =>
    by_cases all : rest = []
    · subst all
      exact ⟨⟨.parent, 0⟩, _, rfl⟩
    · obtain ⟨result, written⟩ | moves := flow.parent_writes positive nofun all
      · exact ⟨⟨.parent, 1⟩, _, by
          rw [System.step, System.process, if_neg all]
          exact Option.map_eq_some_iff.mpr ⟨result, written, rfl⟩⟩
      · exact moves
  | exited =>
    apply flow.child_moves _ (.inr rfl)
    intro exited
    exact runs ⟨rfl, exited⟩
  | _ => exact ⟨⟨.parent, 0⟩, _, rfl⟩

/-- Both processes have exited. -/
def System.Ended (s : System) : Prop := s.parent.pc = .exited ∧ s.child.pc = .exited

/-- In every run that ends, the output is the input. -/
def SendsInput (capacity : ℕ) (strerror input : List UInt8) : Prop :=
  ∀ s, (pipeSend capacity strerror input).Reachable (fun _ _ => True) s → s.Ended → s.output = input

/-- The text of `strerror` while no call has failed. -/
def success : List UInt8 := "Success".toList.map fun c => c.toNat.toUInt8

/-- At the end nothing is on its way any more. -/
theorem Flow.output_eq (flow : Flow message source s) (ended : s.Ended) :
    s.output = source ++ message := by
  obtain ⟨p, c, input, pipe, output⟩ := s
  obtain ⟨parentAt, childAt, bytes⟩ := flow
  dsimp only at parentAt childAt
  cases parentAt with
  | exited nothing =>
    cases childAt with
    | exited last drained =>
      subst nothing drained
      simpa [Process.data, Process.printed] using bytes
    | _ => cases ended.2
  | _ => cases ended.1

/-- Every run can be continued to its end. -/
theorem exists_ended (positive : 0 < capacity) (strerror input : List UInt8) :
    ∃ s, (pipeSend capacity strerror input).Reachable (fun _ _ => True) s ∧ s.Ended := by
  refine Machine.Reachable.exists_final (System.left (checkMessage strerror)) ?_ (.start rfl)
  intro s reachable runs
  have flow := flow_of_reachable reachable
  obtain ⟨a, s', moved⟩ := flow.progress positive runs
  exact ⟨a, s', trivial, moved, (flow.step a moved).2⟩

/-- The output is never the input alone: in every run that ends the message stands behind it, and there
is such a run for every input. -/
theorem pipe_send_adds_message (positive : 0 < capacity) (strerror input : List UInt8) :
    (∀ s, (pipeSend capacity strerror input).Reachable (fun _ _ => True) s → s.Ended →
      s.output = input ++ checkMessage strerror) ∧ ¬SendsInput capacity strerror input := by
  have adds : ∀ s, (pipeSend capacity strerror input).Reachable (fun _ _ => True) s → s.Ended →
      s.output = input ++ checkMessage strerror := by
    intro s reachable ended
    exact (flow_of_reachable reachable).output_eq ended
  refine ⟨adds, ?_⟩
  intro sends
  obtain ⟨s, reachable, ended⟩ := exists_ended positive strerror input
  have same := (adds s reachable ended).symm.trans (sends s reachable ended)
  have nothing : checkMessage strerror = [] := List.append_right_eq_self.mp same
  cases nothing

theorem pipe_send_adds_message_success :
    0 < 4096 ∧ (∀ s, (pipeSend 4096 success [104, 105]).Reachable (fun _ _ => True) s → s.Ended →
      s.output = [104, 105] ++ checkMessage success) ∧ ¬SendsInput 4096 success [104, 105] :=
  ⟨by decide, pipe_send_adds_message (by decide) success [104, 105]⟩

/-- On an empty input the parent goes first and flushes the message of 20 bytes, which the child copies. -/
theorem pipe_send_not_input : ¬∀ (capacity : ℕ) (strerror input : List UInt8), 0 < capacity →
    SendsInput capacity strerror input := by
  intro sends
  let schedule : List SystemAction :=
    (List.replicate 6 ⟨.parent, 0⟩ ++ [⟨.parent, 20⟩, ⟨.parent, 0⟩]) ++
      (List.replicate 5 ⟨.child, 0⟩ ++ [⟨.child, 20⟩, ⟨.child, 20⟩, ⟨.child, 0⟩, ⟨.child, 0⟩])
  obtain ⟨s, ran, ended, output⟩ : ∃ s,
      (pipeSend 4096 success []).run ⟨.forked, .forked, [], [], []⟩ schedule = some s ∧
        s.Ended ∧ s.output = checkMessage success := ⟨_, rfl, ⟨rfl, rfl⟩, rfl⟩
  have reachable : (pipeSend 4096 success []).Reachable (fun _ _ => True) s :=
    Machine.Reachable.run (.start rfl) (fun _ _ _ => trivial) ran
  have same := output.symm.trans (sends 4096 success [] (by decide) s reachable ended)
  cases same

end Hseos.PipeSend
