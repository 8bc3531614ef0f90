import Hseos.Fork.DivisorRange
import Hseos.Lib.EventFd
import Hseos.Lib.Machine

/-! # The divisor server

A master and eight workers share a context. The master scans a number, resets the counter of the
responses, writes the number to each worker's input counter and reads each worker's output counter;
then it prints the responses. A worker reads its request, stores both responses for each divisor it
finds into slots it reserves one by one, and writes the request to its output counter.

Every system call, `__sync_fetch_and_add`, store to a slot and evaluation of a loop's condition is a
step of its own. The estimate of the root is a parameter. The mapping of the context holds `mapped`
slots, the first `MAX_RESPONSES` of which are the array; an access beyond ends its process.
-/

namespace Hseos.Fork

/-- `MAX_RESPONSES`. -/
def maxResponses : ℕ := 64

/-- `struct Context`. -/
structure Context where
  responseSize : ℕ
  responses : ℕ → ℕ

/-- Where a worker is in `loop_fd`, with its local variables. -/
inductive Worker where
  | read
  | test (value r i : ℕ)
  | reserveI (value r i : ℕ)
  | storeI (value r i slot : ℕ)
  | reserveJ (value r i : ℕ)
  | storeJ (value r i slot : ℕ)
  | write (value : ℕ)
  | fault (reason : Fault)
deriving DecidableEq

/-- Where the master is in the loop of `main`, with its local variables. -/
inductive Master where
  | scanf
  | reset (x : ℕ)
  | request (x i : ℕ)
  | collect (i : ℕ)
  | print (i : ℕ)
  | fault (reason : Fault)
deriving DecidableEq

/-- The processes, the event counters and the shared context. `value` is the number of the current
round, `writes` what each worker has stored in it, slots first, and `printed` what the master has
printed in it. -/
structure Server where
  master : Master
  workers : Fin threads → Worker
  inputFd : Fin threads → ℕ
  outputFd : Fin threads → ℕ
  ctx : Context
  value : ℕ
  writes : Fin threads → List (ℕ × ℕ)
  printed : List ℕ

/-- A step of one process; `scanf` comes with the number read, if it could be read. -/
inductive ServerAction where
  | scanf (result : Option ℕ)
  | master
  | worker (k : Fin threads)
deriving DecidableEq

/-- The state of `loop_fd` behind the read of a request. -/
def Worker.begin (sqrtPart : ℕ → ℕ) (id value : ℕ) : Worker :=
  if value = 0 then .read
  else
    let step := rangeStep (sqrtPart value)
    .test value (rangeHigh step id) (rangeLow step id)

namespace Server

def setWorker (k : Fin threads) (next : Worker) (s : Server) : Server :=
  { s with workers := Function.update s.workers k next }

/-- `__sync_fetch_and_add(&ctx->response_size, 1)`. -/
def fetchAndAdd (s : Server) : ℕ × Server :=
  (s.ctx.responseSize,
    { s with ctx := { s.ctx with responseSize := wordAdd 64 s.ctx.responseSize 1 } })

/-- `ctx->responses[slot] = x`, after which the worker goes on. -/
def store (mapped : ℕ) (k : Fin threads) (slot x : ℕ) (next : Worker) (s : Server) : Server :=
  if slot < mapped then
    { s.setWorker k next with
      ctx := { s.ctx with responses := Function.update s.ctx.responses slot x }
      writes := Function.update s.writes k (s.writes k ++ [(slot, x)]) }
  else s.setWorker k (.fault .outOfBounds)

/-- One step of `loop_fd`. -/
def workerStep (sqrtPart : ℕ → ℕ) (mapped : ℕ) (k : Fin threads) (s : Server) : Option Server :=
  match s.workers k with
  | .read =>
      (eventRead (s.inputFd k)).map fun (value, counter) =>
        { s.setWorker k (.begin sqrtPart k value) with inputFd := Function.update s.inputFd k counter }
  | .test value r i =>
      if i < r ∧ wordMul 64 i i ≤ value then
        match wordMod value i with
        | .error reason => some (s.setWorker k (.fault reason))
        | .ok 0 => some (s.setWorker k (.reserveI value r i))
        | .ok _ => some (s.setWorker k (.test value r (wordAdd 64 i 1)))
      else some (s.setWorker k (.write value))
  | .reserveI value r i =>
      let (slot, s) := s.fetchAndAdd
      some (s.setWorker k (.storeI value r i slot))
  | .storeI value r i slot => some (s.store mapped k slot i (.reserveJ value r i))
  | .reserveJ value r i =>
      let (slot, s) := s.fetchAndAdd
      some (s.setWorker k (.storeJ value r i slot))
  | .storeJ value r i slot =>
      some (s.store mapped k slot (value / i) (.test value r (wordAdd 64 i 1)))
  | .write value =>
      (eventWrite (s.outputFd k) value).map fun (_, counter) =>
        { s.setWorker k .read with outputFd := Function.update s.outputFd k counter }
  | .fault _ => none

/-- One step of the loop of `main`, but for `scanf`. -/
def masterStep (mapped : ℕ) (s : Server) : Option Server :=
  match s.master with
  | .scanf => none
  | .reset x =>
      some { s with
        master := .request x 0
        ctx := { s.ctx with responseSize := 0 }
        value := x
        writes := fun _ => []
        printed := [] }
  | .request x i =>
      if worker : i < threads then
        (eventWrite (s.inputFd ⟨i, worker⟩) x).map fun (_, counter) =>
          { s with
            master := .request x (i + 1)
            inputFd := Function.update s.inputFd ⟨i, worker⟩ counter }
      else some { s with master := .collect 0 }
  | .collect i =>
      if worker : i < threads then
        (eventRead (s.outputFd ⟨i, worker⟩)).map fun (_, counter) =>
          { s with
            master := .collect (i + 1)
            outputFd := Function.update s.outputFd ⟨i, worker⟩ counter }
      else some { s with master := .print 0 }
  | .print i =>
      if i < s.ctx.responseSize then
        if i < mapped then
          some { s with master := .print (i + 1), printed := s.printed ++ [s.ctx.responses i] }
        else some { s with master := .fault .outOfBounds }
      else some { s with master := .scanf }
  | .fault _ => none

def step (sqrtPart : ℕ → ℕ) (mapped : ℕ) (s : Server) : ServerAction → Option Server
  | .scanf result =>
      -- `x` stays zero if nothing could be read
      if s.master = .scanf ∧ result.getD 0 < 2 ^ 64 then
        some { s with master := .reset (result.getD 0) }
      else none
  | .master => s.masterStep mapped
  | .worker k => s.workerStep sqrtPart mapped k

end Server

/-- All runs of the server; the mapping is zero at the start, and so are the counters. -/
def divisorServer (sqrtPart : ℕ → ℕ) (mapped : ℕ) : Machine Server ServerAction where
  start s := s = ⟨.scanf, fun _ => .read, fun _ => 0, fun _ => 0, ⟨0, fun _ => 0⟩, 0, fun _ => [], []⟩
  step := Server.step sqrtPart mapped

end Hseos.Fork
