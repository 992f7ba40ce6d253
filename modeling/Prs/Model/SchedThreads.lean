import Prs.Model.Dllist
import Prs.Model.GodSeq

/-!
# Adding a thread to a scheduler (`sched.c`, `worker.c`)

`addThread` is `prs_sched_add_thread` for the id of one scheduler, whose list of workers is part of the state.
Each `prs_pal_malloc` of the call returns a block or null. `live` has the blocks that are allocated.
-/

namespace Prs.SchedThreads

open Function GodSeq Dllist

/-- What is in the object directory. -/
inductive Obj
  | sched
  | worker (worker : ℕ)

structure State where
  dir : Dir Obj
  /-- `sched->sched_data.workers`. -/
  workers : Dllist
  /-- If `sched_worker->sched` is set. -/
  sched : ℕ → Bool
  /-- `sched_worker->worker`. -/
  worker : ℕ → Option Obj
  live : List ℕ

/-- What the allocations of a call return: of the `prs_sched_worker`, of the node and of the `prs_worker`. -/
structure Mallocs where
  schedWorker : Option ℕ
  node : Option ℕ
  worker : Option ℕ

/-- `prs_worker_create`, with the id. -/
def workerCreate (k : ℕ) (dir : Dir Obj) (malloc : Option ℕ) : Option ℕ × Dir Obj :=
  match malloc with
  | none => (none, dir)
  | some worker =>
    let (id, dir) := dir.alloc k (.worker worker)
    if id = invalid then (none, dir) else (some id, dir)

/-- `prs_dllist_remove` of `prs_dllist_begin`. -/
def State.removeBegin (s : State) : State :=
  match s.workers.begin with
  | some node => { s with workers := s.workers.remove node, live := s.live.filter (· ≠ node) }
  | none => s

/-- From `error` on, with a `prs_sched_worker`. -/
def State.error (s : State) (schedWorker : ℕ) : State :=
  let s := if s.sched schedWorker then s.removeBegin else s
  { s with live := s.live.filter (· ≠ schedWorker) }

/-- `cleanup`. -/
def State.cleanup (k id : ℕ) (s : State) : State := { s with dir := (s.dir.unlock k id).2 }

/-- `prs_sched_add_thread`. There is no result when the new worker cannot be locked, which is fatal. -/
def State.addThread (k : ℕ) (s : State) (id : ℕ) (m : Mallocs) : Option (Result × State) :=
  match s.dir.lock k id with
  | (none, _) => some (.unknown, s)
  | (some _, dir) =>
    let s := { s with dir := dir }
    match m.schedWorker with
    | none => some (.outOfMemory, s.cleanup k id)
    | some schedWorker =>
      let s := { s with
        sched := update s.sched schedWorker false
        worker := update s.worker schedWorker none
        live := schedWorker :: s.live }
      match s.workers.insertBefore m.node none schedWorker with
      | (.ok, workers) =>
        let s := { s with
          workers := workers
          sched := update s.sched schedWorker true
          live := m.node.toList ++ s.live }
        match workerCreate k s.dir m.worker with
        | (some workerId, dir) =>
          match dir.lock k workerId with
          | (some worker, dir) =>
            let s := { s with dir := dir, worker := update s.worker schedWorker (some worker) }
            some (.ok, s.cleanup k id)
          | (none, _) => none
        | (none, dir) => some (.outOfMemory, ({ s with dir := dir }.error schedWorker).cleanup k id)
      | (result, _) => some (result, s.cleanup k id)

end Prs.SchedThreads
