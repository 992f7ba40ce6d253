import Prs.Model.Worker

/-!
# Stopping a scheduler (`prs_worker_stop`, `prs_sched_stop`)

The workers of a scheduler, each with its posters, and a thread that is not one of them and calls
`prs_sched_stop`: it stops the workers one after the other. In every worker it is the poster `none`. A thread
that was made from the current one (`from_current`) cannot be joined.
-/

namespace Prs.WorkerStop

open Function
open Prs.Worker (Result)

/-- The thread in `prs_sched_stop`. -/
inductive Stopper (κ : Type)
  | none
  /-- In `prs_worker_stop` for `k`, before `prs_worker_interrupt` has returned. -/
  | post (k : κ) (rest : List κ)
  | join (k : κ) (rest : List κ)
  | returned
  deriving DecidableEq

structure St (κ ι : Type) where
  /-- `from_current` of the PAL threads. -/
  fromCurrent : κ → Bool
  worker : κ → Worker.St (Option ι)
  stopper : Stopper κ
  /-- The workers of the scheduler that is stopped. -/
  workers : List κ
  /-- The workers for which `prs_worker_stop` has returned. -/
  stopped : List κ

inductive Act (κ ι : Type)
  /-- An action of worker `k` or of one of its posters. -/
  | worker (k : κ) (a : Worker.Act ι)
  /-- `prs_sched_stop` is called. -/
  | stop
  | stopper

/-- The posters other than the thread in `prs_sched_stop`. -/
def ofPoster {ι : Type} : Worker.Act ι → Worker.Act (Option ι)
  | .post i interrupt => .post (some i) interrupt
  | .stop i => .stop (some i)
  | .poster i => .poster (some i)
  | .worker => .worker
  | .getNext next => .getNext next
  | .disable => .disable
  | .enable => .enable
  | .schedule => .schedule
  | .stopSelf => .stopSelf
  | .interrupt => .interrupt

def St.init {κ ι : Type} (fromCurrent : κ → Bool) (workers : List κ) : St κ ι where
  fromCurrent := fromCurrent
  worker := fun _ => .init
  stopper := .none
  workers := workers
  stopped := []

variable {κ ι : Type} [DecidableEq κ] [DecidableEq ι]

/-- The worker has left `prs_worker_entry`. -/
def St.exited (s : St κ ι) (k : κ) : Bool := decide ((s.worker k).pc = .exited)

/-- The loop of `prs_sched_stop` goes on with the rest of the workers. -/
def St.next (s : St κ ι) : List κ → St κ ι
  | [] => { s with stopper := .returned }
  | k :: rest =>
    { s with
      worker := update s.worker k { s.worker k with post := update (s.worker k).post none .orStop }
      stopper := .post k rest }

/-- `prs_worker_stop` returns. -/
def St.return (s : St κ ι) (k : κ) (rest : List κ) : St κ ι := { s with stopped := k :: s.stopped }.next rest

def St.stopStep (s : St κ ι) : Option (St κ ι) :=
  match s.stopper with
  | .post k rest =>
    let w := s.worker k
    let s' := { s with worker := update s.worker k (w.poster none) }
    match (w.post none).result w.flags with
    | none => some s'
    -- a thread that has exited cannot be interrupted
    | some .ok =>
      if w.post none = .interrupt ∧ w.pc = .exited then some (s'.return k rest)
      else some { s' with stopper := .join k rest }
    | some _ => some (s'.return k rest)
  | .join k rest =>
    -- a thread made from the current one is not waited for
    if s.fromCurrent k = true ∨ s.exited k = true then some (s.return k rest) else none
  | _ => none

def St.step (s : St κ ι) : Act κ ι → Option (St κ ι)
  | .worker k a => ((s.worker k).step (ofPoster a)).map fun w => { s with worker := update s.worker k w }
  | .stop => if s.stopper = .none then some (s.next s.workers) else none
  | .stopper => s.stopStep

/-- The workers of a scheduler, and a thread that stops it. -/
def sys (κ ι : Type) [DecidableEq κ] [DecidableEq ι] : System (St κ ι) (Act κ ι) where
  init s := ∃ fromCurrent workers, s = .init fromCurrent workers
  step := St.step

end Prs.WorkerStop
