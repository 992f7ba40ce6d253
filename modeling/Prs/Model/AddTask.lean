import Prs.Model.Swprio

/-!
# A new task and the scheduler it is added to (`prs_sched_add_task`)

One thread adds a task: the task is made ready and is queued, and only then its `sched_id` is stored.
Meanwhile the worker of the scheduler may run the task, the task may block on an event, and any number of
event sources may unblock it. Each access that the others can see is one step.

A token of the task is the count of its changes of state. The fields `found` and `early` are history.
-/

namespace Prs.AddTask

open Function
open Prs.Swprio (TaskState)

/-- The thread in `prs_sched_add_task`. -/
inductive Adder
  | changeState | push | store | done
  deriving DecidableEq

/-- An event source in `prs_task_unblock`. It reads `sched_id` in `prs_sched_ready` for the lock and for the
unlock of the scheduler. -/
inductive Source
  | none
  | unblock (token : ℕ)
  | lock
  | ready
  | unlock
  deriving DecidableEq

structure St (ι : Type) where
  /-- The object ID of the scheduler. -/
  id : ℕ
  adder : Adder
  state : TaskState
  count : ℕ
  /-- `task->sched_id`. -/
  schedId : ℕ
  /-- The task is in the ready queue. -/
  queued : Bool
  source : ι → Source
  /-- The values of `task->sched_id` that the calls of `prs_sched_ready` have found. -/
  found : List ℕ
  /-- Some call of `prs_sched_ready` has come before the store of `task->sched_id`. -/
  early : Bool

inductive Act (ι : Type)
  | adder
  /-- `get_next` takes the task from its queue. -/
  | run
  /-- The task calls `prs_event_create`. -/
  | block
  | signal (i : ι) (token : ℕ)
  | source (i : ι)

def St.init {ι : Type} (id : ℕ) : St ι where
  id := id
  adder := .changeState
  state := .stopped
  count := 0
  schedId := 0
  queued := false
  source := fun _ => .none
  found := []
  early := false

variable {ι : Type} [DecidableEq ι]

/-- A step of `prs_sched_add_task`. -/
def St.adderStep (s : St ι) : Option (St ι) :=
  match s.adder with
  | .changeState => some { s with state := .ready, count := s.count + 1, adder := .push }
  | .push => some { s with queued := true, adder := .store }
  | .store => some { s with schedId := s.id, adder := .done }
  | .done => none

/-- A step of an event source. With an ID that is not that of a scheduler, `prs_sched_ready` goes no further. -/
def St.sourceStep (s : St ι) (i : ι) : Option (St ι) :=
  match s.source i with
  | .none => none
  | .unblock token =>
    if s.state = .blocked ∧ s.count = token then
      some { s with state := .ready, count := s.count + 1, source := update s.source i .lock }
    else some { s with source := update s.source i .none }
  | .lock =>
    some { s with
      found := s.schedId :: s.found
      early := s.early || decide (s.adder ≠ .done)
      source := update s.source i (if s.schedId = s.id then .ready else .none) }
  | .ready => some { s with queued := true, source := update s.source i .unlock }
  | .unlock => some { s with found := s.schedId :: s.found, source := update s.source i .none }

def St.step (s : St ι) : Act ι → Option (St ι)
  | .adder => s.adderStep
  | .run =>
    if s.queued = true ∧ s.state = .ready then
      some { s with queued := false, state := .running, count := s.count + 1 }
    else none
  | .block => if s.state = .running then some { s with state := .blocked, count := s.count + 1 } else none
  | .signal i token =>
    if s.source i = .none then some { s with source := update s.source i (.unblock token) } else none
  | .source i => s.sourceStep i

/-- A task that is added to a scheduler. An object ID is not `PRS_OBJECT_ID_INVALID`. -/
def sys (ι : Type) [DecidableEq ι] : System (St ι) (Act ι) where
  init s := ∃ id, id ≠ 0 ∧ s = .init id
  step := St.step

end Prs.AddTask
