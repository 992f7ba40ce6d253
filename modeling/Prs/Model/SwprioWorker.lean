import Prs.Model.Swprio
import Prs.Model.Worker

/-!
# The priority scheduler on its worker (`sched/swprio.c` with `worker.c`)

The worker of `Prs.Model.Worker` runs `prs_sched_swprio_get_next` where that model leaves the next task open,
and callers of `prs_sched_swprio_ready` are the posters. Each access to a ready queue, to the mask, to
`current_task_id` and to the flags of the worker is one step.

Tasks are not removed, so the loop over `removeq` has no turns; priorities do not change; the worker is not
stopped. A caller has made the task ready before it calls (`prs_task_unblock`). Callers on the worker itself
are not told from others.
-/

namespace Prs.SwprioWorker

open Function Swprio Worker

/-- A call of `prs_sched_swprio_ready`. It is before the access that the name says. -/
inductive Ready (τ : Type)
  | idle
  | push (t : τ)
  | mask (t : τ)
  | read (t : τ)
  | post (t : τ)
  deriving DecidableEq

/-- Where `prs_sched_swprio_get_next` is with the current task that it preempts. -/
inductive Preempt
  | push
  | mask
  | state
  deriving DecidableEq

/-- The part of `prs_worker_schedule_internal` that finds the next task. It is before the access that the name
says. -/
inductive Scan (τ : Type)
  | reset
  | loadMask
  | search (mask : BitVec 32)
  | clear (mask : BitVec 32) (p : Prio)
  | again (mask : BitVec 32) (p : Prio)
  | set (p : Prio) (t : τ)
  | nothing
  | found (p : Prio) (t : τ)
  | preempt (c : τ) (p : Prio) (t : τ) (stage : Preempt)
  | take (p : Prio) (t : τ)
  | running (t : τ)
  | store (t : τ)
  | switch (t : τ)
  deriving DecidableEq

structure St (ι τ : Type) where
  worker : Worker.St ι
  sched : Sched τ
  prio : τ → Prio
  state : τ → TaskState
  /-- `current_task` of the worker and its `current_task_id`. Only the worker reads the former. -/
  current : Option τ
  /-- `prev_task`. -/
  prev : Option τ
  /-- It is `reset` while the worker is elsewhere. -/
  scan : Scan τ
  ready : ι → Ready τ

/-- `switch` takes the place where the context of the next task was left, or none for a task that has not run. -/
inductive Act (ι τ : Type)
  | ready (i : ι) (t : τ)
  | caller (i : ι)
  | worker
  | getNext
  | switch (context : Option Caller)
  | block
  | unblockSelf
  | disable
  | enable
  | schedule
  | interrupt

variable {ι τ : Type} [DecidableEq ι] [DecidableEq τ]

/-- A worker that was started, with tasks that are blocked. -/
def St.init (prio : τ → Prio) : St ι τ where
  worker := .init
  sched := .init
  prio := prio
  state := fun _ => .blocked
  current := none
  prev := none
  scan := .reset
  ready := fun _ => .idle

def St.goto (s : St ι τ) (scan : Scan τ) : St ι τ := { s with scan := scan }

/-- A step of the worker or of a poster. -/
def St.lift (s : St ι τ) (a : Worker.Act ι) : Option (St ι τ) :=
  (s.worker.step a).map fun w => { s with worker := w }

/-- Whether `prs_sched_swprio_ready` interrupts the worker. `lowest_prio` starts at zero, so a current task of
priority zero is not looked at further. -/
def St.interrupts (s : St ι τ) (t : τ) : Bool :=
  match s.current with
  | none => true
  | some c => decide (0 < (s.prio c).val) && decide (s.prio t < s.prio c)

/-- A step of a call of `prs_sched_swprio_ready`. -/
def St.stepCaller (s : St ι τ) (i : ι) : Option (St ι τ) :=
  match s.ready i with
  | .idle => none
  | .push t => some { s with sched := s.sched.push (s.prio t) t, ready := update s.ready i (.mask t) }
  | .mask t => some { s with sched := s.sched.setMask (s.prio t), ready := update s.ready i (.read t) }
  | .read t =>
    if s.interrupts t then
      (s.lift (.post i true)).map fun s' => { s' with ready := update s.ready i (.post t) }
    else some { s with ready := update s.ready i .idle }
  | .post t =>
    (s.lift (.poster i)).map fun s' =>
      { s' with ready := update s.ready i (if s'.worker.post i = .done then .idle else .post t) }

/-- A step of the preemption of `c`; `t` is the task found, in the queue of `p`. -/
def St.stepPreempt (s : St ι τ) (c : τ) (p : Prio) (t : τ) : Preempt → St ι τ
  | .push => { s with sched := s.sched.push (s.prio c) c, scan := .preempt c p t .mask }
  | .mask => { s with sched := s.sched.setMask (s.prio c), scan := .preempt c p t .state }
  | .state => { s with state := update s.state c .ready, scan := .take p t }

/-- `prs_sched_swprio_get_next` has no task. -/
def St.idle (s : St ι τ) : Option (St ι τ) := (s.goto .reset).lift (.getNext .idle)

/-- A step of the worker between the reset of the current task and the switch to the next one. -/
def St.stepScan (s : St ι τ) : Option (St ι τ) :=
  match s.scan with
  -- `prs_worker_set_current_task(worker, 0)`: callers are to see that no task is current while the next one
  -- is computed
  | .reset => some { s with prev := s.current, current := none, scan := .loadMask }
  | .loadMask => some (s.goto (.search s.sched.readyMask))
  | .search mask =>
    match lsb mask with
    | none => some (s.goto .nothing)
    | some p =>
      match s.sched.readyq p with
      | [] => some (s.goto (.clear mask p))
      | t :: _ => some (s.goto (.found p t))
  | .clear mask p => some { s with sched := s.sched.clearMask p, scan := .again mask p }
  -- a task may have been pushed between the look at the queue and the clearing of its bit
  | .again mask p =>
    match s.sched.readyq p with
    | [] => some (s.goto (.search (mask &&& ~~~bit p)))
    | t :: _ => some (s.goto (.set p t))
  | .set p t => some { s with sched := s.sched.setMask p, scan := .found p t }
  -- a current task that was only interrupted goes on
  | .nothing =>
    match s.prev with
    | some c => if s.state c = .running then some (s.goto (.store c)) else s.idle
    | none => s.idle
  -- it is preempted by a more urgent task, and by no other
  | .found p t =>
    match s.prev with
    | some c =>
      if s.state c = .running then
        if p < s.prio c then some (s.goto (.preempt c p t .push)) else some (s.goto (.store c))
      else some (s.goto (.take p t))
    | none => some (s.goto (.take p t))
  | .preempt c p t stage => some (s.stepPreempt c p t stage)
  | .take p t => some { s with sched := s.sched.dequeue p t, scan := .running t }
  | .running t => some { s with state := update s.state t .running, scan := .store t }
  | .store t => some { s with current := some t, scan := .switch t }
  | .switch _ => none

/-- The end of `prs_worker_schedule_internal`, in the context of `t`. A task that goes on is in the call that
it made. -/
def St.stepSwitch (s : St ι τ) (context : Option Caller) : Option (St ι τ) :=
  match s.worker.pc, s.scan with
  | .getNext caller, .switch t =>
    -- there is no `prs_pal_context_swap` when the current task goes on
    let next := if s.prev = some t then .task caller else context.elim .fresh .task
    (s.goto .reset).lift (.getNext next)
  | _, _ => none

/-- PRS code of the current task, with interrupts disabled. -/
def St.inTask (s : St ι τ) : Bool := decide (s.worker.pc = .run) && !s.worker.flags.interruptible

def St.step (s : St ι τ) : Act ι τ → Option (St ι τ)
  | .ready i t =>
    if s.ready i = .idle ∧ s.state t = .blocked then
      some { s with state := update s.state t .ready, ready := update s.ready i (.push t) }
    else none
  | .caller i => s.stepCaller i
  | .worker => s.lift .worker
  | .getNext =>
    match s.worker.pc with
    | .getNext _ => s.stepScan
    | _ => none
  | .switch context => s.stepSwitch context
  | .block =>
    match s.current with
    | some c =>
      if s.inTask ∧ s.state c = .running then some { s with state := update s.state c .blocked } else none
    | none => none
  | .unblockSelf =>
    match s.current with
    | some c =>
      if s.inTask ∧ s.state c = .blocked then some { s with state := update s.state c .running } else none
    | none => none
  | .disable => s.lift .disable
  | .enable => s.lift .enable
  | .schedule => s.lift .schedule
  | .interrupt => s.lift .interrupt

/-- A priority scheduler with one worker, and any number of calls of `prs_sched_swprio_ready`. -/
def sys (ι τ : Type) [DecidableEq ι] [DecidableEq τ] : System (St ι τ) (Act ι τ) where
  init s := ∃ prio, s = .init prio
  step := St.step

end Prs.SwprioWorker
