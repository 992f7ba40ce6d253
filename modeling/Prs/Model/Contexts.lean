import Prs.Model.Swprio
import Prs.Model.Worker

/-!
# The register contexts of a worker (`worker.c` with `sched/swprio.c`)

A worker with the priority scheduler. The worker executes on a context: its exit context, or that of a task,
on which it stays when the task has blocked and there is nothing else to run, while it idles and then tries
again. Calls of other workers are one step each; `prs_sched_swprio_get_next` is one step for each task that it
retires and one for the choice of the next task.

The tasks and the queues are those of `Swprio.St`; its `current` is the `current_task` that `get_next` is
called with. The field `retired` is history.
-/

namespace Prs.Contexts

open Function
open Prs.Worker (Flags Caller)

/-- A register context: `worker->exit_context` or `task->context`. -/
inductive Ctx (τ : Type)
  | exit
  | task (t : τ)
  deriving DecidableEq

/-- The worker. `prevContext` is the local variable of `prs_worker_schedule_internal`. -/
inductive Pc (τ : Type)
  | entry
  | top (caller : Caller) (check : Bool) (prevContext : Option τ)
  | scan (caller : Caller) (prevContext : Option τ)
  | retire (caller : Caller) (prevContext : Option τ) (t : τ)
  | select (caller : Caller) (prevContext : Option τ)
  | idle (caller : Caller) (prevContext : Option τ)
  | suspend (caller : Caller) (prevContext : Option τ)
  | swap (caller : Caller) (save : Option (Ctx τ)) (next : τ)
  | prologue
  | run
  | handler
  | exited
  deriving DecidableEq

structure St (τ : Type) where
  flags : Flags
  /-- `idle_sem` of the PAL thread. -/
  resumes : ℕ
  /-- The interrupt signal is pending. -/
  signal : Bool
  pc : Pc τ
  /-- The context that the worker executes on. -/
  ctx : Ctx τ
  /-- The call of `prs_worker_schedule_internal` in which a context was saved. -/
  saved : τ → Option Caller
  tasks : Swprio.St τ
  /-- The tasks that were retired. -/
  retired : List τ

inductive Act (τ : Type)
  | add (t : τ)
  /-- `remote` is whether the caller of `prs_task_unblock` is not on the worker. -/
  | unblock (t : τ) (remote : Bool)
  | remove (t : τ)
  | post (interrupt : Bool)
  | stop
  | worker
  | block
  | yield
  | schedule
  | disable
  | enable
  | interrupt

def St.init {τ : Type} (prio : τ → Swprio.Prio) : St τ where
  flags := .zero
  resumes := 0
  signal := false
  pc := .entry
  ctx := .exit
  saved := fun _ => none
  tasks := .init prio
  retired := []

variable {τ : Type} [DecidableEq τ]

/-- The end of a call of `prs_worker_schedule_internal`. -/
def back : Caller → Pc τ
  | .entry => .entry
  | .prologue => .prologue
  | .task => .run

/-- `worker->current_task`: it is null while the next task is looked for. -/
def St.currentTask (s : St τ) : Option τ :=
  match s.pc with
  | .scan _ _ => none
  | .retire _ _ _ => none
  | .select _ _ => none
  | _ => s.tasks.current

/-- `prs_worker_post`. -/
def St.post (s : St τ) (interrupt : Bool) : St τ :=
  if s.flags.idle then
    { s with flags := { s.flags with pending := true, idle := false }, resumes := s.resumes + 1 }
  else
    { s with
      flags := { s.flags with pending := true }
      signal := s.signal || (interrupt && s.flags.interruptible && !s.flags.pending) }

/-- The part of `prs_sched_swprio_ready` after the task is queued. -/
def St.preempt (s : St τ) (t : τ) : St τ :=
  match s.currentTask with
  | none => s.post true
  | some c => if s.tasks.prio t < s.tasks.prio c then s.post true else s

/-- The part of `prs_sched_swprio_remove` after the task is queued; `running` is whether it was running. -/
def St.evict (s : St τ) (t : τ) (running : Bool) : St τ :=
  if running = true ∧ s.currentTask = some t then s.post true else s

/-- `prs_pal_context_swap(0, worker->exit_context)`. -/
def St.leave (s : St τ) : St τ := { s with ctx := .exit, pc := .entry }

/-- The save context for `prs_pal_context_swap`. -/
def saveContext (caller : Caller) : Option τ → Option (Ctx τ)
  | some t => some (.task t)
  | none => if caller = .entry then some .exit else none

/-- The first half of `prs_pal_context_swap`. -/
def St.save (s : St τ) (caller : Caller) : Option (Ctx τ) → τ → Option Caller
  | some (.task t) => update s.saved t (some caller)
  | _ => s.saved

/-- The choice of `prs_sched_swprio_get_next`, and what `prs_worker_schedule_internal` does with it. -/
def St.select (s : St τ) (caller : Caller) (prevContext : Option τ) : St τ :=
  let r := s.tasks.sched.search 32 s.tasks.sched.readyMask
  let r' := ({ s.tasks with sched := r.1 } : Swprio.St τ).select r.2
  let s' : St τ := { s with tasks := { r'.2 with current := r'.1, leaving := false } }
  match r'.1 with
  | some next =>
    { s' with
      pc :=
        if s.tasks.current = some next then back caller
        else .swap caller (saveContext caller prevContext) next }
  | none => { s' with pc := .idle caller prevContext }

/-- A step of the worker in its own code. -/
def St.worker (s : St τ) : Option (St τ) :=
  match s.pc with
  | .entry => some { s with pc := if s.flags.stop then .exited else .top .entry false none }
  | .top caller check prevContext =>
    -- without the check, the flags are taken to be `PRS_WORKER_FLAG_INTERRUPT_PENDING`
    let flags := if check then s.flags else { Flags.zero with pending := true }
    let s' : St τ := { s with flags := if check then { s.flags with pending := false } else s.flags }
    if flags.stop then some s'.leave
    else if flags.pending then some { s' with pc := .scan caller (s.tasks.current.or prevContext) }
    else some { s' with pc := back caller }
  | .scan caller prevContext =>
    match s.tasks.sched.removeq with
    | [] => some { s with pc := .select caller prevContext }
    | t :: _ =>
      if s.tasks.current = some t then
        some { s with tasks := { s.tasks with current := none, leaving := false } }.leave
      else some { s with pc := .retire caller prevContext t }
  | .retire caller prevContext t =>
    some { s with tasks := s.tasks.retire t, retired := t :: s.retired, pc := .scan caller prevContext }
  | .select caller prevContext => some (s.select caller prevContext)
  | .idle caller prevContext =>
    if s.flags = .zero then
      some { s with
        flags := { Flags.zero with idle := true, pending := true }
        pc := .suspend caller prevContext }
    else some { s with pc := .top caller true prevContext }
  | .suspend caller prevContext =>
    if 0 < s.resumes then some { s with resumes := s.resumes - 1, pc := .top caller true prevContext } else none
  | .swap caller save next =>
    let saved := s.save caller save
    some { s with
      ctx := .task next
      saved := saved
      pc := match saved next with
        | some c => back c
        | none => .top .prologue true none }
  | .prologue =>
    if s.flags = .zero then some { s with flags := { Flags.zero with interruptible := true }, pc := .run }
    else some { s with pc := .top .prologue true none }
  | .handler =>
    some { s with
      flags := { s.flags with interruptible := false }
      pc := if s.flags.interruptible then .top .prologue true none else .run }
  | .run => none
  | .exited => none

/-- The task may call PRS: it does so with interrupts disabled, and not once it has blocked or yielded. -/
def St.calls (s : St τ) : Prop := s.pc = .run ∧ s.flags.interruptible = false ∧ s.tasks.leaving = false

instance (s : St τ) : Decidable s.calls := inferInstanceAs (Decidable (_ ∧ _))

def St.step (s : St τ) : Act τ → Option (St τ)
  | .add t => (s.tasks.step (.add t)).map fun tasks => { s with tasks := tasks }.preempt t
  | .unblock t remote =>
    if remote = false ∧ s.pc ≠ .run then none
    else
      (s.tasks.step (.unblock t remote)).map fun tasks =>
        if s.tasks.state t = .blocked ∧ tasks.state t = .ready then { s with tasks := tasks }.preempt t
        else { s with tasks := tasks }
  | .remove t =>
    (s.tasks.step (.remove t)).map fun tasks => { s with tasks := tasks }.evict t
      (decide (s.tasks.state t = Swprio.TaskState.running))
  | .post interrupt => some (s.post interrupt)
  | .stop => some ({ s with flags := { s.flags with stop := true } }.post true)
  | .worker => s.worker
  | .block => if s.calls then (s.tasks.step .block).map fun tasks => { s with tasks := tasks } else none
  | .yield => if s.calls then (s.tasks.step .yield).map fun tasks => { s with tasks := tasks } else none
  | .schedule =>
    if s.pc = .run ∧ s.flags.interruptible = false then some { s with pc := .top .task false none } else none
  | .disable => if s.pc = .run then some { s with flags := { s.flags with interruptible := false } } else none
  | .enable => if s.calls then some { s with pc := .top .prologue true none } else none
  | .interrupt =>
    -- the signal handler looks at the flags before it enters `prs_worker_interrupt_entry`
    if s.signal then
      if s.pc = .run ∧ s.flags.interruptible then some { s with signal := false, pc := .handler }
      else some { s with signal := false }
    else none

/-- A worker with its tasks. -/
def sys (τ : Type) [DecidableEq τ] : System (St τ) (Act τ) where
  init s := ∃ prio, s = .init prio
  step := St.step

end Prs.Contexts
