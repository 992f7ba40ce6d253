import Prs.Model.Swprio

/-!
# The priority scheduler, one access at a time

The worker that owns the scheduler runs tasks and `prs_sched_swprio_get_next`. Other workers call
`prs_task_unblock` and `prs_sched_remove_task`. Each access to the state of a task, to `sched_userdata`, to a
queue or to the mask is one step; what a task does on its own worker (`prs_task_block`, `prs_sched_yield`) and
adding a task are one step each.

A task word is taken for its state: a successful `prs_task_unblock` has the token of the last
`prs_task_block`, so it finds the task blocked. The fields `removed`, `stopped`, `pushed`, `seen` and
`mismatch` of the state are history.
-/

namespace Prs.SwprioSteps

open Function Swprio

/-- Where the loop over `removeq` is with a task that it retires: before the access that the name says. -/
inductive Stage
  | inspect
  | dequeue
  | check
  | clear
  | recheck
  | set
  | load
  | store
  | forget
  | unlink
  | free
  deriving DecidableEq

/-- Where `prs_sched_swprio_get_next` is with the current task that it preempts. -/
inductive Preempt
  | push
  | mask
  | load
  | store
  deriving DecidableEq

/-- The worker. It is before the access that the name says. -/
inductive Work (τ : Type)
  | run
  | begin
  | retire (t : τ) (stage : Stage)
  | loadMask
  | search (mask : BitVec 32)
  | clear (mask : BitVec 32) (p : Prio)
  | again (mask : BitVec 32) (p : Prio)
  | set (p : Prio) (t : τ)
  | nothing
  | found (p : Prio) (t : τ)
  | preempt (c : τ) (p : Prio) (t : τ) (stage : Preempt)
  | take (p : Prio) (t : τ)
  | runLoad (t : τ)
  | runStore (t : τ)
  deriving DecidableEq

/-- A caller on another worker. -/
inductive Pc (τ : Type)
  | idle
  | unblockCas (t : τ)
  | unblockUserdata (t : τ)
  | unblockPush (t : τ)
  | unblockMask (t : τ)
  | removeState (t : τ)
  | removeLoad (t : τ)
  | removeStore (t : τ)
  | removePush (t : τ)
  deriving DecidableEq

structure St (ι τ : Type) where
  state : τ → TaskState
  prio : τ → Prio
  /-- `sched_userdata` is not null. -/
  userdata : τ → Bool
  /-- The userdata block was freed. -/
  freed : τ → Bool
  sched : Sched τ
  /-- The task that is passed to `prs_sched_swprio_get_next` as the current one. -/
  current : Option τ
  /-- The current task has blocked or yielded. -/
  leaving : Bool
  worker : Work τ
  pc : ι → Pc τ
  /-- The tasks for which `prs_sched_remove_task` was called. -/
  removed : List τ
  /-- The tasks for which it has stored `PRS_TASK_STATE_STOPPED`. -/
  stopped : List τ
  /-- The tasks that it has pushed on `removeq`. -/
  pushed : List τ
  /-- The tasks that were pushed on `removeq` before the loop over it last ended. -/
  seen : List τ
  /-- A `prs_task_change_state` in `prs_sched_swprio_get_next` has found another state than it expects. -/
  mismatch : Bool

inductive Act (ι τ : Type)
  | add (t : τ)
  | block
  | yield
  | unblockSelf
  | getNext
  | worker
  | unblock (j : ι) (t : τ)
  | remove (j : ι) (t : τ)
  | step (j : ι)

variable {ι τ : Type} [DecidableEq ι] [DecidableEq τ]

/-- Tasks that were created, with their priorities. -/
def St.init (prio : τ → Prio) : St ι τ where
  state := fun _ => .stopped
  prio := prio
  userdata := fun _ => false
  freed := fun _ => false
  sched := .init
  current := none
  leaving := false
  worker := .run
  pc := fun _ => .idle
  removed := []
  stopped := []
  pushed := []
  seen := []
  mismatch := false

def St.goto (s : St ι τ) (w : Work τ) : St ι τ := { s with worker := w }

/-- The load and the check of `prs_task_change_state` in `prs_sched_swprio_get_next`. -/
def St.expect (s : St ι τ) (t : τ) (x : TaskState) (w : Work τ) : St ι τ :=
  { s with worker := w, mismatch := s.mismatch || decide (s.state t ≠ x) }

/-- `prs_sched_swprio_get_next` returns `next`. -/
def St.ret (s : St ι τ) (next : Option τ) : St ι τ := { s with worker := .run, current := next, leaving := false }

/-- A step of the loop over `removeq` with task `t`. -/
def St.stepRetire (s : St ι τ) (t : τ) : Stage → St ι τ
  | .inspect =>
    s.goto (.retire t (if t ∈ s.sched.readyq (s.prio t) then .dequeue else .load))
  | .dequeue => { s with sched := s.sched.dequeue (s.prio t) t, worker := .retire t .check }
  | .check => s.goto (.retire t (if s.sched.readyq (s.prio t) = [] then .clear else .load))
  | .clear => { s with sched := s.sched.clearMask (s.prio t), worker := .retire t .recheck }
  | .recheck => s.goto (.retire t (if s.sched.readyq (s.prio t) = [] then .load else .set))
  | .set => { s with sched := s.sched.setMask (s.prio t), worker := .retire t .load }
  | .load => s.expect t .stopped (.retire t .store)
  | .store => { s with state := update s.state t .zombie, worker := .retire t .forget }
  | .forget => { s with userdata := update s.userdata t false, worker := .retire t .unlink }
  | .unlink => { s with sched := { s.sched with removeq := s.sched.removeq.erase t }, worker := .retire t .free }
  | .free => { s with freed := update s.freed t true, worker := .begin }

/-- A step of the preemption of `c`; `t` is the task found, in the queue of `p`. -/
def St.stepPreempt (s : St ι τ) (c : τ) (p : Prio) (t : τ) : Preempt → St ι τ
  | .push => { s with sched := s.sched.push (s.prio c) c, worker := .preempt c p t .mask }
  | .mask => { s with sched := s.sched.setMask (s.prio c), worker := .preempt c p t .load }
  | .load => s.expect c .running (.preempt c p t .store)
  | .store => { s with state := update s.state c .ready, worker := .take p t }

/-- A step of the worker in `prs_sched_swprio_get_next`. -/
def St.stepWorker (s : St ι τ) : Option (St ι τ) :=
  match s.worker with
  | .run => none
  | .begin =>
    match s.sched.removeq with
    | [] => some { s with worker := .loadMask, seen := s.pushed }
    | t :: _ => if s.current = some t then some (s.ret none) else some (s.goto (.retire t .inspect))
  | .retire t stage => some (s.stepRetire t stage)
  | .loadMask => some (s.goto (.search s.sched.readyMask))
  | .search mask =>
    match lsb mask with
    | none => some (s.goto .nothing)
    | some p =>
      match s.sched.readyq p with
      | [] => some (s.goto (.clear mask p))
      | t :: _ => some (s.goto (.found p t))
  | .clear mask p => some { s with sched := s.sched.clearMask p, worker := .again mask p }
  | .again mask p =>
    match s.sched.readyq p with
    | [] => some (s.goto (.search (mask &&& ~~~bit p)))
    | t :: _ => some (s.goto (.set p t))
  | .set p t => some { s with sched := s.sched.setMask p, worker := .found p t }
  | .nothing =>
    match s.current with
    | some c => if s.state c = .running then some (s.ret (some c)) else some (s.ret none)
    | none => some (s.ret none)
  | .found p t =>
    match s.current with
    | some c =>
      if s.state c = .running then
        if p < s.prio c then some (s.goto (.preempt c p t .push)) else some (s.ret (some c))
      else some (s.goto (.take p t))
    | none => some (s.goto (.take p t))
  | .preempt c p t stage => some (s.stepPreempt c p t stage)
  | .take p t => some { s with sched := s.sched.dequeue p t, worker := .runLoad t }
  | .runLoad t => some (s.expect t .ready (.runStore t))
  | .runStore t => some (({ s with state := update s.state t .running } : St ι τ).ret (some t))

/-- A step of a caller. `prs_sched_swprio_ready` starts with the read of `sched_userdata`. -/
def St.stepCaller (s : St ι τ) (j : ι) : Option (St ι τ) :=
  match s.pc j with
  | .idle => none
  | .unblockCas t =>
    if s.state t = .blocked then
      some { s with state := update s.state t .ready, pc := update s.pc j (.unblockUserdata t) }
    else some { s with pc := update s.pc j .idle }
  | .unblockUserdata t => some { s with pc := update s.pc j (.unblockPush t) }
  | .unblockPush t => some { s with sched := s.sched.push (s.prio t) t, pc := update s.pc j (.unblockMask t) }
  | .unblockMask t => some { s with sched := s.sched.setMask (s.prio t), pc := update s.pc j .idle }
  | .removeState t =>
    some { s with pc := update s.pc j (if s.state t = .stopped then .idle else .removeLoad t) }
  | .removeLoad t => some { s with pc := update s.pc j (.removeStore t) }
  | .removeStore t =>
    some { s with
      state := update s.state t .stopped
      pc := update s.pc j (.removePush t)
      stopped := t :: s.stopped }
  | .removePush t =>
    some { s with
      sched := { s.sched with removeq := s.sched.removeq ++ [t] }
      pc := update s.pc j .idle
      pushed := t :: s.pushed }

/-- `prs_sched_remove_task` is called once for a task. -/
def St.step (s : St ι τ) : Act ι τ → Option (St ι τ)
  | .add t =>
    if s.userdata t = false ∧ s.state t = .stopped then
      some { s with
        state := update s.state t .ready
        userdata := update s.userdata t true
        sched := (s.sched.push (s.prio t) t).setMask (s.prio t) }
    else none
  | .block =>
    match s.current with
    | some t =>
      if s.worker = .run ∧ s.leaving = false then
        some { s with state := update s.state t .blocked, leaving := true }
      else none
    | none => none
  | .yield =>
    match s.current with
    | some t =>
      if s.worker = .run ∧ s.leaving = false then
        some { s with
          state := update s.state t .ready
          sched := (s.sched.push (s.prio t) t).setMask (s.prio t)
          leaving := true }
      else none
    | none => none
  | .unblockSelf =>
    match s.current with
    | some t =>
      if s.worker = .run ∧ s.state t = .blocked then
        some { s with state := update s.state t .running, leaving := false }
      else none
    | none => none
  | .getNext => if s.worker = .run then some (s.goto .begin) else none
  | .worker => s.stepWorker
  | .unblock j t => if s.pc j = .idle then some { s with pc := update s.pc j (.unblockCas t) } else none
  | .remove j t =>
    if s.pc j = .idle ∧ s.userdata t = true ∧ t ∉ s.removed then
      some { s with pc := update s.pc j (.removeState t), removed := t :: s.removed }
    else none
  | .step j => s.stepCaller j

/-- A scheduler with one worker, and any number of callers on other workers. -/
def sys (ι τ : Type) [DecidableEq ι] [DecidableEq τ] : System (St ι τ) (Act ι τ) where
  init s := ∃ prio, s = .init prio
  step := St.step

end Prs.SwprioSteps
