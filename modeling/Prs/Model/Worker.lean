import Prs.Lib.System
import Prs.Lib.Threads

/-!
# The worker and those who post to it (`worker.c`)

`worker->flags` is one word that the worker and any number of posters change, one atomic operation a step. The
worker runs `prs_worker_entry`, `prs_worker_schedule_internal`, `prs_worker_idle` and
`prs_worker_task_prologue`; posters are in `prs_worker_post` or `prs_worker_stop`. The PAL thread's suspension
is a counting semaphore.

What `get_next` returns, and what the code of a task does, is left open here: each is an action of its own.
-/

namespace Prs.Worker

open Function

/-- `prs_worker_flags_t`. -/
structure Flags where
  interruptible : Bool
  pending : Bool
  idle : Bool
  stop : Bool
  deriving DecidableEq

/-- No flag is set. -/
def Flags.zero : Flags := ⟨false, false, false, false⟩

/-! ## Posters -/

/-- A thread in `prs_worker_post`, or in `prs_worker_stop` before that. -/
inductive Post
  | done
  | orStop
  | orPending (interrupt : Bool)
  | andIdle (interrupt : Bool)
  | resume
  | interrupt
  deriving DecidableEq

/-- The part of `prs_worker_post` for a worker that is not resumed. The flags are those that the last operation on
them has returned. -/
def Post.notIdle (int : Bool) (flags : Flags) : Post :=
  if int && flags.interruptible && !flags.pending then .interrupt else .done

/-- The next atomic operation of a poster on the flags. -/
def Post.next (flags : Flags) : Post → Post × Flags
  | .done => (.done, flags)
  | .orStop => (.orPending true, { flags with stop := true })
  | .orPending int => (if flags.idle then .andIdle int else .notIdle int flags, { flags with pending := true })
  | .andIdle int => (if flags.idle then .resume else .notIdle int flags, { flags with idle := false })
  | .resume => (.done, flags)
  | .interrupt => (.done, flags)

/-- What `prs_worker_post` returns. -/
inductive Result
  | ok | alreadyExists | locked
  deriving DecidableEq

/-- The result of the part of `prs_worker_post` for a worker that is not resumed, unless the worker is
interrupted. -/
def Post.notIdleResult (int : Bool) (flags : Flags) : Option Result :=
  if int then
    if flags.interruptible then if flags.pending then some .alreadyExists else none
    else some .locked
  else some .ok

/-- The result of `prs_worker_post` when the next operation of the poster is its last. -/
def Post.result (flags : Flags) : Post → Option Result
  | .done => none
  | .orStop => none
  | .orPending int => if flags.idle then none else Post.notIdleResult int flags
  | .andIdle int => if flags.idle then none else Post.notIdleResult int flags
  | .resume => some .ok
  | .interrupt => some .ok

/-! ## The worker -/

/-- Where a call of `prs_worker_schedule_internal` returns to. -/
inductive Caller
  | entry | prologue | task
  deriving DecidableEq

/-- The worker. It is in `run` while it executes the code of a task, and in `leaving` from the load of the
stop flag to the return from `prs_worker_entry`: it frees the exit context and uninitialises exceptions and
the worker-local storage. -/
inductive Pc
  | entry
  | top (caller : Caller) (check : Bool)
  | getNext (caller : Caller)
  | idle (caller : Caller)
  | suspend (caller : Caller)
  | prologue
  | run
  | handler
  | leaving
  | exited
  deriving DecidableEq

/-- What `prs_worker_schedule_internal` is told by `get_next`: to idle, to go to the exit context, or the task
to run. A task's context is before its first instruction or in the `prs_worker_schedule_internal` that it was
left in. -/
inductive Next
  | idle | exit | fresh
  | task (caller : Caller)
  deriving DecidableEq

structure St (ι : Type) where
  flags : Flags
  /-- `idle_sem` of the PAL thread. -/
  resumes : ℕ
  /-- The interrupt signal is pending. -/
  signal : Bool
  post : ι → Post
  pc : Pc
  /-- How often the worker has entered idle mode, how often it was resumed and how often it has returned. -/
  idles : ℕ
  resumed : ℕ
  woken : ℕ

inductive Act (ι : Type)
  | post (i : ι) (interrupt : Bool)
  | stop (i : ι)
  | poster (i : ι)
  | worker
  | getNext (next : Next)
  | disable
  | enable
  | schedule
  | stopSelf
  | interrupt

/-- `prs_worker_start`. -/
def St.init {ι : Type} : St ι where
  flags := .zero
  resumes := 0
  signal := false
  post := fun _ => .done
  pc := .entry
  idles := 0
  resumed := 0
  woken := 0

/-- The end of a call of `prs_worker_schedule_internal`. -/
def Caller.back : Caller → Pc
  | .entry => .entry
  | .prologue => .prologue
  | .task => .run

variable {ι : Type} [DecidableEq ι]

/-- A step of poster `i`. -/
def St.poster (s : St ι) (i : ι) : St ι :=
  let r := (s.post i).next s.flags
  let s' := { s with post := update s.post i r.1, flags := r.2 }
  match s.post i with
  | .resume => { s' with resumes := s.resumes + 1, resumed := s.resumed + 1 }
  | .interrupt => { s' with signal := true }
  | _ => s'

/-- A step of the worker in its own code. -/
def St.worker (s : St ι) : Option (St ι) :=
  match s.pc with
  | .entry => some { s with pc := if s.flags.stop then .leaving else .top .entry false }
  | .top caller check =>
    -- without the check, the flags are taken to be `PRS_WORKER_FLAG_INTERRUPT_PENDING`
    let flags := if check then s.flags else { Flags.zero with pending := true }
    some { s with
      flags := if check then { s.flags with pending := false } else s.flags
      pc := if flags.stop then .entry else if flags.pending then .getNext caller else caller.back }
  | .idle caller =>
    if s.flags = .zero then
      some { s with
        flags := { Flags.zero with idle := true, pending := true }, pc := .suspend caller, idles := s.idles + 1 }
    else some { s with pc := .top caller true }
  | .suspend caller =>
    if 0 < s.resumes then
      some { s with resumes := s.resumes - 1, pc := .top caller true, woken := s.woken + 1 }
    else none
  | .prologue =>
    if s.flags = .zero then some { s with flags := { Flags.zero with interruptible := true }, pc := .run }
    else some { s with pc := .top .prologue true }
  | .handler =>
    some { s with
      flags := { s.flags with interruptible := false }
      pc := if s.flags.interruptible then .top .prologue true else .run }
  | .leaving => some { s with pc := .exited }
  | _ => none

def St.step (s : St ι) : Act ι → Option (St ι)
  | .post i interrupt =>
    if s.post i = .done then some { s with post := update s.post i (.orPending interrupt) } else none
  | .stop i => if s.post i = .done then some { s with post := update s.post i .orStop } else none
  | .poster i => if s.post i = .done then none else some (s.poster i)
  | .worker => s.worker
  | .getNext next =>
    match s.pc with
    | .getNext caller =>
      match next with
      | .idle => some { s with pc := .idle caller }
      | .exit => some { s with pc := .entry }
      | .fresh => some { s with pc := .top .prologue true }
      | .task c => some { s with pc := c.back }
    | _ => none
  | .disable =>
    if s.pc = .run then some { s with flags := { s.flags with interruptible := false } } else none
  -- PRS code is only called with interrupts disabled
  | .enable =>
    if s.pc = .run ∧ s.flags.interruptible = false then some { s with pc := .top .prologue true } else none
  | .schedule =>
    if s.pc = .run ∧ s.flags.interruptible = false then some { s with pc := .top .task false } else none
  | .stopSelf =>
    if s.pc = .run ∧ s.flags.interruptible = false then
      some { s with flags := { s.flags with stop := true }, pc := .entry }
    else none
  | .interrupt =>
    -- the signal handler looks at the flags before it enters `prs_worker_interrupt_entry`
    if s.signal then
      if s.pc = .run ∧ s.flags.interruptible then some { s with signal := false, pc := .handler }
      else some { s with signal := false }
    else none

/-- A worker with any number of posters. -/
def sys (ι : Type) [DecidableEq ι] : System (St ι) (Act ι) where
  init s := s = .init
  step := St.step

end Prs.Worker
