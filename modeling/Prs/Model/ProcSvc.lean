import Mathlib.Data.Nat.Notation
import Mathlib.Logic.Function.Basic
import Prs.Lib.System

/-!
# The process service (`svc/proc.c`, `svc/proc.msg`, `pr.c`)

Tasks send requests to the process service and wait for its responses, among other messages. A task holds one
message at a time: it sends the one that it has allocated, and frees one that it has received without sending
it on. Programs that hold more, or forward what they receive, are not in the model.

A message queue gives any of its messages that passes the filter. A task can be stopped at any time, as those
of a process are when it is killed; its object is found by `prs_god_lock` until it is gone, and its queue is
not emptied.

The number of an allocation stands for the address of the message. A call is known by the number of its
request. What `prs_proc_exec` returns is part of the action; what the service does to processes otherwise is
not in the model.
-/

namespace Prs.ProcSvc

open Function

/-- `union pr_msg`. `E` is what an exec request asks for: the file name, the command line, the parameters of
the task and the scheduler. The others have an `id` that is not of the process service. -/
inductive Body (E : Type)
  | execRequest (params : E)
  | execResponse (procId : ℕ)
  | killRequest (procId : ℕ) (respond : Bool)
  | killResponse (procId : ℕ)
  | unregRequest (procId objectId : ℕ) (respond : Bool)
  | unregResponse (procId objectId : ℕ)
  | other (id : ℕ)
  deriving DecidableEq

/-- `struct prs_msg`. -/
structure Msg (ι E : Type) where
  ptr : ℕ
  owner : ι
  sender : ι
  body : Body E
  deriving DecidableEq

/-- The calls in `svc/proc.msg`. -/
inductive Request (E : Type)
  | exec (params : E)
  | kill (procId : ℕ) (block : Bool)
  | unregObject (procId objectId : ℕ) (block : Bool)
  deriving DecidableEq

/-- What the call sends. -/
def Request.body {E : Type} : Request E → Body E
  | .exec params => .execRequest params
  | .kill procId block => .killRequest procId block
  | .unregObject procId objectId block => .unregRequest procId objectId block

/-- Whether the call waits for a response. -/
def Request.blocks {E : Type} : Request E → Bool
  | .exec _ => true
  | .kill _ block => block
  | .unregObject _ _ block => block

/-- The filter of the call. -/
def Request.filter {E : Type} : Request E → Body E → Bool
  | .exec _, .execResponse _ => true
  | .kill _ _, .killResponse _ => true
  | .unregObject _ _ _, .unregResponse _ _ => true
  | _, _ => false

/-- Where a task is: before the send of its request, waiting, with its response, before the send of another
message, with another message. -/
inductive Pc (ι E : Type)
  | idle
  | send (req : Request E) (m : Msg ι E)
  | wait (req : Request E) (call : ℕ)
  | got (req : Request E) (call : ℕ) (m : Msg ι E)
  | post (dest : ι) (m : Msg ι E)
  | took (m : Msg ι E)
  deriving DecidableEq

def Pc.isIdle {ι E : Type} : Pc ι E → Bool
  | .idle => true
  | _ => false

/-- Where `prs_svc_proc_task` is. -/
inductive Svc (ι E : Type)
  | recv
  | handle (m : Msg ι E)
  | reply (m rsp : Msg ι E)
  | free (m : Msg ι E)
  deriving DecidableEq

structure St (ι E : Type) where
  /-- How many messages have been allocated. -/
  next : ℕ
  queue : ι → List (Msg ι E)
  pc : ι → Pc ι E
  svc : Svc ι E
  stopped : ι → Bool
  gone : ι → Bool
  /-- The messages that have been freed, latest first. -/
  freed : List ℕ
  /-- The calls that `prs_proc_exec` has run for, with its result. -/
  executed : List (ℕ × E × ℕ)
  /-- The exec calls that have returned, with their result. -/
  returned : List (ℕ × E × ℕ)

inductive Act (ι E : Type)
  | call (j : ι) (req : Request E)
  | post (j dest : ι) (id : ℕ)
  | recv (j : ι) (i : ℕ)
  | step (j : ι)
  | svcRecv (i : ℕ)
  | svcStep (procId : ℕ)
  | stop (j : ι)
  | leave (j : ι)

variable {ι E : Type}

def St.init : St ι E where
  next := 0
  queue := fun _ => []
  pc := fun _ => .idle
  svc := .recv
  stopped := fun _ => false
  gone := fun _ => false
  freed := []
  executed := []
  returned := []

variable [DecidableEq ι]

/-- `pr_msg_alloc`. -/
def St.alloc (s : St ι E) (j : ι) (body : Body E) : Msg ι E := ⟨s.next, j, j, body⟩

/-- `pr_msg_send` of task `j`. A message to a task that is not found is freed. -/
def St.send (s : St ι E) (j dest : ι) (m : Msg ι E) : St ι E :=
  if s.gone dest = true then { s with freed := m.ptr :: s.freed }
  else { s with queue := update s.queue dest (s.queue dest ++ [⟨m.ptr, dest, j, m.body⟩]) }

/-- `pr_msg_free`. -/
def St.free (s : St ι E) (m : Msg ι E) : St ι E := { s with freed := m.ptr :: s.freed }

def St.goto (s : St ι E) (j : ι) (pc : Pc ι E) : St ι E := { s with pc := update s.pc j pc }

/-- `rsp->proc_id` of an exec call. -/
def Msg.result (m : Msg ι E) : ℕ :=
  match m.body with
  | .execResponse procId => procId
  | _ => 0

/-- A task goes on by itself. -/
def St.step (svcId : ι) (s : St ι E) (j : ι) : Option (St ι E) :=
  match s.pc j with
  | .send req m => some ((s.send j svcId m).goto j (if req.blocks = true then .wait req m.ptr else .idle))
  | .got (.exec params) call m =>
    some { (s.free m).goto j .idle with returned := (call, params, m.result) :: s.returned }
  | .got _ _ m => some ((s.free m).goto j .idle)
  | .post dest m => some ((s.send j dest m).goto j .idle)
  | .took m => some ((s.free m).goto j .idle)
  | _ => none

/-- A task receives the message at place `i` of its queue: `pr_msg_recv_filter` of a call, or `pr_msg_recv`. -/
def St.recv (s : St ι E) (j : ι) (i : ℕ) : Option (St ι E) :=
  match (s.queue j)[i]? with
  | none => none
  | some m =>
    match s.pc j with
    | .wait req call =>
      if req.filter m.body = true then
        some { s.goto j (.got req call m) with queue := update s.queue j ((s.queue j).eraseIdx i) }
      else none
    | .idle => some { s.goto j (.took m) with queue := update s.queue j ((s.queue j).eraseIdx i) }
    | _ => none

/-- The response of the service to a request, where it sends one. -/
def Body.response (procId : ℕ) : Body E → Option (Body E)
  | .execRequest _ => some (.execResponse procId)
  | .killRequest p respond => if respond = true then some (.killResponse p) else none
  | .unregRequest p objectId respond => if respond = true then some (.unregResponse p objectId) else none
  | _ => none

/-- The service goes on. A message that it does not know is an error and freed. -/
def St.svcStep (svcId : ι) (s : St ι E) (procId : ℕ) : Option (St ι E) :=
  match s.svc with
  | .recv => none
  | .handle m =>
    let executed := match m.body with
      | .execRequest params => (m.ptr, params, procId) :: s.executed
      | _ => s.executed
    match m.body.response procId with
    | some body => some { s with svc := .reply m (s.alloc svcId body), next := s.next + 1, executed := executed }
    | none => some { s with svc := .free m, executed := executed }
  | .reply m rsp => some { s.send svcId m.sender rsp with svc := .free m }
  | .free m => some { s.free m with svc := .recv }

/-- The service receives the message at place `i` of its queue. -/
def St.svcRecv (svcId : ι) (s : St ι E) (i : ℕ) : Option (St ι E) :=
  match s.svc, (s.queue svcId)[i]? with
  | .recv, some m => some { s with svc := .handle m, queue := update s.queue svcId ((s.queue svcId).eraseIdx i) }
  | _, _ => none

def St.act (svcId : ι) (s : St ι E) : Act ι E → Option (St ι E)
  | .call j req =>
    if s.stopped j = false ∧ j ≠ svcId ∧ (s.pc j).isIdle = true then
      some { s.goto j (.send req (s.alloc j req.body)) with next := s.next + 1 }
    else none
  | .post j dest id =>
    if s.stopped j = false ∧ j ≠ svcId ∧ (s.pc j).isIdle = true then
      some { s.goto j (.post dest (s.alloc j (.other id))) with next := s.next + 1 }
    else none
  | .recv j i => if s.stopped j = false ∧ j ≠ svcId then s.recv j i else none
  | .step j => if s.stopped j = false ∧ j ≠ svcId then s.step svcId j else none
  | .svcRecv i => if s.stopped svcId = false then s.svcRecv svcId i else none
  | .svcStep procId => if s.stopped svcId = false then s.svcStep svcId procId else none
  | .stop j => some { s with stopped := update s.stopped j true }
  | .leave j => if s.stopped j = true then some { s with gone := update s.gone j true } else none

/-- The tasks and the service, which is the task `svcId`. -/
def sys (svcId : ι) : System (St ι E) (Act ι E) where
  init s := s = .init
  step := St.act svcId

end Prs.ProcSvc
