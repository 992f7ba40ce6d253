import Mathlib.Data.Nat.Notation
import Mathlib.Logic.Function.Basic
import Prs.Lib.System

/-!
# Processes and their tasks (`proc.c`, `task.c`)

A process has a list of the tasks that belong to it, and is kept by references: one of its own, and two for
each task. Any number of threads create tasks, move them to a process and destroy them; the process service is
the one that takes tasks out of the lists, for itself or when it is sent a message.

A call is the list of the accesses that it has still to make, each of which is one step. What a call reads of
its task and of the task that calls is read when it starts, with the first lock. The scheduler and the memory
of the tasks are left out; so is a process that cannot be loaded, whose ID is known to nobody. The field
`owner` is history.
-/

namespace Prs.Proc

open Function

/-- An access of a call. -/
inductive Op (π τ : Type)
  /-- `prs_god_lock` and `prs_god_unlock` of a process. -/
  | lock (p : π)
  | unlock (p : π)
  /-- The push in `prs_proc_register_object`. -/
  | push (p : π) (t : τ)
  /-- The loop in `prs_proc_unregister_object`. -/
  | remove (p : π) (t : τ)
  /-- `prs_proc_send_unreg_object`. -/
  | send (p : π) (t : τ)
  /-- The store of `task->proc_id`. -/
  | store (t : τ) (p : π)
  /-- `prs_name_alloc`, when it succeeds. -/
  | name (t : τ)
  /-- The task is freed by the cleanup of `prs_task_create`. -/
  | free (t : τ)
  deriving DecidableEq

structure St (ι π τ : Type) where
  /-- The reference counts of the processes. A process with none is freed. -/
  refcnt : π → ℕ
  /-- `proc->objects`. -/
  objects : π → List τ
  /-- `task->proc_id`. -/
  procId : τ → Option π
  /-- The ID of the task was given out. -/
  used : τ → Bool
  /-- The task was created and neither freed nor destroyed. -/
  live : τ → Bool
  /-- The name of the task is registered. -/
  named : τ → Bool
  /-- The unregister messages that are pending. -/
  msgs : List (π × τ)
  /-- What the calls in progress have still to do. -/
  ops : ι → List (Op π τ)
  /-- The process whose references the task has. -/
  owner : τ → Option π

/-- The calls. `c` is the task that calls, if there is one. -/
inductive Act (ι π τ : Type)
  | create (i : ι) (c : Option τ) (t : τ) (nameOk : Bool)
  | setProc (i : ι) (t : τ) (p : π)
  | destroy (i : ι) (t : τ)
  | exec (c : Option τ) (p : π) (t : τ) (loadOk nameOk addOk : Bool)
  /-- The process service takes a message. -/
  | handle
  | step (i : ι)

/-- The processes of `procs` are there, without tasks. -/
def St.init {ι π τ : Type} (procs : π → Bool) : St ι π τ where
  refcnt := fun p => (procs p).toNat
  objects := fun _ => []
  procId := fun _ => none
  used := fun _ => false
  live := fun _ => false
  named := fun _ => false
  msgs := []
  ops := fun _ => []
  owner := fun _ => none

section Calls

variable {π τ : Type}

/-- `prs_proc_register_object` and the store, at the end of `prs_task_set_proc`. -/
def register (t : τ) (p : π) : List (Op π τ) := [.push p t, .lock p, .store t p]

/-- A task is taken out of a list; `svc` is whether the caller is the process service. -/
def unregister (svc : Bool) (p : π) (t : τ) : Op π τ := if svc then .remove p t else .send p t

/-- `prs_task_set_proc` after its lock of `p`. The task is taken out of the list of the new process. -/
def setProc (svc : Bool) (t : τ) (p : π) : Option π → List (Op π τ)
  | none => register t p
  | some q => unregister svc p t :: .unlock q :: register t p

/-- `prs_task_destroy`. -/
def destroy (svc : Bool) (t : τ) : Option π → List (Op π τ)
  | none => []
  | some p => [.lock p, unregister svc p t, .unlock p, .unlock p]

/-- `prs_proc_exec` after its main task was created. The process is stored before `prs_task_set_proc` is
called. -/
def exec (p : π) (t : τ) (addOk : Bool) : List (Op π τ) :=
  .store t p :: .lock p :: setProc true t p (some p) ++ if addOk then [] else [.unlock p]

end Calls

variable {ι π τ : Type} [DecidableEq ι] [DecidableEq π] [DecidableEq τ]

/-- `prs_god_lock`. -/
def St.lock (s : St ι π τ) (p : π) : St ι π τ := { s with refcnt := update s.refcnt p (s.refcnt p + 1) }

def St.goto (s : St ι π τ) (i : ι) (ops : List (Op π τ)) : St ι π τ := { s with ops := update s.ops i ops }

/-- `prs_task_create` by a caller of process `o`, followed by `rest`. When the name is refused, the task is
freed and `fail` follows. -/
def St.create (s : St ι π τ) (i : ι) (t : τ) (nameOk : Bool) (o : Option π) (rest fail : List (Op π τ)) :
    St ι π τ :=
  let s := { s with used := update s.used t true }
  match o with
  | none =>
    if nameOk then { s with live := update s.live t true }.goto i (.name t :: rest) else s.goto i fail
  | some p =>
    -- a process that is gone makes the creation fail
    if s.refcnt p = 0 then s.goto i fail
    else
      ({ s with live := update s.live t true }.lock p).goto i
        (register t p ++ if nameOk then Op.name t :: rest else Op.free t :: fail)

/-- A step of a call. -/
def St.stepOp (s : St ι π τ) (i : ι) : Option (St ι π τ) :=
  match s.ops i with
  | [] => none
  | .lock p :: rest => if s.refcnt p = 0 then none else some ((s.lock p).goto i rest)
  | .unlock p :: rest => some ({ s with refcnt := update s.refcnt p (s.refcnt p - 1) }.goto i rest)
  | .push p t :: rest => some ({ s with objects := update s.objects p (s.objects p ++ [t]) }.goto i rest)
  | .remove p t :: rest =>
    if t ∈ s.objects p then
      some ({ s with objects := update s.objects p ((s.objects p).erase t) }.goto i (.unlock p :: rest))
    else some (s.goto i rest)
  | .send p t :: rest => some ({ s with msgs := s.msgs ++ [(p, t)] }.goto i rest)
  | .store t p :: rest =>
    some ({ s with procId := update s.procId t (some p), owner := update s.owner t (some p) }.goto i rest)
  | .name t :: rest => some ({ s with named := update s.named t true }.goto i rest)
  | .free t :: rest => some ({ s with live := update s.live t false }.goto i rest)

/-- `svc` is the thread of the process service. -/
def St.step (svc : ι) (s : St ι π τ) : Act ι π τ → Option (St ι π τ)
  | .create i c t nameOk =>
    if s.ops i = [] ∧ s.used t = false then some (s.create i t nameOk (c.bind s.procId) [] []) else none
  | .setProc i t p =>
    if s.ops i = [] ∧ s.live t = true then
      if s.refcnt p = 0 then some s
      else
        some (({ s with owner := update s.owner t none }.lock p).goto i
          (Proc.setProc (decide (i = svc)) t p (s.procId t)))
    else none
  | .destroy i t =>
    if s.ops i = [] ∧ s.used t = true then
      -- the name tells whether the task was destroyed before
      if s.named t = true then
        some ({ s with
          named := update s.named t false
          live := update s.live t false
          owner := update s.owner t none }.goto i (Proc.destroy (decide (i = svc)) t (s.procId t)))
      else some s
    else none
  | .exec c p t loadOk nameOk addOk =>
    if s.ops svc = [] ∧ s.used t = false ∧ s.refcnt p = 0 then
      if loadOk then
        some ({ s with refcnt := update s.refcnt p 1, objects := update s.objects p [] }.create svc t nameOk
          (c.bind s.procId) (Proc.exec p t addOk) [.unlock p])
      else some s
    else none
  | .handle =>
    if s.ops svc = [] then
      match s.msgs with
      | [] => none
      | (p, t) :: rest =>
        if s.refcnt p = 0 then some { s with msgs := rest }
        else some (({ s with msgs := rest }.lock p).goto svc [.remove p t, .unlock p])
    else none
  | .step i => s.stepOp i

/-- Threads that create, move and destroy tasks. -/
def sys (ι π τ : Type) [DecidableEq ι] [DecidableEq π] [DecidableEq τ] (svc : ι) (procs : π → Bool) :
    System (St ι π τ) (Act ι π τ) where
  init s := s = .init procs
  step := St.step svc

end Prs.Proc
