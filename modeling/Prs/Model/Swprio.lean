import Mathlib.Data.Fin.Basic
import Mathlib.Data.List.MinMax
import Mathlib.Logic.Function.Basic
import Prs.Lib.System

/-!
# The priority scheduler (`sched/swprio.c`), one operation at a time

A ready queue for each priority, a mask of the queues that may have a task, and the queue of the tasks to
remove. A queue is the list of its tasks, oldest first. The mask is cleared late: when
`prs_sched_swprio_get_next` finds a queue empty.

The runs here are sequential: each call is one step. The fields `arrivals` and `removed` of the state are history.
-/

namespace Prs.Swprio

open Function

/-- `enum prs_task_state`. -/
inductive TaskState
  | stopped
  | ready
  | running
  | blocked
  | zombie
  deriving DecidableEq

/-- A priority below `PRS_MAX_TASK_PRIO`. Less is more urgent. -/
abbrev Prio : Type := Fin 32

/-- `1 << prio`. -/
def bit (p : Prio) : BitVec 32 := 1#32 <<< p.val

/-- `prs_bitops_lsb_uint32`: the lowest set bit. -/
@[irreducible] def lsb (mask : BitVec 32) : Option Prio := Fin.find? fun p => mask.getLsbD p

/-- `struct prs_sched_swprio`. -/
structure Sched (τ : Type) where
  readyMask : BitVec 32
  readyq : Prio → List τ
  removeq : List τ

variable {τ : Type} [DecidableEq τ]

/-- `prs_sched_swprio_init`. -/
def Sched.init : Sched τ := ⟨0#32, fun _ => [], []⟩

def Sched.setMask (q : Sched τ) (p : Prio) : Sched τ := { q with readyMask := q.readyMask ||| bit p }

def Sched.clearMask (q : Sched τ) (p : Prio) : Sched τ := { q with readyMask := q.readyMask &&& ~~~bit p }

/-- `prs_mpsciq_push` on the ready queue of `p`. -/
def Sched.push (q : Sched τ) (p : Prio) (t : τ) : Sched τ :=
  { q with readyq := update q.readyq p (q.readyq p ++ [t]) }

/-- `prs_mpsciq_remove` from the ready queue of `p`. -/
def Sched.dequeue (q : Sched τ) (p : Prio) (t : τ) : Sched τ :=
  { q with readyq := update q.readyq p ((q.readyq p).erase t) }

/-- The part of the loop over `removeq` that takes a removed task out of its ready queue. -/
def Sched.drop (q : Sched τ) (p : Prio) (t : τ) : Sched τ :=
  if t ∈ q.readyq p then
    let q := q.dequeue p t
    if q.readyq p = [] then
      let q := q.clearMask p
      if q.readyq p = [] then q else q.setMask p
    else q
  else q

/-- The loop over the mask: the first queue that has a task. Every turn clears a bit of `mask`, so 32 are
enough. -/
def Sched.search : ℕ → BitVec 32 → Sched τ → Sched τ × Option Prio
  | 0, _, q => (q, none)
  | n + 1, mask, q =>
    match lsb mask with
    | none => (q, none)
    | some p =>
      if q.readyq p = [] then
        let q := q.clearMask p
        if q.readyq p = [] then q.search n (mask &&& ~~~bit p) else (q.setMask p, some p)
      else (q, some p)

structure St (τ : Type) where
  state : τ → TaskState
  prio : τ → Prio
  /-- `sched_userdata` is not null. -/
  userdata : τ → Bool
  sched : Sched τ
  /-- `current_task` of the worker. -/
  current : Option τ
  /-- The current task has blocked or yielded: it does not call again before it is scheduled or has unblocked
  itself. -/
  leaving : Bool
  /-- The tasks that are in the ready queues, in the order in which they were pushed. -/
  arrivals : List τ
  /-- The tasks that were removed. -/
  removed : List τ

/-- `remote` is whether the caller of `prs_task_unblock` is not on the worker. -/
inductive Act (τ : Type)
  | add (t : τ)
  | block
  | unblock (t : τ) (remote : Bool)
  | yield
  | remove (t : τ)
  | setPrio (p : Prio)
  | getNext

/-- Tasks that were created, with their priorities. -/
def St.init (prio : τ → Prio) : St τ where
  state := fun _ => .stopped
  prio := prio
  userdata := fun _ => false
  sched := .init
  current := none
  leaving := false
  arrivals := []
  removed := []

def St.setState (s : St τ) (t : τ) (x : TaskState) : St τ := { s with state := update s.state t x }

/-- `prs_sched_swprio_ready`, without the interrupt. -/
def St.ready (s : St τ) (t : τ) : St τ :=
  { s with sched := (s.sched.push (s.prio t) t).setMask (s.prio t), arrivals := s.arrivals ++ [t] }

/-- A turn of the loop over `removeq`, for a task that is not the current one. -/
def St.retire (s : St τ) (t : τ) : St τ :=
  { s with
    state := update s.state t .zombie
    userdata := update s.userdata t false
    sched := { s.sched.drop (s.prio t) t with removeq := s.sched.removeq.erase t }
    arrivals := s.arrivals.erase t }

/-- The loop over `removeq`. It returns `false` when it has come to the current task. -/
def St.scan : List τ → St τ → Bool × St τ
  | [], s => (true, s)
  | t :: ts, s => if s.current = some t then (false, s) else (s.retire t).scan ts

/-- The task at the head of the ready queue of `p` is taken. -/
def St.take (s : St τ) (p : Prio) : Option τ × St τ :=
  match s.sched.readyq p with
  | [] => (none, s)
  | t :: _ =>
    (some t, ({ s with sched := s.sched.dequeue p t, arrivals := s.arrivals.erase t } : St τ).setState t .running)

/-- What `prs_sched_swprio_get_next` does when it has found the queue of `p`, or none. -/
def St.select (s : St τ) : Option Prio → Option τ × St τ
  | none =>
    match s.current with
    | some c => if s.state c = .running then (some c, s) else (none, s)
    | none => (none, s)
  | some p =>
    match s.current with
    | some c =>
      if s.state c = .running then
        if p < s.prio c then ((s.ready c).setState c .ready).take p else (some c, s)
      else s.take p
    | none => s.take p

/-- `prs_sched_swprio_get_next`: the result, `*task` and the state. -/
def St.getNext (s : St τ) : Bool × Option τ × St τ :=
  match s.scan s.sched.removeq with
  | (false, s) => (false, none, s)
  | (true, s) =>
    let r := s.sched.search 32 s.sched.readyMask
    let r' := ({ s with sched := r.1 } : St τ).select r.2
    (true, r'.1, r'.2)

/-- A task is added once, and removed once. A current task that was removed goes on until it is scheduled. -/
def St.step (s : St τ) : Act τ → Option (St τ)
  | .add t =>
    if s.userdata t = false ∧ s.state t = .stopped then
      some ((({ s with userdata := update s.userdata t true } : St τ).setState t .ready).ready t)
    else none
  | .block =>
    match s.current with
    | some t => if s.leaving = false then some ({ s.setState t .blocked with leaving := true }) else none
    | none => none
  | .unblock t remote =>
    if s.state t = .blocked then
      if remote = false ∧ s.current = some t then some { s.setState t .running with leaving := false }
      else some ((s.setState t .ready).ready t)
    else some s
  | .yield =>
    match s.current with
    | some t =>
      if s.leaving = false then
        some { ((s.setState t .blocked).setState t .ready).ready t with leaving := true }
      else none
    | none => none
  | .remove t =>
    if s.userdata t = true ∧ (s.state t = .stopped ∨ t ∉ s.sched.removeq) then
      if s.state t ≠ .stopped then
        some { s.setState t .stopped with
          sched := { s.sched with removeq := s.sched.removeq ++ [t] }
          removed := t :: s.removed }
      else some s
    else none
  | .setPrio p =>
    match s.current with
    | some t => if s.state t = .running then some { s with prio := update s.prio t p } else none
    | none => none
  | .getNext => some { s.getNext.2.2 with current := s.getNext.2.1, leaving := false }

/-- A scheduler with one worker. -/
def sys (τ : Type) [DecidableEq τ] : System (St τ) (Act τ) where
  init s := ∃ prio, s = .init prio
  step := St.step

end Prs.Swprio
