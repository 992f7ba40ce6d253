import Prs.Model.Swprio

/-!
# The cooperative scheduler (`sched/swcoop.c`), one operation at a time

One ready queue and the queue of the tasks to remove; the priorities are not looked at. The calls are those of
`Prs.Swprio`, without the change of a priority, and each is one step.
-/

namespace Prs.Swcoop

open Function
open Prs.Swprio (TaskState)

/-- `struct prs_sched_swcoop`. -/
structure Sched (τ : Type) where
  readyq : List τ
  removeq : List τ

structure St (τ : Type) where
  state : τ → TaskState
  /-- `sched_userdata` is not null. -/
  userdata : τ → Bool
  sched : Sched τ
  /-- `current_task` of the worker. -/
  current : Option τ
  /-- The current task has blocked or yielded: it does not call again before it is scheduled or has unblocked
  itself. -/
  leaving : Bool

/-- `remote` is whether the caller of `prs_task_unblock` is not on the worker. -/
inductive Act (τ : Type)
  | add (t : τ)
  | block
  | unblock (t : τ) (remote : Bool)
  | yield
  | remove (t : τ)
  | getNext

/-- `prs_sched_swcoop_init`. -/
def St.init {τ : Type} : St τ where
  state := fun _ => .stopped
  userdata := fun _ => false
  sched := ⟨[], []⟩
  current := none
  leaving := false

variable {τ : Type} [DecidableEq τ]

def St.setState (s : St τ) (t : τ) (x : TaskState) : St τ := { s with state := update s.state t x }

/-- `prs_sched_swcoop_ready`, without the signal. -/
def St.ready (s : St τ) (t : τ) : St τ := { s with sched := { s.sched with readyq := s.sched.readyq ++ [t] } }

/-- A turn of the loop over `removeq`, for a task that is not the current one. -/
def St.retire (s : St τ) (t : τ) : St τ :=
  { s with
    state := update s.state t .zombie
    userdata := update s.userdata t false
    sched :=
      { readyq := if t ∈ s.sched.readyq then s.sched.readyq.erase t else s.sched.readyq
        removeq := s.sched.removeq.erase t } }

/-- The loop over `removeq`. It returns `false` when it has come to the current task. -/
def St.scan : List τ → St τ → Bool × St τ
  | [], s => (true, s)
  | t :: ts, s => if s.current = some t then (false, s) else (s.retire t).scan ts

/-- The task at the head of the ready queue is taken. -/
def St.take (s : St τ) : Option τ × St τ :=
  match s.sched.readyq with
  | [] => (none, s)
  | t :: _ =>
    (some t, ({ s with sched := { s.sched with readyq := s.sched.readyq.erase t } } : St τ).setState t .running)

/-- What `prs_sched_swcoop_get_next` does when the removed tasks are gone. -/
def St.select (s : St τ) : Option τ × St τ :=
  match s.current with
  | some c => if s.state c = .running then (some c, s) else s.take
  | none => s.take

/-- `prs_sched_swcoop_get_next`: the result, `*task` and the state. -/
def St.getNext (s : St τ) : Bool × Option τ × St τ :=
  match s.scan s.sched.removeq with
  | (false, s) => (false, none, s)
  | (true, s) => (true, s.select.1, s.select.2)

def St.step (s : St τ) : Act τ → Option (St τ)
  | .add t =>
    if s.userdata t = false ∧ s.state t = .stopped then
      some ((({ s with userdata := update s.userdata t true } : St τ).setState t .ready).ready t)
    else none
  | .block =>
    match s.current with
    | some t => if s.leaving = false then some ({ s.setState t .blocked with leaving := true }) else none
    | none => none
  | .unblock t remote =>
    if s.state t = .blocked then
      if remote = false ∧ s.current = some t then some { s.setState t .running with leaving := false }
      else some ((s.setState t .ready).ready t)
    else some s
  | .yield =>
    match s.current with
    | some t =>
      if s.leaving = false then
        some { ((s.setState t .blocked).setState t .ready).ready t with leaving := true }
      else none
    | none => none
  | .remove t =>
    if s.userdata t = true ∧ (s.state t = .stopped ∨ t ∉ s.sched.removeq) then
      if s.state t ≠ .stopped then
        some { s.setState t .stopped with sched := { s.sched with removeq := s.sched.removeq ++ [t] } }
      else some s
    else none
  | .getNext => some { s.getNext.2.2 with current := s.getNext.2.1, leaving := false }

/-- A scheduler with one worker. -/
def sys (τ : Type) [DecidableEq τ] : System (St τ) (Act τ) where
  init s := s = .init
  step := St.step

end Prs.Swcoop
