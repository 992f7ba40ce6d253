import Prs.Model.Swprio

/-!
# Changing the priority of a task (`pr_task_set_prio`)

The priority scheduler with the field `task->prio` as it is: any number, which `prs_task_set_prio` stores for
any task before it looks whether the task is the current one. The calls of the scheduler are those of
`Prs.Swprio`; they take the queue of a task from its field at that time. A run ends where a priority out of
range would be an index out of bounds.
-/

namespace Prs.TaskPrio

open Function

structure St (τ : Type) where
  /-- The tasks and the queues. Its priorities are not used: see `view`. -/
  tasks : Swprio.St τ
  /-- `task->prio`. -/
  prio : τ → ℕ
  /-- Some call of `prs_task_set_prio` that ended in its error branch has changed its task. -/
  harmed : Bool

inductive Act (τ : Type)
  | sched (a : Swprio.Act τ)
  /-- `own` is whether the task calls for itself. -/
  | setPrio (own : Bool) (t : τ) (prio : ℕ)

variable {τ : Type} [DecidableEq τ]

/-- Tasks that were created, with their priorities. -/
def St.init (prio : τ → ℕ) : St τ where
  tasks := .init fun _ => 0
  prio := prio
  harmed := false

/-- The scheduler with the priorities of the tasks as they are now. -/
def St.view (s : St τ) : Swprio.St τ := { s.tasks with prio := fun t => Fin.ofNat 32 (s.prio t) }

/-- The priorities that a call of the scheduler takes as an index are below `PRS_MAX_TASK_PRIO`. For
`prs_sched_swprio_add` that is the precondition. -/
def St.InRange (s : St τ) : Swprio.Act τ → Prop
  | .add t => s.prio t < 32
  | .unblock t _ => s.prio t < 32
  | .getNext => (∀ t ∈ s.tasks.sched.removeq, s.prio t < 32) ∧ ∀ t ∈ s.tasks.current, s.prio t < 32
  | .yield => ∀ t ∈ s.tasks.current, s.prio t < 32
  | .block => True
  | .remove _ => True
  -- the priority is changed by `Act.setPrio`
  | .setPrio _ => False

instance (s : St τ) (a : Swprio.Act τ) : Decidable (s.InRange a) :=
  match a with
  | .add _ => inferInstanceAs (Decidable (_ < _))
  | .unblock _ _ => inferInstanceAs (Decidable (_ < _))
  | .getNext => inferInstanceAs (Decidable (_ ∧ _))
  | .yield => inferInstanceAs (Decidable (∀ t ∈ s.tasks.current, s.prio t < 32))
  | .block => .isTrue trivial
  | .remove _ => .isTrue trivial
  | .setPrio _ => .isFalse id

/-- `prs_task_set_prio`: the priority is stored, and then the task is compared with the current one. -/
def St.setPrio (s : St τ) (own : Bool) (t : τ) (prio : ℕ) : St τ :=
  { s with
    prio := update s.prio t prio
    harmed := s.harmed || (!own && decide (s.prio t ≠ prio)) }

def St.step (s : St τ) : Act τ → Option (St τ)
  | .sched a => if s.InRange a then (s.view.step a).map fun r => { s with tasks := r } else none
  | .setPrio own t prio =>
    -- a task that calls for itself is running its code
    if own = true → s.tasks.current = some t ∧ s.tasks.leaving = false then some (s.setPrio own t prio) else none

/-- A scheduler with one worker. -/
def sys (τ : Type) [DecidableEq τ] : System (St τ) (Act τ) where
  init s := ∃ prio, s = .init prio
  step := St.step

end Prs.TaskPrio
