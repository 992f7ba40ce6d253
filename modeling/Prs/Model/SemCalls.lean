import Prs.Lib.Threads
import Prs.Model.Sem

/-!
# The semaphore's calls, step by step (`sem.c`)

Any number of tasks call `prs_sem_wait` and `prs_sem_signal`. Each operation on the counter and on the wait
queue, and each `prs_event_signal`, is one step.

A wait is named by a number that stands for its event and for the token in it.
-/

namespace Prs.SemCalls

open Function

/-- A task. `self` is the event that `prs_sem_signal_once` was given, if it was called by a wait. -/
inductive Pc
  | idle
  | push (w : ℕ)
  | sub (w : ℕ)
  | pop (self : Option ℕ)
  | signal (e : ℕ) (self : Option ℕ)
  | schedule (w : ℕ)
  | add
  deriving DecidableEq

/-- `struct prs_event`. -/
structure Event (ι : Type) where
  task : ι
  refcnt : ℕ
  freed : Bool

structure St (ι : Type) where
  count : ℤ
  waitq : List ℕ
  event : ℕ → Option (Event ι)
  /-- The event whose token is the state of the task, which is `PRS_TASK_STATE_BLOCKED` then. Without one the
  task is ready or running. -/
  blocked : ι → Option ℕ
  pc : ι → Pc
  /-- `initial_count`. -/
  initial : ℤ
  /-- The waits that were started. -/
  waits : List ℕ
  /-- How many signals have incremented the counter. -/
  signals : ℕ

inductive Act (ι : Type)
  | wait (i : ι) (w : ℕ)
  | signal (i : ι)
  | step (i : ι)

/-- `prs_sem_create`. -/
def St.init {ι : Type} (initial : ℤ) : St ι where
  count := initial
  waitq := []
  event := fun _ => none
  blocked := fun _ => none
  pc := fun _ => .idle
  initial := initial
  waits := []
  signals := 0

/-- Where a call goes on when `prs_sem_signal_once` has returned `PRS_FALSE`. -/
def Pc.after : Option ℕ → Pc
  | some w => .schedule w
  | none => .idle

/-- Whether the state of the task of event `e` is the token of `e`. -/
def St.isBlocked {ι : Type} (s : St ι) (e : ℕ) : Bool :=
  (s.event e).any fun E => decide (s.blocked E.task = some e)

variable {ι : Type} [DecidableEq ι]

/-- `prs_event_signal`, with the event after it: drop a reference, and unblock the task if its state is the
token. -/
def St.signalEvent (s : St ι) (e : ℕ) : St ι :=
  match s.event e with
  | some E =>
    { s with
      event := update s.event e
        (some { E with refcnt := E.refcnt - 1, freed := E.freed || decide (E.refcnt = 1) })
      blocked := if s.blocked E.task = some e then update s.blocked E.task none else s.blocked }
  | none => s

/-- `prs_event_cancel`. -/
def St.cancelEvent (s : St ι) (e : ℕ) : St ι :=
  { s with event := update s.event e ((s.event e).map fun E => { E with freed := true }) }

def St.goto (s : St ι) (i : ι) (p : Pc) : St ι := { s with pc := update s.pc i p }

def St.stepTask (s : St ι) (i : ι) : Option (St ι) :=
  match s.pc i with
  | .push w => some { s with waitq := s.waitq ++ [w], pc := update s.pc i (.sub w) }
  | .sub w =>
    some { s with
      count := Sem.wrap (s.count - 1)
      pc := update s.pc i (if 0 < s.count then .pop (some w) else .schedule w) }
  | .pop self =>
    match s.waitq with
    | [] => some (s.goto i (.after self))
    | e :: q => some { s with waitq := q, pc := update s.pc i (.signal e self) }
  | .signal e self =>
    let s' := s.signalEvent e
    if s.isBlocked e then
      if self = some e then
        if ((s'.event e).any fun E => E.freed) then some (s'.goto i .idle)
        else some ((s'.cancelEvent e).goto i .idle)
      else some (s'.goto i (.after self))
    else some (s'.goto i (.pop self))
  | .schedule w => if s.blocked i = some w then none else some (s.goto i .idle)
  | .add =>
    some { s with
      count := Sem.wrap (s.count + 1), signals := s.signals + 1
      pc := update s.pc i (if s.count < 0 then .pop none else .idle) }
  | .idle => none

def St.step (s : St ι) : Act ι → Option (St ι)
  | .wait i w =>
    if s.pc i = .idle ∧ w ∉ s.waits then
      some { s with
        event := update s.event w (some ⟨i, 1, false⟩), blocked := update s.blocked i (some w)
        pc := update s.pc i (.push w), waits := w :: s.waits }
    else none
  | .signal i => if s.pc i = .idle then some (s.goto i .add) else none
  | .step i => s.stepTask i

/-- A semaphore with any initial count that is not negative, and its tasks. -/
def sys (ι : Type) [DecidableEq ι] : System (St ι) (Act ι) where
  init s := ∃ c, 0 ≤ c ∧ c < 2 ^ 63 ∧ s = .init c
  step := St.step

/-- How many waits have been released: they have returned, or their task is ready or running. -/
def St.released {ι : Type} (s : St ι) : ℕ := s.waits.countP fun w => !s.isBlocked w

/-- No call is between its steps: a task is in none, or it has called the scheduler. -/
def St.Quiet {ι : Type} (s : St ι) : Prop := ∀ i, s.pc i = .idle ∨ ∃ w, s.pc i = .schedule w

end Prs.SemCalls
