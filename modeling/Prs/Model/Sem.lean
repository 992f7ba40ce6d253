import Mathlib.Algebra.Order.Ring.Int
import Mathlib.Logic.Function.Basic
import Prs.Lib.System

/-!
# The semaphore (`sem.c`), with its events (`event.c`)

The counter and queue operations of a call of `prs_sem_wait`, `prs_sem_wait_timeout` or `prs_sem_signal` are one
step. A wait that blocks ends in a later step, when a signal or its timeout unblocks its task; a timed wait that
was signaled drops its timer entry after that.

A wait is named by a number that stands for its event. The wait queue is a list, oldest first.
-/

namespace Prs.Sem

open Function

/-- `PRS_SEM_EVENT_TYPE_SIGNAL` and `PRS_SEM_EVENT_TYPE_TIMEOUT`. -/
inductive Cause
  | signal | timeout
  deriving DecidableEq

/-- `struct prs_event`. `cause` is with what the task was unblocked; it is `none` as long as the state of the
task is the token of the event. -/
structure Event where
  refcnt : ℕ
  cause : Option Cause
  freed : Bool
  /-- A timer entry will signal the event or drop its reference. -/
  armed : Bool
  deriving DecidableEq

/-- `prs_event_unref_internal`: drop a reference, and unblock the task if it waits for this event still. -/
def Event.unref (e : Event) (signal : Option Cause) : Event :=
  { e with refcnt := e.refcnt - 1, freed := e.freed || decide (e.refcnt = 1), cause := e.cause.or signal }

/-- `prs_event_cancel`. -/
def Event.cancel (e : Event) : Event := { e with freed := true }

/-- `prs_int_t` arithmetic: 64 bits, two's complement. -/
def wrap (x : ℤ) : ℤ := x.bmod (2 ^ 64)

theorem wrap_eq {x : ℤ} (h1 : -2 ^ 63 ≤ x) (h2 : x < 2 ^ 63) : wrap x = x :=
  Int.bmod_eq_of_le (by omega) (by omega)

/-- `prs_sem_signal_once`, with the wait queue and the events after it and its result: whether `self` was
signaled. -/
def signalOnce (self : Option ℕ) : List ℕ → (ℕ → Event) → List ℕ × (ℕ → Event) × Bool
  | [], event => ([], event, false)
  | e :: q, event =>
    let popped := (event e).unref (some .signal)
    if (event e).cause = none then
      if self = some e then
        (q, update event e (if popped.freed then popped else popped.cancel), true)
      else (q, update event e popped, false)
    else
      -- the event was signaled by its timeout
      signalOnce self q (update event e popped)

structure St where
  count : ℤ
  waitq : List ℕ
  event : ℕ → Event
  /-- `initial_count`. -/
  initial : ℤ
  /-- The waits that were started. -/
  waits : List ℕ
  /-- How many signals were given. -/
  signals : ℕ

inductive Act
  | wait (w : ℕ) (timed : Bool)
  | signal
  | timeout (w : ℕ)
  | cancel (w : ℕ)

/-- `prs_sem_create`. -/
def St.init (initial : ℤ) : St where
  count := initial
  waitq := []
  event := fun _ => ⟨0, none, true, false⟩
  initial := initial
  waits := []
  signals := 0

/-- The wait calls the scheduler; a timed one has queued its timer entry before. -/
def St.block (s : St) (w : ℕ) (timed : Bool) : St :=
  { s with event := update s.event w { s.event w with armed := timed } }

/-- `prs_sem_wait`, and `prs_sem_wait_timeout` if `timed`. -/
def St.wait (s : St) (w : ℕ) (timed : Bool) : St :=
  let event := update s.event w ⟨if timed then 2 else 1, none, false, false⟩
  let s' := { s with
    event := event, waitq := s.waitq ++ [w], count := wrap (s.count - 1), waits := w :: s.waits }
  if 0 < s.count then
    let r := signalOnce (some w) (s.waitq ++ [w]) event
    let s'' := { s' with waitq := r.1, event := r.2.1 }
    if r.2.2 then s'' else s''.block w timed
  else s'.block w timed

/-- `prs_sem_signal`. -/
def St.signal (s : St) : St :=
  let s' := { s with count := wrap (s.count + 1), signals := s.signals + 1 }
  if s.count < 0 then
    let r := signalOnce none s.waitq s.event
    { s' with waitq := r.1, event := r.2.1 }
  else s'

/-- The timer entry of `w` goes, with or without a signal of the event. -/
def St.disarm (s : St) (w : ℕ) (signal : Option Cause) : St :=
  { s with event := update s.event w { (s.event w).unref signal with armed := false } }

def St.step (s : St) : Act → Option St
  | .wait w timed => if w ∈ s.waits then none else some (s.wait w timed)
  | .signal => some s.signal
  | .timeout w => if (s.event w).armed then some (s.disarm w (some .timeout)) else none
  | .cancel w =>
    -- `prs_timer_cancel`, after the task was unblocked
    if (s.event w).armed ∧ (s.event w).cause ≠ none then some (s.disarm w none) else none

/-- A semaphore with any initial count that is not negative. -/
def sys : System St Act where
  init s := ∃ c, 0 ≤ c ∧ c < 2 ^ 63 ∧ s = .init c
  step := St.step

/-- How many waits have ended with the semaphore acquired. -/
def St.acquired (s : St) : ℕ := s.waits.countP fun w => (s.event w).cause = some .signal

/-- What is left of the initial count and the signals. -/
def St.credit (s : St) : ℤ := s.initial + s.signals - s.acquired

end Prs.Sem
