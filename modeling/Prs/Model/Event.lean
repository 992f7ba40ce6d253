import Prs.Lib.System
import Prs.Model.Task

/-!
# Blocking events (`event.c`, with `prs_task_block` and `prs_task_unblock` of `task.c`)

A task that blocks creates an event and gives it to `refcnt` sources, each of which makes one call of
`prs_event_signal` or `prs_event_unref`. The calls run on any thread, the task's own included, and may come
after the task has blocked again. Each access to the event or to the state of the task is one step.

The task is created, added to a scheduler, taken from its ready queue, preempted; it yields; it blocks on an
event, and then runs on until it has signaled the event itself or has called the scheduler. It is not removed,
so `prs_god_lock` finds it. The fields of the state from `changes` on are history.
-/

namespace Prs.Events

open Function Prs.Task
open Prs.Swprio (TaskState)

/-- `prs_event_type_t`. -/
abbrev Kind : Type := BitVec 8

/-- `struct prs_event`, of the one task. -/
structure Event where
  token : Token
  initialRefcnt : BitVec 64
  refcnt : BitVec 64
  /-- How many times it was freed. -/
  frees : ℕ
  /-- How many changes of the task's state there were when the task had blocked. -/
  stamp : ℕ

/-- A source: which event, and which of its references. -/
abbrev Source : Type := ℕ × ℕ

/-- A call of `prs_event_unref_internal`; there is no type when it does not signal. It is before the access
that the name says. -/
inductive Call
  | idle
  | read (type : Option Kind)
  | drop (type : Option Kind) (token : Token) (initialRefcnt : BitVec 64)
  | destroy (type : Option Kind) (token : Token)
  | unblock (type : Kind) (token : Token) (freed : Bool)
  | ready (type : Kind) (freed : Bool)
  /-- It has returned the state `PRS_EVENT_STATE_SIGNALED`, `PRS_EVENT_STATE_FREED`. -/
  | done (type : Option Kind) (signaled freed : Bool)
  deriving DecidableEq

/-- The calls of `prs_task_change_state`: by `prs_task_create`, by `add` and `get_next` of the scheduler, and by
`prs_sched_yield`. -/
inductive Change
  | create
  | add
  | dispatch
  | preempt
  | yield
  deriving DecidableEq

def Change.expected : Change → TaskState
  | .create => .stopped
  | .add => .stopped
  | .dispatch => .ready
  | .preempt => .running
  | .yield => .blocked

def Change.new : Change → TaskState
  | .create => .stopped
  | .add => .ready
  | .dispatch => .running
  | .preempt => .ready
  | .yield => .ready

/-- Where the task is, or the thread that has it. -/
inductive Owner
  /-- In `prs_task_change_state`. -/
  | load (change : Change)
  | store (change : Change) (token : Token)
  | stopped
  /-- Before the push of `prs_sched_ready`. -/
  | push
  /-- The task does not execute. -/
  | away
  | running
  /-- The task executes and has blocked. -/
  | waiting
  /-- The task executes the call of a source. -/
  | calling (source : Source) (waits : Bool)
  /-- In `prs_task_block`, for an event with `refcnt` references or for `prs_sched_yield`. -/
  | blockLoad (refcnt : Option (BitVec 64))
  | blockStore (refcnt : Option (BitVec 64)) (token : Token)
  /-- In `prs_event_create`, after `prs_task_block`. -/
  | publish (refcnt : BitVec 64) (token : Token)
  deriving DecidableEq

def Change.next : Change → Owner
  | .create => .stopped
  | .add => .push
  | .dispatch => .running
  | .preempt => .away
  | .yield => .push

/-- What happened to the task: it blocked on an event or to yield, or a source tried to unblock it. -/
inductive Entry
  | block (event : Option ℕ)
  | signal (source : Source) (type : Kind) (success : Bool)
  deriving DecidableEq

structure St where
  /-- `task->state`. -/
  word : Token
  /-- The task is in a ready queue. -/
  queued : Bool
  owner : Owner
  /-- The events below are created. -/
  created : ℕ
  event : ℕ → Event
  call : Source → Call
  changes : ℕ
  /-- The latest first. -/
  log : List Entry
  /-- An event was accessed after it was freed. -/
  touched : Bool
  /-- Every `PRS_ASSERT` has held. -/
  asserts : Bool

inductive Act
  /-- The owner goes on. -/
  | owner
  | add
  | dispatch
  | preempt
  | yield
  | create (refcnt : BitVec 64)
  | schedule
  /-- A source starts its call; `self` is whether the task itself makes it. -/
  | call (source : Source) (type : Option Kind) (self : Bool)
  /-- The call of a source goes on. -/
  | source (source : Source)

/-- The memory that `prs_task_create` has zeroed. -/
def St.init : St where
  word := 0
  queued := false
  owner := .load .create
  created := 0
  event := fun _ => ⟨0, 0, 0, 0, 0⟩
  call := fun _ => .idle
  changes := 0
  log := []
  touched := false
  asserts := true

def St.stepOwner (s : St) : Option St :=
  match s.owner with
  | .load change =>
    some { s with
      owner := .store change s.word
      asserts := s.asserts && getState s.word == code change.expected }
  | .store change token =>
    some { s with word := changeState token change.new, changes := s.changes + 1, owner := change.next }
  | .push => some { s with queued := true, owner := .away }
  | .blockLoad refcnt =>
    some { s with
      owner := .blockStore refcnt s.word
      asserts := s.asserts && getState s.word != code .blocked }
  | .blockStore none token =>
    some { s with
      word := block token
      changes := s.changes + 1
      owner := .load .yield
      log := .block none :: s.log }
  | .blockStore (some refcnt) token =>
    some { s with
      word := block token
      changes := s.changes + 1
      owner := .publish refcnt (block token)
      log := .block (some s.created) :: s.log }
  | .publish refcnt token =>
    some { s with
      event := update s.event s.created ⟨token, refcnt, refcnt, 0, s.changes⟩
      created := s.created + 1
      owner := .waiting }
  | _ => none

/-- The owner when the call of `x` has returned. -/
def Owner.back (o : Owner) (x : Source) : Owner :=
  match o with
  | .calling y waits => if y = x then (if waits then .waiting else .running) else o
  | o => o

/-- The task itself makes the call of `x`: `task == prs_task_current()`. -/
def Owner.isSelf (o : Owner) (x : Source) : Bool :=
  match o with
  | .calling y _ => y == x
  | _ => false

/-- The call of `x` returns. -/
def St.finish (s : St) (x : Source) (type : Option Kind) (signaled freed : Bool) : St :=
  { s with call := update s.call x (.done type signaled freed), owner := s.owner.back x }

/-- The call of `x` has dropped its reference. -/
def St.dropped (s : St) (x : Source) (type : Option Kind) (token : Token) (freed : Bool) : St :=
  match type with
  | none => s.finish x none false freed
  | some type => { s with call := update s.call x (.unblock type token freed) }

/-- An access to event `e`. -/
def St.touch (s : St) (e : ℕ) : St := { s with touched := s.touched || decide (0 < (s.event e).frees) }

/-- The compare-and-swap of `prs_task_unblock`. -/
def St.cas (s : St) (x : Source) (type : Kind) (token : Token) (freed : Bool) : St :=
  if s.word = token then
    let s' : St := { s with
      word := unblock token (s.owner.isSelf x) type
      changes := s.changes + 1
      log := .signal x type true :: s.log }
    if s.owner.isSelf x then
      { s' with call := update s.call x (.done (some type) false freed), owner := .running }
    else { s' with call := update s.call x (.ready type freed) }
  else ({ s with log := .signal x type false :: s.log } : St).finish x (some type) true freed

/-- A step of `prs_event_unref_internal`. -/
def St.stepSource (s : St) (x : Source) : Option St :=
  match s.call x with
  | .idle => none
  | .read type =>
    some { s.touch x.1 with
      call := update s.call x (.drop type (s.event x.1).token (s.event x.1).initialRefcnt) }
  | .drop type token initialRefcnt =>
    let refcnt := (s.event x.1).refcnt
    let s' : St := { s.touch x.1 with
      event := update s.event x.1 { s.event x.1 with refcnt := refcnt - 1 }
      asserts := s.asserts && decide (0 < refcnt) && decide (refcnt ≤ initialRefcnt) }
    some (if refcnt = 1 then { s' with call := update s.call x (.destroy type token) }
      else s'.dropped x type token false)
  | .destroy type token =>
    some (({ s with
      event := update s.event x.1 { s.event x.1 with frees := (s.event x.1).frees + 1 } } :
        St).dropped x type token true)
  | .unblock type token freed => some (s.cas x type token freed)
  | .ready type freed => some ({ s with queued := true }.finish x (some type) false freed)
  | .done _ _ _ => none

def St.step (s : St) : Act → Option St
  | .owner => s.stepOwner
  | .add => if s.owner = .stopped then some { s with owner := .load .add } else none
  | .dispatch =>
    if s.owner = .away ∧ s.queued = true then some { s with queued := false, owner := .load .dispatch } else none
  | .preempt => if s.owner = .running then some { s with queued := true, owner := .load .preempt } else none
  | .yield => if s.owner = .running then some { s with owner := .blockLoad none } else none
  | .create refcnt =>
    if s.owner = .running ∧ refcnt ≠ 0 then some { s with owner := .blockLoad (some refcnt) } else none
  | .schedule => if s.owner = .waiting then some { s with owner := .away } else none
  | .call x type self =>
    if x.1 < s.created ∧ x.2 < (s.event x.1).initialRefcnt.toNat ∧ s.call x = .idle ∧
        (self = true → s.owner = .running ∨ s.owner = .waiting) then
      some { s with
        call := update s.call x (.read type)
        owner := if self then .calling x (s.owner = .waiting) else s.owner }
    else none
  | .source x => s.stepSource x

/-- A task, its scheduler and the sources of its events. -/
def sys : System St Act where
  init s := s = .init
  step := St.step

end Prs.Events
