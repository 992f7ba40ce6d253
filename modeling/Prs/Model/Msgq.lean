import Prs.Model.Mpsciq
import Prs.Model.Pd

/-!
# The message queue of a task (`msgq.c`, with `event.c` and the unblocking of `task.c`)

Any number of senders call `prs_msgq_send`; the task that owns the queue calls the receive functions, with or
without a filter and a timeout. Each access to `head`, `filter_id`, a filter's entry in the pointer directory,
`filter->event`, an event's reference count and the task's state is one step. A search of the queue reads
`head` once, and is one step.

Filters are named by their ids. Events are named by numbers, and the number of an event stands for its token
too. The clock is left open: a queued timeout may expire at any time, and any time may have passed when the
receiver runs again. A message outside the queue may be written at any time, by a sender that fills it or
because its memory was freed.

The fields `num`, `sends`, `received` and `sent` are history, and so are `frees`, `calls` and `filter` of an
event.
-/

namespace Prs.Msgq

open Function

/-- `PRS_MSGQ_EVENT_TYPE_*`. -/
inductive Cause
  | send
  | timeout
  | free
  deriving DecidableEq

/-- A sender. It is before the access that the name says. -/
inductive Pc (ν : Type)
  | idle
  | push (n : ν)
  | load (n : ν)
  | lock (n : ν) (id : ℕ)
  | event (n : ν) (id : ℕ)
  /-- Before the call of `filter->function`. -/
  | evaluate (n : ν) (id : ℕ)
  | take (n : ν) (id : ℕ)
  | drop (id e : ℕ)
  | unblock (id e : ℕ)
  | ready (id : ℕ)
  | unlock (id : ℕ)
  deriving DecidableEq

/-- The owner of the queue in `prs_msgq_recv_internal`. `early` is whether `prs_msgq_free_event` was called
because the search after `prs_msgq_filter_set` has found a message. -/
inductive Own
  | idle
  | search
  | create
  | block
  | publish
  | set
  | again
  | timer
  | schedule
  | woken
  | cause
  | exchange (early : Bool)
  | unref (early : Bool)
  | signal (early : Bool)
  | unblock (early : Bool)
  | resume
  | reset
  | unlock
  | remove
  | removing
  deriving DecidableEq

/-- The timeout request for an event. -/
inductive Timer
  | none
  | queued (canceled : Bool)
  | signal
  | unblock
  | ready
  | unref
  | retired
  deriving DecidableEq

structure Filter (μ : Type) where
  event : Option ℕ
  /-- `function`, with `userdata`. -/
  function : Option (μ → Bool)

structure Event where
  initialRefcnt : ℕ
  refcnt : ℕ
  /-- How many times it was freed. -/
  frees : ℕ
  /-- The calls of `prs_event_signal` and `prs_event_unref` on it. -/
  calls : ℕ
  /-- The filter that it was created for. -/
  filter : ℕ
  deriving DecidableEq

/-- The queue and its messages. -/
structure Box (ι ν μ : Type) where
  queue : Mpsciq.St ι ν
  data : ν → μ
  /-- The number of the send that has pushed the node last. -/
  num : ν → ℕ
  sends : ℕ
  /-- The numbers of the messages that were received. -/
  received : List ℕ

/-- The parameters and the locals of `prs_msgq_recv_internal`. -/
structure Local (ν μ : Type) where
  function : Option (μ → Bool)
  useTimeout : Bool
  waitLeft : ℕ
  hint : Option ν
  msg : Option ν
  timeoutActive : Bool
  filter : ℕ
  event : ℕ
  msgExpected : Bool

structure St (ι ν μ : Type) where
  box : Box ι ν μ
  pd : Pd
  filterId : Option ℕ
  filter : ℕ → Filter μ
  event : ℕ → Event
  /-- The events below are created. -/
  created : ℕ
  /-- The event whose token is the state of the task, which is `PRS_TASK_STATE_BLOCKED` then. -/
  blocked : Option ℕ
  /-- The cause of the last unblock. -/
  cause : Cause
  /-- The task is in a ready queue. -/
  ready : Bool
  timer : ℕ → Timer
  pc : ι → Pc ν
  /-- The number of the sender's message. -/
  sent : ι → ℕ
  own : Own
  loc : Local ν μ

inductive Act (ι ν μ : Type)
  | write (n : ν) (m : μ)
  | send (i : ι) (n : ν)
  | step (i : ι) (spurious : Bool)
  | recv (function : Option (μ → Bool)) (useTimeout : Bool) (timeout : ℕ)
  | own
  /-- `prs_msgq_filter_create`, with the id that it gets. -/
  | create (id : ℕ)
  /-- The receiver runs again, `diff` ticks after it has queued the timeout. -/
  | woken (diff : ℕ)
  /-- `prs_timer_tick` finds that the request of event `e` is due. -/
  | expire (e : ℕ)
  /-- `prs_timer_tick` finds that the request of event `e` was canceled. -/
  | discard (e : ℕ)
  | timer (e : ℕ)

variable {ι ν μ : Type}

def Local.none : Local ν μ := ⟨.none, false, 0, .none, .none, false, 0, 0, true⟩

/-- `prs_msgq_create`. The memory is zeroed, and 0 is an id that is never given out. -/
def St.init [DecidableEq ι] [DecidableEq ν] (data : ν → μ) : St ι ν μ where
  box := ⟨.init, data, fun _ => 0, 0, []⟩
  pd := .init
  filterId := some 0
  filter := fun _ => ⟨none, none⟩
  event := fun _ => ⟨0, 0, 0, 0, 0⟩
  created := 0
  blocked := none
  cause := .send
  ready := false
  timer := fun _ => .none
  pc := fun _ => .idle
  sent := fun _ => 0
  own := .idle
  loc := .none

/-- Whether a filter function matches; null matches every message. -/
def accepts (function : Option (μ → Bool)) (m : μ) : Bool := function.all fun f => f m

/-- The loop of `prs_msgq_search` at `node`, with the message that matches and the last value of `prev`. It is
`none` if it does not end within the fuel. -/
def searchLoop (next : ν → Option ν) (ok : ν → Bool) : ℕ → Option ν → Option ν → Option (Option ν × Option ν)
  | _, prev, none => some (none, prev)
  | 0, _, some _ => none
  | fuel + 1, prev, some node =>
    if ok node then some (some node, prev) else searchLoop next ok fuel (some node) (next node)

variable [Fintype ι] [DecidableEq ι] [Fintype ν] [DecidableEq ν]

/-- `prs_msgq_search`, with the message that it returns and the new hint. `prs_mpsciq_next` follows the back
links. -/
def Box.search (b : Box ι ν μ) (function : Option (μ → Bool)) (hint : Option ν) :
    Option (Box ι ν μ × Option ν × Option ν) :=
  (b.queue.step .begin).bind fun q =>
    let node := hint.or q.reverseHead
    (searchLoop q.prev (fun n => accepts function (b.data n)) (Fintype.card ν) node node).map fun r =>
      ({ b with queue := q }, r.1, if r.1 = none then r.2 else hint)

def St.goto (s : St ι ν μ) (i : ι) (p : Pc ν) : St ι ν μ := { s with pc := update s.pc i p }

/-- The `fetch_sub` of `prs_event_unref_internal`. The last reference frees the event. -/
def Event.drop (e : Event) : Event :=
  { e with
    refcnt := e.refcnt - 1
    frees := if e.refcnt = 1 then e.frees + 1 else e.frees
    calls := e.calls + 1 }

def St.dropEvent (s : St ι ν μ) (e : ℕ) : St ι ν μ := { s with event := update s.event e (s.event e).drop }

def St.clearEvent (s : St ι ν μ) (id : ℕ) : St ι ν μ :=
  { s with filter := update s.filter id { s.filter id with event := none } }

/-- A step of `prs_mpsciq_push`. -/
def St.stepPush (s : St ι ν μ) (i : ι) (n : ν) (spurious : Bool) : Option (St ι ν μ) :=
  match s.box.queue.pc i with
  | .load _ => (s.box.queue.step (.load i)).map fun q => { s with box := { s.box with queue := q } }
  | _ => (s.box.queue.step (.cas i spurious)).map fun q =>
    if q.pc i = .idle then
      { s with
        box := { s.box with queue := q, num := update s.box.num n s.box.sends, sends := s.box.sends + 1 }
        sent := update s.sent i s.box.sends
        pc := update s.pc i (.load n) }
    else { s with box := { s.box with queue := q } }

/-- A step of `prs_msgq_send`. -/
def St.stepSend (s : St ι ν μ) (i : ι) (spurious : Bool) : Option (St ι ν μ) :=
  match s.pc i with
  | .idle => none
  | .push n => s.stepPush i n spurious
  | .load n =>
    match s.filterId with
    | none => some (s.goto i .idle)
    | some id => some (s.goto i (.lock n id))
  | .lock n id =>
    match s.pd.lock id with
    | none => some (s.goto i .idle)
    | some pd => some { s with pd := pd, pc := update s.pc i (.event n id) }
  | .event n id =>
    if (s.filter id).event = none then some (s.goto i (.unlock id))
    else if (s.filter id).function.isSome then some (s.goto i (.evaluate n id))
    else some (s.goto i (.take n id))
  | .evaluate n id =>
    if accepts (s.filter id).function (s.box.data n) then some (s.goto i (.take n id))
    else some (s.goto i (.unlock id))
  | .take _ id =>
    match (s.filter id).event with
    | none => some (s.goto i (.unlock id))
    | some e => some ((s.clearEvent id).goto i (.drop id e))
  | .drop id e => some ((s.dropEvent e).goto i (.unblock id e))
  | .unblock id e =>
    if s.blocked = some e then some { s with blocked := none, cause := .send, pc := update s.pc i (.ready id) }
    else some (s.goto i (.unlock id))
  | .ready id => some { s with ready := true, pc := update s.pc i (.unlock id) }
  | .unlock id => some { s with pd := (s.pd.unlock id).1, pc := update s.pc i .idle }

/-- The receive returns. -/
def St.done (s : St ι ν μ) : St ι ν μ := { s with own := .idle, loc := .none }

/-- The head of the loop of `prs_msgq_recv_internal`. -/
def St.loop (s : St ι ν μ) : St ι ν μ :=
  if s.loc.msg.isSome then { s with own := .remove }
  else if s.loc.useTimeout ∧ s.loc.waitLeft = 0 then s.done
  else { s with loc := { s.loc with timeoutActive := s.loc.useTimeout }, own := .create }

/-- What a search has returned is stored. -/
def St.found (s : St ι ν μ) (r : Box ι ν μ × Option ν × Option ν) : St ι ν μ :=
  { s with box := r.1, loc := { s.loc with msg := r.2.1, hint := r.2.2 } }

/-- The message is out of the queue. -/
def St.take (s : St ι ν μ) (q : Mpsciq.St ι ν) (n : ν) : St ι ν μ :=
  { s with box := { s.box with queue := q, received := s.box.received ++ [s.box.num n] } }.done

/-- The reference count that `prs_msgq_alloc_event` gives the event: for its sources, and for the receiver
itself. -/
def Local.sources (l : Local ν μ) : ℕ := (if l.timeoutActive then 2 else 1) + 1

/-- `prs_timer_cancel`. -/
def Timer.cancel : Timer → Timer
  | .queued _ => .queued true
  | t => t

/-- A step of `prs_msgq_recv_internal`. -/
def St.stepOwn (s : St ι ν μ) : Option (St ι ν μ) :=
  match s.own with
  | .search => (s.box.search s.loc.function s.loc.hint).map fun r => (s.found r).loop
  | .block =>
    some { s with
      event := update s.event s.created ⟨s.loc.sources, s.loc.sources, 0, 0, s.loc.filter⟩
      created := s.created + 1
      blocked := some s.created
      loc := { s.loc with event := s.created }
      own := .publish }
  | .publish =>
    some { s with
      filter := update s.filter s.loc.filter { s.filter s.loc.filter with event := some s.loc.event }
      own := .set }
  | .set => some { s with filterId := some s.loc.filter, own := .again }
  | .again =>
    (s.box.search s.loc.function s.loc.hint).map fun r =>
      { s.found r with own := if r.2.1.isSome then .exchange true else .timer }
  | .timer =>
    some { s with
      timer := if s.loc.timeoutActive then update s.timer s.loc.event (.queued false) else s.timer
      own := .schedule }
  | .schedule => if s.ready then some { s with ready := false, own := .woken } else none
  | .cause =>
    if s.cause = .send then
      (s.box.search s.loc.function s.loc.hint).map fun r => { s.found r with own := .exchange false }
    else some { s with loc := { s.loc with msgExpected := false }, own := .exchange false }
  | .exchange early =>
    match (s.filter s.loc.filter).event with
    | some _ => some { s.clearEvent s.loc.filter with own := .unref early }
    | none => some { s with own := .signal early }
  | .unref early => some { s.dropEvent s.loc.event with own := .signal early }
  | .signal early => some { s.dropEvent s.loc.event with own := .unblock early }
  | .unblock early =>
    if s.blocked = some s.loc.event then some { s with blocked := none, cause := .free, own := .reset }
    else some { s with own := if early then .resume else .reset }
  | .resume => if s.ready then some { s with ready := false, own := .reset } else none
  | .reset => some { s with filterId := none, own := .unlock }
  | .unlock =>
    let s' : St ι ν μ := { s with pd := (s.pd.unlock s.loc.filter).1 }
    some (if s.loc.msg = none ∧ s.loc.msgExpected = false then s'.done else s'.loop)
  | .remove =>
    s.loc.msg.bind fun n => (s.box.queue.step (.remove n)).map fun q =>
      if q.removing = some n then { s with box := { s.box with queue := q }, own := .removing } else s.take q n
  | .removing => s.loc.msg.bind fun n => (s.box.queue.step .removeCas).map fun q => s.take q n
  | _ => none

/-- A step of `prs_timer_tick` for a request that it has taken up. -/
def St.stepTimer (s : St ι ν μ) (e : ℕ) : Option (St ι ν μ) :=
  match s.timer e with
  | .signal => some { s.dropEvent e with timer := update s.timer e .unblock }
  | .unblock =>
    if s.blocked = some e then
      some { s with blocked := none, cause := .timeout, timer := update s.timer e .ready }
    else some { s with timer := update s.timer e .retired }
  | .ready => some { s with ready := true, timer := update s.timer e .retired }
  | .unref => some { s.dropEvent e with timer := update s.timer e .retired }
  | _ => none

def St.step (s : St ι ν μ) : Act ι ν μ → Option (St ι ν μ)
  | .write n m =>
    if s.box.queue.Free n then some { s with box := { s.box with data := update s.box.data n m } } else none
  | .send i n =>
    if s.pc i = .idle then
      (s.box.queue.step (.push i n)).map fun q =>
        { s with box := { s.box with queue := q }, pc := update s.pc i (.push n) }
    else none
  | .step i spurious => s.stepSend i spurious
  | .recv function useTimeout timeout =>
    if s.own = .idle then
      some { s with
        loc :=
          { (Local.none : Local ν μ) with function := function, useTimeout := useTimeout, waitLeft := timeout }
        own := .search }
    else none
  | .own => s.stepOwn
  | .create id =>
    if s.own = .create ∧ id ≠ 0 then
      (s.pd.alloc id).map fun pd =>
        { s with
          pd := pd
          filter := update s.filter id ⟨none, s.loc.function⟩
          loc := { s.loc with filter := id, msgExpected := true }
          own := .block }
    else none
  | .woken diff =>
    if s.own = .woken then
      if s.loc.timeoutActive then
        some { s with
          loc := { s.loc with waitLeft := s.loc.waitLeft - diff }
          timer := update s.timer s.loc.event (s.timer s.loc.event).cancel
          own := .cause }
      else some { s with own := .cause }
    else none
  | .expire e =>
    match s.timer e with
    | .queued _ => some { s with timer := update s.timer e .signal }
    | _ => none
  | .discard e => if s.timer e = .queued true then some { s with timer := update s.timer e .unref } else none
  | .timer e => s.stepTimer e

/-- A message queue, its senders and its owner. -/
def sys (ι ν μ : Type) [Fintype ι] [DecidableEq ι] [Fintype ν] [DecidableEq ν] (data : ν → μ) :
    System (St ι ν μ) (Act ι ν μ) where
  init s := s = .init data
  step := St.step

end Prs.Msgq
