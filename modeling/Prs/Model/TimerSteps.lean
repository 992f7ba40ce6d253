import Prs.Model.Timer

/-!
# Timer requests step by step (`timer.c`, with the reference counts of `lib/ds/pool.c`)

The requests and the clock thread at the grain of their accesses to what they share: a list, or the header of
a pool entry. A request is named by the pool id of its entry, which is unique. `prs_timer_queue` allocates and
fills the entry, takes the two references and pushes it; `prs_timer_cancel` releases the caller's. The clock
thread moves entries from the slots that have elapsed to `tmp_list`, and then passes each of them, and each
that was queued, to `prs_timer_queue_internal`.

The fields of the state from `signals` on are history.
-/

namespace Prs.TimerSteps

open Function Prs.Timer

/-- The header of a pool entry, less its id. -/
structure Header where
  alloc : Bool
  refcnt : ℕ
  deriving DecidableEq

/-- The checks of `prs_pool_lock` and `prs_pool_unlock_internal` on a header that they have loaded. -/
def Header.locked (h : Header) : Bool := h.alloc && h.refcnt != 0

/-- The thread that makes a request, before the access that the name says. -/
inductive Caller
  | none
  | fill (timeout : ℕ)
  | lockFirst
  | lock
  | lockCas (header : Header)
  | push
  | waiting
  | unlock
  | unlockCas (header : Header)
  | canceled
  deriving DecidableEq

/-- Where the clock thread is in `prs_timer_queue_internal`. -/
inductive Work
  | enter
  | signal
  | unlock
  | unlockCas (header : Header)
  | tryUnlock
  | tryUnlockCas (header : Header)
  | destructor
  | free
  | insert
  deriving DecidableEq

/-- Where the clock thread is in `prs_timer_tick`. `ofQueued` is which of the two loops
`prs_timer_queue_internal` is called from. -/
inductive Tick
  | idle
  | start
  | flush (slots : List (ℕ × ℕ))
  | move (slots : List (ℕ × ℕ)) (id : ℕ)
  | tmp
  | queued
  | work (ofQueued : Bool) (id : ℕ) (at_ : Work)
  deriving DecidableEq

structure St where
  /-- `s_prs_ticks`. -/
  clock : ℕ
  /-- `timer->now`. -/
  now : ℕ
  /-- `timer->lists[wheel][slot]`. -/
  lists : ℕ × ℕ → List ℕ
  tmpList : List ℕ
  /-- `timer->queued`, oldest first. -/
  queued : List ℕ
  entry : ℕ → Entry
  header : ℕ → Header
  caller : ℕ → Caller
  tick : Tick
  /-- How many times `prs_event_signal` was called for the entry. -/
  signals : ℕ → ℕ
  /-- How many times `prs_event_unref` was called for the entry. -/
  unrefs : ℕ → ℕ
  /-- How many times the clock thread has released its reference. -/
  released : ℕ → ℕ
  /-- How many times the entry was freed. -/
  frees : ℕ → ℕ

inductive Act
  | request (id timeout : ℕ)
  /-- The call for the request goes on. -/
  | caller (id : ℕ)
  | cancel (id : ℕ)
  /-- The clock is incremented. -/
  | clock
  /-- The clock thread goes on. -/
  | tick

def St.init : St where
  clock := 0
  now := 0
  lists := fun _ => []
  tmpList := []
  queued := []
  entry := fun _ => ⟨0, 0⟩
  header := fun _ => ⟨false, 0⟩
  caller := fun _ => .none
  tick := .idle
  signals := fun _ => 0
  unrefs := fun _ => 0
  released := fun _ => 0
  frees := fun _ => 0

def St.goto (s : St) (id : ℕ) (c : Caller) : St := { s with caller := update s.caller id c }

/-- The loop of `prs_pool_unlock_internal` with header `h`, up to the swap. -/
def St.cancelWith (s : St) (id : ℕ) (h : Header) : St :=
  s.goto id (if h.locked then .unlockCas h else .canceled)

/-- The swap of `prs_pool_unlock`: the last reference frees the entry. -/
def St.unlockHeader (s : St) (id : ℕ) (h : Header) : St :=
  { s with
    header := update s.header id ⟨h.alloc && h.refcnt != 1, h.refcnt - 1⟩
    frees := update s.frees id (s.frees id + if h.refcnt = 1 then 1 else 0) }

def St.stepCaller (s : St) (id : ℕ) : Option St :=
  match s.caller id with
  | .none => none
  | .fill timeout =>
    some ({ s with entry := update s.entry id ⟨s.clock, (s.clock + timeout) % 2 ^ 32⟩ }.goto id .lockFirst)
  | .lockFirst => some ({ s with header := update s.header id ⟨true, 1⟩ }.goto id .lock)
  | .lock => some (s.goto id (if (s.header id).locked then .lockCas (s.header id) else .push))
  | .lockCas h =>
    if s.header id = h then
      some ({ s with header := update s.header id ⟨h.alloc, h.refcnt + 1⟩ }.goto id .push)
    else some (s.goto id (if (s.header id).locked then .lockCas (s.header id) else .push))
  | .push => some ({ s with queued := s.queued ++ [id] }.goto id .waiting)
  | .waiting => none
  | .unlock => some (s.cancelWith id (s.header id))
  | .unlockCas h =>
    if s.header id = h then some ((s.unlockHeader id h).goto id .canceled)
    else some (s.cancelWith id (s.header id))
  | .canceled => none

/-- `prs_timer_queue_internal` goes on. -/
def St.at (s : St) (ofQueued : Bool) (id : ℕ) (w : Work) : St := { s with tick := .work ofQueued id w }

/-- `prs_timer_queue_internal` returns. -/
def St.done (s : St) (ofQueued : Bool) : St := { s with tick := if ofQueued then .queued else .tmp }

/-- The loop of `prs_pool_unlock_internal` for `prs_pool_unlock`, with header `h`, up to the swap. -/
def St.unlockWith (s : St) (ofQueued : Bool) (id : ℕ) (h : Header) : St :=
  if h.locked then s.at ofQueued id (.unlockCas h) else s.done ofQueued

/-- The same for `prs_pool_try_unlock_final_dest`. -/
def St.tryUnlockWith (s : St) (ofQueued : Bool) (id : ℕ) (h : Header) : St :=
  s.at ofQueued id (if h.locked && h.refcnt == 1 then .tryUnlockCas h else .insert)

/-- The `delay` of an entry. -/
def St.delay (s : St) (id : ℕ) : ℤ := sub32 (s.entry id).deadline s.now

/-- `prs_idllist_insert_before` at the end of a slot. -/
def St.insert (s : St) (id wheel slot : ℕ) : St :=
  { s with lists := update s.lists (wheel, slot) (s.lists (wheel, slot) ++ [id]) }

/-- A step of `prs_timer_queue_internal`. -/
def St.stepWork (s : St) (ofQueued : Bool) (id : ℕ) : Work → St
  | .enter => s.at ofQueued id (if s.delay id ≤ 0 then .signal else .tryUnlock)
  | .signal => { s with signals := update s.signals id (s.signals id + 1) }.at ofQueued id .unlock
  | .unlock => s.unlockWith ofQueued id (s.header id)
  | .unlockCas h =>
    if s.header id = h then
      ({ s.unlockHeader id h with released := update s.released id (s.released id + 1) }).done ofQueued
    else s.unlockWith ofQueued id (s.header id)
  | .tryUnlock => s.tryUnlockWith ofQueued id (s.header id)
  | .tryUnlockCas h =>
    -- there is a destructor, so the entry stays allocated
    if s.header id = h then
      ({ s with
        header := update s.header id ⟨h.alloc, h.refcnt - 1⟩
        released := update s.released id (s.released id + 1) }).at ofQueued id .destructor
    else s.tryUnlockWith ofQueued id (s.header id)
  | .destructor => { s with unrefs := update s.unrefs id (s.unrefs id + 1) }.at ofQueued id .free
  | .free =>
    ({ s with
      header := update s.header id ⟨false, 0⟩
      frees := update s.frees id (s.frees id + 1) }).done ofQueued
  | .insert =>
    (s.insert id (wheelOf (s.delay id)) (slotOf (s.entry id).deadline (wheelOf (s.delay id)))).done ofQueued

/-- A step of `prs_timer_tick`. -/
def St.stepTick (s : St) : Option St :=
  match s.tick with
  | .idle => none
  | .start => some { s with tick := .flush (tickSlots s.now s.clock) }
  | .flush [] => some { s with tick := .tmp }
  | .flush (q :: qs) =>
    match s.lists q with
    | [] => some { s with tick := .flush qs }
    | id :: l => some { s with lists := update s.lists q l, tick := .move (q :: qs) id }
  | .move slots id => some { s with tmpList := s.tmpList ++ [id], tick := .flush slots }
  | .tmp =>
    match s.tmpList with
    | [] => some { s with now := s.clock, tick := .queued }
    | id :: l => some { s with tmpList := l, tick := .work false id .enter }
  | .queued =>
    match s.queued with
    | [] => some { s with tick := .idle }
    | id :: l => some { s with queued := l, tick := .work true id .enter }
  | .work ofQueued id w => some (s.stepWork ofQueued id w)

def St.step (s : St) : Act → Option St
  | .request id timeout =>
    -- `prs_pool_alloc`
    if s.caller id = .none ∧ timeout < 2 ^ 32 then
      some ({ s with header := update s.header id ⟨true, 0⟩ }.goto id (.fill timeout))
    else none
  | .caller id => s.stepCaller id
  | .cancel id => if s.caller id = .waiting then some (s.goto id .unlock) else none
  | .clock =>
    if s.tick = .idle then some { s with clock := (s.clock + 1) % 2 ^ 32, tick := .start } else none
  | .tick => s.stepTick

/-- The requests, each with a thread of its own, and the clock thread. -/
def sys : System St Act where
  init s := s = .init
  step := St.step

end Prs.TimerSteps
