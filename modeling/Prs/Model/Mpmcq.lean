import Mathlib.Tactic.Simps.Basic
import Prs.Lib.Links
import Prs.Lib.System
import Prs.Model.Pd

/-!
# The multi-producer multi-consumer queue (`lib/ds/mpmcq.c`)

Any number of threads call `prs_mpmcq_push` and `prs_mpmcq_pop` on one queue. Each atomic access is one step:
the loads of `head`, `tail` and `next`, the directory operations, the compare-and-swaps, the store of `head` and
the exchange of `consumed`. A thread's program counter holds its locals (`new_node`, `tail`, `next`, `test_node`);
a node is named by its directory id, which is unique, and a `struct prs_mpmcq_locked_node` whose `node` is null is
a separate program counter.

The fields below the program counters are history: nothing in the code reads them.
-/

namespace Prs.Mpmcq

open Function

/-- `struct prs_mpmcq_node`. -/
structure Node where
  next : Option ℕ
  consumed : Bool
  data : ℕ
  deriving DecidableEq

/-- The program counter and locals of a thread. In `push`, `n` is the new node, `t` the local `tail` and `x` the
local `next`; in `pop`, `t` is `test_node`, `c` is `already_consumed` and `x` is `next`. -/
inductive Pc
  | idle
  -- `prs_mpmcq_push`
  | loadTail (n : ℕ)
  | lockTail (n : ℕ) (t : Option ℕ)
  | loadNext (n t : ℕ)
  | lockNext (n t : ℕ) (x : Option ℕ)
  | advTail (n t x : ℕ)
  | unlockOld (n t x : ℕ)
  | casNext (n t : ℕ) (x : Option ℕ)
  | unlockRetry (n t : ℕ)
  | unlockLinked (n t : ℕ)
  | casTail (n t : ℕ)
  | casTailNull (n : ℕ) (t : Option ℕ)
  | storeHead (n : ℕ)
  -- `prs_mpmcq_pop`; `p` is `prev_head_id` when this is the second load of `head`
  | loadHead (p : Option (Option ℕ))
  | lockHead (p : Option (Option ℕ)) (t : Option ℕ)
  | exchange (t : ℕ)
  | popLoadNext (t : ℕ) (c : Bool)
  | popLockNext (t : ℕ) (c : Bool) (x : Option ℕ)
  | casHead (t : ℕ) (c : Bool) (x : ℕ)
  | unlockHead (t : ℕ) (c : Bool) (x : ℕ)
  | unlockPassed (t x : ℕ)
  | unlockNext (t x : ℕ)
  | unlockTest (t : ℕ) (c : Bool)
  deriving DecidableEq

/-- The results of `prs_mpmcq_pop`. -/
inductive Result
  | ok | empty | unknown
  deriving DecidableEq

/-- The queue, its nodes, the directory and the threads. -/
structure St (ι : Type) where
  head : Option ℕ
  tail : Option ℕ
  node : ℕ → Node
  pd : Pd
  freed : List ℕ
  pc : ι → Pc
  /-- Nodes linked into the queue, in that order. -/
  order : List ℕ
  /-- The node after which a node was linked. -/
  pred : ℕ → Option ℕ
  /-- Nodes that `head` has left. -/
  past : List ℕ
  /-- Nodes whose push has returned `PRS_OK`. -/
  done : List ℕ
  /-- Nodes whose element a pop has returned. -/
  popped : List ℕ
  /-- Nodes whose queue reference has been released. -/
  released : List ℕ
  /-- Locks kept by a pop that returned `PRS_UNKNOWN` with its second lock of `head` taken. -/
  leaked : List ℕ

inductive Act (ι : Type)
  | push (i : ι) (data id : ℕ)
  | pushFail (i : ι)
  | pop (i : ι)
  | step (i : ι)

variable {ι : Type} [DecidableEq ι]

/-- `prs_mpmcq_create`. -/
def St.init : St ι where
  head := none
  tail := none
  node := fun _ => ⟨none, false, 0⟩
  pd := .init
  freed := []
  pc := fun _ => .idle
  order := []
  pred := fun _ => none
  past := []
  done := []
  popped := []
  released := []
  leaked := []

/-- Thread `i` goes on at `p`. -/
@[simps]
def St.goto (s : St ι) (i : ι) (p : Pc) : St ι := { s with pc := update s.pc i p }

/-- `prs_mpmcq_unlock`: release a lock and free the node if it was the last. -/
@[simps]
def St.unlock (s : St ι) (n : ℕ) : St ι :=
  { s with
    pd := (s.pd.unlock n).1
    freed := if (s.pd.unlock n).2 then n :: s.freed else s.freed }

/-- `prs_pd_lock`, then `locked` if it gave a reference and `failed` if it returned null. -/
def St.lock (s : St ι) (i : ι) (n : ℕ) (locked failed : Pc) : St ι :=
  match s.pd.lock n with
  | some pd => { s with pd := pd }.goto i locked
  | none => s.goto i failed

/-- `prs_mpmcq_alloc_node`: the new node is private to its push. -/
def St.alloc (s : St ι) (i : ι) (data id : ℕ) : Option (St ι) :=
  (s.pd.alloc id).map fun pd =>
    { s with pd := pd, node := update s.node id ⟨none, false, data⟩ }.goto i (.loadTail id)

/-- Where `prs_mpmcq_pop` goes on after `prs_mpmcq_lock(mpmcq, &mpmcq->head)` has given `t`. -/
def afterHead : Option ℕ → Bool → Pc
  | some t, true => .exchange t
  | t, _ => .loadHead (some t)

/-- One atomic step of a call. -/
def St.stepThread (s : St ι) (i : ι) : Option (St ι) :=
  match s.pc i with
  | .idle => none
  | .loadTail n => some (s.goto i (.lockTail n s.tail))
  | .lockTail n none => some (s.goto i (.casTailNull n none))
  | .lockTail n (some t) => some (s.lock i t (.loadNext n t) (.casTailNull n (some t)))
  | .loadNext n t => some (s.goto i (.lockNext n t (s.node t).next))
  | .lockNext n t none => some (s.goto i (.casNext n t none))
  | .lockNext n t (some x) => some (s.lock i x (.advTail n t x) (.casNext n t (some x)))
  | .advTail n t x =>
    some ({ s with tail := if s.tail = some t then some x else s.tail }.goto i (.unlockOld n t x))
  | .unlockOld n t x => some ((s.unlock t).goto i (.loadNext n x))
  | .casNext n t x =>
    -- the expected value is `next.id`, which is a stale id when the lock of `next` failed
    if (s.node t).next = x then
      some ({ s with
        node := update s.node t { s.node t with next := some n }
        order := s.order ++ [n]
        pred := update s.pred n (some t) }.goto i (.unlockLinked n t))
    else some (s.goto i (.unlockRetry n t))
  | .unlockRetry n t => some ((s.unlock t).goto i (.loadTail n))
  | .unlockLinked n t => some ((s.unlock t).goto i (.casTail n t))
  | .casTail n t =>
    some ({ s with tail := if s.tail = some t then some n else s.tail, done := n :: s.done }.goto i .idle)
  | .casTailNull n t =>
    -- `tail.node` is null: `tail_id` is invalid, or the lock of it failed
    if s.tail = t then some ({ s with tail := some n, order := s.order ++ [n] }.goto i (.storeHead n))
    else some (s.goto i (.loadTail n))
  | .storeHead n =>
    some ({ s with head := some n, past := s.head.toList ++ s.past, done := n :: s.done }.goto i .idle)
  | .loadHead p => some (s.goto i (.lockHead p s.head))
  | .lockHead none none => some (s.goto i (afterHead none false))
  | .lockHead none (some t) => some (s.lock i t (afterHead (some t) true) (afterHead (some t) false))
  | .lockHead (some p) none =>
    if p = none then some (s.goto i .idle) else some (s.goto i (afterHead none false))
  | .lockHead (some p) (some t) =>
    if p = some t then
      -- `PRS_UNKNOWN`; the reference that the second lock may have taken is not released
      match s.pd.lock t with
      | some pd => some ({ s with pd := pd, leaked := t :: s.leaked }.goto i .idle)
      | none => some (s.goto i .idle)
    else some (s.lock i t (afterHead (some t) true) (afterHead (some t) false))
  | .exchange t =>
    some ({ s with node := update s.node t { s.node t with consumed := true } }.goto i
      (.popLoadNext t (s.node t).consumed))
  | .popLoadNext t c => some (s.goto i (.popLockNext t c (s.node t).next))
  | .popLockNext t c none => some (s.goto i (.unlockTest t c))
  | .popLockNext t c (some x) => some (s.lock i x (.casHead t c x) (.unlockTest t c))
  | .casHead t c x =>
    if s.head = some t then
      some ({ s with head := some x, past := t :: s.past }.goto i (.unlockHead t c x))
    else some (s.goto i (if c then .unlockPassed t x else .unlockNext t x))
  | .unlockHead t c x =>
    some ({ s.unlock t with released := t :: s.released }.goto i
      (if c then .unlockPassed t x else .unlockNext t x))
  | .unlockPassed t x => some ((s.unlock t).goto i (.exchange x))
  | .unlockNext t x => some ((s.unlock x).goto i (.unlockTest t false))
  | .unlockTest t c =>
    some ({ s.unlock t with popped := if c then s.popped else t :: s.popped }.goto i .idle)

/-- A call starts, fails to allocate its node (`PRS_OUT_OF_MEMORY`), or takes its next step. -/
def St.step (s : St ι) : Act ι → Option (St ι)
  | .push i data id => if s.pc i = .idle then s.alloc i data id else none
  | .pushFail i => if s.pc i = .idle then some s else none
  | .pop i => if s.pc i = .idle then some (s.goto i (.loadHead none)) else none
  | .step i => s.stepThread i

/-- The queue with its threads. -/
def sys (ι : Type) [DecidableEq ι] : System (St ι) (Act ι) where
  init s := s = .init
  step := St.step

/-- The result with which the next step of thread `i` ends a pop. -/
def St.popResult (s : St ι) (i : ι) : Option Result :=
  match s.pc i with
  | .lockHead (some p) t => if p = t then some .unknown else none
  | .unlockTest _ c => some (if c then .empty else .ok)
  | _ => none

/-- The locks a call holds. -/
def Pc.held : Pc → List ℕ
  | .loadNext _ t | .lockNext _ t _ | .casNext _ t _ | .unlockRetry _ t | .unlockLinked _ t => [t]
  | .advTail _ t x | .unlockOld _ t x => [t, x]
  | .exchange t | .popLoadNext t _ | .popLockNext t _ _ | .unlockTest t _ => [t]
  | .casHead t _ x | .unlockHead t _ x | .unlockPassed t x | .unlockNext t x => [t, x]
  | _ => []

/-- No call is in progress. -/
def St.Quiet (s : St ι) : Prop := ∀ i, s.pc i = .idle

/-- `n` is reached from `head` through `next` links. -/
def St.Linked (s : St ι) : ℕ → Prop := Prs.Linked (fun m => (s.node m).next) s.head

end Prs.Mpmcq
