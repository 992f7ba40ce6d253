import Mathlib.Algebra.Order.Ring.Int
import Mathlib.Logic.Function.Basic
import Prs.Lib.System

/-!
# The timer wheels (`timer.c`) and the clock (`clock.c`)

A tick is two steps, the increment of `s_prs_ticks` and `prs_timer_tick`; `prs_timer_queue` is two steps, the
read of the clock and the push to `timer->queued`. Any number of tasks queue and cancel requests in between.
An entry is named by its pool id, which is unique.

`prs_ticks_t` is `uint32_t` and `prs_int_t` is 64 bits wide, as on AMD64; there a shift by 32 or more is one
by the count modulo 32. The fields of the state below `inTick` are history.
-/

namespace Prs.Timer

open Function

/-- `struct prs_timer_entry`. -/
structure Entry where
  start : ℕ
  deadline : ℕ

/-- What the caller of `prs_timer_queue` has done. -/
inductive Caller
  | none | asked | waiting | canceled
  deriving DecidableEq

structure St where
  /-- `s_prs_ticks`. -/
  clock : ℕ
  /-- `timer->now`. -/
  now : ℕ
  /-- `timer->lists[wheel][slot]`. -/
  lists : ℕ × ℕ → List ℕ
  /-- `timer->queued`, oldest first. -/
  queued : List ℕ
  entry : ℕ → Entry
  /-- The reference count of the pool. -/
  refcnt : ℕ → ℕ
  caller : ℕ → Caller
  /-- The clock was incremented and `prs_timer_tick` has not run yet. -/
  inTick : Bool
  /-- How often the clock was incremented. -/
  ticks : ℕ
  /-- `ticks` when the caller read the clock. -/
  asked : ℕ → ℕ
  timeout : ℕ → ℕ
  /-- `ticks` in the tick that took the entry from `queued`. -/
  drained : ℕ → Option ℕ
  /-- `ticks` in each tick that signaled the event of the entry. -/
  signals : ℕ → List ℕ

inductive Act
  | request (id timeout : ℕ)
  | push (id : ℕ)
  | cancel (id : ℕ)
  | clock
  | tick

/-- `prs_bitops_hsb_uint32`. -/
def hsb (v : ℕ) : ℤ := if v = 0 then -1 else (Nat.log2 v : ℤ)

/-- Subtraction in `prs_ticks_t`. -/
def sub32 (a b : ℕ) : ℕ := (a + 2 ^ 32 - b) % 2 ^ 32

/-- The `delay` of an entry: the difference of two `prs_ticks_t` is not negative as a `prs_int_t`. -/
def St.delay (s : St) (id : ℕ) : ℤ := sub32 (s.entry id).deadline s.now

/-- The `wheel` for a delay. -/
def wheelOf (delay : ℤ) : ℕ := (hsb delay.toNat / 8).toNat

/-- The `slot` for a deadline on a wheel. -/
def slotOf (deadline wheel : ℕ) : ℕ := sub32 (deadline >>> (wheel * 8)) (if wheel = 0 then 0 else 1) &&& 255

/-- Signal the event and release the reference of the tick. -/
def St.signalEntry (s : St) (id : ℕ) : St :=
  { s with
    signals := update s.signals id (s.signals id ++ [s.ticks])
    refcnt := update s.refcnt id (s.refcnt id - 1) }

/-- `prs_pool_try_unlock_final_dest`, when the tick has the last reference. -/
def St.freeEntry (s : St) (id : ℕ) : St := { s with refcnt := update s.refcnt id 0 }

/-- Insert at the end of a slot. -/
def St.insert (s : St) (id wheel slot : ℕ) : St :=
  { s with lists := update s.lists (wheel, slot) (s.lists (wheel, slot) ++ [id]) }

/-- `prs_timer_queue_internal`. -/
def St.queueInternal (s : St) (id : ℕ) : St :=
  if s.delay id ≤ 0 then s.signalEntry id
  else if s.refcnt id = 1 then s.freeEntry id
  else s.insert id (wheelOf (s.delay id)) (slotOf (s.entry id).deadline (wheelOf (s.delay id)))

/-- The number of wheels that a tick looks at. The quotient is taken in `size_t`, the result is an `int`. -/
def maxWheel (changed : ℕ) : ℕ := ((hsb changed % 2 ^ 64 / 8 + 1).bmod (2 ^ 32)).toNat

/-- The slots of a wheel that a tick looks at, as an `int`. -/
def elapsedSlots (elapsed wheel : ℕ) : ℕ :=
  (min (((elapsed >>> (wheel * 256 % 32) : ℕ) : ℤ).bmod (2 ^ 32)) 256).toNat

/-- The slots that a tick from `now` to `clock` empties. -/
def tickSlots (now clock : ℕ) : List (ℕ × ℕ) :=
  (List.range (maxWheel (clock ^^^ now))).flatMap fun wheel =>
    (List.range (elapsedSlots (sub32 clock now) wheel)).map fun i => (wheel, (now >>> (wheel * 8) &&& 255) + i)

/-- Move the entries of these slots to `tmp_list`. -/
def flush : List (ℕ × ℕ) → (ℕ × ℕ → List ℕ) → (ℕ × ℕ → List ℕ) × List ℕ
  | [], lists => (lists, [])
  | q :: qs, lists =>
    let r := flush qs (update lists q [])
    (r.1, lists q ++ r.2)

/-- The first half of `prs_timer_tick`: empty the slots that have elapsed and queue their entries again.
`timer->now` is still the time before the tick. -/
def St.tickWheels (s : St) : St :=
  let r := flush (tickSlots s.now s.clock) s.lists
  r.2.foldl St.queueInternal { s with lists := r.1 }

/-- The second half: take over the time and drain `timer->queued`. -/
def St.tickQueued (s : St) : St :=
  s.queued.foldl St.queueInternal { s with
    now := s.clock, queued := [], inTick := false
    drained := fun id => if id ∈ s.queued then some s.ticks else s.drained id }

/-- `prs_timer_tick`. -/
def St.timerTick (s : St) : St := s.tickWheels.tickQueued

/-- The clock starts at zero and `prs_timer_create` takes over its value. -/
def St.init : St where
  clock := 0
  now := 0
  lists := fun _ => []
  queued := []
  entry := fun _ => ⟨0, 0⟩
  refcnt := fun _ => 0
  caller := fun _ => .none
  inTick := false
  ticks := 0
  asked := fun _ => 0
  timeout := fun _ => 0
  drained := fun _ => none
  signals := fun _ => []

def St.step (s : St) : Act → Option St
  | .request id timeout =>
    -- two references: one for the caller, one for the tick
    if s.caller id = .none ∧ timeout < 2 ^ 32 then
      some { s with
        entry := update s.entry id ⟨s.clock, (s.clock + timeout) % 2 ^ 32⟩
        refcnt := update s.refcnt id 2
        caller := update s.caller id .asked
        asked := update s.asked id s.ticks
        timeout := update s.timeout id timeout }
    else none
  | .push id =>
    if s.caller id = .asked then
      some { s with queued := s.queued ++ [id], caller := update s.caller id .waiting }
    else none
  | .cancel id =>
    if s.caller id = .waiting then
      some { s with caller := update s.caller id .canceled, refcnt := update s.refcnt id (s.refcnt id - 1) }
    else none
  | .clock =>
    if s.inTick then none
    else some { s with clock := (s.clock + 1) % 2 ^ 32, ticks := s.ticks + 1, inTick := true }
  | .tick => if s.inTick then some s.timerTick else none

def sys : System St Act where
  init s := s = .init
  step := St.step

end Prs.Timer
