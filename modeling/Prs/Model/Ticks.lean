import Mathlib.Algebra.Group.Nat.Defs

/-!
# Ticks (`ticks.h`, `pr.c`)

Ticks have 32 bits, and so has the product of a duration and `PRS_HZ`, which is a parameter. A duration is an
`int` that is not negative.
-/

namespace Prs.Ticks

/-- `prs_ticks_t`. -/
abbrev TickCount : Type := BitVec 32

/-- `PRS_HZ` of `config.h`. -/
def configHz : ℕ := 1000

/-- The conversion macros, for the number of units in a second. -/
def ofUnits (hz unit n : ℕ) : TickCount := BitVec.ofNat 32 n * BitVec.ofNat 32 hz / BitVec.ofNat 32 unit

/-- `PRS_TICKS_FROM_MS`. -/
def ofMs (hz ms : ℕ) : TickCount := ofUnits hz 1000 ms

/-- `PRS_TICKS_FROM_US`. -/
def ofUs (hz us : ℕ) : TickCount := ofUnits hz 1000000 us

/-- `pr_sleep_ticks`, for what it hands to `prs_sched_sleep`. -/
def sleepTicks (ticks : TickCount) : TickCount := ticks

/-- `pr_sleep_ms`. -/
def sleepMs (hz ms : ℕ) : TickCount := sleepTicks (ofMs hz ms)

/-- `pr_sleep_us`. -/
def sleepUs (hz us : ℕ) : TickCount := sleepTicks (ofUs hz us)

end Prs.Ticks
