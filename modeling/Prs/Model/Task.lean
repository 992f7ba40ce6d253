import Mathlib.Algebra.Order.Ring.Int
import Prs.Model.Swprio

/-!
# The state word of a task (`task.c`)

`task->state` has three fields in one word of 64 bits: the state, the cause of the last unblock, and a count
that each change of the state moves on. A change other than `prs_task_unblock` loads the word and then stores
the new one; `prs_task_unblock` is a compare-and-swap against the token that `prs_task_block` has returned.
-/

namespace Prs.Task

open Prs.Swprio (TaskState)

/-- `prs_task_token_t`. -/
abbrev Token : Type := BitVec 64

/-- The value of a state in `enum prs_task_state`. -/
def code : TaskState → Token
  | .stopped => 0
  | .ready => 1
  | .running => 2
  | .blocked => 3
  | .zombie => 4

/-- `PRS_TASK_STATE_BITS`. -/
def stateBits : ℕ := 4

/-- `PRS_TASK_CAUSE_BITS`. -/
def causeBits : ℕ := 8

/-- `PRS_TASK_STATE_MASK`. -/
def stateMask : Token := (1#64 <<< stateBits) - 1

/-- `PRS_TASK_CAUSE_MASK`. -/
def causeMask : Token := ((1#64 <<< causeBits) - 1) <<< stateBits

/-- `PRS_TASK_COUNT_MASK`. -/
def countMask : Token := ~~~(stateMask ||| causeMask)

/-- `PRS_TASK_GET_STATE`. -/
def getState (token : Token) : Token := token &&& stateMask

/-- `PRS_TASK_GET_CAUSE`. -/
def getCause (token : Token) : BitVec 8 := ((token &&& causeMask) >>> stateBits).setWidth 8

/-- `PRS_TASK_GET_COUNT`. -/
def getCount (token : Token) : Token := (token &&& countMask) >>> (stateBits + causeBits)

/-- `PRS_TASK_SET_TOKEN`. -/
def setToken (s : TaskState) (ca : BitVec 8) (co : Token) : Token :=
  (co <<< (stateBits + causeBits)) ||| ((ca.setWidth 64 <<< stateBits) &&& causeMask) ||| (code s &&& stateMask)

/-- `PRS_TASK_COUNT_INCREMENT`. -/
def countIncrement : Token := 1#64 <<< (stateBits + causeBits)

/-- The token that `prs_task_change_state` stores. -/
def changeState (token : Token) (new : TaskState) : Token :=
  setToken new (getCause token) (getCount token + countIncrement)

/-- The token that `prs_task_block` stores and returns. -/
def block (token : Token) : Token := setToken .blocked 0 (getCount token + countIncrement)

/-- The token that `prs_task_unblock` swaps in for `token`. -/
def unblock (token : Token) (isCurrentTask : Bool) (cause : BitVec 8) : Token :=
  setToken (if isCurrentTask then .running else .ready) cause (getCount token + countIncrement)

/-- A call that changes the state word. -/
inductive Change
  | changeState (expected new : TaskState)
  | block
  | unblock (token : Token) (isCurrentTask : Bool) (cause : BitVec 8)

/-- A call on the word: the new word, or `none` when `prs_task_unblock` fails or a `PRS_ASSERT` does.
`asserts` is whether the assertions are compiled. -/
def step (asserts : Bool) (word : Token) : Change → Option Token
  | .changeState expected new =>
    if asserts = true ∧ getState word ≠ code expected then none else some (changeState word new)
  | .block => if asserts = true ∧ getState word = code .blocked then none else some (block word)
  | .unblock token isCurrentTask cause => if word = token then some (unblock token isCurrentTask cause) else none

/-- Calls one after the other. -/
def run (asserts : Bool) : Token → List Change → Option Token
  | word, [] => some word
  | word, c :: cs => (step asserts word c).bind fun next => run asserts next cs

end Prs.Task
