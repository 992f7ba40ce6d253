import Prs.Lib.System
import Prs.Model.Swap

/-!
# Contexts that take turns (`worker.c` with `pal/posix/context.c`)

A thread runs on one of some contexts in memory, and goes to another by `prs_pal_context_swap`. In between it
runs any code, which may leave any machine behind.

The field `suspended` is history: where each context that does not run will go on.
-/

namespace Prs.SwapSteps

open Prs.Frame (Layout slot)
open Function Amd64 Swap

/-- Where a context goes on. -/
structure Point where
  reg : Reg → Word
  rip : Word
  rflags : Word
  xmm : ℕ → Word × Word

structure St where
  machine : Machine
  suspended : Word → Option Point

inductive Act
  /-- What the code on the context makes of the machine. -/
  | run (m : Machine)
  | swap

variable {L : Layout} (O : Offsets L) (alu : Word → Word → Word) (ripRef swapReturn : Word)

/-- A context is left by `prs_pal_context_swap`. -/
def leave (m : Machine) : Point := ⟨m.reg, swapReturn, m.rflags, m.xmm⟩

/-- A null pointer for `save` leaves the context for good. -/
def St.swapped (s : St) (m : Machine) : St where
  machine := m
  suspended :=
    let save := s.machine.reg .rdi
    let suspended := if save = 0 then s.suspended else update s.suspended save (some (leave swapReturn s.machine))
    update suspended (s.machine.reg .rsi) none

def St.step (s : St) : Act → Option St
  | .run m => some { s with machine := m }
  | .swap => (swap O alu ripRef swapReturn s.machine).map (s.swapped swapReturn)

/-- A thread and its contexts. -/
def sys (init : St → Prop) : System St Act where
  init := init
  step := St.step O alu ripRef swapReturn

end Prs.SwapSteps
