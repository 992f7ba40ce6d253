import Prs.Model.Mpscq

/-!
# Exception handlers (`excp.c`)

Handlers are kept in a `prs_mpscq`, and are never removed. Any thread registers handlers, and any thread
raises exceptions; `prs_excp_raise` goes through the queue from its youngest node. Each call of a handler is
one step, with the reads of its node; what a handler returns is up to it.

The fields `registered` and `asked` are history.
-/

namespace Prs.Excp

open Function

/-- `enum prs_excp_result`. -/
inductive Result
  | exit
  | killTask
  | continue
  | forward
  deriving DecidableEq

/-- A thread in `prs_excp_raise`, with the node of the loop; or the last exception that it has raised is over. -/
inductive Pc (ν : Type)
  | idle
  | walk (node : Option ν)
  | done (r : Result) (byDefault : Bool)
  deriving DecidableEq

structure St (ι κ ν δ : Type) where
  handlers : Mpscq.St ι ν δ
  pc : κ → Pc ν
  /-- The handlers when the thread has read `head`, youngest first. -/
  registered : κ → List δ
  /-- The handlers that the thread has called, with what they have returned. -/
  asked : κ → List (δ × Result)

inductive Act (ι κ ν δ : Type)
  | push (i : ι) (n : ν) (d : δ)
  | load (i : ι)
  | cas (i : ι) (spurious : Bool)
  | raise (j : κ)
  | call (j : κ) (r : Result)

variable {ι κ ν δ : Type} [DecidableEq ι] [DecidableEq κ] [Fintype ν] [DecidableEq ν]

/-- `prs_excp_init`. -/
def St.init (next prev : ν → Option ν) (data : ν → δ) : St ι κ ν δ where
  handlers := .init next prev data
  pc := fun _ => .idle
  registered := fun _ => []
  asked := fun _ => []

/-- `prs_excp_process` with a handler that has returned, at a node. -/
def St.process (s : St ι κ ν δ) (j : κ) (n : ν) (r : Result) : St ι κ ν δ :=
  { s with
    pc := update s.pc j (if r = .forward then .walk (s.handlers.next n) else .done r false)
    asked := update s.asked j (s.asked j ++ [(s.handlers.data n, r)]) }

def St.step (s : St ι κ ν δ) : Act ι κ ν δ → Option (St ι κ ν δ)
  | .push i n d => (s.handlers.step (.push i n d)).map fun q => { s with handlers := q }
  | .load i => (s.handlers.step (.load i)).map fun q => { s with handlers := q }
  | .cas i b => (s.handlers.step (.cas i b)).map fun q => { s with handlers := q }
  | .raise j =>
    match s.pc j with
    | .walk _ => none
    | _ =>
      some { s with
        pc := update s.pc j (.walk s.handlers.head)
        registered := update s.registered j (s.handlers.order.map Prod.snd)
        asked := update s.asked j [] }
  | .call j r =>
    match s.pc j with
    | .walk (some n) =>
      if s.handlers.live n then some (s.process j n r) else some { s with handlers := s.handlers.fail }
    -- the default handler; `prs_exit_from_excp` when it forwards, too
    | .walk none => some { s with pc := update s.pc j (.done (if r = .forward then .exit else r) true) }
    | _ => none

/-- The threads of PRS, with any memory. -/
def sys (ι κ ν δ : Type) [DecidableEq κ] [DecidableEq ι] [Fintype ν] [DecidableEq ν] :
    System (St ι κ ν δ) (Act ι κ ν δ) where
  init s := ∃ next prev data, s = .init next prev data
  step := St.step

end Prs.Excp
