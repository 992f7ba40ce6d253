import Mathlib.Data.Fintype.Card
import Prs.Lib.Links
import Prs.Lib.System

/-!
# The intrusive multi-producer single-consumer queue (`lib/ds/mpsciq.c`)

Any number of producers push nodes on the list that starts at `head`; one consumer walks it from the oldest
node and takes nodes out. Each access to `head` is one step. What the consumer does after it has read `head`
touches only nodes that no producer writes to any more, and is part of that step.

A node that has been taken out may be pushed again. The fields of the state below `hung` are history, except for
`cursor`, which is where the consumer's traversal is.
-/

namespace Prs.Mpsciq

open Function

/-- A producer in `prs_mpsciq_push`. The value it expects in `head` is in `node->next`. -/
inductive Pc (ν : Type)
  | idle
  | load (n : ν)
  | cas (n : ν)
  deriving DecidableEq

structure St (ι ν : Type) where
  head : Option ν
  reverseTail : Option ν
  reverseHead : Option ν
  next : ν → Option ν
  prev : ν → Option ν
  pc : ι → Pc ν
  /-- The node that the consumer is about to remove after it has found it at `head`. -/
  removing : Option ν
  /-- A loop of the consumer did not end. -/
  hung : Bool
  /-- Nodes whose push has succeeded and that have not been unlinked, youngest first. -/
  order : List ν
  cursor : Option ν
  /-- The consumer has done nothing but `prs_mpsciq_next` since `prs_mpsciq_begin`. -/
  walking : Bool
  /-- The nodes of the queue when `prs_mpsciq_begin` read `head`, oldest first. -/
  snapshot : List ν
  /-- The nodes that the traversal has returned. -/
  visited : List ν

inductive Act (ι ν : Type)
  | push (i : ι) (n : ν)
  | load (i : ι)
  | cas (i : ι) (spurious : Bool)
  | begin
  | next
  | remove (n : ν)
  | removeCas

variable {ι ν : Type} [DecidableEq ι] [DecidableEq ν]

/-- `prs_mpsciq_create`. Every node has null links. -/
def St.init : St ι ν where
  head := none
  reverseTail := none
  reverseHead := none
  next := fun _ => none
  prev := fun _ => none
  pc := fun _ => .idle
  removing := none
  hung := false
  order := []
  cursor := none
  walking := false
  snapshot := []
  visited := []

/-- The loop of `prs_mpsciq_build_reverse` at `node`: set the back links up to `stop` and return them with the
last `prev`. It is `none` if the loop runs into null before `stop`, or does not end within the fuel. -/
def buildLoop (next : ν → Option ν) (stop : Option ν) : ℕ → ν → (ν → Option ν) → Option ((ν → Option ν) × ν)
  | 0, _, _ => none
  | fuel + 1, node, prev =>
    match next node with
    | none => if stop = none then some (prev, node) else none
    | some x =>
      if stop = some x then some (update prev x (some node), node)
      else buildLoop next stop fuel x (update prev x (some node))

variable [Fintype ν]

/-- `prs_mpsciq_build_reverse`. A loop over more nodes than there are never ends. -/
def St.buildReverse (s : St ι ν) (head : Option ν) : Option (St ι ν) :=
  if head = s.reverseTail then some s
  else
    head.bind fun h => (buildLoop s.next s.reverseTail (Fintype.card ν) h s.prev).map fun r =>
      { s with
        prev := r.1
        reverseHead := if s.reverseHead = none then some r.2 else s.reverseHead
        reverseTail := some h }

/-- The part of `prs_mpsciq_remove` after `head` has been seen to. -/
def St.unlink (s : St ι ν) (node : ν) : St ι ν :=
  let prev := match s.next node with
    | some x => update s.prev x (s.prev node)
    | none => s.prev
  let next := match prev node with
    | some p => update s.next p (s.next node)
    | none => s.next
  { s with
    reverseHead := if s.reverseHead = some node then prev node else s.reverseHead
    reverseTail := if s.reverseTail = some node then next node else s.reverseTail
    next := update next node none
    prev := update prev node none
    order := s.order.erase node
    removing := none
    cursor := none
    walking := false }

/-- The consumer's loop did not end. -/
def St.hang (s : St ι ν) : St ι ν := { s with hung := true }

/-- A node that may be pushed: in no queue, with null links. -/
def St.Free (s : St ι ν) (n : ν) : Prop :=
  n ∉ s.order ∧ s.next n = none ∧ s.prev n = none ∧ ∀ j, s.pc j ≠ .load n ∧ s.pc j ≠ .cas n

/-- The consumer is between two calls. -/
def St.Ready (s : St ι ν) : Prop := s.removing = none ∧ s.hung = false

instance [Fintype ι] (s : St ι ν) (n : ν) : Decidable (s.Free n) := inferInstanceAs (Decidable (_ ∧ _))

instance (s : St ι ν) : Decidable s.Ready := inferInstanceAs (Decidable (_ ∧ _))

def St.step [Fintype ι] (s : St ι ν) : Act ι ν → Option (St ι ν)
  | .push i n =>
    if s.pc i = .idle ∧ s.Free n then some { s with pc := update s.pc i (.load n) } else none
  | .load i =>
    match s.pc i with
    | .load n => some { s with next := update s.next n s.head, pc := update s.pc i (.cas n) }
    | _ => none
  | .cas i spurious =>
    match s.pc i with
    | .cas n =>
      -- a failure stores the value of `head` in `node->next`; a weak exchange may fail without a reason
      if s.head = s.next n ∧ spurious = false then
        some { s with head := some n, order := n :: s.order, pc := update s.pc i .idle }
      else some { s with next := update s.next n s.head }
    | _ => none
  | .begin =>
    if s.Ready then
      match s.buildReverse s.head with
      | some s' =>
        some { s' with
          cursor := s'.reverseHead, walking := true
          snapshot := s.order.reverse, visited := s'.reverseHead.toList }
      | none => some s.hang
    else none
  | .next =>
    if s.Ready then
      s.cursor.map fun n => { s with cursor := s.prev n, visited := s.visited ++ (s.prev n).toList }
    else none
  | .remove n =>
    if s.Ready ∧ n ∈ s.order then
      if s.head = some n then some { s with removing := some n, cursor := none, walking := false }
      else
        match s.buildReverse s.head with
        | some s' => some (s'.unlink n)
        | none => some s.hang
    else none
  | .removeCas =>
    s.removing.bind fun n =>
      if s.head = some n then some ({ s with head := s.next n }.unlink n)
      else
        -- the exchange has stored the new head in the local one
        match s.buildReverse s.head with
        | some s' => some (s'.unlink n)
        | none => some s.hang

/-- A queue with its producers and its consumer. -/
def sys (ι ν : Type) [Fintype ι] [DecidableEq ι] [Fintype ν] [DecidableEq ν] : System (St ι ν) (Act ι ν) where
  init s := s = .init
  step := St.step

end Prs.Mpsciq
