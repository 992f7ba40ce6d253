import Mathlib.Data.Fintype.Card
import Prs.Lib.Links
import Prs.Lib.System

/-!
# The multi-producer single-consumer queue with nodes of its own (`lib/ds/mpscq.c`)

`prs_mpscq_push` allocates a node, and `prs_mpscq_remove` frees it, so that an address comes back for another
element. Any number of producers push; one consumer walks the queue from the oldest node, takes nodes out and
destroys the queue. Each access to `head` is one step, with what follows it up to the next.

A node that is used while it is not allocated, and a loop that does not end, are failures of the consumer. A
producer uses the node that it has allocated, and no other.

The fields `order`, `snapshot` and `visited`, and the elements that producers have, are history.
-/

namespace Prs.Mpscq

open Function

/-- A producer in `prs_mpscq_push`, with its node and its element. The value it expects in `head` is in
`node->next`. -/
inductive Pc (ν δ : Type)
  | idle
  | load (n : ν) (d : δ)
  | cas (n : ν) (d : δ)
  deriving DecidableEq

structure St (ι ν δ : Type) where
  head : Option ν
  reverseTail : Option ν
  reverseHead : Option ν
  next : ν → Option ν
  prev : ν → Option ν
  data : ν → δ
  /-- The nodes that are allocated. -/
  live : ν → Bool
  pc : ι → Pc ν δ
  /-- The node that the consumer is about to remove after it has found it at `head`. -/
  removing : Option ν
  failed : Bool
  /-- The nodes whose push has succeeded and that have not been removed, with their elements, youngest first. -/
  order : List (ν × δ)
  cursor : Option ν
  /-- The consumer has done nothing but `prs_mpscq_next` since `prs_mpscq_begin`. -/
  walking : Bool
  /-- The elements of the queue when `prs_mpscq_begin` read `head`, oldest first. -/
  snapshot : List δ
  /-- The elements that the traversal has returned. -/
  visited : List δ

inductive Act (ι ν δ : Type)
  /-- `prs_pal_malloc` gives the producer a node. -/
  | push (i : ι) (n : ν) (d : δ)
  | load (i : ι)
  | cas (i : ι) (spurious : Bool)
  | begin
  | next
  | remove (n : ν)
  | removeCas (spurious : Bool)

variable {ι ν δ : Type} [DecidableEq ι] [DecidableEq ν]

/-- `prs_mpscq_create`. The nodes are memory with any contents. -/
def St.init (next prev : ν → Option ν) (data : ν → δ) : St ι ν δ where
  head := none
  reverseTail := none
  reverseHead := none
  next := next
  prev := prev
  data := data
  live := fun _ => false
  pc := fun _ => .idle
  removing := none
  failed := false
  order := []
  cursor := none
  walking := false
  snapshot := []
  visited := []

/-- The loop of `prs_mpscq_build_reverse` at `node`. -/
def buildLoop (live : ν → Bool) (next : ν → Option ν) (stop : Option ν) :
    ℕ → ν → (ν → Option ν) → Option ((ν → Option ν) × ν)
  | 0, _, _ => none
  | fuel + 1, node, prev =>
    if live node then
      match next node with
      | none => if stop = none then some (prev, node) else none
      | some x =>
        if live x then
          if stop = some x then some (update prev x (some node), node)
          else buildLoop live next stop fuel x (update prev x (some node))
        else none
    else none

variable [Fintype ν]

/-- `prs_mpscq_build_reverse`. A loop over more nodes than there are never ends. -/
def St.buildReverse (s : St ι ν δ) (head : Option ν) : Option (St ι ν δ) :=
  if head = s.reverseTail then some s
  else
    head.bind fun h => (buildLoop s.live s.next s.reverseTail (Fintype.card ν) h s.prev).map fun r =>
      { s with
        prev := r.1
        reverseHead := if s.reverseHead = none then some r.2 else s.reverseHead
        reverseTail := some h }

/-- The part of `prs_mpscq_remove` after `head` has been seen to. -/
def St.unlink (s : St ι ν δ) (node : ν) : Option (St ι ν δ) :=
  let prev := match s.next node with
    | some x => update s.prev x (s.prev node)
    | none => s.prev
  let next := match prev node with
    | some p => update s.next p (s.next node)
    | none => s.next
  if s.live node ∧ (∀ x, s.next node = some x → s.live x) ∧ (∀ p, prev node = some p → s.live p) then
    some { s with
      reverseHead := if s.reverseHead = some node then prev node else s.reverseHead
      reverseTail := if s.reverseTail = some node then next node else s.reverseTail
      next := next
      prev := prev
      -- `prs_pal_free`
      live := update s.live node false
      order := s.order.filter fun e => e.1 ≠ node
      removing := none
      cursor := none
      walking := false }
  else none

def St.fail (s : St ι ν δ) : St ι ν δ := { s with failed := true }

/-- The consumer is between two calls. -/
def St.Ready (s : St ι ν δ) : Prop := s.removing = none ∧ s.failed = false

instance (s : St ι ν δ) : Decidable s.Ready := inferInstanceAs (Decidable (_ ∧ _))

/-- `prs_mpscq_get_data` of the node that the traversal is at. -/
def St.visit (s : St ι ν δ) (n : Option ν) : St ι ν δ :=
  match n with
  | none => { s with cursor := none }
  | some n => if s.live n then { s with cursor := some n, visited := s.visited ++ [s.data n] } else s.fail

def St.step (s : St ι ν δ) : Act ι ν δ → Option (St ι ν δ)
  | .push i n d =>
    match s.pc i with
    | .idle =>
      if s.live n then none
      else
        some { s with
          live := update s.live n true
          prev := update s.prev n none
          data := update s.data n d
          pc := update s.pc i (.load n d) }
    | _ => none
  | .load i =>
    match s.pc i with
    | .load n d => some { s with next := update s.next n s.head, pc := update s.pc i (.cas n d) }
    | _ => none
  | .cas i spurious =>
    match s.pc i with
    | .cas n d =>
      -- a failure stores the value of `head` in `node->next`; a weak exchange may fail without a reason
      if s.head = s.next n ∧ spurious = false then
        some { s with head := some n, order := (n, d) :: s.order, pc := update s.pc i .idle }
      else some { s with next := update s.next n s.head }
    | _ => none
  | .begin =>
    if s.Ready then
      match s.buildReverse s.head with
      | some s' =>
        some ({ s' with walking := true, snapshot := (s.order.map Prod.snd).reverse, visited :=
          [] }.visit s'.reverseHead)
      | none => some s.fail
    else none
  | .next =>
    if s.Ready then s.cursor.map fun n => if s.live n then s.visit (s.prev n) else s.fail else none
  | .remove n =>
    if s.Ready ∧ n ∈ s.order.map Prod.fst then
      if s.head = some n then some { s with removing := some n, cursor := none, walking := false }
      else some (((s.buildReverse s.head).bind fun s' => s'.unlink n).getD s.fail)
    else none
  | .removeCas spurious =>
    s.removing.bind fun n =>
      if s.head = some n then
        if spurious then some s
        -- `head->next` is read before the exchange
        else if s.live n then some (({ s with head := s.next n }.unlink n).getD s.fail)
        else some s.fail
      else
        -- the exchange has stored the new head in the local one
        some (((s.buildReverse s.head).bind fun s' => s'.unlink n).getD s.fail)

/-- A queue with its producers and its consumer. -/
def sys (ι ν δ : Type) [DecidableEq ι] [Fintype ν] [DecidableEq ν] : System (St ι ν δ) (Act ι ν δ) where
  init s := ∃ next prev data, s = .init next prev data
  step := St.step

/-- `prs_mpscq_destroy` while nothing is pushed, up to the last `prs_pal_free`. -/
def St.destroy : ℕ → St ι ν δ → Option (St ι ν δ)
  | 0, _ => none
  | fuel + 1, s => do
    let s ← s.step .begin
    match s.reverseHead with
    | none => return s
    | some n =>
      let s ← s.step (.remove n)
      let s ← if s.removing = none then some s else s.step (.removeCas false)
      destroy fuel s

end Prs.Mpscq
