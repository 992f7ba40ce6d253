import Mathlib.Data.Nat.Notation
import Mathlib.Logic.Function.Basic
import Prs.Lib.System

/-!
# Intrusive doubly linked lists (`lib/ds/idllist.c`)

A node is a part of an element, so that it has links whether it is in a list or not, and it can move from one
list to another. `ι` names the lists, and a node is an address.

`sys` is any sequence of calls on lists that were created and nodes whose memory is zero. Its state has the
sequences that the callers mean next to the memory: a call is made for a node in no list, before a node of the
list, or for a node of the list. The sequences are not read by the calls.
-/

namespace Prs

open Function

/-- The lists and all the nodes. The field `list` of a node is there with `DEBUG` only. -/
structure Idllist (ι : Type) where
  next : ℕ → Option ℕ
  prev : ℕ → Option ℕ
  list : ℕ → Option ι
  head : ι → Option ℕ
  tail : ι → Option ℕ
  size : ι → ℕ

namespace Idllist

/-- `DEBUG` and `PRS_RUN_TIME_CHECKING`. -/
structure Build where
  debug : Bool
  checks : Bool

variable {ι : Type} [DecidableEq ι]

/-- Lists after `prs_idllist_create`, and nodes that are zero. -/
def create : Idllist ι := ⟨fun _ => none, fun _ => none, fun _ => none, fun _ => none, fun _ => none, fun _ => 0⟩

/-- `node->next = next`, unless the node is null. -/
def setNext (s : Idllist ι) (node next : Option ℕ) : Idllist ι :=
  match node with
  | some node => { s with next := update s.next node next }
  | none => s

def setPrev (s : Idllist ι) (node prev : Option ℕ) : Idllist ι :=
  match node with
  | some node => { s with prev := update s.prev node prev }
  | none => s

/-- `node->list = list`, with `DEBUG`. -/
def setList (s : Idllist ι) (b : Build) (node : ℕ) (list : Option ι) : Idllist ι :=
  if b.debug then { s with list := update s.list node list } else s

/-- `before ? before->prev : idllist->tail`. -/
def prevOf (s : Idllist ι) (idllist : ι) (before : Option ℕ) : Option ℕ :=
  match before with
  | some before => s.prev before
  | none => s.tail idllist

/-- The conditions under which `prs_idllist_insert_before` returns at once. -/
def insertRefused (s : Idllist ι) (b : Build) (idllist : ι) (before : Option ℕ) (node : ℕ) : Bool :=
  (s.next node).isSome || (s.prev node).isSome ||
    b.debug && (before.any (fun before => s.list before != some idllist) || (s.list node).isSome)

/-- `prs_idllist_insert_before`. -/
def insertBefore (s : Idllist ι) (b : Build) (idllist : ι) (before : Option ℕ) (node : ℕ) : Idllist ι :=
  if b.checks && s.insertRefused b idllist before node then s
  else
    let next := before
    let prev := s.prevOf idllist before
    let s := s.setNext (some node) next
    let s := s.setPrev (some node) prev
    let s := s.setList b node (some idllist)
    let s := s.setPrev next (some node)
    let s := s.setNext prev (some node)
    { s with
      head := if next = s.head idllist then update s.head idllist (some node) else s.head
      tail := if prev = s.tail idllist then update s.tail idllist (some node) else s.tail
      size := update s.size idllist (s.size idllist + 1) }

/-- The conditions under which `prs_idllist_remove` returns at once. -/
def removeRefused (s : Idllist ι) (b : Build) (idllist : ι) (node : ℕ) : Bool :=
  b.debug && ((s.list node).isNone || s.list node != some idllist)

/-- `prs_idllist_remove`. -/
def remove (s : Idllist ι) (b : Build) (idllist : ι) (node : ℕ) : Idllist ι :=
  let next := s.next node
  let prev := s.prev node
  if b.checks && s.removeRefused b idllist node then s
  else
    let s := s.setPrev next prev
    let s := s.setNext prev next
    let s := { s with
      head := if some node = s.head idllist then update s.head idllist next else s.head
      tail := if some node = s.tail idllist then update s.tail idllist prev else s.tail }
    let s := s.setNext (some node) none
    let s := s.setPrev (some node) none
    let s := s.setList b node none
    { s with size := update s.size idllist (s.size idllist - 1) }

/-- `prs_idllist_begin`. -/
def begin (s : Idllist ι) (idllist : ι) : Option ℕ := s.head idllist

/-- `prs_idllist_empty`. -/
def empty (s : Idllist ι) (idllist : ι) : Bool := s.size idllist == 0

/-- The loop of `prs_idllist_is_inserted` from a node on, for `n` nodes at most. -/
def search (s : Idllist ι) (node : ℕ) : ℕ → Option ℕ → Option Bool
  | _, none => some false
  | 0, some _ => none
  | n + 1, some x => if x = node then some true else s.search node n (s.next x)

/-- `prs_idllist_is_inserted`. It has no result after `n` nodes. -/
def isInserted (s : Idllist ι) (n : ℕ) (idllist : ι) (node : ℕ) : Option Bool := s.search node n (s.begin idllist)

/-- The loop of `prs_timer_tick` that moves the nodes of a list to `timer->tmp_list`, for `n` nodes at most. -/
def moveAll (b : Build) (list tmpList : ι) : ℕ → Idllist ι → Option (Idllist ι)
  | n, s =>
    match s.begin list, n with
    | none, _ => some s
    | some _, 0 => none
    | some node, n + 1 => moveAll b list tmpList n ((s.remove b list node).insertBefore b tmpList none node)

/-! ## The sequences -/

/-- A sequence with `node` in front of `x`. -/
def putBefore (x node : ℕ) : List ℕ → List ℕ
  | [] => []
  | a :: l => if a = x then node :: a :: l else a :: putBefore x node l

/-- A sequence with `node` where an insertion before `before` puts it. -/
def put (before : Option ℕ) (node : ℕ) (l : List ℕ) : List ℕ :=
  match before with
  | some x => putBefore x node l
  | none => l ++ [node]

inductive Act (ι : Type)
  | insertBefore (idllist : ι) (before : Option ℕ) (node : ℕ)
  | remove (idllist : ι) (node : ℕ)

/-- A call on the memory, and what it means for the sequences. -/
def step (b : Build) (p : Idllist ι × (ι → List ℕ)) : Act ι → Option (Idllist ι × (ι → List ℕ))
  | .insertBefore i before node => some (p.1.insertBefore b i before node, update p.2 i (put before node (p.2 i)))
  | .remove i node => some (p.1.remove b i node, update p.2 i ((p.2 i).erase node))

/-- The calls that are allowed. -/
def Allowed (p : Idllist ι × (ι → List ℕ)) : Act ι → Prop
  | .insertBefore i before node => (∀ x, before = some x → x ∈ p.2 i) ∧ ∀ j, node ∉ p.2 j
  | .remove i node => node ∈ p.2 i

/-- Calls in any order on any lists. -/
def sys (b : Build) : System (Idllist ι × (ι → List ℕ)) (Act ι) where
  init p := p = (create, fun _ => [])
  step := step b

end Idllist

end Prs
