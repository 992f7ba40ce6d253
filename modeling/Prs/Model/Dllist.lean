import Mathlib.Data.Nat.Notation
import Mathlib.Logic.Function.Basic

/-!
# Doubly linked lists (`lib/ds/dllist.c`)

A node is the address that `prs_pal_malloc` returned for it, and a pointer to user data is an address as well.
-/

namespace Prs

open Function

/-- `struct prs_dllist`, with the fields of its nodes. -/
structure Dllist where
  next : ℕ → Option ℕ
  prev : ℕ → Option ℕ
  data : ℕ → ℕ
  head : Option ℕ
  tail : Option ℕ
  size : ℕ

namespace Dllist

/-- The `prs_result_t` of the calls. -/
inductive Result
  | ok
  | outOfMemory
  | unknown
  deriving DecidableEq

/-- `node->next = next`, unless the node is null. -/
def setNext (l : Dllist) (node next : Option ℕ) : Dllist :=
  match node with
  | some node => { l with next := update l.next node next }
  | none => l

def setPrev (l : Dllist) (node prev : Option ℕ) : Dllist :=
  match node with
  | some node => { l with prev := update l.prev node prev }
  | none => l

/-- `prs_dllist_create`. -/
def create : Dllist := ⟨fun _ => none, fun _ => none, fun _ => 0, none, none, 0⟩

/-- `before ? before->prev : dllist->tail`. -/
def prevOf (l : Dllist) (before : Option ℕ) : Option ℕ :=
  match before with
  | some before => l.prev before
  | none => l.tail

/-- `prs_dllist_insert_before`, with what `prs_pal_malloc` returns. -/
def insertBefore (l : Dllist) (malloc before : Option ℕ) (data : ℕ) : Result × Dllist :=
  match malloc with
  | none => (.outOfMemory, l)
  | some node =>
    let next := before
    let prev := l.prevOf before
    let l := { l with data := update l.data node data }
    let l := l.setNext (some node) next
    let l := l.setPrev (some node) prev
    let l := l.setPrev next (some node)
    let l := l.setNext prev (some node)
    (.ok,
      { l with
        head := if next = l.head then some node else l.head
        tail := if prev = l.tail then some node else l.tail
        size := l.size + 1 })

/-- `prs_dllist_remove`. -/
def remove (l : Dllist) (node : ℕ) : Dllist :=
  let next := l.next node
  let prev := l.prev node
  let l := l.setPrev next prev
  let l := l.setNext prev next
  { l with
    head := if some node = l.head then next else l.head
    tail := if some node = l.tail then prev else l.tail
    size := l.size - 1 }

/-- `prs_dllist_begin`. -/
def begin (l : Dllist) : Option ℕ := l.head

/-- `prs_dllist_foreach`, with the data of at most `n` nodes. -/
def foreach (l : Dllist) : ℕ → Option ℕ → List ℕ
  | n + 1, some node => l.data node :: l.foreach n (l.next node)
  | _, _ => []

/-- The elements of the list. -/
def elements (l : Dllist) : List ℕ := l.foreach l.size l.begin

end Dllist

end Prs
