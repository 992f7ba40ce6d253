import Prs.Lib.System
import Prs.Model.PdWords

/-!
# Multi-producer multi-consumer queues one call at a time (`lib/ds/mpmcq.c`)

Any number of queues over one pointer directory, whose words are those of `Model/PdWords.lean`. A call runs to
its end before the next one starts. Nodes are in a heap: a pointer is an address, zero is null, and a node
that was freed is no longer there, so that an access to it has no result. Loops have fuel.
-/

namespace Prs.MpmcqSeq

open Function PdWords

/-- `struct prs_mpmcq_node`. Nothing reads its `id`. -/
structure Node (δ : Type) where
  next : ℕ
  consumed : Bool
  data : δ

/-- `struct prs_mpmcq_locked_node`. -/
structure Locked where
  node : ℕ
  id : ℕ

/-- `struct prs_mpmcq`. -/
structure Queue where
  head : ℕ
  tail : ℕ

structure St (κ δ : Type) where
  pd : Dir ℕ
  heap : ℕ → Option (Node δ)
  queue : κ → Queue

/-- The results of `prs_mpmcq_push` and `prs_mpmcq_pop`; `popped` is `PRS_OK` of a pop, with the data. -/
inductive Res (δ : Type)
  | ok
  | outOfMemory
  | popped (data : δ)
  | empty
  | unknown

variable {κ δ : Type} [DecidableEq κ]

/-- `prs_mpmcq_create`, over a directory that is there. -/
def St.create (pd : Dir ℕ) : St κ δ := ⟨pd, fun _ => none, fun _ => ⟨invalid, invalid⟩⟩

/-- `prs_mpmcq_lock`, with what `ptr` holds. -/
def St.lock (k : ℕ) (s : St κ δ) (id : ℕ) : Locked × St κ δ :=
  if id = invalid then (⟨0, id⟩, s) else (⟨(s.pd.lock k 0 id).1, id⟩, { s with pd := (s.pd.lock k 0 id).2 })

/-- `prs_mpmcq_unlock`. -/
def St.unlock (k : ℕ) (s : St κ δ) (l : Locked) : St κ δ :=
  { s with
    pd := (s.pd.unlock k l.id).2
    heap := if (s.pd.unlock k l.id).1 then update s.heap l.node none else s.heap }

def St.setHead (s : St κ δ) (q : κ) (id : ℕ) : St κ δ :=
  { s with queue := update s.queue q { s.queue q with head := id } }

/-- The exchange of `tail` for `id`, if it is `expected`. -/
def St.casTail (s : St κ δ) (q : κ) (expected id : ℕ) : St κ δ :=
  if (s.queue q).tail = expected then { s with queue := update s.queue q { s.queue q with tail := id } } else s

def St.setNode (s : St κ δ) (addr : ℕ) (node : Node δ) : St κ δ :=
  { s with heap := update s.heap addr (some node) }

/-- The loop of `prs_mpmcq_push`. -/
def St.pushLoop (k : ℕ) (q : κ) (new : ℕ) : ℕ → St κ δ → Locked → Option (St κ δ)
  | 0, _, _ => none
  | fuel + 1, s, tail =>
    if tail.node = 0 then
      if (s.queue q).tail = tail.id then some ((s.casTail q tail.id new).setHead q new)
      else St.pushLoop k q new fuel (s.lock k (s.queue q).tail).2 (s.lock k (s.queue q).tail).1
    else
      match s.heap tail.node with
      | none => none
      | some node =>
        let next := (s.lock k node.next).1
        let s := (s.lock k node.next).2
        if next.node ≠ 0 then St.pushLoop k q new fuel ((s.casTail q tail.id next.id).unlock k tail) next
        else if node.next = next.id then
          -- linked to the last node
          some (((s.setNode tail.node { node with next := new }).unlock k tail).casTail q tail.id new)
        else
          let s := s.unlock k tail
          St.pushLoop k q new fuel (s.lock k (s.queue q).tail).2 (s.lock k (s.queue q).tail).1

/-- `prs_mpmcq_push`. `addr` is what `prs_pal_malloc_zero` returns. -/
def St.push (k fuel : ℕ) (s : St κ δ) (q : κ) (data : δ) (addr : ℕ) : Option (Res δ × St κ δ) :=
  if addr = 0 then some (.outOfMemory, s)
  else
    match s.pd.alloc k addr with
    | (none, pd) => some (.outOfMemory, { s with pd := pd })
    | (some id, pd) =>
      let s := ({ s with pd := pd } : St κ δ).setNode addr ⟨invalid, false, data⟩
      (St.pushLoop k q id fuel (s.lock k (s.queue q).tail).2 (s.lock k (s.queue q).tail).1).map fun s => (.ok, s)

/-- The loop of `prs_mpmcq_pop`. -/
def St.popLoop (k : ℕ) (q : κ) : ℕ → St κ δ → Locked → Option (Res δ × St κ δ)
  | 0, _, _ => none
  | fuel + 1, s, test =>
    if test.node = 0 then
      let head := (s.lock k (s.queue q).head).1
      let s := (s.lock k (s.queue q).head).2
      if head.id ≠ test.id then St.popLoop k q fuel s head else some (.unknown, s)
    else
      match s.heap test.node with
      | none => none
      | some node =>
        let s := s.setNode test.node { node with consumed := true }
        let next := (s.lock k node.next).1
        let s := (s.lock k node.next).2
        if next.node ≠ 0 then
          let s := if (s.queue q).head = test.id then (s.setHead q next.id).unlock k test else s
          if node.consumed then St.popLoop k q fuel (s.unlock k test) next
          else some (.popped node.data, (s.unlock k next).unlock k test)
        else some (if node.consumed then .empty else .popped node.data, s.unlock k test)

/-- `prs_mpmcq_pop`. -/
def St.pop (k fuel : ℕ) (s : St κ δ) (q : κ) : Option (Res δ × St κ δ) :=
  St.popLoop k q fuel (s.lock k (s.queue q).head).2 (s.lock k (s.queue q).head).1

/-- `prs_mpmcq_destroy`: pops until a result other than `PRS_OK`. -/
def St.destroy (k fuel : ℕ) (q : κ) : ℕ → St κ δ → Option (St κ δ)
  | 0, _ => none
  | n + 1, s =>
    match s.pop k fuel q with
    | some (.popped _, s) => St.destroy k fuel q n s
    | some (_, s) => some s
    | none => none

inductive Act (κ δ : Type)
  | push (q : κ) (data : δ) (addr : ℕ)
  | pop (q : κ)

/-- A call, with its result. The memory of a new node was not in use. -/
def St.exec (k fuel : ℕ) (s : St κ δ) : Act κ δ → Option (Res δ × St κ δ)
  | .push q data addr => if (s.heap addr).isNone then s.push k fuel q data addr else none
  | .pop q => s.pop k fuel q

/-- Queues over one new directory of `2 ^ k` entries. -/
def sys (k fuel : ℕ) (κ δ : Type) [DecidableEq κ] : System (St κ δ) (Act κ δ) where
  init s := s = .create (Dir.create 0)
  step s a := (s.exec k fuel a).map Prod.snd

/-- **What the queues are for**: lists, with what a push or a pop does to them. A push is refused when the
directory is full or no memory is left. -/
def fifo (lists : κ → List δ) (full : Bool) : Act κ δ → κ → List δ
  | .push q data addr => if full || addr == 0 then lists else update lists q (lists q ++ [data])
  | .pop q => update lists q (lists q).tail

end Prs.MpmcqSeq
