import Prs.Lib.System
import Mathlib.Data.Nat.Notation
import Mathlib.Logic.Function.Basic

/-!
# The name resolver (`name.c`)

A hash table of lists. A node of a list has the id of an object, or `PRS_OBJECT_ID_INVALID` when it is free to
be used again; nodes are only ever added, at the end of their list. Threads register and free ids; each access
to a list, to a `next` or to an `object_id` is one step. The fields of the state from `slot` on are history:
which registration a node has, and what the calls of `prs_name_free` that returned `PRS_OK` have erased.
-/

namespace Prs.Name

open Function

/-- `PRS_OBJECT_ID_INVALID`. -/
def invalid : ℕ := 0

/-- `prs_name_hash`. A `char` is signed. -/
def hash (key : List (BitVec 8)) : BitVec 32 :=
  key.foldl (fun hash p => (p.signExtend 32 ^^^ hash) * 0x01000193#32) 0x811C9DC5#32

/-- What the table is made for: its number of entries, and the string of an object. -/
structure Table where
  maxEntries : ℕ
  key : ℕ → List (BitVec 8)

/-- `prs_name_get_entry`. -/
def Table.entry (T : Table) (id : ℕ) : ℕ := (hash (T.key id)).toNat % T.maxEntries

/-- A place that has the address of a node: the list of an entry, or `next` of a node. -/
inductive Ptr
  | list (entry : ℕ)
  | next (node : ℕ)
  deriving DecidableEq

/-- A thread. It is before the access to memory that the name says. -/
inductive Pc
  | idle
  | allocLoad (id : ℕ) (ptr : Ptr) (new : Option ℕ)
  | allocId (id : ℕ) (ptr : Ptr) (new : Option ℕ) (node : ℕ)
  | allocCas (id : ℕ) (ptr : Ptr) (new : Option ℕ) (node : ℕ)
  | allocLink (id : ℕ) (ptr : Ptr) (new : ℕ)
  | freeLoad (id : ℕ) (ptr : Ptr)
  | freeId (id node : ℕ)
  | freeStore (id node : ℕ)
  deriving DecidableEq

structure St (ι : Type) where
  /-- The address in a place. -/
  link : Ptr → Option ℕ
  objectId : ℕ → ℕ
  /-- The nodes below are allocated. -/
  nodes : ℕ
  pc : ι → Pc
  /-- The registration that a node has. -/
  slot : ℕ → Option ℕ
  /-- How many times an id was registered. -/
  registered : ℕ
  /-- The id of a registration. -/
  regId : ℕ → ℕ
  /-- The calls of `prs_name_free` that found their id: the id, and the registration that the store has erased. -/
  freed : List (ℕ × Option ℕ)

/-- `found` is whether `prs_god_lock` returns the object. -/
inductive Act (ι : Type)
  | alloc (j : ι) (id : ℕ) (found : Bool)
  | free (j : ι) (id : ℕ) (found : Bool)
  | step (j : ι)

/-- `prs_name_create`. -/
def St.init {ι : Type} : St ι where
  link := fun _ => none
  objectId := fun _ => invalid
  nodes := 0
  pc := fun _ => .idle
  slot := fun _ => none
  registered := 0
  regId := fun _ => invalid
  freed := []

variable {ι : Type} [DecidableEq ι]

def St.goto (s : St ι) (j : ι) (p : Pc) : St ι := { s with pc := update s.pc j p }

/-- `id` is registered in `node`. -/
def St.register (s : St ι) (node id : ℕ) : St ι :=
  { s with
    slot := update s.slot node (some s.registered)
    registered := s.registered + 1
    regId := update s.regId s.registered id }

/-- A step of thread `j`. -/
def St.stepThread (s : St ι) (j : ι) : Option (St ι) :=
  match s.pc j with
  | .idle => none
  | .allocLoad id ptr new =>
    match s.link ptr with
    | some node => some (s.goto j (.allocId id ptr new node))
    | none =>
      match new with
      | some node => some (s.goto j (.allocLink id ptr node))
      | none =>
        -- the new node is not shared yet: its stores are part of the step
        some { s with
          link := update s.link (.next s.nodes) none
          objectId := update s.objectId s.nodes id
          nodes := s.nodes + 1
          pc := update s.pc j (.allocLink id ptr s.nodes) }
  | .allocId id ptr new node =>
    if s.objectId node = id then some (s.goto j .idle)
    else if s.objectId node = invalid then some (s.goto j (.allocCas id ptr new node))
    else some (s.goto j (.allocLoad id (.next node) new))
  | .allocCas id ptr new node =>
    if s.objectId node = invalid then
      some (({ s with objectId := update s.objectId node id, pc := update s.pc j .idle } : St ι).register node id)
    else some (s.goto j (.allocLoad id ptr new))
  | .allocLink id ptr new =>
    if s.link ptr = none then
      some (({ s with link := update s.link ptr (some new), pc := update s.pc j .idle } : St ι).register new id)
    else some (s.goto j (.allocLoad id ptr (some new)))
  | .freeLoad id ptr =>
    match s.link ptr with
    | some node => some (s.goto j (.freeId id node))
    | none => some (s.goto j .idle)
  | .freeId id node =>
    if s.objectId node = id then some (s.goto j (.freeStore id node))
    else some (s.goto j (.freeLoad id (.next node)))
  | .freeStore id node =>
    some { s with
      objectId := update s.objectId node invalid
      pc := update s.pc j .idle
      slot := update s.slot node none
      freed := (id, s.slot node) :: s.freed }

/-- An id that is passed to the table is valid. -/
def St.step (T : Table) (s : St ι) : Act ι → Option (St ι)
  | .alloc j id found =>
    if s.pc j = .idle ∧ id ≠ invalid then
      some (if found then s.goto j (.allocLoad id (.list (T.entry id)) none) else s)
    else none
  | .free j id found =>
    if s.pc j = .idle ∧ id ≠ invalid then
      some (if found then s.goto j (.freeLoad id (.list (T.entry id))) else s)
    else none
  | .step j => s.stepThread j

/-- A table with any number of threads that register and free ids. -/
def sys (T : Table) (ι : Type) [DecidableEq ι] : System (St ι) (Act ι) where
  init s := s = .init
  step := St.step T

end Prs.Name
