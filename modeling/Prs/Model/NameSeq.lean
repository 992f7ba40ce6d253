import Prs.Model.GodSeq
import Prs.Model.Name

/-!
# The name resolver one call at a time (`name.c`)

The hash is that of `Model/Name.lean`, and objects are in the directory of `Model/GodSeq.lean`. A call runs to
its end before the next one starts. The list of an entry is given by the ids in its nodes, in their order;
`PRS_OBJECT_ID_INVALID` is the id of a node that was freed.
-/

namespace Prs.NameSeq

open Function GodSeq

/-- An object, with the string at `string_offset`: its bytes before the zero. -/
structure Object where
  name : List (BitVec 8)
  deriving DecidableEq

/-- What `prs_name_alloc` and `prs_name_free` return. -/
inductive Res
  | ok
  | alreadyExists
  | notFound
  deriving DecidableEq

structure St where
  god : Dir Object
  list : ℕ → List ℕ

/-- `prs_name_get_entry`, in a table of `m` entries. -/
def entry (m : ℕ) (key : List (BitVec 8)) : ℕ := (Name.hash key).toNat % m

/-- `prs_name_create`, over a new directory. -/
def St.create : St := ⟨.create, fun _ => []⟩

/-- The loop of `prs_name_alloc`. -/
def allocLoop (id : ℕ) : List ℕ → Res × List ℕ
  | [] => (.ok, [id])
  | x :: xs =>
    if x = id then (.alreadyExists, x :: xs)
    else if x = invalid then (.ok, id :: xs)
    else ((allocLoop id xs).1, x :: (allocLoop id xs).2)

/-- `prs_name_alloc`. -/
def St.alloc (k m : ℕ) (s : St) (id : ℕ) : Res × St :=
  match s.god.lock k id with
  | (none, god) => (.notFound, { s with god := god })
  | (some object, god) =>
    let e := entry m object.name
    let r := allocLoop id (s.list e)
    (r.1, { god := (god.unlock k id).2, list := update s.list e r.2 })

/-- The loop of `prs_name_free`. -/
def freeLoop (id : ℕ) : List ℕ → Res × List ℕ
  | [] => (.notFound, [])
  | x :: xs => if x = id then (.ok, invalid :: xs) else ((freeLoop id xs).1, x :: (freeLoop id xs).2)

/-- `prs_name_free`. -/
def St.free (k m : ℕ) (s : St) (id : ℕ) : Res × St :=
  match s.god.lock k id with
  | (none, god) => (.notFound, { s with god := god })
  | (some object, god) =>
    let e := entry m object.name
    let r := freeLoop id (s.list e)
    (r.1, { god := (god.unlock k id).2, list := update s.list e r.2 })

/-- The loop of `prs_name_find_internal`. -/
def findLoop (k : ℕ) (key : List (BitVec 8)) (keepLocked : Bool) : List ℕ → Dir Object → ℕ × Dir Object
  | [], god => (invalid, god)
  | x :: xs, god =>
    if x ≠ invalid then
      match god.lock k x with
      | (some object, god) =>
        let found := decide (object.name = key)
        let god := if !found || !keepLocked then (god.unlock k x).2 else god
        if found then (x, god) else findLoop k key keepLocked xs god
      | (none, god) => findLoop k key keepLocked xs god
    else findLoop k key keepLocked xs god

/-- `prs_name_find_internal`. -/
def St.findInternal (k m : ℕ) (s : St) (key : List (BitVec 8)) (keepLocked : Bool) : ℕ × St :=
  let r := findLoop k key keepLocked (s.list (entry m key)) s.god
  (r.1, { s with god := r.2 })

/-- `prs_name_find`. -/
def St.find (k m : ℕ) (s : St) (key : List (BitVec 8)) : ℕ × St := s.findInternal k m key false

/-- `prs_name_find_and_lock`. -/
def St.findAndLock (k m : ℕ) (s : St) (key : List (BitVec 8)) : ℕ × St := s.findInternal k m key true

/-- The calls: those of the directory, and those of the table. -/
inductive Act
  | god (a : GodSeq.Act Object)
  | alloc (id : ℕ)
  | free (id : ℕ)
  | find (key : List (BitVec 8))
  | findAndLock (key : List (BitVec 8))

def St.exec (k m : ℕ) (s : St) : Act → St
  | .god a => { s with god := s.god.exec k a }
  | .alloc id => (s.alloc k m id).2
  | .free id => (s.free k m id).2
  | .find key => (s.find k m key).2
  | .findAndLock key => (s.findAndLock k m key).2

/-- A table of `m` entries over a directory of `2 ^ k` entries. -/
def sys (k m : ℕ) : System St Act where
  init s := s = .create
  step s a := some (s.exec k m a)

end Prs.NameSeq
