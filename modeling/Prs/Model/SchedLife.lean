import Mathlib.Data.Nat.Basic

/-!
# The life of a scheduler object (`prs_sched_create`, `prs_sched_destroy`)

One scheduler is created, and destroyed if that has worked. Its block has two owners: `sched.c`, and the GOD,
which frees it with `prs_sched_object_free` when the last reference is dropped. Every step that can fail is an
input.
-/

namespace Prs.SchedLife

/-- Which of the inner steps of `prs_sched_create` succeed. -/
structure Outcomes where
  malloc : Bool
  dllist : Bool
  god : Bool
  name : Bool
  init : Bool

structure St where
  /-- How often the block was allocated and freed. -/
  allocs : ℕ
  frees : ℕ
  /-- The block was accessed after it was freed. -/
  touched : Bool
  /-- The reference count in the GOD, when the ID has an entry. -/
  refcnt : Option ℕ
  deriving DecidableEq

def St.start : St := ⟨0, 0, false, none⟩

/-- `prs_pal_malloc_zero`. -/
def St.malloc (s : St) : St := { s with allocs := s.allocs + 1 }

/-- `prs_pal_free`. -/
def St.free (s : St) : St := { s with frees := s.frees + 1 }

/-- The block is accessed. -/
def St.touch (s : St) : St := { s with touched := s.touched || decide (0 < s.frees) }

/-- `prs_god_alloc_and_lock`. -/
def St.godAlloc (s : St) : St := { s with refcnt := some 1 }

/-- `prs_god_lock`. -/
def St.godLock (s : St) : St := { s with refcnt := s.refcnt.map (· + 1) }

/-- `prs_god_unlock`, with `prs_god_free` for the last reference. -/
def St.godUnlock (s : St) : St :=
  match s.refcnt with
  | none => s
  | some 0 => s
  | some 1 => { s.free with refcnt := none }
  | some (n + 2) => { s with refcnt := some (n + 1) }

/-- `prs_name_alloc`, which looks at the name of the object. -/
def St.nameAlloc (s : St) : St := if s.refcnt.isSome then s.godLock.touch.godUnlock else s

/-- `prs_name_free`. -/
def St.nameFree (s : St) : St := if s.refcnt.isSome then s.godLock.touch.godUnlock else s

/-- The cleanup of `prs_sched_create`; `registered` is whether the object has an ID. -/
def St.cleanup (s : St) (registered : Bool) : St :=
  let s := s.touch
  let s := if registered then s.nameFree.godUnlock else s
  s.touch.free

/-- `prs_sched_create`: whether it succeeds, and the state. -/
def create (o : Outcomes) : Bool × St :=
  let s := St.start
  if !o.malloc then (false, s)
  else
    let s := s.malloc.touch
    if !o.dllist then (false, s.cleanup false)
    else
      let s := s.touch
      if !o.god then (false, s.cleanup false)
      else
        let s := s.godAlloc.touch.nameAlloc
        if !o.name then (false, s.cleanup true)
        else
          let s := s.touch
          if !o.init then (false, s.cleanup true) else (true, s.touch)

/-- `prs_sched_destroy`. -/
def St.destroy (s : St) : St :=
  if s.refcnt.isSome then
    let s := s.godLock.touch
    s.nameFree.godUnlock.touch.free
  else s

/-- The scheduler is created, and destroyed if that has worked. -/
def life (o : Outcomes) : St :=
  if (create o).1 then (create o).2.destroy else (create o).2

end Prs.SchedLife
