import Prs.Lib.System
import Prs.Lib.Threads
import Prs.Model.Pd
import Prs.Model.PdWords

/-!
# The pointer directory, step by step (`lib/ds/pd.c`)

Threads in `prs_pd_alloc_and_lock`, `prs_pd_lock` and `prs_pd_unlock`, in a table of `2 ^ k` entries. Each
access to `write_index`, to a header or to the pointer of an entry is one step. The words are those of
`Prs.Model.PdWords`.

A thread releases only references that it has. The fields of the state from `log` on, and the references of a
thread, are history: `log` has the calls in the order in which they take effect, the last one first, as
operations of the atomic directory of `Prs.Model.Pd`.
-/

namespace Prs.PdSteps

open Function
open PdWords (getId getRefcnt refcntMax invalid first incr decr)

/-- A thread. It is before the access to memory that the name says. -/
inductive Pc (P : Type)
  | idle
  | allocLoad (ptr : P)
  | allocHeader (ptr : P) (i stop : ℕ)
  | allocCas (ptr : P) (i stop header : ℕ)
  | allocIndex (ptr : P) (i : ℕ)
  | allocPtr (ptr : P) (i : ℕ)
  | lockLoad (id : ℕ)
  | lockCas (id header : ℕ)
  | lockPtr (id : ℕ)
  | unlockLoad (id : ℕ)
  | unlockCas (id header : ℕ)
  deriving DecidableEq

structure Thread (P : Type) where
  pc : Pc P
  /-- The ids of the references that it has obtained and not released. -/
  refs : List ℕ

/-- An operation of the atomic directory, with its result. -/
inductive Event
  | alloc (id : ℕ)
  | lock (id : ℕ)
  | lockFailed (id : ℕ)
  | unlock (id : ℕ) (last : Bool)
  | unlockFailed (id : ℕ)
  deriving DecidableEq

structure St (ι P : Type) where
  header : ℕ → ℕ
  ptr : ℕ → P
  writeIndex : ℕ
  thread : ι → Thread P
  log : List Event
  /-- The ids that `prs_pd_alloc_and_lock` has returned, with the pointers, latest first. -/
  returned : List (ℕ × P)
  /-- The ids with which `prs_pd_lock` has succeeded, with the pointers returned. -/
  locked : List (ℕ × P)

/-- A weak exchange may fail without a reason (`spurious`). -/
inductive Act (ι P : Type)
  | alloc (j : ι) (ptr : P)
  | lock (j : ι) (id : ℕ)
  | unlock (j : ι) (id : ℕ)
  | step (j : ι) (spurious : Bool)

variable {ι P : Type}

/-- `prs_pd_create`. -/
def St.init (null : P) : St ι P where
  header := fun _ => 0
  ptr := fun _ => null
  writeIndex := 1
  thread := fun _ => ⟨.idle, []⟩
  log := []
  returned := []
  locked := []

/-- The head of the loop in `prs_pd_alloc_and_lock`. -/
def Pc.probe (ptr : P) (i stop : ℕ) : Pc P := if i < stop then .allocHeader ptr i stop else .idle

/-- `i + 1` of a `prs_pd_index_t`. -/
def succ (i : ℕ) : ℕ := (i + 1) % 2 ^ 64

variable [DecidableEq ι]

def St.goto (s : St ι P) (j : ι) (pc : Pc P) : St ι P :=
  { s with thread := update s.thread j { s.thread j with pc := pc } }

/-- The checks of the loop in `prs_pd_lock`. -/
def St.checkLock (s : St ι P) (j : ι) (id header : ℕ) : St ι P :=
  if getId header ≠ id ∨ getRefcnt header = 0 ∨ getRefcnt header = refcntMax then
    { s.goto j .idle with log := .lockFailed id :: s.log }
  else s.goto j (.lockCas id header)

/-- The checks of the loop in `prs_pd_unlock`. -/
def St.checkUnlock (s : St ι P) (j : ι) (id header : ℕ) : St ι P :=
  if getId header ≠ id ∨ getRefcnt header = 0 then { s.goto j .idle with log := .unlockFailed id :: s.log }
  else s.goto j (.unlockCas id header)

/-- A step of thread `j`. -/
def St.stepThread (k : ℕ) (s : St ι P) (j : ι) (spurious : Bool) : Option (St ι P) :=
  match (s.thread j).pc with
  | .idle => none
  | .allocLoad ptr => some (s.goto j (.probe ptr s.writeIndex ((s.writeIndex + 2 ^ k) % 2 ^ 64)))
  | .allocHeader ptr i stop =>
    let header := s.header (i % 2 ^ k)
    if getRefcnt header ≠ 0 then some (s.goto j (.probe ptr (succ i) stop))
    else if getId header = i then some (s.goto j (.probe ptr (succ i) stop))
    else some (s.goto j (.allocCas ptr i stop header))
  | .allocCas ptr i stop header =>
    if s.header (i % 2 ^ k) = header then
      some { s.goto j (.allocIndex ptr i) with
        header := update s.header (i % 2 ^ k) (first i)
        log := .alloc i :: s.log }
    else some (s.goto j (.probe ptr (succ i) stop))
  | .allocIndex ptr i => some { s.goto j (.allocPtr ptr i) with writeIndex := succ i }
  | .allocPtr ptr i =>
    some { s with
      ptr := update s.ptr (i % 2 ^ k) ptr
      thread := update s.thread j ⟨.idle, i :: (s.thread j).refs⟩
      returned := (i, ptr) :: s.returned }
  | .lockLoad id => some (s.checkLock j id (s.header (id % 2 ^ k)))
  | .lockCas id header =>
    if s.header (id % 2 ^ k) = header ∧ spurious = false then
      some { s.goto j (.lockPtr id) with
        header := update s.header (id % 2 ^ k) (incr header)
        log := .lock id :: s.log }
    else some (s.checkLock j id (s.header (id % 2 ^ k)))
  | .lockPtr id =>
    some { s with
      thread := update s.thread j ⟨.idle, id :: (s.thread j).refs⟩
      locked := (id, s.ptr (id % 2 ^ k)) :: s.locked }
  | .unlockLoad id => some (s.checkUnlock j id (s.header (id % 2 ^ k)))
  | .unlockCas id header =>
    if s.header (id % 2 ^ k) = header ∧ spurious = false then
      some { s with
        header := update s.header (id % 2 ^ k) (decr header)
        thread := update s.thread j ⟨.idle, (s.thread j).refs.erase id⟩
        log := .unlock id (getRefcnt header == 1) :: s.log }
    else some (s.checkUnlock j id (s.header (id % 2 ^ k)))

def St.step (k : ℕ) (s : St ι P) : Act ι P → Option (St ι P)
  | .alloc j ptr => match (s.thread j).pc with
    | .idle => some (s.goto j (.allocLoad ptr))
    | _ => none
  | .lock j id => match (s.thread j).pc with
    | .idle => if id = invalid then none else some (s.goto j (.lockLoad id))
    | _ => none
  | .unlock j id => match (s.thread j).pc with
    | .idle => if id ∈ (s.thread j).refs then some (s.goto j (.unlockLoad id)) else none
    | _ => none
  | .step j spurious => s.stepThread k j spurious

/-- A directory of `2 ^ k` entries, with any number of threads. -/
def sys (k : ℕ) (ι P : Type) [DecidableEq ι] : System (St ι P) (Act ι P) where
  init s := ∃ null, s = .init null
  step := St.step k

/-- An operation of the atomic directory. It is `none` when the operation would not have that result. An
allocation takes an id that has no references, and may take one that it has given out before. -/
def apply (pd : Pd) : Event → Option Pd
  | .alloc id => if pd.refcnt id = 0 then some ⟨update pd.refcnt id 1, update pd.used id true⟩ else none
  | .lock id => pd.lock id
  | .lockFailed id => if (pd.lock id).isNone then some pd else none
  | .unlock id last => if pd.refcnt id ≠ 0 ∧ (pd.unlock id).2 = last then some (pd.unlock id).1 else none
  | .unlockFailed id => if pd.refcnt id = 0 then some pd else none

/-- The operations of a log, the last one first, from the empty directory on. -/
def replay : List Event → Option Pd
  | [] => some Pd.init
  | e :: log => (replay log).bind fun pd => apply pd e

end Prs.PdSteps
