import Prs.Lib.RoundRobin
import Prs.Model.God

/-!
# The object directory one call at a time (`god.c`)

The headers are those of `Model/God.lean`. A call runs to its end before the next one starts, and a free
callback does not call the directory. An object is of any type `P`; no object is the null pointer.
-/

namespace Prs.GodSeq

open Function God

/-- `PRS_OBJECT_ID_INVALID`. -/
def invalid : ℕ := 0

/-- `struct prs_god`, with what its entries have. -/
structure Dir (P : Type) where
  header : ℕ → Header
  object : ℕ → Option P
  writeIndex : ℕ

variable {P : Type}

/-- `prs_god_create`. -/
def Dir.create : Dir P where
  header := fun e => if e = 0 then ⟨0, true, true, false, 0⟩ else ⟨0, false, false, false, 0⟩
  object := fun _ => none
  writeIndex := 1

/-- `prs_god_alloc_and_lock`. -/
def Dir.alloc (k : ℕ) (d : Dir P) (object : P) : ℕ × Dir P :=
  match probe 32 (2 ^ k) d.writeIndex (fun e => !(d.header e).reserved) (fun e => (d.header e).id) with
  | some i =>
    (i,
      { header := update d.header (i % 2 ^ k) ⟨i, true, true, false, 1⟩
        object := update d.object (i % 2 ^ k) (some object)
        writeIndex := succ i })
  | none => (invalid, d)

/-- `prs_god_lock`. -/
def Dir.lock (k : ℕ) (d : Dir P) (id : ℕ) : Option P × Dir P :=
  let header := d.header (id % 2 ^ k)
  if id = invalid then (none, d)
  else if header.id ≠ id then (none, d)
  else if header.used = false then (none, d)
  else if header.deleteMark = true then (none, d)
  else if header.refcnt = refcntMax then (none, d)
  else (d.object (id % 2 ^ k), { d with header := update d.header (id % 2 ^ k) (.ofWord (header.word + 1)) })

/-- `prs_god_unlock`, with the object that the free callback is called for. -/
def Dir.unlock (k : ℕ) (d : Dir P) (id : ℕ) : Option P × Dir P :=
  let header := d.header (id % 2 ^ k)
  if id = invalid then (none, d)
  else if header.id ≠ id then (none, d)
  else if header.used = false then (none, d)
  else if header.refcnt = 0 then (none, d)
  else if header.unlocked.refcnt = 0 then
    -- `prs_god_free`
    (d.object (id % 2 ^ k), { d with header := update d.header (id % 2 ^ k) header.unlocked.onlyId })
  else (none, { d with header := update d.header (id % 2 ^ k) header.unlocked })

/-- The `prs_result_t` of `prs_god_try_unlock_final`. -/
inductive FinalResult
  | ok
  | notFound
  | invalidState
  | locked
  deriving DecidableEq

/-- `prs_god_try_unlock_final`, with the object that the free callback is called for. `checks` is
`PRS_RUN_TIME_CHECKING`. -/
def Dir.tryUnlockFinal (checks : Bool) (k : ℕ) (d : Dir P) (id : ℕ) : FinalResult × Option P × Dir P :=
  let header := d.header (id % 2 ^ k)
  if checks = true ∧ id = invalid then (.notFound, none, d)
  else if checks = true ∧ header.id ≠ id then (.invalidState, none, d)
  else if checks = true ∧ header.used = false then (.invalidState, none, d)
  else if header.refcnt = 1 then
    -- `prs_god_free`
    (.ok, d.object (id % 2 ^ k), { d with header := update d.header (id % 2 ^ k) header.mark.onlyId })
  else if checks = true ∧ header.refcnt = 0 then (.invalidState, none, d)
  else (.locked, none, d)

inductive Act (P : Type)
  | alloc (object : P)
  | lock (id : ℕ)
  | unlock (id : ℕ)

def Dir.exec (k : ℕ) (d : Dir P) : Act P → Dir P
  | .alloc object => (d.alloc k object).2
  | .lock id => (d.lock k id).2
  | .unlock id => (d.unlock k id).2

/-- The directory after a list of calls. -/
def Dir.after (k : ℕ) (d : Dir P) (as : List (Act P)) : Dir P := as.foldl (Dir.exec k) d

end Prs.GodSeq
