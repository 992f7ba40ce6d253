import Prs.Model.UserText

/-!
# Reading the table of user text while it changes (`proc.c`)

The process service adds and deletes entries, with one store a step. Any number of calls of
`prs_proc_is_user_text` run at the same time, with one load a step. What the process service reads of the
table only it has written, so it searches for an entry in the step of its first store.

`loaded` has the processes that are in the table, from the store of their base to the store of a null there.
Some fields are history: `added` has all processes that were ever in the table, the last one at the end, and
`fills` counts how often an entry got a new process.
-/

namespace Prs.UserText.Steps

open Function

/-- Where the process service is. -/
inductive Writer
  | idle
  /-- In `prs_proc_range_table_add`: the base has to be stored, or the count. -/
  | addBase (p : Proc)
  | addCount (p : Proc)
  /-- In `prs_proc_range_table_del`: the size has to be stored. -/
  | delSize (p : Proc)

/-- The variables of `prs_proc_is_user_text`. The last two are history: the processes that were in the table
when the call began, and how many had been added by then. -/
structure Call where
  ip : ℕ
  count : ℕ
  i : ℕ
  present : List Proc
  start : ℕ

inductive Reader
  | out
  /-- The base of the entry has to be loaded. -/
  | base (c : Call)
  /-- The size has to be loaded. `fills` is that of the entry when the base was loaded. -/
  | size (c : Call) (base fills : ℕ)
  /-- The result, with the processes that were in the table during the call. -/
  | ret (ip : ℕ) (result : Bool) (seen : List Proc)

structure St (ι : Type) where
  table : Table
  writer : Writer
  loaded : List Proc
  added : List Proc
  fills : ℕ → ℕ
  reader : ι → Reader

inductive Act (ι : Type)
  | addSize (base size : ℕ)
  | addBase
  | addCount
  | delBase (p : Proc)
  | delSize
  | begin (r : ι) (ip : ℕ)
  | loadBase (r : ι)
  | loadSize (r : ι)

variable {ι : Type}

/-- The processes that were in the table during a call so far. -/
def St.seen (s : St ι) (c : Call) : List Proc := c.present ++ s.added.drop c.start

/-- An empty table. -/
def St.start : St ι where
  table := ⟨fun _ => 0, fun _ => 0, 0⟩
  writer := .idle
  loaded := []
  added := []
  fills := fun _ => 0
  reader := fun _ => .out

/-- The stores of the process service. -/
def St.addSize (s : St ι) (base size : ℕ) : Option (St ι) :=
  match s.writer with
  | .idle =>
    let index := s.table.index
    if index < maxObjects ∧ base ≠ 0 ∧ base + size < 2 ^ 64 then
      some { s with
        table := { s.table with size := update s.table.size index size }
        fills := update s.fills index (s.fills index + 1)
        writer := .addBase ⟨base, size, index⟩ }
    else none
  | _ => none

/-- The store of the base. -/
def St.addBase (s : St ι) : Option (St ι) :=
  match s.writer with
  | .addBase p =>
    some { s with
      table := { s.table with base := update s.table.base p.index p.base }
      loaded := p :: s.loaded
      added := s.added ++ [p]
      writer := if s.table.count ≤ p.index then .addCount p else .idle }
  | _ => none

def St.addCount (s : St ι) : Option (St ι) :=
  match s.writer with
  | .addCount p => some { s with table := { s.table with count := p.index + 1 }, writer := .idle }
  | _ => none

/-- The store of a null base, with which a removal begins. -/
def St.delBase (s : St ι) (p : Proc) : Option (St ι) :=
  match s.writer with
  | .idle =>
    if p ∈ s.loaded then
      some { s with
        table := { s.table with base := update s.table.base p.index 0 }
        loaded := s.loaded.erase p
        writer := .delSize p }
    else none
  | _ => none

def St.delSize (s : St ι) : Option (St ι) :=
  match s.writer with
  | .delSize p => some { s with table := { s.table with size := update s.table.size p.index 0 }, writer := .idle }
  | _ => none

variable [DecidableEq ι]

def St.setReader (s : St ι) (r : ι) (x : Reader) : St ι := { s with reader := update s.reader r x }

/-- The load of the count. -/
def St.begin (s : St ι) (r : ι) (ip : ℕ) : Option (St ι) :=
  match s.reader r with
  | .out | .ret _ _ _ => some (s.setReader r (.base ⟨ip, s.table.count, 0, s.loaded, s.added.length⟩))
  | _ => none

/-- The load of a base, or the end of the loop. -/
def St.loadBase (s : St ι) (r : ι) : Option (St ι) :=
  match s.reader r with
  | .base c =>
    if c.i < c.count then
      let base := s.table.base c.i
      if base ≠ 0 ∧ base < c.ip then some (s.setReader r (.size c base (s.fills c.i)))
      else some (s.setReader r (.base { c with i := c.i + 1 }))
    else some (s.setReader r (.ret c.ip false (s.seen c)))
  | _ => none

/-- The load of a size. -/
def St.loadSize (s : St ι) (r : ι) : Option (St ι) :=
  match s.reader r with
  | .size c base _ =>
    let size := s.table.size c.i
    if size ≠ 0 ∧ c.ip < (base + size) % 2 ^ 64 then some (s.setReader r (.ret c.ip true (s.seen c)))
    else some (s.setReader r (.base { c with i := c.i + 1 }))
  | _ => none

def St.step (s : St ι) : Act ι → Option (St ι)
  | .addSize base size => s.addSize base size
  | .addBase => s.addBase
  | .addCount => s.addCount
  | .delBase p => s.delBase p
  | .delSize => s.delSize
  | .begin r ip => s.begin r ip
  | .loadBase r => s.loadBase r
  | .loadSize r => s.loadSize r

def sys (ι : Type) [DecidableEq ι] : System (St ι) (Act ι) where
  init s := s = St.start
  step := St.step

end Prs.UserText.Steps
