import Prs.Lib.System
import Mathlib.Algebra.Group.Nat.Defs
import Mathlib.Logic.Function.Basic

/-!
# The table of user text (`proc.c`)

Each loaded process has an entry of `range_table` with its base and size, and remembers its index. The calls
are made one after another. Addresses and sizes have 64 bits.
-/

namespace Prs.UserText

open Function

/-- `PRS_MAX_OBJECTS`. -/
def maxObjects : ℕ := 4096

/-- `range_table` and `range_table_count`. -/
structure Table where
  base : ℕ → ℕ
  size : ℕ → ℕ
  count : ℕ

/-- The loop of `prs_proc_range_table_add`, from `i - 1` down. -/
def findFree (base : ℕ → ℕ) : ℕ → Option ℕ
  | 0 => none
  | i + 1 => if base i = 0 then some i else findFree base i

/-- The index that `prs_proc_range_table_add` takes. -/
def Table.index (t : Table) : ℕ := (findFree t.base t.count).getD t.count

/-- `prs_proc_range_table_add`, with the index. No result is a fatal error. -/
def Table.add (t : Table) (base size : ℕ) : Option (ℕ × Table) :=
  let index := t.index
  if maxObjects ≤ index then none
  else
    some (index,
      { base := update t.base index base
        size := update t.size index size
        count := if t.count ≤ index then index + 1 else t.count })

/-- `prs_proc_range_table_del`. -/
def Table.del (t : Table) (index : ℕ) : Option Table :=
  if maxObjects ≤ index then none
  else some { t with base := update t.base index 0, size := update t.size index 0 }

/-- The loop of `prs_proc_is_user_text`, with `n` entries left. -/
def scan (t : Table) (ip : ℕ) : ℕ → ℕ → Bool
  | 0, _ => false
  | n + 1, i =>
    let base := t.base i
    if base ≠ 0 ∧ base < ip then
      let size := t.size i
      if size ≠ 0 ∧ ip < (base + size) % 2 ^ 64 then true else scan t ip n (i + 1)
    else scan t ip n (i + 1)

/-- `prs_proc_is_user_text`. -/
def Table.isUserText (t : Table) (ip : ℕ) : Bool := scan t ip t.count 0

/-- A process, with its `range_table_index`. -/
structure Proc where
  base : ℕ
  size : ℕ
  index : ℕ
  deriving DecidableEq

/-- An address is in a process. -/
def Proc.Has (p : Proc) (ip : ℕ) : Prop := p.base ≤ ip ∧ ip < p.base + p.size

instance (p : Proc) (ip : ℕ) : Decidable (p.Has ip) := inferInstanceAs (Decidable (_ ∧ _))

structure St where
  table : Table
  /-- The processes that are loaded. -/
  loaded : List Proc

inductive Act
  | add (base size : ℕ)
  | del (p : Proc)

def St.step (s : St) : Act → Option St
  | .add base size =>
    if s.loaded.length < maxObjects ∧ base ≠ 0 ∧ base + size < 2 ^ 64 then
      (s.table.add base size).map fun r => ⟨r.2, ⟨base, size, r.1⟩ :: s.loaded⟩
    else none
  | .del p => if p ∈ s.loaded then (s.table.del p.index).map fun t => ⟨t, s.loaded.erase p⟩ else none

def St.start : St := ⟨⟨fun _ => 0, fun _ => 0, 0⟩, []⟩

def sys : System St Act where
  init s := s = St.start
  step := St.step

end Prs.UserText
