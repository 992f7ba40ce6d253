import Prs.Model.Str
import Mathlib.Data.Nat.Notation

/-!
# Log lines (`log.c`)

`vprint` is `prs_log_vprint` up to the push of its entry. The entry is what `prs_mpmcring_alloc` returned, and
`fmt` is the text that the format and its arguments make. `overflow_count` has the size of a register and is
given to a `%u`, which takes 32 bits of it.
-/

namespace Prs.Log

open Str

/-- `PRS_MAX_LOG_ENTRY_SIZE`. -/
def maxLogEntrySize : ℕ := 256

/-- `struct prs_log_entry`. -/
structure Entry where
  size : ℕ
  buf : Buf

def ascii (s : String) : List UInt8 := s.toList.map Char.toUInt8

/-- `%u`. -/
def decimal (n : ℕ) : List UInt8 := (Nat.toDigits 10 n).map Char.toUInt8

/-- `%6u`. -/
def decimal6 (n : ℕ) : List UInt8 := List.replicate (6 - (decimal n).length) 32 ++ decimal n

/-- `"OVF: %u\n"`. -/
def overflowText (n : ℕ) : List UInt8 := ascii "OVF: " ++ decimal n ++ ascii "\n"

/-- `"[%6u] "`. -/
def tickText (n : ℕ) : List UInt8 := ascii "[" ++ decimal6 n ++ ascii "] "

/-- `": "`. -/
def separator : CStr := ⟨ascii ": ", by decide⟩

/-- `"\n"`. -/
def newline : CStr := ⟨ascii "\n", by decide⟩

/-- The overflow notice of `prs_log_vprint`. -/
def putNotice (overflowCount : BitVec 64) (buf : Buf) : Buf × ℕ :=
  if overflowCount ≠ 0 then appendPrintf buf 0 maxLogEntrySize (overflowText (overflowCount.setWidth 32).toNat)
  else (buf, 0)

/-- The function name, and a separator when a message follows. -/
def putFunction (function : Option CStr) (fmt : Option (List UInt8)) (buf : Buf) (offset : ℕ) : Buf × ℕ :=
  match function with
  | some function =>
    let (buf, offset) := append buf function offset maxLogEntrySize
    if fmt.isSome then append buf separator offset maxLogEntrySize else (buf, offset)
  | none => (buf, offset)

def putMessage (fmt : Option (List UInt8)) (buf : Buf) (offset : ℕ) : Buf × ℕ :=
  match fmt with
  | some text => appendVprintf buf offset maxLogEntrySize text
  | none => (buf, offset)

/-- `prs_log_vprint`, with the `overflow_count` that it leaves. -/
def vprint (overflowCount : BitVec 64) (entry : Option Buf) (clock : BitVec 32) (function : Option CStr)
    (fmt : Option (List UInt8)) : BitVec 64 × Option Entry :=
  match entry with
  | none => (overflowCount + 1, none)
  | some buf =>
    let (buf, offset) := putNotice overflowCount buf
    let (buf, offset) := appendPrintf buf offset maxLogEntrySize (tickText clock.toNat)
    let (buf, offset) := putFunction function fmt buf offset
    let (buf, offset) := putMessage fmt buf offset
    let (buf, offset) := append buf newline offset maxLogEntrySize
    (0, some ⟨offset, buf⟩)

end Prs.Log
