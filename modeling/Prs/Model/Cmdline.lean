import Prs.Model.Str

/-!
# Command lines (`proc.c`, `pal/linux/proc.c`)

`parse` is `prs_proc_parse_cmdline`. The buffer is the memory that `prs_pal_malloc` returned, with addresses
counted from its start, so that a pointer of `argv` is such an address. Both passes go over the buffer up to
its null; a pass that runs out of the `len` bytes has no result.

`createMain` is what `prs_pal_proc_create_main` makes of `/proc/self/cmdline` in the buffer of
`prs_proc_init`, without the step that is compiled with `DEBUG` only.
-/

namespace Prs.Cmdline

open Str

/-- `' '`. -/
abbrev space : UInt8 := 32

/-- `'\"'`. -/
abbrev quote : UInt8 := 34

/-- The variables of the first pass. -/
structure Scan where
  argc : ℕ
  inQuote : Bool
  inArg : Bool

/-- One character of the first pass. -/
def Scan.step (s : Scan) (c : UInt8) : Scan :=
  if c = space then
    if !s.inQuote && s.inArg then { s with inArg := false } else s
  else
    let s := if c = quote then { s with inQuote := !s.inQuote } else s
    if !s.inArg then { s with inArg := true, argc := s.argc + 1 } else s

/-- The first pass, from `p` on, with `n` bytes of the buffer left. -/
def count (buffer : Buf) : ℕ → ℕ → Scan → Option ℕ
  | 0, _, _ => none
  | n + 1, p, s =>
    let c := buffer.get p
    if c = 0 then some s.argc else count buffer n (p + 1) (s.step c)

/-- The variables of the second pass. The pointers stored so far are `argv[0]` to `argv[argc - 1]`. -/
structure Split where
  buffer : Buf
  argv : List ℕ
  inQuote : Bool
  inArg : Bool

/-- One character of the second pass, which overwrites it. -/
def Split.step (s : Split) (p : ℕ) : Split :=
  let c := s.buffer.get p
  if c = space then
    if !s.inQuote && s.inArg then { s with inArg := false, buffer := s.buffer.set p 0 } else s
  else
    let s := if c = quote then { s with inQuote := !s.inQuote, buffer := s.buffer.set p 0 } else s
    if !s.inArg then { s with inArg := true, argv := s.argv ++ [if s.inQuote then p + 1 else p] } else s

/-- The second pass. -/
def split : ℕ → ℕ → Split → Option Split
  | 0, _, _ => none
  | n + 1, p, s => if s.buffer.get p = 0 then some s else split n (p + 1) (s.step p)

/-- The fields of the process that are set. -/
structure MainParams where
  buffer : Buf
  argc : ℕ
  argv : List ℕ

/-- `prs_proc_parse_cmdline`. `len` is an `int`. -/
def parse (memory : ℕ → UInt8) (cmdline : CStr) : Option MainParams := do
  let len := (BitVec.ofNat 32 (cmdline.chars.length + 1)).toInt.toNat
  let buffer := (Cells.start memory).puts 0 ((cmdline.chars ++ [0]).take len)
  let argc ← count buffer len 0 ⟨0, false, false⟩
  let s ← split len 0 ⟨buffer, [], false, false⟩
  some ⟨s.buffer, argc, s.argv⟩

/-- `PRS_MAX_CMDLINE`. -/
def maxCmdline : ℕ := 256

/-- The loop of `prs_pal_proc_create_main`, with what is left of the file. -/
def readFile : ℕ → List UInt8 → Buf → ℕ → Buf
  | 0, _, cmdline, _ => cmdline
  | _ + 1, [], cmdline, p => cmdline.set p 0
  | n + 1, c :: file, cmdline, p => readFile n file (cmdline.set p (if c = 0 then space else c)) (p + 1)

/-- `prs_pal_proc_create_main`, for its `cmdline`. -/
def createMain (memory : ℕ → UInt8) (file : List UInt8) : Buf :=
  (readFile (maxCmdline - 1) file (Cells.start memory) 0).set (maxCmdline - 1) 0

/-- The string in a buffer of `n` bytes. -/
def toCStr (m : Buf) (n : ℕ) : CStr where
  chars := (m.slice 0 n).takeWhile (· ≠ 0)
  chars_ne_null := by
    intro h
    exact absurd (List.all_eq_true.1 List.all_takeWhile 0 h) (by decide)

/-- The command line of the main process, from the bytes of `/proc/self/cmdline` to `prs_proc_parse_cmdline`. -/
def mainParams (memory memory' : ℕ → UInt8) (file : List UInt8) : Option MainParams :=
  parse memory' (toCStr (createMain memory file) maxCmdline)

end Prs.Cmdline
