import Mathlib.Algebra.Group.Nat.Defs
import Prs.Lib.Cells

/-!
# Call frames on a saved context (`pal/posix/context.c`)

`addInternal` is `prs_pal_context_add_internal`. The memory has words of eight bytes at addresses of 64 bits;
all that is written are such words. The context itself and the floating point state that it points to are not
in the part of the stack that is written (a context that was interrupted comes from a signal handler, which
has a stack of its own).

A `Layout` says what the words of a `ucontext_t` are, and where the floating point state is in a
`struct prs_pal_context`.

`assertions` is `PRS_ASSERTIONS`. A failed assertion ends PRS, so there is no result.
-/

namespace Prs.Frame

open Function

abbrev Word : Type := BitVec 64

abbrev Memory : Type := Cells Word Word

inductive Reg
  | rip | rsp | rbp | rdi | rsi | rdx | rcx | r8 | r9
  | other (n : ℕ)
  deriving DecidableEq

/-- What a word of a `ucontext_t` is. -/
inductive Field
  | greg (r : Reg)
  | fpregs
  | other

structure Layout where
  /-- The words of a `ucontext_t`. -/
  words : ℕ
  field : ℕ → Field
  /-- Where `uc_mcontext.fpregs` is. -/
  fpregs : ℕ
  field_fpregs : field fpregs = .fpregs
  /-- Where `fpstate` is, and its words. -/
  fpOffset : ℕ
  fpWords : ℕ
  /-- `sizeof(struct prs_pal_context)`. -/
  size : ℕ
  fpregs_lt : fpregs < words
  words_le : words ≤ fpOffset
  fpstate_le : 8 * (fpOffset + fpWords) ≤ size
  aligned : size % 16 = 0
  size_lt : size < 2 ^ 63

structure Context where
  greg : Reg → Word
  fpregs : Word
  /-- The other words of the `ucontext_t`. -/
  other : ℕ → Word
  /-- The words that `fpregs` points to. -/
  fpstate : ℕ → Word

/-- A word of the `ucontext_t`. -/
def Context.word (L : Layout) (c : Context) (i : ℕ) : Word :=
  match L.field i with
  | .greg r => c.greg r
  | .fpregs => c.fpregs
  | .other => c.other i

/-- `PRS_CONTEXT_RED_ZONE_SIZE`. -/
def redZoneSize : Word := 128

/-- The argument registers. -/
def argReg : ℕ → Option Reg
  | 0 => some .rdi
  | 1 => some .rsi
  | 2 => some .rdx
  | 3 => some .rcx
  | 4 => some .r8
  | 5 => some .r9
  | _ => none

/-- The new top of the stack. -/
structure Top where
  sp : Word
  contextAlign : Bool
  frameAlign : Bool

def top (L : Layout) (c : Context) (argc : ℕ) : Top :=
  let stackArgc := if 6 < argc then argc - 6 else 0
  let sp := c.greg .rsp
  let (sp, contextAlign) :=
    if c.greg .rip ≠ 0 then
      let sp := sp - redZoneSize
      let sp := sp - BitVec.ofNat 64 L.size
      let contextAlign := decide (sp &&& 0xF ≠ 0)
      (if contextAlign then sp - 8 else sp, contextAlign)
    else (sp, false)
  let sp := sp - 2 * 8
  let sp := sp - BitVec.ofNat 64 stackArgc * 8
  let sp := sp - 8
  let frameAlign := decide (sp &&& 0xF = 0)
  ⟨if frameAlign then sp - 8 else sp, contextAlign, frameAlign⟩

/-- The loop over the arguments, from argument `i` on. `new` has the registers to be set, and `psp` goes up. -/
def fillArgs : ℕ → List Word → (Reg → Word) → Memory → Word → (Reg → Word) × Memory × Word
  | _, [], new, m, psp => (new, m, psp)
  | i, arg :: args, new, m, psp =>
    match argReg i with
    | some r => fillArgs (i + 1) args (update new r arg) m psp
    | none => fillArgs (i + 1) args new (m.set psp arg) (psp + 8)

/-- The word at an index from an address on. -/
def slot (a : Word) (i : ℕ) : Word := a + BitVec.ofNat 64 (8 * i)

/-- `memcpy` of `n` words. -/
def copyWords (m : Memory) (dst : Word) (src : ℕ → Word) : ℕ → Memory
  | 0 => m
  | n + 1 => (copyWords m dst src n).set (slot dst n) (src n)

/-- The copy of the context at `dst`. -/
def saveContext (L : Layout) (m : Memory) (dst : Word) (c : Context) : Memory :=
  let m := copyWords m dst (c.word L) L.words
  let m := m.set (slot dst L.fpregs) (slot dst L.fpOffset)
  if c.fpregs ≠ 0 then copyWords m (slot dst L.fpOffset) c.fpstate L.fpWords else m

/-- `PRS_ASSERT`. -/
def check (assertions : Bool) (p : Prop) [Decidable p] : Option Unit :=
  if assertions && !decide p then none else some ()

structure Result where
  mem : Memory
  context : Context
  /-- `psp + (context_align ? 1 : 0)` of the last assertion. -/
  last : Word

variable (L : Layout) (assertions : Bool) (trampoline function : Word) (args : List Word)

/-- `prs_pal_context_add_internal`. -/
def addInternal (m : Memory) (c : Context) : Option Result := do
  check assertions (function ≠ 0)
  let rip := c.greg .rip
  let t := top L c args.length
  let psp := t.sp
  check assertions (psp &&& 0xF ≠ 0)
  let m := m.set psp (if rip ≠ 0 then trampoline else 0)
  let psp := psp + 8
  let (new, m, psp) := fillArgs 0 args c.greg m psp
  check assertions (t.frameAlign = true → psp &&& 0xF ≠ 0)
  let psp := if t.frameAlign then psp + 8 else psp
  let newRbp := psp
  let m := m.set psp (c.greg .rbp)
  let psp := psp + 8
  let m := m.set psp rip
  let psp := psp + 8
  let (m, psp) :=
    if rip ≠ 0 then (saveContext L m psp c, psp + BitVec.ofNat 64 (L.size / 8) * 8 + redZoneSize) else (m, psp)
  let last := if t.contextAlign then psp + 8 else psp
  check assertions (last = c.greg .rsp)
  let greg := update (update (update new .rip function) .rbp newRbp) .rsp t.sp
  return ⟨m, { c with greg := greg }, last⟩

/-- `prs_pal_context_make`. A frame without a saved context does not depend on the rest of the context. -/
def make (stack : Word) (m : Memory) (c : Context) : Option Result := do
  check assertions (stack ≠ 0)
  addInternal L assertions trampoline function args m
    { c with greg := update (update (update c.greg .rip 0) .rsp stack) .rbp 0 }

end Prs.Frame
