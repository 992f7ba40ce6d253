import Prs.Lib.Amd64
import Prs.Model.Frame

/-!
# Switching contexts (`pal/posix/context.c`)

The assembly of `prs_pal_context_swap` and of `_prs_pal_context_return_trampoline`, instruction by
instruction. What the compiler puts before and behind the assembly of `prs_pal_context_swap` is not part of
it.

A context in memory has the words of `Prs.Model.Frame`. `Offsets` says where the registers are in them, which
is up to the C library.
-/

namespace Prs.Swap

open Prs.Frame (Layout Context)
open Function Amd64

/-- The register of a `ucontext_t` that a general register is saved in. -/
def greg : Amd64.Reg → Frame.Reg
  | .rax => .other 0
  | .rbx => .other 1
  | .rcx => .rcx
  | .rdx => .rdx
  | .rsi => .rsi
  | .rdi => .rdi
  | .rbp => .rbp
  | .rsp => .rsp
  | .r8 => .r8
  | .r9 => .r9
  | .r10 => .other 2
  | .r11 => .other 3
  | .r12 => .other 4
  | .r13 => .other 5
  | .r14 => .other 6
  | .r15 => .other 7

def eflags : Frame.Reg := .other 8

/-- The words of a `ucontext_t` and of a `struct _libc_fpstate` that the assembly names. -/
structure Offsets (L : Layout) where
  general : Amd64.Reg → ℕ
  rip : ℕ
  eflags : ℕ
  general_lt : ∀ r, general r < L.words
  rip_lt : rip < L.words
  eflags_lt : eflags < L.words
  field_general : ∀ r, L.field (general r) = .greg (greg r)
  field_rip : L.field rip = .greg .rip
  field_eflags : L.field eflags = .greg Swap.eflags
  mxcsr : ℕ
  /-- `_xmm[0]`. -/
  xmm : ℕ
  mxcsr_lt : mxcsr < xmm
  xmm_le : xmm + 32 ≤ L.fpWords
  xmm_aligned : xmm % 2 = 0
  fpstate_aligned : L.fpOffset % 2 = 0

/-- The registers of a `gregset_t` of the GNU C library, in their order. -/
def gregs : List Frame.Reg :=
  [.r8, .r9, .other 2, .other 3, .other 4, .other 5, .other 6, .other 7, .rdi, .rsi, .rbp, .other 1, .rdx,
    .other 0, .rcx, .rsp, .rip, eflags]

/-- The layout of the GNU C library. -/
def gnu : Layout where
  words := 121
  field := fun i =>
    if i = 28 then .fpregs
    else if 5 ≤ i then ((gregs[i - 5]?).map Frame.Field.greg).getD .other
    else .other
  fpregs := 28
  field_fpregs := rfl
  fpOffset := 122
  fpWords := 64
  size := 1488
  fpregs_lt := by decide
  words_le := by decide
  fpstate_le := by decide
  aligned := by decide
  size_lt := by decide

/-- Where a general register is in it. -/
def gnuGeneral : Amd64.Reg → ℕ
  | .r8 => 5
  | .r9 => 6
  | .r10 => 7
  | .r11 => 8
  | .r12 => 9
  | .r13 => 10
  | .r14 => 11
  | .r15 => 12
  | .rdi => 13
  | .rsi => 14
  | .rbp => 15
  | .rbx => 16
  | .rdx => 17
  | .rax => 18
  | .rcx => 19
  | .rsp => 20

def gnuOffsets : Offsets gnu where
  general := gnuGeneral
  rip := 21
  eflags := 22
  general_lt := by
    intro r
    cases r <;> decide
  rip_lt := by decide
  eflags_lt := by decide
  field_general := by
    intro r
    cases r <;> rfl
  field_rip := rfl
  field_eflags := rfl
  mxcsr := 3
  xmm := 20
  mxcsr_lt := by decide
  xmm_le := by decide
  xmm_aligned := rfl
  fpstate_aligned := rfl

/-- A word by its index. -/
def off (i : ℕ) : Word := BitVec.ofNat 64 (8 * i)

variable {L : Layout} (O : Offsets L) (alu : Word → Word → Word) (ripRef swapReturn : Word)

/-- The registers that are saved besides `rsp`. -/
def saveRegs : List Amd64.Reg := [.rbp, .rbx, .r12, .r13, .r14, .r15]

/-- What is saved. `lea (%rip)` gives the address of `rip_ref`. -/
def saveCode : List Instr :=
  [.store .rsp (off (O.general .rsp)) .rdi,
    .movImm ripRef .rax,
    .add (swapReturn - ripRef) .rax,
    .store .rax (off O.rip) .rdi] ++
  saveRegs.map (fun r => .store r (off (O.general r)) .rdi) ++
  [.pushfq,
    .pop .rax,
    .store32 .rax (off O.eflags) .rdi,
    .load (off L.fpregs) .rdi .rdi] ++
  (List.range 8).map fun i => .movapsStore (8 + i) (off (O.xmm + 2 * (8 + i))) .rdi

/-- The registers that are restored first. -/
def restoreRegs : List Amd64.Reg := [.rbp, .rdi, .rcx, .rdx, .r8, .r9, .r10, .r11, .r12, .r13, .r14, .r15]

/-- `rip`, `eflags` and `rsi` are put under the new top of the stack. -/
def underCode : List Instr :=
  [.load (off (O.general .rsp)) .rsi .rax,
    .load (off O.rip) .rsi .rbx,
    .store .rbx (-0x8) .rax,
    .xor .rbx .rbx,
    .load32 (off O.eflags) .rsi .rbx,
    .store .rbx (-0x10) .rax,
    .load (off (O.general .rsi)) .rsi .rbx,
    .store .rbx (-0x18) .rax]

/-- The rest of the registers, with those from under the stack at last. -/
def finishCode : List Instr :=
  [.load (off (O.general .rax)) .rsi .rax,
    .load (off (O.general .rbx)) .rsi .rbx,
    .load (off (O.general .rsp)) .rsi .rsi,
    .sub 0x18 .rsi,
    .mov .rsi .rsp,
    .pop .rsi,
    .popfq,
    .ret]

/-- What is restored. -/
def restoreCode : List Instr :=
  [.load (off L.fpregs) .rsi .rax,
    .ldmxcsr (off O.mxcsr) .rax] ++
  (List.range 16).map (fun i => .movapsLoad (off (O.xmm + 2 * i)) .rax i) ++
  restoreRegs.map (fun r => .load (off (O.general r)) .rsi r) ++
  underCode O ++ finishCode O

/-- From `prs_pal_context_swap_save` on, with `save` in `rdi`. -/
def swapSave (m : Machine) : Option Machine := do
  let m ← step alu m (.test .rdi .rdi)
  if m.reg .rdi = 0 then some m else exec alu (saveCode O ripRef swapReturn) m

/-- From `prs_pal_context_swap_restore` on, with `restore` in `rsi`. When it is null this goes on at
`prs_pal_context_swap_return`. -/
def swapRestore (m : Machine) : Option Machine := do
  let m ← step alu m (.test .rsi .rsi)
  if m.reg .rsi = 0 then some { m with rip := swapReturn } else exec alu (restoreCode O) m

/-- `prs_pal_context_swap`. -/
def swap (m : Machine) : Option Machine :=
  (swapSave O alu ripRef swapReturn m).bind (swapRestore O alu swapReturn)

/-- `_prs_pal_context_return_trampoline`, up to the call of `prs_pal_context_swap`, which is at `swapEntry`. -/
def trampolineCode (swapEntry back : Word) : List Instr :=
  [.movImm 0 .rdi,
    .mov .rbp .rsi,
    .add 0x10 .rsi,
    .call swapEntry back]

/-- A function has returned to the trampoline. -/
def trampoline (swapEntry back : Word) (m : Machine) : Option Machine := do
  let m ← exec alu (trampolineCode swapEntry back) m
  swap O alu ripRef swapReturn m

/-- `prs_pal_context_make`, with the `mxcsr` that it sets. A fresh frame does not depend on it. -/
def make (assertions : Bool) (trampolineEntry function : Word) (args : List Word) (stack : Word)
    (m : Frame.Memory) (c : Context) : Option Frame.Result :=
  (Frame.make L assertions trampolineEntry function args stack m c).map fun r =>
    let fpstate := update r.context.fpstate O.mxcsr (setLow (r.context.fpstate O.mxcsr) 0x1f80)
    { r with context := { r.context with fpstate := fpstate } }

end Prs.Swap
