import Prs.Model.Swprio

/-!
# The bit scans (`pal/bitops.h`)

Each scan has two bodies: on GCC it calls a builtin, on other compilers it is a loop that a macro writes out.
The builtins count the zeros at one end of a word that is not zero.

`Sched.searchBy` is the loop over the mask in `prs_sched_swprio_get_next` with its call of the scan and the
assertion after it, for any scan.
-/

namespace Prs.Bitops

/-- `PRS_PAL_COMPILER`. -/
inductive Compiler
  | gcc
  | other
  deriving DecidableEq

variable {w : ℕ}

/-- `v & ((t)1 << pos)`. -/
def test (v : BitVec w) (pos : ℕ) : Bool := v &&& (1#w <<< pos) != 0#w

/-- The loop of `_PRS_BITOPS_HSB`, with `n` positions to go: the next one is `n - 1`. -/
def hsbLoop (v : BitVec w) : ℕ → ℤ
  | 0 => -1
  | n + 1 => if test v n then n else hsbLoop v n

/-- The loop of `_PRS_BITOPS_LSB` at `pos`, with `n` positions before `end`. -/
def lsbLoop (v : BitVec w) : ℕ → ℕ → ℤ
  | 0, _ => -1
  | n + 1, pos => if test v pos then pos else lsbLoop v n (pos + 1)

/-- `_PRS_BITOPS_HSB`: from `sizeof(t) * 8 - 1` down to zero. -/
def hsbFallback (v : BitVec w) : ℤ := hsbLoop v w

/-- `_PRS_BITOPS_LSB`: from zero up to `end`, which is `sizeof(t) * 8 - 1` and not reached. -/
def lsbFallback (v : BitVec w) : ℤ := lsbLoop v (w - 1) 0

/-- The GCC branch of `prs_bitops_hsb_*`, with `__builtin_clz`. -/
def hsbBuiltin (v : BitVec w) : ℤ := if v = 0#w then -1 else w - v.clz.toNat - 1

/-- The GCC branch of `prs_bitops_lsb_*`, with `__builtin_ctz`. -/
def lsbBuiltin (v : BitVec w) : ℤ := if v = 0#w then -1 else v.ctz.toNat

/-- `prs_bitops_hsb_uint64`. -/
def hsbUint64 (c : Compiler) (v : BitVec 64) : ℤ :=
  match c with
  | .gcc => hsbBuiltin v
  | .other => hsbFallback v

/-- `prs_bitops_hsb_uint32`. -/
def hsbUint32 (c : Compiler) (v : BitVec 32) : ℤ :=
  match c with
  | .gcc => hsbBuiltin v
  | .other => hsbFallback v

/-- `prs_bitops_lsb_uint64`. -/
def lsbUint64 (c : Compiler) (v : BitVec 64) : ℤ :=
  match c with
  | .gcc => lsbBuiltin v
  | .other => lsbFallback v

/-- `prs_bitops_lsb_uint32`. -/
def lsbUint32 (c : Compiler) (v : BitVec 32) : ℤ :=
  match c with
  | .gcc => lsbBuiltin v
  | .other => lsbFallback v

end Prs.Bitops

namespace Prs.Swprio

variable {τ : Type} [DecidableEq τ]

/-- `PRS_ASSERT(prio >= 0 && prio < PRS_MAX_TASK_PRIO)`: the priority, unless the assertion fails. -/
def checkPrio (prio : ℤ) : Option Prio :=
  if h : 0 ≤ prio ∧ prio < 32 then some ⟨prio.toNat, (Int.toNat_lt h.1).2 h.2⟩ else none

/-- The loop over the mask with the scan that the compiler gives. It is `none` when the assertion fails. -/
def Sched.searchBy (scan : BitVec 32 → ℤ) : ℕ → BitVec 32 → Sched τ → Option (Sched τ × Option Prio)
  | 0, _, q => some (q, none)
  | n + 1, mask, q =>
    if mask = 0#32 then some (q, none)
    else
      match checkPrio (scan mask) with
      | none => none
      | some p =>
        if q.readyq p = [] then
          let q := q.clearMask p
          if q.readyq p = [] then q.searchBy scan n (mask &&& ~~~bit p) else some (q.setMask p, some p)
        else some (q, some p)

end Prs.Swprio
