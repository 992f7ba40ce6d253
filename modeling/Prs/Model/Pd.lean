import Mathlib.Data.Nat.Notation
import Mathlib.Logic.Function.Basic

/-!
# The pointer directory (`lib/ds/pd.c`), as atomic operations

`prs_pd_alloc_and_lock`, `prs_pd_lock` and `prs_pd_unlock` change one header word each by a compare-and-swap,
so each is one step here. A header is the id and a 12-bit count; an id is given out once, so the directory is a
count for each id. `PRS_PD_ID_INVALID` is `none` where an id may be invalid.
-/

namespace Prs

open Function

/-- The directory: the reference count of each id, and the ids given out so far. -/
structure Pd where
  refcnt : ℕ → ℕ
  used : ℕ → Bool

namespace Pd

/-- `PRS_PD_REFCNT_MASK >> PRS_PD_REFCNT_SHIFT`: the largest count a header holds. -/
def refcntMax : ℕ := 4095

def init : Pd := ⟨fun _ => 0, fun _ => false⟩

/-- `prs_pd_alloc_and_lock` when it succeeds: an id that was never given out, with one reference. -/
def alloc (pd : Pd) (id : ℕ) : Option Pd :=
  if pd.used id then none else some ⟨update pd.refcnt id 1, update pd.used id true⟩

/-- `prs_pd_lock`: fails for a dead id and for one whose count is at its limit. -/
def lock (pd : Pd) (id : ℕ) : Option Pd :=
  if pd.refcnt id = 0 ∨ pd.refcnt id = refcntMax then none
  else some { pd with refcnt := update pd.refcnt id (pd.refcnt id + 1) }

/-- `prs_pd_unlock`, with its result: whether this was the last reference. A dead id is left alone. -/
def unlock (pd : Pd) (id : ℕ) : Pd × Bool :=
  ({ pd with refcnt := update pd.refcnt id (pd.refcnt id - 1) }, pd.refcnt id = 1)

end Pd

end Prs
