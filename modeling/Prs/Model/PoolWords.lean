import Prs.Lib.RoundRobin
import Prs.Lib.System

/-!
# The pool, word by word (`lib/ds/pool.c`)

The header of an entry is one 64-bit word: an id in the low 52 bits, a count in the next 11, and in the
highest bit whether the entry is allocated. A pool of `2 ^ k` entries keeps an id in the entry of its low `k`
bits. A call runs to its end before the next one starts, with run-time checks; its data are in no header, and
not here. Memory is zero before `prs_pool_create`.
-/

namespace Prs.PoolWords

open Function

/-- `PRS_POOL_REFCNT_INC`. -/
def refcntInc : ℕ := 2 ^ 52

/-- `PRS_POOL_REFCNT_MASK >> PRS_POOL_REFCNT_SHIFT`. -/
def refcntMax : ℕ := 2047

/-- `PRS_POOL_ALLOC_MASK`. -/
def allocMask : ℕ := 2 ^ 63

/-- `PRS_POOL_ID_INVALID`. -/
def invalid : ℕ := 2 ^ 64 - 1

/-- `PRS_POOL_GET_ID`. -/
def getId (header : ℕ) : ℕ := header % refcntInc

/-- `PRS_POOL_GET_REFCNT`. -/
def getRefcnt (header : ℕ) : ℕ := header / refcntInc % 2 ^ 11

/-- `PRS_POOL_TEST_ALLOC`. -/
def testAlloc (header : ℕ) : Bool := decide (header / allocMask % 2 = 1)

/-- The words that the operations exchange a header for: `PRS_POOL_ALLOC_MASK | (i & PRS_POOL_ID_MASK)`,
`PRS_POOL_REFCNT_INC | header` of a count of zero, `header + PRS_POOL_REFCNT_INC`,
`header - PRS_POOL_REFCNT_INC`, and `header & ~PRS_POOL_ALLOC_MASK`. -/
def fresh (i : ℕ) : ℕ := allocMask + i % refcntInc

def first (header : ℕ) : ℕ := header + refcntInc

def incr (header : ℕ) : ℕ := (header + refcntInc) % 2 ^ 64

def decr (header : ℕ) : ℕ := (header + (2 ^ 64 - refcntInc)) % 2 ^ 64

def clearAlloc (header : ℕ) : ℕ := header % allocMask

/-- `struct prs_pool`. -/
structure Pool where
  header : ℕ → ℕ
  writeIndex : ℕ

/-- `prs_pool_create`. -/
def Pool.create : Pool := ⟨update (fun _ => 0) 0 allocMask, 1⟩

/-- `prs_pool_alloc`. -/
def Pool.alloc (k : ℕ) (p : Pool) : Option ℕ × Pool :=
  match probe 64 (2 ^ k) p.writeIndex (fun e => !testAlloc (p.header e)) (fun e => getId (p.header e)) with
  | some i => (some i, ⟨update p.header (i % 2 ^ k) (fresh i), (i + 1) % 2 ^ 64⟩)
  | none => (none, p)

/-- `prs_pool_free`. -/
def Pool.free (k : ℕ) (p : Pool) (id : ℕ) : Pool :=
  let header := p.header (id % 2 ^ k)
  if testAlloc header = false then p
  else if getRefcnt header ≠ 0 then p
  else { p with header := update p.header (id % 2 ^ k) id }

/-- `prs_pool_lock_first`. -/
def Pool.lockFirst (k : ℕ) (p : Pool) (id : ℕ) : Pool :=
  let header := p.header (id % 2 ^ k)
  if getId header ≠ id then p
  else if testAlloc header = false then p
  else if getRefcnt header ≠ 0 then p
  else { p with header := update p.header (id % 2 ^ k) (first header) }

/-- `prs_pool_lock`, with whether it returns the entry. -/
def Pool.lock (k : ℕ) (p : Pool) (id : ℕ) : Bool × Pool :=
  let header := p.header (id % 2 ^ k)
  if id = invalid then (false, p)
  else if getId header ≠ id then (false, p)
  else if testAlloc header = false then (false, p)
  else if getRefcnt header = 0 then (false, p)
  else if getRefcnt header = refcntMax then (false, p)
  else (true, { p with header := update p.header (id % 2 ^ k) (incr header) })

/-- `prs_pool_unlock`. -/
def Pool.unlock (k : ℕ) (p : Pool) (id : ℕ) : Bool × Pool :=
  let header := p.header (id % 2 ^ k)
  if id = invalid then (false, p)
  else if getId header ≠ id then (false, p)
  else if testAlloc header = false then (false, p)
  else if getRefcnt header = 0 then (false, p)
  else
    let last := decide (getRefcnt header = 1)
    (last, { p with
      header := update p.header (id % 2 ^ k) (if last then clearAlloc (decr header) else decr header) })

inductive Act
  | alloc
  | free (id : ℕ)
  | lockFirst (id : ℕ)
  | unlock (id : ℕ)

def Pool.exec (k : ℕ) (p : Pool) : Act → Pool
  | .alloc => (p.alloc k).2
  | .free id => p.free k id
  | .lockFirst id => p.lockFirst k id
  | .unlock id => (p.unlock k id).2

/-- A pool of `2 ^ k` entries. -/
def sys (k : ℕ) : System Pool Act where
  init p := p = .create
  step p a := some (p.exec k a)

end Prs.PoolWords
