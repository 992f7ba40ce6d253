import Prs.Lib.Threads
import Prs.Model.PoolWords

/-!
# Threads that share a pool (`lib/ds/pool.c`)

The words of `Prs.Model.PoolWords`, in a pool that any number of threads allocate from, lock and unlock; each
access to a header or to `write_index` is one step, with run-time checks. An id is locked firsthand once for
each time that it is allocated. A call that a destructor makes is one of another thread here, to which
references can be handed over.

The fields of the state from `refs` on are history. The lifetimes of an entry are numbered from one on, by the
allocations of the entry; `life (e, n)` is what has happened in lifetime `n` of entry `e`.
-/

namespace Prs.PoolSteps

open Function PoolWords

/-- A thread. It is before the access to memory that the name says, or before the destructor starts; at
`destCas` the destructor has started. -/
inductive Pc
  | idle
  | allocLoad
  | allocHeader (i stop : ℕ)
  | allocCas (i stop header : ℕ)
  | allocIndex (i : ℕ)
  | firstLoad (id : ℕ)
  | firstCas (id header : ℕ)
  | lockLoad (id : ℕ)
  | lockCas (id header : ℕ)
  | unlockLoad (id : ℕ) (final dest : Bool)
  | unlockCas (id : ℕ) (final dest : Bool) (header : ℕ)
  | destructor (id header : ℕ)
  | destCas (id header : ℕ)
  deriving DecidableEq

/-- Whether the first lock has been taken, how many releases have returned `PRS_TRUE`, how many of those carried a
destructor, and how often a destructor was started. -/
structure Life where
  first : Bool
  trues : ℕ
  carried : ℕ
  runs : ℕ
  deriving DecidableEq

def Life.new : Life := ⟨false, 0, 0, 0⟩

def Life.lockFirst (l : Life) : Life := { l with first := true }

def Life.start (l : Life) : Life := { l with runs := l.runs + 1 }

def Life.returnTrue (l : Life) (dest : Bool) : Life :=
  { l with trues := l.trues + 1, carried := l.carried + dest.toNat }

structure St (ι : Type) where
  header : ℕ → ℕ
  writeIndex : ℕ
  pc : ι → Pc
  /-- The ids of the references that a thread has obtained and not released. -/
  refs : ι → List ℕ
  /-- The ids that `prs_pool_alloc` has returned and `prs_pool_lock_first` was not called with. -/
  allocated : List ℕ
  /-- How often an entry was allocated. -/
  gen : ℕ → ℕ
  life : ℕ × ℕ → Life

/-- A weak exchange may fail without a reason (`spurious`). `final` is for `prs_pool_try_unlock_final` and
`prs_pool_try_unlock_final_dest`, `dest` for `prs_pool_unlock_dest` and the latter. -/
inductive Act (ι : Type)
  | alloc (j : ι)
  | lockFirst (j : ι) (id : ℕ)
  | lock (j : ι) (id : ℕ)
  | unlock (j : ι) (id : ℕ) (final dest : Bool)
  | give (j i : ι) (id : ℕ)
  | step (j : ι) (spurious : Bool)

/-- `prs_pool_create`. -/
def St.init {ι : Type} : St ι where
  header := Pool.create.header
  writeIndex := Pool.create.writeIndex
  pc := fun _ => .idle
  refs := fun _ => []
  allocated := []
  gen := fun _ => 0
  life := fun _ => .new

/-- The head of the loop in `prs_pool_alloc`. -/
def Pc.probe (i stop : ℕ) : Pc := if i < stop then .allocHeader i stop else .idle

/-- `i + 1` of a `prs_pool_index_t`. -/
def succ (i : ℕ) : ℕ := (i + 1) % 2 ^ 64

/-- The checks of `prs_pool_lock_first`. -/
def Pc.checkFirst (id header : ℕ) : Pc :=
  if getId header = id ∧ testAlloc header = true ∧ getRefcnt header = 0 then .firstCas id header else .idle

/-- The checks of the loop in `prs_pool_lock`. -/
def Pc.checkLock (id header : ℕ) : Pc :=
  if getId header = id ∧ testAlloc header = true ∧ getRefcnt header ≠ 0 ∧ getRefcnt header ≠ refcntMax then
    .lockCas id header
  else .idle

/-- The checks of the loop in `prs_pool_unlock_internal`. -/
def Pc.checkUnlock (id : ℕ) (final dest : Bool) (header : ℕ) : Pc :=
  if getId header = id ∧ testAlloc header = true ∧ getRefcnt header ≠ 0 ∧
    (final = false ∨ getRefcnt header = 1) then
    .unlockCas id final dest header
  else .idle

/-- The thread is not in a call, or in one that runs the destructor. -/
def Pc.outside : Pc → Bool
  | .idle => true
  | .destCas _ _ => true
  | _ => false

variable {ι : Type} [DecidableEq ι]

def St.goto (s : St ι) (j : ι) (p : Pc) : St ι := { s with pc := update s.pc j p }

/-- Something happens in the latest lifetime of an entry. -/
def St.inLife (s : St ι) (e : ℕ) (f : Life → Life) : ℕ × ℕ → Life :=
  update s.life (e, s.gen e) (f (s.life (e, s.gen e)))

/-- What `prs_pool_unlock_internal` does when its exchange has succeeded. -/
def St.release (k : ℕ) (s : St ι) (j : ι) (id : ℕ) (dest : Bool) (header : ℕ) : St ι :=
  let refs := update s.refs j ((s.refs j).erase id)
  if getRefcnt header ≠ 1 then
    { s with header := update s.header (id % 2 ^ k) (decr header), pc := update s.pc j .idle, refs }
  else if dest = true then
    { s with
      header := update s.header (id % 2 ^ k) (decr header)
      pc := update s.pc j (.destructor id (decr header))
      refs }
  else
    { s with
      header := update s.header (id % 2 ^ k) (clearAlloc (decr header))
      pc := update s.pc j .idle
      refs
      life := s.inLife (id % 2 ^ k) (·.returnTrue false) }

/-- A step of thread `j`, in a pool of `2 ^ k` entries. -/
def St.stepThread (k : ℕ) (s : St ι) (j : ι) (spurious : Bool) : Option (St ι) :=
  match s.pc j with
  | .idle => none
  | .allocLoad => some (s.goto j (.probe s.writeIndex ((s.writeIndex + 2 ^ k) % 2 ^ 64)))
  | .allocHeader i stop =>
    let header := s.header (i % 2 ^ k)
    if testAlloc header = true then some (s.goto j (.probe (succ i) stop))
    else if getId header = i then some (s.goto j (.probe (succ i) stop))
    else some (s.goto j (.allocCas i stop header))
  | .allocCas i stop header =>
    if s.header (i % 2 ^ k) = header then
      some { s with
        header := update s.header (i % 2 ^ k) (fresh i)
        pc := update s.pc j (.allocIndex i)
        gen := update s.gen (i % 2 ^ k) (s.gen (i % 2 ^ k) + 1) }
    else some (s.goto j (.probe (succ i) stop))
  | .allocIndex i =>
    some { s with writeIndex := succ i, pc := update s.pc j .idle, allocated := i :: s.allocated }
  | .firstLoad id => some (s.goto j (.checkFirst id (s.header (id % 2 ^ k))))
  | .firstCas id header =>
    if s.header (id % 2 ^ k) = header then
      some { s with
        header := update s.header (id % 2 ^ k) (first header)
        pc := update s.pc j .idle
        refs := update s.refs j (id :: s.refs j)
        life := s.inLife (id % 2 ^ k) .lockFirst }
    else some (s.goto j .idle)
  | .lockLoad id => some (s.goto j (.checkLock id (s.header (id % 2 ^ k))))
  | .lockCas id header =>
    if s.header (id % 2 ^ k) = header ∧ spurious = false then
      some { s with
        header := update s.header (id % 2 ^ k) (incr header)
        pc := update s.pc j .idle
        refs := update s.refs j (id :: s.refs j) }
    else some (s.goto j (.checkLock id (s.header (id % 2 ^ k))))
  | .unlockLoad id final dest => some (s.goto j (.checkUnlock id final dest (s.header (id % 2 ^ k))))
  | .unlockCas id final dest header =>
    if s.header (id % 2 ^ k) = header ∧ spurious = false then some (s.release k j id dest header)
    else some (s.goto j (.checkUnlock id final dest (s.header (id % 2 ^ k))))
  | .destructor id header =>
    some { s with pc := update s.pc j (.destCas id header), life := s.inLife (id % 2 ^ k) .start }
  | .destCas id header =>
    -- the exchange of a release that has run the destructor; if it fails, `PRS_FALSE` is returned
    if s.header (id % 2 ^ k) = header then
      some { s with
        header := update s.header (id % 2 ^ k) (getId header)
        pc := update s.pc j .idle
        life := s.inLife (id % 2 ^ k) (·.returnTrue true) }
    else some (s.goto j .idle)

def St.step (k : ℕ) (s : St ι) : Act ι → Option (St ι)
  | .alloc j => if s.pc j = .idle then some (s.goto j .allocLoad) else none
  | .lockFirst j id =>
    if s.pc j = .idle ∧ id ∈ s.allocated then
      some { s with pc := update s.pc j (.firstLoad id), allocated := s.allocated.erase id }
    else none
  | .lock j id => if s.pc j = .idle ∧ id ≠ invalid then some (s.goto j (.lockLoad id)) else none
  | .unlock j id final dest =>
    if s.pc j = .idle ∧ id ∈ s.refs j then some (s.goto j (.unlockLoad id final dest)) else none
  | .give j i id =>
    if (s.pc j).outside = true ∧ id ∈ s.refs j then
      let refs := update s.refs j ((s.refs j).erase id)
      some { s with refs := update refs i (id :: refs i) }
    else none
  | .step j spurious => s.stepThread k j spurious

/-- A pool of `2 ^ k` entries with any number of threads, each of which releases only references that it has. -/
def sys (k : ℕ) (ι : Type) [DecidableEq ι] : System (St ι) (Act ι) where
  init s := s = .init
  step := St.step k

end Prs.PoolSteps
