import Prs.Lib.Threads
import Prs.Model.PoolWords

/-!
# Threads that share a ring (`lib/ds/mpmcring.c`)

Threads in the calls of a ring of `2 ^ k` entries. Each access to `head_id`, to `tail_id`, to the link or the
flag of an entry is one step. So is `prs_pool_lock`, `prs_pool_unlock` or `prs_pool_lock_first`, which takes
effect in one exchange of a header (the words are those of `Prs.Model.PoolWords`), and each access of
`prs_pool_alloc` to memory.

The header, the link and the flag of an entry are in three arrays. They are so in memory from a `data_size` of
nine on, and `Prs.Model.RingByteSteps` has these steps on the bytes for every `data_size`.

An element is the index of its entry, and `prs_pool_get_id` finds the id in the header. Elements that have
been allocated or popped can be handed from thread to thread. The fields of the state from `owned` on are
history: `owned` has the ids that were allocated and not pushed or freed, `popped` those that were popped and
not freed.
-/

namespace Prs.RingSteps

open Function PoolWords

/-- A thread. It is before the access to memory that the name says. `tailId` and `tail` are `tail_id` and
`tail_entry` in `prs_mpmcring_push`, and so on. -/
inductive Pc
  | idle
  | allocLoad
  | allocHeader (i stop : ℕ)
  | allocCas (i stop header : ℕ)
  | allocIndex (id : ℕ)
  | allocConsumed (id : ℕ)
  | allocNext (id : ℕ)
  | allocFirst (id : ℕ)
  | pushLoad (id : ℕ)
  | pushLock (id tailId : ℕ)
  | pushNext (id tailId tail : ℕ)
  | pushLockNext (id tailId tail nextId : ℕ)
  | pushUnlock (id tailId nextId next : ℕ)
  | pushMove (id tailId nextId next : ℕ)
  | pushLink (id tailId tail nextId : ℕ)
  | pushRetry (id tailId tail : ℕ)
  | pushReload (id tail : ℕ)
  | pushLinked (id tailId : ℕ)
  | pushTail (id tailId : ℕ)
  | pushFirst (id tailId : ℕ)
  | pushHead (id : ℕ)
  | popLoad
  | popLock (headId : ℕ)
  | popConsume (headId head : ℕ)
  | popNext (headId head : ℕ) (consumed : Bool)
  | popCas (headId head nextId : ℕ) (consumed : Bool)
  | popPass (headId head : ℕ) (consumed : Bool)
  | popAgain (headId prevHeadId : ℕ)
  | popEmpty (headId : ℕ)
  | popReload (headId : ℕ)
  | freeUnlock (id : ℕ)
  deriving DecidableEq

structure St (ι : Type) where
  pool : Pool
  next : ℕ → ℕ
  consumed : ℕ → Bool
  headId : ℕ
  tailId : ℕ
  pc : ι → Pc
  owned : List ℕ
  popped : List ℕ
  /-- The ids whose push has taken effect. -/
  pushed : List ℕ
  /-- Those that `head_id` has not been moved away from. -/
  listed : List ℕ
  /-- The ids that a pop has taken, by setting the flag, latest first. -/
  took : List ℕ
  /-- The ids that `prs_mpmcring_pop` has returned, latest first. -/
  got : List ℕ
  /-- The ids that `head_id` has had, latest first. -/
  heads : List ℕ
  /-- The id that an id was linked to. -/
  pred : ℕ → Option ℕ

/-- A weak exchange may fail without a reason (`spurious`). -/
inductive Act (ι : Type)
  | alloc (j : ι)
  | push (j : ι) (e : ℕ)
  | pop (j : ι)
  | free (j : ι) (e : ℕ)
  | step (j : ι) (spurious : Bool)

/-- `prs_mpmcring_create`. -/
def St.init {ι : Type} : St ι where
  pool := .create
  next := fun _ => 0
  consumed := fun _ => false
  headId := invalid
  tailId := invalid
  pc := fun _ => .idle
  owned := []
  popped := []
  pushed := []
  listed := []
  took := []
  got := []
  heads := []
  pred := fun _ => none

/-- The head of the loop in `prs_pool_alloc`. -/
def Pc.probe (i stop : ℕ) : Pc := if i < stop then .allocHeader i stop else .idle

/-- `i + 1` of a `prs_pool_index_t`. -/
def succ (i : ℕ) : ℕ := (i + 1) % 2 ^ 64

variable {ι : Type} [DecidableEq ι]

def St.goto (s : St ι) (j : ι) (pc : Pc) : St ι := { s with pc := update s.pc j pc }

/-- `prs_pool_lock`, on to `found` or `failed`. -/
def St.lock (k : ℕ) (s : St ι) (j : ι) (id : ℕ) (found failed : Pc) : St ι :=
  { s with
    pool := (s.pool.lock k id).2
    pc := update s.pc j (if (s.pool.lock k id).1 = true then found else failed) }

/-- `prs_pool_unlock`, on to `pc`. -/
def St.unlock (k : ℕ) (s : St ι) (j : ι) (id : ℕ) (pc : Pc) : St ι :=
  { s with pool := (s.pool.unlock k id).2, pc := update s.pc j pc }

/-- `prs_mpmcring_pop` returns an element. -/
def St.return (s : St ι) (j : ι) (id : ℕ) : St ι :=
  { s with pc := update s.pc j .idle, popped := id :: s.popped, got := id :: s.got }

/-- A step of `prs_mpmcring_alloc`. -/
def St.stepAlloc (k : ℕ) (s : St ι) (j : ι) : Option (St ι) :=
  match s.pc j with
  | .allocLoad => some (s.goto j (.probe s.pool.writeIndex ((s.pool.writeIndex + 2 ^ k) % 2 ^ 64)))
  | .allocHeader i stop =>
    let header := s.pool.header (i % 2 ^ k)
    if testAlloc header = true then some (s.goto j (.probe (succ i) stop))
    else if getId header = i then some (s.goto j (.probe (succ i) stop))
    else some (s.goto j (.allocCas i stop header))
  | .allocCas i stop header =>
    if s.pool.header (i % 2 ^ k) = header then
      some { s with
        pool := { s.pool with header := update s.pool.header (i % 2 ^ k) (fresh i) }
        pc := update s.pc j (.allocIndex i) }
    else some (s.goto j (.probe (succ i) stop))
  | .allocIndex id =>
    some { s with pool := { s.pool with writeIndex := succ id }, pc := update s.pc j (.allocConsumed id) }
  | .allocConsumed id =>
    some { s with consumed := update s.consumed (id % 2 ^ k) false, pc := update s.pc j (.allocNext id) }
  | .allocNext id =>
    some { s with next := update s.next (id % 2 ^ k) invalid, pc := update s.pc j (.allocFirst id) }
  | .allocFirst id =>
    some { s with pool := s.pool.lockFirst k id, pc := update s.pc j .idle, owned := id :: s.owned }
  | _ => none

/-- A step of `prs_mpmcring_push`. -/
def St.stepPush (k : ℕ) (s : St ι) (j : ι) (spurious : Bool) : Option (St ι) :=
  match s.pc j with
  | .pushLoad id => some (s.goto j (if s.tailId ≠ invalid then .pushLock id s.tailId else .pushFirst id s.tailId))
  | .pushLock id tailId => some (s.lock k j tailId (.pushNext id tailId (tailId % 2 ^ k)) (.pushFirst id tailId))
  | .pushNext id tailId tail =>
    let nextId := s.next tail
    some (s.goto j
      (if nextId ≠ invalid then .pushLockNext id tailId tail nextId else .pushLink id tailId tail nextId))
  | .pushLockNext id tailId tail nextId =>
    some (s.lock k j nextId (.pushUnlock id tailId nextId (nextId % 2 ^ k)) (.pushLink id tailId tail nextId))
  | .pushUnlock id tailId nextId next => some (s.unlock k j tailId (.pushMove id tailId nextId next))
  | .pushMove id tailId nextId next =>
    some { s.goto j (.pushNext id nextId next) with tailId := if s.tailId = tailId then nextId else s.tailId }
  | .pushLink id tailId tail nextId =>
    if s.next tail = nextId ∧ spurious = false then
      some { s with
        next := update s.next tail id
        pc := update s.pc j (.pushLinked id tailId)
        pushed := id :: s.pushed
        listed := id :: s.listed
        pred := update s.pred id (some tailId) }
    else some (s.goto j (.pushRetry id tailId tail))
  | .pushRetry id tailId tail => some (s.unlock k j tailId (.pushReload id tail))
  | .pushReload id tail =>
    -- `tail_entry` stays what it was when there is no tail
    some (s.goto j (if s.tailId ≠ invalid then .pushLock id s.tailId else .pushNext id s.tailId tail))
  | .pushLinked id tailId => some (s.unlock k j tailId (.pushTail id tailId))
  | .pushTail id tailId => some { s.goto j .idle with tailId := if s.tailId = tailId then id else s.tailId }
  | .pushFirst id tailId =>
    if s.tailId = tailId then
      some { s with
        tailId := id
        pc := update s.pc j (.pushHead id)
        pushed := id :: s.pushed
        listed := id :: s.listed }
    else some (s.goto j (.pushLoad id))
  | .pushHead id => some { s.goto j .idle with headId := id, heads := id :: s.heads }
  | _ => none

/-- A step of `prs_mpmcring_pop`. -/
def St.stepPop (k : ℕ) (s : St ι) (j : ι) (spurious : Bool) : Option (St ι) :=
  match s.pc j with
  | .popLoad => some (s.goto j (if s.headId ≠ invalid then .popLock s.headId else .popReload s.headId))
  | .popLock headId => some (s.lock k j headId (.popConsume headId (headId % 2 ^ k)) (.popReload headId))
  | .popConsume headId head =>
    some { s with
      consumed := update s.consumed head true
      pc := update s.pc j (.popNext headId head (s.consumed head))
      took := if s.consumed head = true then s.took else headId :: s.took }
  | .popNext headId head consumed =>
    if s.next head ≠ invalid then some (s.goto j (.popCas headId head (s.next head) consumed))
    else if consumed = true then some (s.goto j (.popEmpty headId))
    else some (s.return j headId)
  | .popCas headId head nextId consumed =>
    if s.headId = headId ∧ spurious = false then
      some { s with
        headId := nextId
        pc := update s.pc j (.popPass headId head consumed)
        listed := s.listed.erase headId
        heads := nextId :: s.heads }
    else if consumed = true then some (s.goto j (.popAgain headId s.headId))
    else some (s.return j headId)
  | .popPass headId _ consumed =>
    -- `prev_head_id` is still `head_id` after an exchange that has succeeded
    if consumed = true then some (s.unlock k j headId (.popAgain headId headId))
    else some { s.return j headId with pool := (s.pool.unlock k headId).2 }
  | .popAgain headId prevHeadId => some (s.unlock k j headId (.popLock prevHeadId))
  | .popEmpty headId => some (s.unlock k j headId .idle)
  | .popReload headId => some (s.goto j (if s.headId ≠ headId then .popLock s.headId else .idle))
  | _ => none

/-- A step of thread `j`. -/
def St.stepThread (k : ℕ) (s : St ι) (j : ι) (spurious : Bool) : Option (St ι) :=
  match s.pc j with
  | .freeUnlock id => some (s.unlock k j id .idle)
  | _ => (s.stepAlloc k j).or ((s.stepPush k j spurious).or (s.stepPop k j spurious))

/-- `prs_pool_get_id`. -/
def St.getId (s : St ι) (e : ℕ) : ℕ := PoolWords.getId (s.pool.header e)

def St.step (k : ℕ) (s : St ι) : Act ι → Option (St ι)
  | .alloc j => if s.pc j = .idle then some (s.goto j .allocLoad) else none
  | .push j e =>
    if s.pc j = .idle ∧ e ∈ s.owned.map (· % 2 ^ k) then
      some { s with pc := update s.pc j (.pushLoad (s.getId e)), owned := s.owned.erase (s.getId e) }
    else none
  | .pop j => if s.pc j = .idle then some (s.goto j .popLoad) else none
  | .free j e =>
    if s.pc j ≠ .idle then none
    else if e ∈ s.owned.map (· % 2 ^ k) then
      some { s with pc := update s.pc j (.freeUnlock (s.getId e)), owned := s.owned.erase (s.getId e) }
    else if e ∈ s.popped.map (· % 2 ^ k) then
      some { s with pc := update s.pc j (.freeUnlock (s.getId e)), popped := s.popped.erase (s.getId e) }
    else none
  | .step j spurious => s.stepThread k j spurious

/-- A ring of `2 ^ k` entries, with any number of threads. -/
def sys (k : ℕ) (ι : Type) [DecidableEq ι] : System (St ι) (Act ι) where
  init s := s = .init
  step := St.step k

end Prs.RingSteps
