import Prs.Model.RingBytes
import Prs.Model.RingSteps

/-!
# Threads that share the bytes of a ring

The steps of `Prs.Model.RingSteps` on the area of bytes of `Prs.Model.RingBytes`. An access reads the fields
that the bytes say, and stores the one that it is at: eight bytes of a header or of a link, or the byte of a
flag. The users of elements write their bytes.
-/

namespace Prs.RingByteSteps

open Function Bytes PoolWords RingBytes
open RingSteps (Pc)

/-- The fields from `owned` on are history, as in `Prs.Model.RingSteps`. -/
structure St (ι : Type) where
  mem : Mem
  writeIndex : ℕ
  headId : ℕ
  tailId : ℕ
  pc : ι → Pc
  owned : List ℕ
  popped : List ℕ
  pushed : List ℕ
  listed : List ℕ
  took : List ℕ
  got : List ℕ
  heads : List ℕ
  pred : ℕ → Option ℕ

/-- `prs_mpmcring_create`. -/
def St.init {ι : Type} : St ι where
  mem := Ring.create.mem
  writeIndex := Ring.create.writeIndex
  headId := Ring.create.headId
  tailId := Ring.create.tailId
  pc := fun _ => .idle
  owned := []
  popped := []
  pushed := []
  listed := []
  took := []
  got := []
  heads := []
  pred := fun _ => none

/-- The ring that the bytes say. -/
def St.fields {ι : Type} (dataSize : ℕ) (s : St ι) : RingSteps.St ι where
  pool := ⟨header dataSize s.mem, s.writeIndex⟩
  next := next dataSize s.mem
  consumed e := decide (consumed dataSize s.mem e ≠ 0#8)
  headId := s.headId
  tailId := s.tailId
  pc := s.pc
  owned := s.owned
  popped := s.popped
  pushed := s.pushed
  listed := s.listed
  took := s.took
  got := s.got
  heads := s.heads
  pred := s.pred

/-- All that a step leaves, with the bytes that it has stored. -/
def St.ofFields {ι : Type} (mem : Mem) (t : RingSteps.St ι) : St ι where
  mem := mem
  writeIndex := t.pool.writeIndex
  headId := t.headId
  tailId := t.tailId
  pc := t.pc
  owned := t.owned
  popped := t.popped
  pushed := t.pushed
  listed := t.listed
  took := t.took
  got := t.got
  heads := t.heads
  pred := t.pred

/-- A field of an entry. -/
inductive Cell
  | header (e : ℕ)
  | link (e : ℕ)
  | flag (e : ℕ)

/-- The field that an access stores. An exchange that fails leaves it as it is. -/
def cell (k : ℕ) : Pc → Option Cell
  | .allocCas i _ _ => some (.header (i % 2 ^ k))
  | .allocConsumed id => some (.flag (id % 2 ^ k))
  | .allocNext id => some (.link (id % 2 ^ k))
  | .allocFirst id => some (.header (id % 2 ^ k))
  | .pushLock _ tailId => some (.header (tailId % 2 ^ k))
  | .pushLockNext _ _ _ nextId => some (.header (nextId % 2 ^ k))
  | .pushUnlock _ tailId _ _ => some (.header (tailId % 2 ^ k))
  | .pushLink _ _ tail _ => some (.link tail)
  | .pushRetry _ tailId _ => some (.header (tailId % 2 ^ k))
  | .pushLinked _ tailId => some (.header (tailId % 2 ^ k))
  | .popLock headId => some (.header (headId % 2 ^ k))
  | .popConsume _ head => some (.flag head)
  | .popPass headId _ _ => some (.header (headId % 2 ^ k))
  | .popAgain headId _ => some (.header (headId % 2 ^ k))
  | .popEmpty headId => some (.header (headId % 2 ^ k))
  | .freeUnlock id => some (.header (id % 2 ^ k))
  | _ => none

/-- The store of a field of `t`. -/
def Cell.store {ι : Type} (dataSize : ℕ) (m : Mem) (t : RingSteps.St ι) : Cell → Mem
  | .header e => Bytes.store m (entryPos dataSize e) 8 (t.pool.header e)
  | .link e => Bytes.store m (ringPos dataSize e) 8 (t.next e)
  | .flag e => update m (ringPos dataSize e + consumedOffset) (if t.consumed e = true then 1#8 else 0#8)

inductive Act (ι : Type)
  /-- A call begins, or a thread makes a step of its call. -/
  | call (a : RingSteps.Act ι)
  /-- A user writes a byte. -/
  | write (x : ℕ) (byte : BitVec 8)

variable {ι : Type}

/-- The field that an action stores. -/
def touched (k : ℕ) (pc : ι → Pc) : RingSteps.Act ι → Option Cell
  | .step j _ => cell k (pc j)
  | _ => none

variable [DecidableEq ι]

def St.step (k dataSize : ℕ) (s : St ι) : Act ι → Option (St ι)
  | .call a => ((s.fields dataSize).step k a).map fun t =>
    .ofFields ((touched k s.pc a).elim s.mem (Cell.store dataSize s.mem t)) t
  | .write x byte => some { s with mem := update s.mem x byte }

/-- A ring of `2 ^ k` entries of `dataSize` bytes, with any number of threads. -/
def sys (k dataSize : ℕ) (ι : Type) [DecidableEq ι] : System (St ι) (Act ι) where
  init s := s = .init
  step := St.step k dataSize

end Prs.RingByteSteps
