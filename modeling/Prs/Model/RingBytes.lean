import Prs.Lib.Bytes
import Prs.Model.PoolWords

/-!
# The ring, byte by byte (`lib/ds/mpmcring.c`, `lib/ds/pool.c`)

`entries` of the pool that `prs_mpmcring_create` makes is an area of bytes. An entry of the pool is its header
and `data_size` bytes, and an entry of the ring is in those bytes: the id of the next one, a flag of one byte,
and the data of the user. Words have 8 bytes, low byte first, and addresses are counted from the start of the
area. An entry is its index, and an element is the address of its data.
-/

namespace Prs.RingBytes

open Function Bytes PoolWords

/-- `offsetof(struct prs_pool_entry, data)`. -/
def poolOffset : ℕ := 8

/-- The offsets in a `struct prs_mpmcring_entry`. -/
def consumedOffset : ℕ := 8

def dataOffset : ℕ := 9

/-- `entry_size` of `prs_pool_create`, which `prs_mpmcring_create` passes its own `data_size`. -/
def entrySize (dataSize : ℕ) : ℕ := dataSize + poolOffset

/-- The size of `entries`. -/
def areaSize (k dataSize : ℕ) : ℕ := entrySize dataSize * 2 ^ k

/-- `prs_pool_get_entry`, for the index of an entry. -/
def entryPos (dataSize e : ℕ) : ℕ := e * entrySize dataSize

/-- The address of an entry of the ring. -/
def ringPos (dataSize e : ℕ) : ℕ := entryPos dataSize e + poolOffset

/-- The address of the data of the user. -/
def dataPos (dataSize e : ℕ) : ℕ := ringPos dataSize e + dataOffset

/-- The fields of an entry. -/
def header (dataSize : ℕ) (m : Mem) (e : ℕ) : ℕ := load m (entryPos dataSize e) 8

def next (dataSize : ℕ) (m : Mem) (e : ℕ) : ℕ := load m (ringPos dataSize e) 8

def consumed (dataSize : ℕ) (m : Mem) (e : ℕ) : BitVec 8 := m (ringPos dataSize e + consumedOffset)

/-- `struct prs_mpmcring`, with its pool. -/
structure Ring where
  mem : Mem
  writeIndex : ℕ
  headId : ℕ
  tailId : ℕ

/-- `prs_mpmcring_create`. -/
def Ring.create : Ring := ⟨store (fun _ => 0#8) 0 8 allocMask, 1, invalid, invalid⟩

/-- The pool, as far as its headers go. -/
def Ring.pool (dataSize : ℕ) (r : Ring) : Pool := ⟨header dataSize r.mem, r.writeIndex⟩

/-- `prs_pool_lock_first`. -/
def lockFirst (dataSize : ℕ) (m : Mem) (e id : ℕ) : Mem :=
  let header := header dataSize m e
  if getId header ≠ id then m
  else if testAlloc header = false then m
  else if getRefcnt header ≠ 0 then m
  else store m (entryPos dataSize e) 8 (first header)

/-- `prs_pool_lock`, with the entry that it returns. -/
def Ring.lock (k dataSize : ℕ) (r : Ring) (id : ℕ) : Option ℕ × Ring :=
  let e := id % 2 ^ k
  let header := header dataSize r.mem e
  if id = invalid then (none, r)
  else if getId header ≠ id then (none, r)
  else if testAlloc header = false then (none, r)
  else if getRefcnt header = 0 then (none, r)
  else if getRefcnt header = refcntMax then (none, r)
  else (some e, { r with mem := store r.mem (entryPos dataSize e) 8 (incr header) })

/-- The lock of an id unless it is invalid. -/
def Ring.lockValid (k dataSize : ℕ) (r : Ring) (id : ℕ) : Option ℕ × Ring :=
  if id ≠ invalid then r.lock k dataSize id else (none, r)

/-- `prs_pool_unlock`. -/
def Ring.unlock (k dataSize : ℕ) (r : Ring) (id : ℕ) : Ring :=
  let e := id % 2 ^ k
  let header := header dataSize r.mem e
  if id = invalid then r
  else if getId header ≠ id then r
  else if testAlloc header = false then r
  else if getRefcnt header = 0 then r
  else
    let last := decide (getRefcnt header = 1)
    { r with mem := store r.mem (entryPos dataSize e) 8 (if last then clearAlloc (decr header) else decr header) }

/-- `prs_pool_get_id` of the entry of an element. -/
def Ring.getId (r : Ring) (addr : ℕ) : ℕ := PoolWords.getId (load r.mem (addr - dataOffset - poolOffset) 8)

/-- `prs_mpmcring_alloc`, with the address that it returns. -/
def Ring.alloc (k dataSize : ℕ) (r : Ring) : Option ℕ × Ring :=
  match ((r.pool dataSize).alloc k).1 with
  | some id =>
    let e := id % 2 ^ k
    -- the header that `prs_pool_alloc` writes
    let m := store r.mem (entryPos dataSize e) 8 (fresh id)
    let m := update m (ringPos dataSize e + consumedOffset) 0#8
    let m := store m (ringPos dataSize e) 8 invalid
    (some (dataPos dataSize e),
      { r with mem := lockFirst dataSize m e id, writeIndex := ((r.pool dataSize).alloc k).2.writeIndex })
  | none => (none, r)

/-- `prs_mpmcring_free`. -/
def Ring.free (k dataSize : ℕ) (r : Ring) (addr : ℕ) : Ring := r.unlock k dataSize (r.getId addr)

/-- The loop of `prs_mpmcring_push`. -/
def Ring.pushLoop (k dataSize id : ℕ) : ℕ → List Bool → Ring → ℕ → Option ℕ → Option Ring
  | 0, _, _, _, _ => none
  | fuel + 1, spurious, r, tailId, tailEntry =>
    match tailEntry with
    | some tail =>
      let nextId := next dataSize r.mem tail
      let nextEntry := (r.lockValid k dataSize nextId).1
      let r := (r.lockValid k dataSize nextId).2
      match nextEntry with
      | some nextTail =>
        let r := r.unlock k dataSize tailId
        let r := { r with tailId := if r.tailId = tailId then nextId else r.tailId }
        Ring.pushLoop k dataSize id fuel spurious r nextId (some nextTail)
      | none =>
        if next dataSize r.mem tail = nextId ∧ spurious.headD false = false then
          let r := { r with mem := store r.mem (ringPos dataSize tail) 8 id }
          let r := r.unlock k dataSize tailId
          some { r with tailId := if r.tailId = tailId then id else r.tailId }
        else
          let r := r.unlock k dataSize tailId
          if r.tailId ≠ invalid then
            Ring.pushLoop k dataSize id fuel spurious.tail (r.lock k dataSize r.tailId).2 r.tailId
              (r.lock k dataSize r.tailId).1
          else Ring.pushLoop k dataSize id fuel spurious.tail r r.tailId (some tail)
    | none =>
      if r.tailId = tailId then some { r with tailId := id, headId := id }
      else
        Ring.pushLoop k dataSize id fuel spurious (r.lockValid k dataSize r.tailId).2 r.tailId
          (r.lockValid k dataSize r.tailId).1

/-- `prs_mpmcring_push`. A turn of the loop after the first one follows a weak exchange that has failed. -/
def Ring.push (k dataSize : ℕ) (r : Ring) (addr : ℕ) (spurious : List Bool) : Option Ring :=
  Ring.pushLoop k dataSize (r.getId addr) (spurious.length + 1) spurious
    (r.lockValid k dataSize r.tailId).2 r.tailId
    (r.lockValid k dataSize r.tailId).1

/-- The loop of `prs_mpmcring_pop`. -/
def Ring.popLoop (k dataSize : ℕ) : ℕ → List Bool → Ring → ℕ → Option ℕ → Option (Option ℕ × Ring)
  | 0, _, _, _, _ => none
  | fuel + 1, spurious, r, headId, headEntry =>
    match headEntry with
    | some head =>
      let alreadyConsumed := decide (consumed dataSize r.mem head ≠ 0#8)
      let r := { r with mem := update r.mem (ringPos dataSize head + consumedOffset) 1#8 }
      let nextId := next dataSize r.mem head
      if nextId ≠ invalid then
        let success := decide (r.headId = headId) && !spurious.headD false
        let prevHeadId := r.headId
        let r := if success then ({ r with headId := nextId } : Ring).unlock k dataSize headId else r
        if alreadyConsumed then
          let r := r.unlock k dataSize headId
          Ring.popLoop k dataSize fuel spurious.tail (r.lock k dataSize prevHeadId).2 prevHeadId
            (r.lock k dataSize prevHeadId).1
        else some (some head, r)
      else if alreadyConsumed then some (none, r.unlock k dataSize headId)
      else some (some head, r)
    | none =>
      if r.headId ≠ headId then
        Ring.popLoop k dataSize fuel spurious (r.lock k dataSize r.headId).2 r.headId
          (r.lock k dataSize r.headId).1
      else some (none, r)

/-- `prs_mpmcring_pop`, with the address that it returns. Two turns pass the first entry, and others follow a
weak exchange that has failed. -/
def Ring.pop (k dataSize : ℕ) (r : Ring) (spurious : List Bool) : Option (Option ℕ × Ring) :=
  (Ring.popLoop k dataSize (spurious.length + 3) spurious (r.lockValid k dataSize r.headId).2 r.headId
    (r.lockValid k dataSize r.headId).1).map (Prod.map (Option.map (dataPos dataSize)) id)

/-- A weak exchange may fail without a reason: a call has a list that says which of its weak exchanges do, and
none does after its end. -/
inductive Act
  | alloc
  | push (addr : ℕ) (spurious : List Bool)
  | pop (spurious : List Bool)
  | free (addr : ℕ)
  /-- A user writes a byte. -/
  | write (x : ℕ) (byte : BitVec 8)

/-- A call, with the element that it returns. -/
def Ring.exec (k dataSize : ℕ) (r : Ring) : Act → Option (Option ℕ × Ring)
  | .alloc => some (r.alloc k dataSize)
  | .push addr spurious => (r.push k dataSize addr spurious).map fun r => (none, r)
  | .pop spurious => r.pop k dataSize spurious
  | .free addr => some (none, r.free k dataSize addr)
  | .write x byte => some (none, { r with mem := update r.mem x byte })

/-- A ring of `2 ^ k` entries. A call runs to its end before the next one starts. -/
def sys (k dataSize : ℕ) : System Ring Act where
  init r := r = .create
  step r a := (r.exec k dataSize a).map Prod.snd

end Prs.RingBytes
