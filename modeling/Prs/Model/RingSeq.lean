import Prs.Model.PoolWords

/-!
# A ring with its fields apart

What a ring is for its users as long as an entry has room for its link and its flag: the calls of
`Prs.Model.RingBytes` on a ring whose headers, links and flags are three arrays, over the pool of
`Prs.Model.PoolWords`. An element is the index of its entry. The bytes of a ring are such a ring from a
`data_size` of nine on (`Prs.Proof.RingApart`), and not below it: there the flag of an entry is a byte of the
next header.
-/

namespace Prs.RingSeq

open Function PoolWords

/-- `struct prs_mpmcring`, with its pool and the links and flags of the entries. -/
structure St where
  pool : Pool
  next : ℕ → ℕ
  consumed : ℕ → Bool
  headId : ℕ
  tailId : ℕ

/-- `prs_mpmcring_create`. -/
def St.create : St := ⟨.create, fun _ => 0, fun _ => false, invalid, invalid⟩

/-- `prs_pool_get_id`. -/
def St.getId (s : St) (e : ℕ) : ℕ := PoolWords.getId (s.pool.header e)

/-- `prs_pool_lock`, with the entry that it returns. -/
def St.lock (k : ℕ) (s : St) (id : ℕ) : Option ℕ × St :=
  (if (s.pool.lock k id).1 = true then some (id % 2 ^ k) else none, { s with pool := (s.pool.lock k id).2 })

/-- The lock of an id unless it is invalid. -/
def St.lockValid (k : ℕ) (s : St) (id : ℕ) : Option ℕ × St := if id ≠ invalid then s.lock k id else (none, s)

/-- `prs_pool_unlock`. -/
def St.unlock (k : ℕ) (s : St) (id : ℕ) : St := { s with pool := (s.pool.unlock k id).2 }

/-- `prs_mpmcring_alloc`. -/
def St.alloc (k : ℕ) (s : St) : Option ℕ × St :=
  match s.pool.alloc k with
  | (some id, pool) =>
    let e := id % 2 ^ k
    (some e, { s with
      consumed := update s.consumed e false
      next := update s.next e invalid
      pool := pool.lockFirst k id })
  | (none, pool) => (none, { s with pool := pool })

/-- `prs_mpmcring_free`. -/
def St.free (k : ℕ) (s : St) (e : ℕ) : St := s.unlock k (s.getId e)

/-- The loop of `prs_mpmcring_push`. -/
def St.pushLoop (k id : ℕ) : ℕ → List Bool → St → ℕ → Option ℕ → Option St
  | 0, _, _, _, _ => none
  | fuel + 1, spurious, s, tailId, tailEntry =>
    match tailEntry with
    | some tail =>
      let nextId := s.next tail
      let nextEntry := (s.lockValid k nextId).1
      let s := (s.lockValid k nextId).2
      match nextEntry with
      | some next =>
        let s := s.unlock k tailId
        let s := { s with tailId := if s.tailId = tailId then nextId else s.tailId }
        St.pushLoop k id fuel spurious s nextId (some next)
      | none =>
        if s.next tail = nextId ∧ spurious.headD false = false then
          let s := { s with next := update s.next tail id }
          let s := s.unlock k tailId
          some { s with tailId := if s.tailId = tailId then id else s.tailId }
        else
          let s := s.unlock k tailId
          if s.tailId ≠ invalid then
            St.pushLoop k id fuel spurious.tail (s.lock k s.tailId).2 s.tailId (s.lock k s.tailId).1
          else St.pushLoop k id fuel spurious.tail s s.tailId (some tail)
    | none =>
      if s.tailId = tailId then some { s with tailId := id, headId := id }
      else St.pushLoop k id fuel spurious (s.lockValid k s.tailId).2 s.tailId (s.lockValid k s.tailId).1

/-- `prs_mpmcring_push`. A turn of the loop after the first one follows a weak exchange that has failed. -/
def St.push (k : ℕ) (s : St) (e : ℕ) (spurious : List Bool) : Option St :=
  St.pushLoop k (s.getId e) (spurious.length + 1) spurious (s.lockValid k s.tailId).2 s.tailId
    (s.lockValid k s.tailId).1

/-- The loop of `prs_mpmcring_pop`. -/
def St.popLoop (k : ℕ) : ℕ → List Bool → St → ℕ → Option ℕ → Option (Option ℕ × St)
  | 0, _, _, _, _ => none
  | fuel + 1, spurious, s, headId, headEntry =>
    match headEntry with
    | some head =>
      let alreadyConsumed := s.consumed head
      let s := { s with consumed := update s.consumed head true }
      let nextId := s.next head
      if nextId ≠ invalid then
        let success := decide (s.headId = headId) && !spurious.headD false
        let prevHeadId := s.headId
        let s := if success then ({ s with headId := nextId } : St).unlock k headId else s
        if alreadyConsumed then
          let s := s.unlock k headId
          St.popLoop k fuel spurious.tail (s.lock k prevHeadId).2 prevHeadId (s.lock k prevHeadId).1
        else some (some head, s)
      else if alreadyConsumed then some (none, s.unlock k headId)
      else some (some head, s)
    | none =>
      if s.headId ≠ headId then St.popLoop k fuel spurious (s.lock k s.headId).2 s.headId (s.lock k s.headId).1
      else some (none, s)

/-- `prs_mpmcring_pop`. Two turns pass the first entry, and others follow a weak exchange that has failed. -/
def St.pop (k : ℕ) (s : St) (spurious : List Bool) : Option (Option ℕ × St) :=
  St.popLoop k (spurious.length + 3) spurious (s.lockValid k s.headId).2 s.headId (s.lockValid k s.headId).1

end Prs.RingSeq
