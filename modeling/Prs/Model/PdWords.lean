import Mathlib.Data.Finmap
import Prs.Lib.RoundRobin

/-!
# The pointer directory, word by word (`lib/ds/pd.c`)

The header of an entry is one 64-bit word: an id in the low 52 bits and a count in the high 12. A table of
`2 ^ k` entries keeps an id in the entry of its low `k` bits. Each of the three operations is atomic here, as
it takes effect in one exchange of a header, and a pointer is of any type `P` with a null.

`Map` is what the directory is for: a finite map from ids to a pointer and a count. It is not from the source.
-/

namespace Prs.PdWords

open Function

/-- `PRS_PD_REFCNT_INC`. -/
def refcntInc : ℕ := 2 ^ 52

/-- `PRS_PD_REFCNT_MASK >> PRS_PD_REFCNT_SHIFT`. -/
def refcntMax : ℕ := 4095

/-- `PRS_PD_ID_INVALID`. -/
def invalid : ℕ := 2 ^ 64 - 1

/-- `PRS_PD_GET_ID`. -/
def getId (header : ℕ) : ℕ := header % refcntInc

/-- `PRS_PD_GET_REFCNT`. -/
def getRefcnt (header : ℕ) : ℕ := header / refcntInc % 2 ^ 12

/-- The words that the operations exchange a header for: `PRS_PD_REFCNT_INC | (i & PRS_PD_ID_MASK)`,
`header + PRS_PD_REFCNT_INC` and `header - PRS_PD_REFCNT_INC`. -/
def first (i : ℕ) : ℕ := refcntInc + i % refcntInc

def incr (header : ℕ) : ℕ := (header + refcntInc) % 2 ^ 64

def decr (header : ℕ) : ℕ := (header + (2 ^ 64 - refcntInc)) % 2 ^ 64

/-- `struct prs_pd`. -/
structure Dir (P : Type) where
  header : ℕ → ℕ
  ptr : ℕ → P
  writeIndex : ℕ

variable {P : Type}

/-- `prs_pd_create`. -/
def Dir.create (null : P) : Dir P := ⟨fun _ => 0, fun _ => null, 1⟩

/-- `prs_pd_alloc_and_lock`. -/
def Dir.alloc (k : ℕ) (d : Dir P) (ptr : P) : Option ℕ × Dir P :=
  match probe 64 (2 ^ k) d.writeIndex (fun e => getRefcnt (d.header e) == 0) (fun e => getId (d.header e)) with
  | some i =>
    (some i,
      { header := update d.header (i % 2 ^ k) (first i)
        ptr := update d.ptr (i % 2 ^ k) ptr
        writeIndex := (i + 1) % 2 ^ 64 })
  | none => (none, d)

/-- `prs_pd_lock`. -/
def Dir.lock (k : ℕ) (null : P) (d : Dir P) (id : ℕ) : P × Dir P :=
  let header := d.header (id % 2 ^ k)
  if id = invalid then (null, d)
  else if getId header ≠ id then (null, d)
  else if getRefcnt header = 0 then (null, d)
  else if getRefcnt header = refcntMax then (null, d)
  else (d.ptr (id % 2 ^ k), { d with header := update d.header (id % 2 ^ k) (incr header) })

/-- `prs_pd_unlock`. -/
def Dir.unlock (k : ℕ) (d : Dir P) (id : ℕ) : Bool × Dir P :=
  let header := d.header (id % 2 ^ k)
  if id = invalid then (false, d)
  else if getId header ≠ id then (false, d)
  else if getRefcnt header = 0 then (false, d)
  else (getRefcnt header == 1, { d with header := update d.header (id % 2 ^ k) (decr header) })

inductive Act (P : Type)
  | alloc (ptr : P)
  | lock (id : ℕ)
  | unlock (id : ℕ)

inductive Res (P : Type)
  | ok (id : ℕ)
  | outOfMemory
  | ptr (ptr : P)
  | last (last : Bool)

/-- An operation on a table of `2 ^ k` entries, and what it returns. -/
def Dir.exec (k : ℕ) (null : P) (d : Dir P) : Act P → Res P × Dir P
  | .alloc ptr => ((d.alloc k ptr).1.elim .outOfMemory .ok, (d.alloc k ptr).2)
  | .lock id => (.ptr (d.lock k null id).1, (d.lock k null id).2)
  | .unlock id => (.last (d.unlock k id).1, (d.unlock k id).2)

/-- The operations of a run, each with its result. -/
def Dir.trace (k : ℕ) (null : P) : Dir P → List (Act P) → List (Act P × Res P)
  | _, [] => []
  | d, a :: as => (a, (d.exec k null a).1) :: Dir.trace k null (d.exec k null a).2 as

/-- Every index that an allocation tries has its 52 bits. -/
def Dir.Fits (k : ℕ) (null : P) : Dir P → List (Act P) → Prop
  | _, [] => True
  | d, a :: as =>
    ((∃ ptr, a = .alloc ptr) → d.writeIndex + 2 ^ k ≤ refcntInc) ∧ Dir.Fits k null (d.exec k null a).2 as

/-- A finite map from ids to a pointer and a count, and the ids that it has ever had. -/
structure Map (P : Type) where
  entries : Finmap fun _ : ℕ => P × ℕ
  given : Finset ℕ

def Map.empty : Map P := ⟨∅, ∅⟩

def Map.set (f : Map P) (id : ℕ) (ptr : P) (count : ℕ) : Map P :=
  { f with entries := f.entries.insert id (ptr, count) }

/-- **What an operation may do** to a map of at most `m` entries, and what it returns then. -/
inductive Map.Step (m : ℕ) (null : P) (f : Map P) : Act P → Res P → Map P → Prop
  | alloc {ptr : P} {id : ℕ} (h : f.entries.keys.card < m) (hid : id ∉ f.given) (hvalid : id ≠ invalid) :
    Map.Step m null f (.alloc ptr) (.ok id) { f.set id ptr 1 with given := insert id f.given }
  | full {ptr : P} (h : f.entries.keys.card = m) : Map.Step m null f (.alloc ptr) .outOfMemory f
  | lock {id count : ℕ} {ptr : P} (h : f.entries.lookup id = some (ptr, count)) (hc : count < refcntMax) :
    Map.Step m null f (.lock id) (.ptr ptr) (f.set id ptr (count + 1))
  | lockMax {id : ℕ} {ptr : P} (h : f.entries.lookup id = some (ptr, refcntMax)) :
    Map.Step m null f (.lock id) (.ptr null) f
  | lockDead {id : ℕ} (h : f.entries.lookup id = none) : Map.Step m null f (.lock id) (.ptr null) f
  | unlock {id count : ℕ} {ptr : P} (h : f.entries.lookup id = some (ptr, count + 2)) :
    Map.Step m null f (.unlock id) (.last false) (f.set id ptr (count + 1))
  | unlockLast {id : ℕ} {ptr : P} (h : f.entries.lookup id = some (ptr, 1)) :
    Map.Step m null f (.unlock id) (.last true) { f with entries := f.entries.erase id }
  | unlockDead {id : ℕ} (h : f.entries.lookup id = none) : Map.Step m null f (.unlock id) (.last false) f

/-- A run of the map, with the results of its operations. -/
inductive Map.Run (m : ℕ) (null : P) : Map P → List (Act P × Res P) → Map P → Prop
  | nil (f : Map P) : Map.Run m null f [] f
  | cons {f g h : Map P} {a : Act P} {r : Res P} {t : List (Act P × Res P)} (hs : Map.Step m null f a r g)
    (ht : Map.Run m null g t h) : Map.Run m null f ((a, r) :: t) h

end Prs.PdWords
