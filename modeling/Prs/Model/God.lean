import Prs.Lib.System
import Prs.Lib.Threads

/-!
# The global object directory (`god.c`)

A table of `2 ^ k` entries. The header of an entry is one 64-bit word with the id, three flags and the
reference count of the object in it. Threads register objects, lock and unlock them; each access to a header
or to `write_index` is one step. The fields of the state from `refs` on are history: the references that each
thread has, and what the calls have returned.
-/

namespace Prs.God

open Function

/-- `prs_god_entry_header_t`, taken apart. -/
structure Header where
  id : ℕ
  reserved : Bool
  used : Bool
  deleteMark : Bool
  refcnt : ℕ
  deriving DecidableEq

/-- `PRS_GOD_HEADER_REFCNT`. -/
def refcntMax : ℕ := 0xFFF

/-- The word. -/
def Header.word (h : Header) : ℕ :=
  h.id * 2 ^ 32 + h.reserved.toNat * 2 ^ 14 + h.used.toNat * 2 ^ 13 + h.deleteMark.toNat * 2 ^ 12 + h.refcnt

/-- The fields of a word. -/
def Header.ofWord (w : ℕ) : Header where
  id := w / 2 ^ 32 % 2 ^ 32
  reserved := decide (w / 2 ^ 14 % 2 = 1)
  used := decide (w / 2 ^ 13 % 2 = 1)
  deleteMark := decide (w / 2 ^ 12 % 2 = 1)
  refcnt := w % 2 ^ 12

/-- `header & PRS_GOD_HEADER_ID`. -/
def Header.onlyId (h : Header) : Header := ⟨h.id, false, false, false, 0⟩

/-- `(header | PRS_GOD_HEADER_DELETE_MARK) & ~PRS_GOD_HEADER_REFCNT`. -/
def Header.mark (h : Header) : Header := { h with deleteMark := true, refcnt := 0 }

/-- A thread. It is before the access to memory that the name says; `o` is the object that it registers. -/
inductive Pc
  | idle
  | allocLoad (o : ℕ)
  | allocHeader (o i stop : ℕ)
  | allocCas (o i stop : ℕ) (header : Header)
  | allocIndex (o i : ℕ)
  | allocStore (o i : ℕ)
  | lockLoad (id : ℕ)
  | lockCas (id : ℕ) (header : Header)
  | unlockLoad (id : ℕ) (final : Bool)
  | unlockCas (id : ℕ) (final : Bool) (header : Header)
  | freeLoad (id : ℕ)
  | freeCall (id : ℕ) (header : Header)
  | freeCas (id : ℕ) (header : Header)
  deriving DecidableEq

structure St (ι : Type) where
  header : ℕ → Header
  object : ℕ → ℕ
  writeIndex : ℕ
  pc : ι → Pc
  /-- The ids of the references that a thread has obtained and not released. -/
  refs : ι → List ℕ
  /-- The objects for which `prs_god_alloc_and_lock` was called. -/
  objects : List ℕ
  /-- The ids that it has returned, with the objects, latest first. -/
  returned : List (ℕ × ℕ)
  /-- The ids with which `prs_god_lock` has succeeded, with the objects returned. -/
  locked : List (ℕ × ℕ)
  /-- The objects that were passed to the free callback. -/
  freed : List ℕ

/-- A weak exchange may fail without a reason (`spurious`). `final` is for `prs_god_try_unlock_final`. -/
inductive Act (ι : Type)
  | alloc (j : ι) (o : ℕ)
  | lock (j : ι) (id : ℕ)
  | unlock (j : ι) (id : ℕ) (final : Bool)
  | step (j : ι) (spurious : Bool)

/-- `prs_god_create`. -/
def St.init {ι : Type} : St ι where
  header := fun e => if e = 0 then ⟨0, true, true, false, 0⟩ else ⟨0, false, false, false, 0⟩
  object := fun _ => 0
  writeIndex := 1
  pc := fun _ => .idle
  refs := fun _ => []
  objects := []
  returned := []
  locked := []
  freed := []

/-- The head of the loop in `prs_god_alloc_and_lock`. -/
def Pc.probe (o i stop : ℕ) : Pc := if i < stop then .allocHeader o i stop else .idle

/-- `i + 1` of a `prs_god_index_t`. -/
def succ (i : ℕ) : ℕ := (i + 1) % 2 ^ 32

/-- The checks of the loop in `prs_god_lock_entry`. -/
def Pc.checkLock (id : ℕ) (header : Header) : Pc :=
  if header.id = id ∧ header.used = true ∧ header.deleteMark = false ∧ header.refcnt ≠ refcntMax then
    .lockCas id header
  else .idle

/-- The checks of the loop in `prs_god_unlock`, and of that in `prs_god_try_unlock_final`. -/
def Pc.checkUnlock (id : ℕ) (final : Bool) (header : Header) : Pc :=
  if header.id = id ∧ header.used = true ∧ header.refcnt ≠ 0 ∧ (final = false ∨ header.refcnt = 1) then
    .unlockCas id final header
  else .idle

/-- The header that `prs_god_unlock` exchanges `header` for. -/
def Header.unlocked (header : Header) : Header :=
  if header.refcnt = 1 then header.mark else .ofWord (header.word - 1)

variable {ι : Type} [DecidableEq ι]

def St.goto (s : St ι) (j : ι) (p : Pc) : St ι := { s with pc := update s.pc j p }

/-- A step of thread `j`, in a table of `2 ^ k` entries. -/
def St.stepThread (k : ℕ) (s : St ι) (j : ι) (spurious : Bool) : Option (St ι) :=
  match s.pc j with
  | .idle => none
  | .allocLoad o => some (s.goto j (.probe o s.writeIndex ((s.writeIndex + 2 ^ k) % 2 ^ 32)))
  | .allocHeader o i stop =>
    let header := s.header (i % 2 ^ k)
    if header.reserved = true then some (s.goto j (.probe o (succ i) stop))
    else if header.id = i then some (s.goto j (.probe o (succ i) stop))
    else some (s.goto j (.allocCas o i stop header))
  | .allocCas o i stop header =>
    if s.header (i % 2 ^ k) = header then
      some { s with
        header := update s.header (i % 2 ^ k) ⟨i, true, false, false, 1⟩
        pc := update s.pc j (.allocIndex o i) }
    else some (s.goto j (.probe o (succ i) stop))
  | .allocIndex o i => some { s with writeIndex := succ i, pc := update s.pc j (.allocStore o i) }
  | .allocStore o i =>
    some { s with
      object := update s.object (i % 2 ^ k) o
      header := update s.header (i % 2 ^ k) ⟨i, true, true, false, 1⟩
      pc := update s.pc j .idle
      refs := update s.refs j (i :: s.refs j)
      returned := (i, o) :: s.returned }
  | .lockLoad id => some (s.goto j (.checkLock id (s.header (id % 2 ^ k))))
  | .lockCas id header =>
    if s.header (id % 2 ^ k) = header ∧ spurious = false then
      some { s with
        header := update s.header (id % 2 ^ k) (.ofWord (header.word + 1))
        pc := update s.pc j .idle
        refs := update s.refs j (id :: s.refs j)
        locked := (id, s.object (id % 2 ^ k)) :: s.locked }
    else some (s.goto j (.checkLock id (s.header (id % 2 ^ k))))
  | .unlockLoad id final => some (s.goto j (.checkUnlock id final (s.header (id % 2 ^ k))))
  | .unlockCas id final header =>
    if s.header (id % 2 ^ k) = header ∧ spurious = false then
      some { s with
        header := update s.header (id % 2 ^ k) header.unlocked
        pc := update s.pc j (if header.unlocked.refcnt = 0 then .freeLoad id else .idle)
        refs := update s.refs j ((s.refs j).erase id) }
    else some (s.goto j (.checkUnlock id final (s.header (id % 2 ^ k))))
  | .freeLoad id => some (s.goto j (.freeCall id (s.header (id % 2 ^ k))))
  | .freeCall id header =>
    some { s with pc := update s.pc j (.freeCas id header), freed := s.object (id % 2 ^ k) :: s.freed }
  | .freeCas id header =>
    if s.header (id % 2 ^ k) = header ∧ spurious = false then
      some { s with header := update s.header (id % 2 ^ k) header.onlyId, pc := update s.pc j .idle }
    else some (s.goto j (.freeCas id (s.header (id % 2 ^ k))))

def St.step (k : ℕ) (s : St ι) : Act ι → Option (St ι)
  | .alloc j o =>
    if s.pc j = .idle ∧ o ∉ s.objects then
      some { s with pc := update s.pc j (.allocLoad o), objects := o :: s.objects }
    else none
  | .lock j id => if s.pc j = .idle ∧ 0 < id ∧ id < 2 ^ 32 then some (s.goto j (.lockLoad id)) else none
  | .unlock j id final => if s.pc j = .idle ∧ id ∈ s.refs j then some (s.goto j (.unlockLoad id final)) else none
  | .step j spurious => s.stepThread k j spurious

/-- A directory of `2 ^ k` entries with any number of threads, each of which releases only references that it
has. -/
def sys (k : ℕ) (ι : Type) [DecidableEq ι] : System (St ι) (Act ι) where
  init s := s = .init
  step := St.step k

end Prs.God
