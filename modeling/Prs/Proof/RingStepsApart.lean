import Prs.Model.RingByteSteps
import Prs.Proof.RingApart
import Prs.Proof.RingQueue

/-!
# Threads on the bytes of a ring

From a `data_size` of nine on, a step on the bytes of a ring is the step of `Prs.Model.RingSteps` on its
fields, and users who write up to the last nine bytes of their elements write no field. So what holds in every
run of those threads holds here.

* `Stores`, `Goes`: the field that a step stores, and the id that a push has to link; `stepThread_moves` is
  the inversion.
* `fields_reach`: the fields go through a run of `Prs.Model.RingSteps`.
* `ring_safe`: the entries that a push or a pop reads and writes are held by it, an id is locked once for each
  reference, no element is returned twice or without a push, an element has one user at a time, and `head_id`
  passes it once.
* `ring_queue`: with one push at a time, the elements are taken in the order of their pushes, and a pop that
  finds no more elements finds that all those of the pushes that have returned are taken.
-/

namespace Prs.RingByteSteps

open Function Bytes PoolWords RingBytes
open RingSteps (Pc)

variable {ι : Type} {k dataSize id e v : ℕ} {j : ι} {s t : RingSteps.St ι} {p : Pool}

section Headers

/-- An exchange of one header. -/
def Exchanges (e : ℕ) (p p' : Pool) : Prop :=
  p'.writeIndex = p.writeIndex ∧ ∃ v < 2 ^ 64, p'.header = update p.header e v

theorem exchanges_same (hp : ∀ e, p.header e < 2 ^ 64) (e : ℕ) : Exchanges e p p :=
  ⟨rfl, p.header e, hp e, (update_eq_self e p.header).symm⟩

theorem exchanges_lock (hp : ∀ e, p.header e < 2 ^ 64) (id : ℕ) : Exchanges (id % 2 ^ k) p (p.lock k id).2 := by
  have hsame := exchanges_same hp (id % 2 ^ k)
  unfold Pool.lock
  dsimp only
  split
  · exact hsame
  split
  · exact hsame
  split
  · exact hsame
  split
  · exact hsame
  split
  · exact hsame
  · exact ⟨rfl, _, incr_lt _, rfl⟩

theorem exchanges_unlock (hp : ∀ e, p.header e < 2 ^ 64) (id : ℕ) :
    Exchanges (id % 2 ^ k) p (p.unlock k id).2 := by
  have hsame := exchanges_same hp (id % 2 ^ k)
  unfold Pool.unlock
  dsimp only
  split
  · exact hsame
  split
  · exact hsame
  split
  · exact hsame
  split
  · exact hsame
  · refine ⟨rfl, _, ?_, rfl⟩
    split
    · exact clearAlloc_lt _
    · exact decr_lt _

theorem exchanges_lockFirst (hp : ∀ e, p.header e < 2 ^ 64) (id : ℕ) :
    Exchanges (id % 2 ^ k) p (p.lockFirst k id) := by
  have hsame := exchanges_same hp (id % 2 ^ k)
  unfold Pool.lockFirst
  dsimp only
  split
  · exact hsame
  split
  · exact hsame
  split
  · exact hsame
  case isFalse hn => exact ⟨rfl, _, first_lt (hp _) (not_not.1 hn), rfl⟩

end Headers

section Stores

/-- **The field that a step stores.** -/
inductive Stores (s t : RingSteps.St ι) : Option Cell → Prop
  | none (header : t.pool.header = s.pool.header) (next : t.next = s.next) (consumed : t.consumed = s.consumed) :
    Stores s t none
  | header {e v : ℕ} (hv : v < 2 ^ 64) (header : t.pool.header = update s.pool.header e v)
      (next : t.next = s.next) (consumed : t.consumed = s.consumed) : Stores s t (some (.header e))
  | link {e v : ℕ} (hv : v < 2 ^ 64) (header : t.pool.header = s.pool.header) (next : t.next = update s.next e v)
      (consumed : t.consumed = s.consumed) : Stores s t (some (.link e))
  | flag {e : ℕ} {b : Bool} (header : t.pool.header = s.pool.header) (next : t.next = s.next)
      (consumed : t.consumed = update s.consumed e b) : Stores s t (some (.flag e))

theorem Exchanges.stores (h : Exchanges e s.pool t.pool) (hn : t.next = s.next) (hc : t.consumed = s.consumed) :
    Stores s t (some (.header e)) := by
  obtain ⟨-, v, hv, hp⟩ := h
  exact .header hv hp hn hc

/-- The id that a push stores in a link. -/
def linkId : Pc → Option ℕ
  | .pushLoad id => some id
  | .pushLock id _ => some id
  | .pushNext id _ _ => some id
  | .pushLockNext id _ _ _ => some id
  | .pushUnlock id _ _ _ => some id
  | .pushMove id _ _ _ => some id
  | .pushLink id _ _ _ => some id
  | .pushRetry id _ _ => some id
  | .pushReload id _ => some id
  | .pushFirst id _ => some id
  | _ => none

/-- Words that fit. -/
structure Fits (s : RingSteps.St ι) : Prop where
  header : ∀ e, s.pool.header e < 2 ^ 64
  next : ∀ e, s.next e < 2 ^ 64
  link : ∀ j, ∀ id ∈ linkId (s.pc j), id < 2 ^ 64

/-- A thread goes on, with no other id to link than it had. -/
def Goes [DecidableEq ι] (s t : RingSteps.St ι) (j : ι) : Prop :=
  ∃ q, t.pc = update s.pc j q ∧ ∀ id ∈ linkId q, id ∈ linkId (s.pc j)

variable [DecidableEq ι] {spurious : Bool}

theorem goes_of_none {q : Pc} (ht : t.pc = update s.pc j q) (hq : linkId q = none) : Goes s t j :=
  ⟨q, ht, fun id hid => by rw [hq] at hid; cases hid⟩

theorem goes_of_eq {q : Pc} (ht : t.pc = update s.pc j q) (hq : linkId q = linkId (s.pc j)) : Goes s t j :=
  ⟨q, ht, fun id hid => by rwa [hq] at hid⟩

theorem stepAlloc_moves (h : Fits s) (hs : s.stepAlloc k j = some t) :
    Stores s t (cell k (s.pc j)) ∧ Goes s t j := by
  have hprobe : ∀ i stop, linkId (Pc.probe i stop) = none := by
    intro i stop
    unfold Pc.probe
    split <;> rfl
  cases hpc : s.pc j <;> simp only [RingSteps.St.stepAlloc, hpc, reduceCtorEq] at hs
  case allocLoad =>
    rw [← Option.some.inj hs]
    exact ⟨.none rfl rfl rfl, goes_of_none rfl (hprobe ..)⟩
  case allocHeader i stop =>
    split at hs
    · rw [← Option.some.inj hs]
      exact ⟨.none rfl rfl rfl, goes_of_none rfl (hprobe ..)⟩
    · split at hs <;> rw [← Option.some.inj hs]
      · exact ⟨.none rfl rfl rfl, goes_of_none rfl (hprobe ..)⟩
      · exact ⟨.none rfl rfl rfl, goes_of_none rfl rfl⟩
  case allocCas i stop header =>
    split at hs <;> rw [← Option.some.inj hs]
    · exact ⟨.header (fresh_lt i) rfl rfl rfl, goes_of_none rfl rfl⟩
    · have hsame := (update_eq_self (i % 2 ^ k) s.pool.header).symm
      exact ⟨.header (h.header _) hsame rfl rfl, goes_of_none rfl (hprobe ..)⟩
  case allocIndex id =>
    rw [← Option.some.inj hs]
    exact ⟨.none rfl rfl rfl, goes_of_none rfl rfl⟩
  case allocConsumed id =>
    rw [← Option.some.inj hs]
    exact ⟨.flag rfl rfl rfl, goes_of_none rfl rfl⟩
  case allocNext id =>
    rw [← Option.some.inj hs]
    exact ⟨.link (v := invalid) (by decide) rfl rfl rfl, goes_of_none rfl rfl⟩
  case allocFirst id =>
    rw [← Option.some.inj hs]
    exact ⟨(exchanges_lockFirst h.header id).stores rfl rfl, goes_of_none rfl rfl⟩

theorem stepPush_moves (h : Fits s) (hs : s.stepPush k j spurious = some t) :
    Stores s t (cell k (s.pc j)) ∧ Goes s t j := by
  cases hpc : s.pc j <;> simp only [RingSteps.St.stepPush, hpc, reduceCtorEq] at hs
  case pushLoad id =>
    rw [← Option.some.inj hs]
    refine ⟨.none rfl rfl rfl, goes_of_eq rfl ?_⟩
    rw [hpc]
    split <;> rfl
  case pushLock id tailId =>
    rw [← Option.some.inj hs]
    refine ⟨(exchanges_lock h.header tailId).stores rfl rfl, goes_of_eq rfl ?_⟩
    rw [hpc]
    split <;> rfl
  case pushNext id tailId tail =>
    rw [← Option.some.inj hs]
    refine ⟨.none rfl rfl rfl, goes_of_eq rfl ?_⟩
    rw [hpc]
    split <;> rfl
  case pushLockNext id tailId tail nextId =>
    rw [← Option.some.inj hs]
    refine ⟨(exchanges_lock h.header nextId).stores rfl rfl, goes_of_eq rfl ?_⟩
    rw [hpc]
    split <;> rfl
  case pushUnlock id tailId nextId next =>
    rw [← Option.some.inj hs]
    exact ⟨(exchanges_unlock h.header tailId).stores rfl rfl, goes_of_eq rfl (by rw [hpc]; rfl)⟩
  case pushMove id tailId nextId next =>
    rw [← Option.some.inj hs]
    exact ⟨.none rfl rfl rfl, goes_of_eq rfl (by rw [hpc]; rfl)⟩
  case pushLink id tailId tail nextId =>
    split at hs <;> rw [← Option.some.inj hs]
    · exact ⟨.link (h.link j id (by rw [hpc]; rfl)) rfl rfl rfl, goes_of_none rfl rfl⟩
    · have hsame := (update_eq_self tail s.next).symm
      exact ⟨.link (h.next tail) rfl hsame rfl, goes_of_eq rfl (by rw [hpc]; rfl)⟩
  case pushRetry id tailId tail =>
    rw [← Option.some.inj hs]
    exact ⟨(exchanges_unlock h.header tailId).stores rfl rfl, goes_of_eq rfl (by rw [hpc]; rfl)⟩
  case pushReload id tail =>
    rw [← Option.some.inj hs]
    refine ⟨.none rfl rfl rfl, goes_of_eq rfl ?_⟩
    rw [hpc]
    split <;> rfl
  case pushFirst id tailId =>
    split at hs <;> rw [← Option.some.inj hs]
    · exact ⟨.none rfl rfl rfl, goes_of_none rfl rfl⟩
    · exact ⟨.none rfl rfl rfl, goes_of_eq rfl (by rw [hpc]; rfl)⟩
  case pushLinked id tailId =>
    rw [← Option.some.inj hs]
    exact ⟨(exchanges_unlock h.header tailId).stores rfl rfl, goes_of_none rfl rfl⟩
  case pushTail | pushHead =>
    rw [← Option.some.inj hs]
    exact ⟨.none rfl rfl rfl, goes_of_none rfl rfl⟩

theorem stepPop_moves (h : Fits s) (hs : s.stepPop k j spurious = some t) :
    Stores s t (cell k (s.pc j)) ∧ Goes s t j := by
  cases hpc : s.pc j <;> simp only [RingSteps.St.stepPop, hpc, reduceCtorEq] at hs
  case popLoad =>
    rw [← Option.some.inj hs]
    refine ⟨.none rfl rfl rfl, goes_of_none rfl ?_⟩
    split <;> rfl
  case popLock headId =>
    rw [← Option.some.inj hs]
    refine ⟨(exchanges_lock h.header headId).stores rfl rfl, goes_of_none rfl ?_⟩
    split <;> rfl
  case popConsume headId head =>
    rw [← Option.some.inj hs]
    exact ⟨.flag rfl rfl rfl, goes_of_none rfl rfl⟩
  case popNext headId head consumed =>
    split at hs
    · rw [← Option.some.inj hs]
      exact ⟨.none rfl rfl rfl, goes_of_none rfl rfl⟩
    · split at hs <;> rw [← Option.some.inj hs] <;> exact ⟨.none rfl rfl rfl, goes_of_none rfl rfl⟩
  case popCas headId head nextId consumed =>
    split at hs
    · rw [← Option.some.inj hs]
      exact ⟨.none rfl rfl rfl, goes_of_none rfl rfl⟩
    · split at hs <;> rw [← Option.some.inj hs] <;> exact ⟨.none rfl rfl rfl, goes_of_none rfl rfl⟩
  case popPass headId head consumed =>
    split at hs <;> rw [← Option.some.inj hs] <;>
      exact ⟨(exchanges_unlock h.header headId).stores rfl rfl, goes_of_none rfl rfl⟩
  case popAgain headId prevHeadId =>
    rw [← Option.some.inj hs]
    exact ⟨(exchanges_unlock h.header headId).stores rfl rfl, goes_of_none rfl rfl⟩
  case popEmpty headId =>
    rw [← Option.some.inj hs]
    exact ⟨(exchanges_unlock h.header headId).stores rfl rfl, goes_of_none rfl rfl⟩
  case popReload headId =>
    rw [← Option.some.inj hs]
    refine ⟨.none rfl rfl rfl, goes_of_none rfl ?_⟩
    split <;> rfl

/-- **A step of a thread** stores the field that it is at, and goes on with the id that it has to link. -/
theorem stepThread_moves (h : Fits s) (hs : s.stepThread k j spurious = some t) :
    Stores s t (cell k (s.pc j)) ∧ Goes s t j := by
  unfold RingSteps.St.stepThread at hs
  split at hs
  case h_1 id hpc =>
    rw [← Option.some.inj hs, hpc]
    exact ⟨(exchanges_unlock h.header id).stores rfl rfl, goes_of_none rfl rfl⟩
  case h_2 =>
    rcases Option.or_eq_some_iff.1 hs with hs | ⟨-, hs⟩
    · exact stepAlloc_moves h hs
    · rcases Option.or_eq_some_iff.1 hs with hs | ⟨-, hs⟩
      · exact stepPush_moves h hs
      · exact stepPop_moves h hs

/-- **An action** stores its field: a thread where it is, and the beginning of a call none. -/
theorem step_stores {a : RingSteps.Act ι} (h : Fits s) (hs : s.step k a = some t) :
    Stores s t (touched k s.pc a) := by
  cases a with
  | alloc j =>
    obtain ⟨-, ht⟩ := Option.ite_none_right_eq_some.1 hs
    rw [← Option.some.inj ht]
    exact .none rfl rfl rfl
  | push j e =>
    obtain ⟨-, ht⟩ := Option.ite_none_right_eq_some.1 hs
    rw [← Option.some.inj ht]
    exact .none rfl rfl rfl
  | pop j =>
    obtain ⟨-, ht⟩ := Option.ite_none_right_eq_some.1 hs
    rw [← Option.some.inj ht]
    exact .none rfl rfl rfl
  | free j e =>
    obtain ⟨-, hs⟩ := Option.ite_none_left_eq_some.1 hs
    obtain hs | hs := ite_eq_iff.1 hs
    · rw [← Option.some.inj hs.2]
      exact .none rfl rfl rfl
    · obtain ⟨-, ht⟩ := Option.ite_none_right_eq_some.1 hs.2
      rw [← Option.some.inj ht]
      exact .none rfl rfl rfl
  | step j spurious => exact (stepThread_moves h hs).1

end Stores

section Links

variable [DecidableEq ι] {a : RingSteps.Act ι}

/-- The push of a thread goes on with its id, or starts with that of a header. -/
theorem link_step (h : Fits s) (hs : s.step k a = some t) : ∀ j, ∀ id ∈ linkId (t.pc j), id < 2 ^ 64 := by
  have hmove : ∀ j q, t.pc = update s.pc j q → (∀ id ∈ linkId q, id < 2 ^ 64) → ∀ i, ∀ id ∈ linkId (t.pc i),
    id < 2 ^ 64 := by
    intro j q ht hq i
    rw [ht]
    exact forall_update (P := fun q => ∀ id ∈ linkId q, id < 2 ^ 64) h.link hq i
  have hnone : ∀ q, linkId q = none → ∀ id ∈ linkId q, id < 2 ^ 64 := fun q hq id hid => by
    rw [hq] at hid
    cases hid
  cases a with
  | alloc j =>
    obtain ⟨-, rfl⟩ := Option.ite_none_right_eq_some.1 hs |>.imp_right Option.some.inj
    exact hmove j _ rfl (hnone _ rfl)
  | push j e =>
    obtain ⟨-, rfl⟩ := Option.ite_none_right_eq_some.1 hs |>.imp_right Option.some.inj
    refine hmove j _ rfl fun id hid => ?_
    rw [← Option.some.inj hid]
    exact getId_lt _
  | pop j =>
    obtain ⟨-, rfl⟩ := Option.ite_none_right_eq_some.1 hs |>.imp_right Option.some.inj
    exact hmove j _ rfl (hnone _ rfl)
  | free j e =>
    simp only [RingSteps.St.step] at hs
    split at hs
    · cases hs
    split at hs
    · rw [← Option.some.inj hs] at hmove ⊢
      exact hmove j _ rfl (hnone _ rfl)
    split at hs
    · rw [← Option.some.inj hs] at hmove ⊢
      exact hmove j _ rfl (hnone _ rfl)
    · cases hs
  | step j spurious =>
    obtain ⟨-, q, ht, hq⟩ := stepThread_moves h hs
    exact hmove j q ht fun id hid => h.link j id (hq id hid)

end Links

section Fields

variable {b : St ι} {m : Mem}

theorem fields_of_eq (hheader : header dataSize m = t.pool.header) (hnext : next dataSize m = t.next)
    (hconsumed : (fun e => decide (consumed dataSize m e ≠ 0#8)) = t.consumed) :
    (St.ofFields m t).fields dataSize = t := by
  have hfields : (St.ofFields m t).fields dataSize = { t with
      pool := ⟨header dataSize m, t.pool.writeIndex⟩
      next := next dataSize m
      consumed := fun e => decide (consumed dataSize m e ≠ 0#8) } := rfl
  rw [hfields, hheader, hnext, hconsumed]

/-- **The fields after a store** are those of the step. -/
theorem fields_ofFields (hd : 9 ≤ dataSize) {c : Option Cell} (h : Stores (b.fields dataSize) t c) :
    (St.ofFields (c.elim b.mem (Cell.store dataSize b.mem t)) t).fields dataSize = t := by
  cases h with
  | none hheader hnext hconsumed => exact fields_of_eq hheader.symm hnext.symm hconsumed.symm
  | @header e v hv hheader hnext hconsumed =>
    have hval : t.pool.header e = v := by rw [hheader, update_self]
    obtain ⟨h1, h2, h3⟩ := header_stored hd hv b.mem e
    rw [← hval] at h1 h2 h3
    refine fields_of_eq ?_ (h2.trans hnext.symm) ?_
    · rw [hheader, ← hval]
      exact h1
    · rw [hconsumed]
      exact congrArg (fun c : ℕ → BitVec 8 => fun e' => decide (c e' ≠ 0#8)) h3
  | @link e v hv hheader hnext hconsumed =>
    have hval : t.next e = v := by rw [hnext, update_self]
    obtain ⟨h1, h2, h3⟩ := link_stored hd hv b.mem e
    rw [← hval] at h1 h2 h3
    refine fields_of_eq (h1.trans hheader.symm) ?_ ?_
    · rw [hnext, ← hval]
      exact h2
    · rw [hconsumed]
      exact congrArg (fun c : ℕ → BitVec 8 => fun e' => decide (c e' ≠ 0#8)) h3
  | @flag e v hheader hnext hconsumed =>
    have hval : t.consumed e = v := by rw [hconsumed, update_self]
    have hbyte : decide ((if v = true then 1#8 else 0#8) ≠ 0#8) = v := by cases v <;> rfl
    obtain ⟨h1, h2, h3⟩ := flag_stored hd (if v = true then 1#8 else 0#8) b.mem e
    rw [← hval] at h1 h2 h3
    refine fields_of_eq (h1.trans hheader.symm) (h2.trans hnext.symm) ?_
    refine (congrArg (fun c : ℕ → BitVec 8 => fun e' => decide (c e' ≠ 0#8)) h3).trans ?_
    rw [flags_update, hval, hbyte]
    exact hconsumed.symm

theorem fields_init (hd : 9 ≤ dataSize) : (St.init : St ι).fields dataSize = .init := by
  have hcreate : Ring.create.fields dataSize = .create := fields_create hd
  have hpool := congrArg RingSeq.St.pool hcreate
  have hnext := congrArg RingSeq.St.next hcreate
  have hconsumed := congrArg RingSeq.St.consumed hcreate
  have hfields : (St.init : St ι).fields dataSize = { (RingSteps.St.init : RingSteps.St ι) with
      pool := (Ring.create.fields dataSize).pool
      next := (Ring.create.fields dataSize).next
      consumed := (Ring.create.fields dataSize).consumed } := rfl
  rw [hfields, hpool, hnext, hconsumed]
  rfl

/-- A user's write to an element is in no field. -/
theorem fields_write (hd : 9 ≤ dataSize) {x : ℕ} {byte : BitVec 8} (hlo : dataPos dataSize e ≤ x)
    (hhi : x + 9 < dataPos dataSize e + dataSize) :
    ({ b with mem := update b.mem x byte } : St ι).fields dataSize = b.fields dataSize := by
  obtain ⟨h1, h2, h3⟩ := fields_written hd b.mem byte hlo hhi
  simp only [St.fields, h1, h2, h3]

end Fields

section Run

variable [DecidableEq ι] {b b' : St ι} {ok : RingSteps.St ι → RingSteps.Act ι → Prop} {a : Act ι}

/-- The calls of the threads meet `ok`, and users write what they have up to the last nine bytes. -/
def Proper (k dataSize : ℕ) (ok : RingSteps.St ι → RingSteps.Act ι → Prop) (b : St ι) : Act ι → Prop
  | .call a => ok (b.fields dataSize) a
  | .write x _ => ∃ id ∈ b.owned ++ b.popped,
      dataPos dataSize (id % 2 ^ k) ≤ x ∧ x + 9 < dataPos dataSize (id % 2 ^ k) + dataSize

instance [∀ s a, Decidable (ok s a)] (b : St ι) (a : Act ι) : Decidable (Proper k dataSize ok b a) :=
  match a with
  | .call a => inferInstanceAs (Decidable (ok _ a))
  | .write _ _ => inferInstanceAs (Decidable (∃ id ∈ _, _))

/-- **A step of a thread** is the step on the fields. -/
theorem fields_step (hd : 9 ≤ dataSize) (hfits : Fits (b.fields dataSize)) {a : RingSteps.Act ι}
    (hs : b.step k dataSize (.call a) = some b') : (b.fields dataSize).step k a = some (b'.fields dataSize) := by
  obtain ⟨t, ht, hb⟩ := Option.map_eq_some_iff.1 hs
  have hstores : Stores (b.fields dataSize) t (touched k b.pc a) := step_stores hfits ht
  rw [ht, ← hb, fields_ofFields hd hstores]

/-- What holds in every run: the fields have gone through a run, and the ids that threads link fit a word. -/
structure Runs (k dataSize : ℕ) (ok : RingSteps.St ι → RingSteps.Act ι → Prop) (b : St ι) : Prop where
  reach : (RingSteps.sys k ι).Reach ok (b.fields dataSize)
  link : ∀ j, ∀ id ∈ linkId (b.pc j), id < 2 ^ 64

theorem Runs.fits (h : Runs k dataSize ok b) : Fits (b.fields dataSize) where
  header := header_lt dataSize b.mem
  next := next_lt dataSize b.mem
  link := h.link

theorem Runs.step (hd : 9 ≤ dataSize) (h : Runs k dataSize ok b) (hok : Proper k dataSize ok b a)
    (hs : b.step k dataSize a = some b') : Runs k dataSize ok b' := by
  cases a with
  | call a =>
    have hstep : (b.fields dataSize).step k a = some (b'.fields dataSize) := fields_step hd h.fits hs
    exact ⟨h.reach.step hok hstep, link_step h.fits hstep⟩
  | write x byte =>
    obtain ⟨id, -, hlo, hhi⟩ := hok
    obtain rfl := Option.some.inj hs
    refine ⟨?_, h.link⟩
    rw [fields_write hd hlo hhi]
    exact h.reach

/-- **A run on the bytes** is a run on the fields. -/
theorem fields_reach (hd : 9 ≤ dataSize) (h : (sys k dataSize ι).Reach (Proper k dataSize ok) b) :
    (RingSteps.sys k ι).Reach ok (b.fields dataSize) := by
  suffices hruns : Runs k dataSize ok b from hruns.reach
  refine h.inv (fun b hb => ?_) fun _ _ _ hI hok hs => hI.step hd hok hs
  obtain rfl : b = .init := hb
  refine ⟨.init ?_, nofun⟩
  exact fields_init hd

/-- **The data of the elements** is left as it is by every step of a call. -/
theorem data_kept (hd : 9 ≤ dataSize) {a : RingSteps.Act ι} (hs : b.step k dataSize (.call a) = some b') {x : ℕ}
    (hlo : dataPos dataSize e ≤ x) (hhi : x + 9 < dataPos dataSize e + dataSize) : b'.mem x = b.mem x := by
  have hapart := data_apart hd hlo hhi
  obtain ⟨t, -, rfl⟩ := Option.map_eq_some_iff.1 hs
  change (touched k b.pc a).elim b.mem (Cell.store dataSize b.mem t) x = b.mem x
  cases touched k b.pc a with
  | none => rfl
  | some c =>
    cases c with
    | header e' =>
      have := hapart e'
      exact store_apart (by omega)
    | link e' =>
      have := hapart e'
      exact store_apart (by rw [ringPos_eq]; omega)
    | flag e' =>
      have := hapart e'
      have hpos : ringPos dataSize e' + consumedOffset = entryPos dataSize e' + 16 := rfl
      exact update_of_ne (by omega) _ _

end Run

section Threads

variable [Fintype ι] [DecidableEq ι] {b : St ι}

/-- **The ring is safe** from a `data_size` of nine on. In every run in which the ids of an entry increase: an
id is locked once for each reference to it; the entries that a push or a pop reads and writes are locked by
it; an id is returned once, after its push; an element is with one user; `head_id` has each id once; and the
steps of a call write no data of an element. -/
theorem ring_safe (hd : 9 ≤ dataSize)
    (h : (sys k dataSize ι).Reach (Proper k dataSize (RingSteps.St.Ahead k)) b) :
    (∀ m, tally RingSteps.Pc.refs b.pc m + b.owned.count m + b.popped.count m + b.listed.count m =
        (b.fields dataSize).pool.count k m) ∧
      (∀ j, ∀ x ∈ (b.pc j).access,
        x.1 ∈ (b.pc j).refs ∧ x.2 = x.1 % 2 ^ k ∧ (b.fields dataSize).pool.count k x.1 ≠ 0) ∧
      b.got.Nodup ∧ (∀ m ∈ b.got, m ∈ b.pushed) ∧ (b.owned ++ b.popped).Nodup ∧ b.heads.Nodup ∧
      ∀ a b', b.step k dataSize (.call a) = some b' → ∀ e x, dataPos dataSize e ≤ x →
        x + 9 < dataPos dataSize e + dataSize → b'.mem x = b.mem x := by
  obtain ⟨htotal, haccess, hgot, hpushed, husers, hheads⟩ := RingSteps.safe_of_reach (fields_reach hd h)
  exact ⟨htotal, haccess, hgot, hpushed, husers, hheads, fun _ _ hs _ _ => data_kept hd hs⟩

/-- Two threads pop at once, and one of them sees the flag that the other has set. The element is written
meanwhile. -/
theorem ring_safe_two : ∃ b, (sys 2 16 (Fin 2)).Reach (Proper 2 16 (RingSteps.St.Ahead 2)) b ∧ b.got = [1] ∧
    b.pc 0 = .popEmpty 1 ∧ (b.owned ++ b.popped).Nodup ∧
    ∀ m, tally RingSteps.Pc.refs b.pc m + b.owned.count m + b.popped.count m + b.listed.count m =
      (b.fields 16).pool.count 2 m := by
  obtain ⟨b, hb, hgot, hempty⟩ := System.exists_of_check (sys 2 16 (Fin 2)) (Proper 2 16 (RingSteps.St.Ahead 2))
    (fun b => b.got = [1] ∧ b.pc 0 = .popEmpty 1) .init rfl
    ([.call (.alloc 0)] ++ List.replicate 7 (.call (.step 0 false)) ++ [.write 41 255#8, .call (.push 0 1)] ++
      List.replicate 3 (.call (.step 0 false)) ++ [.call (.pop 0), .call (.pop 1)] ++
      List.replicate 3 (.call (.step 1 false)) ++ List.replicate 4 (.call (.step 0 false)) ++
      [.call (.step 1 false)])
    (by decide +kernel)
  obtain ⟨htotal, -, -, -, hnodup, -, -⟩ := ring_safe (by decide) hb
  exact ⟨b, hb, hgot, hempty, hnodup, htotal⟩

/-- **With one push at a time the ring is a queue** from a `data_size` of nine on, whatever the other threads
pop and free. The elements are taken in the order of their pushes, each by one pop. A pop that comes to the
last entry and does not take it finds that all elements are taken; one that finds the ring without a head
finds that no push has returned. -/
theorem ring_queue (hd : 9 ≤ dataSize) (hcard : 3 * Fintype.card ι + 3 ≤ refcntMax)
    (h : (sys k dataSize ι).Reach (Proper k dataSize (RingSteps.St.Serial k)) b) :
    b.took <:+ b.pushed ∧ (∀ m, b.took.count m = tally RingSteps.Pc.taking b.pc m + b.got.count m) ∧
      (∀ j headId head, b.pc j = .popNext headId head true → next dataSize b.mem head = invalid →
        b.took = b.pushed) ∧
      ∀ j, b.pc j = .popReload b.headId → b.pushed = [] ∨ ∃ i id, b.pc i = .pushHead id ∧ b.pushed = [id] :=
  RingSteps.queue_of_reach hcard (fields_reach hd h)

/-- Two threads pop what a third one pushes. -/
theorem ring_queue_three : ∃ b, (sys 2 16 (Fin 3)).Reach (Proper 2 16 (RingSteps.St.Serial 2)) b ∧
    b.took = [2, 1] ∧ b.got = [1, 2] ∧ b.took <:+ b.pushed := by
  obtain ⟨b, hb, htook, hgot⟩ := System.exists_of_check (sys 2 16 (Fin 3)) (Proper 2 16 (RingSteps.St.Serial 2))
    (fun b => b.took = [2, 1] ∧ b.got = [1, 2]) .init rfl
    (List.map Act.call ([.alloc 0] ++ List.replicate 7 (.step 0 false) ++ [.push 0 1] ++
      List.replicate 3 (.step 0 false) ++ [.alloc 0] ++ List.replicate 7 (.step 0 false) ++ [.push 0 2] ++
      List.replicate 6 (.step 0 false) ++ [.pop 1, .pop 2] ++ List.replicate 5 (.step 1 false) ++
      List.replicate 4 (.step 2 false) ++ [.step 1 false]))
    (by decide +kernel)
  exact ⟨b, hb, htook, hgot, (ring_queue (by decide) (by decide) hb).1⟩

end Threads

end Prs.RingByteSteps
