import Prs.Model.GodSeq
import Prs.Proof.GodLife

/-!
# What the calls of the object directory do

* `Sane`: what holds in every directory. `find` says which object an id has, and how often it is locked.
* `lock_of_find`, `unlock_of_find` and the like: what a call does to an object; `find_write` and `find_alloc`:
  what it leaves alone.
* `unlock_lock`: a lock and an unlock leave the directory as it was.
-/

namespace Prs.GodSeq

open Function God

variable {P : Type} {k id i n : ℕ} {d : Dir P} {o : P}

/-- What holds in every directory: an entry but the first is free, or an object is in it and locked. -/
structure Sane (k : ℕ) (d : Dir P) : Prop where
  zero : d.header 0 = ⟨0, true, true, false, 0⟩
  entry : ∀ e, 0 < e → e < 2 ^ k → (∃ i, d.header e = ⟨i, false, false, false, 0⟩) ∨
    ∃ i n o, d.header e = ⟨i, true, true, false, n⟩ ∧ i % 2 ^ k = e ∧ 0 < n ∧ n ≤ refcntMax ∧ d.object e = some o
  old : ∀ e < 2 ^ k, (d.header e).id < d.writeIndex
  bound : d.writeIndex < 2 ^ 32

theorem sane_create (k : ℕ) : Sane k (Dir.create : Dir P) where
  zero := rfl
  entry := fun e he _ => .inl ⟨0, if_neg (by omega)⟩
  old := fun e _ => by
    unfold Dir.create
    dsimp only
    split <;> exact Nat.one_pos
  bound := Nat.one_lt_two_pow (by omega)

/-- The object that an id has, and how often it is locked. -/
def Dir.find (k : ℕ) (d : Dir P) (id : ℕ) : Option (P × ℕ) :=
  if id ≠ invalid ∧ (d.header (id % 2 ^ k)).id = id ∧ (d.header (id % 2 ^ k)).used = true then
    (d.object (id % 2 ^ k)).map fun o => (o, (d.header (id % 2 ^ k)).refcnt)
  else none

/-- The directory with an object locked `n` times. -/
def Dir.setRefcnt (k : ℕ) (d : Dir P) (id n : ℕ) : Dir P :=
  { d with header := update d.header (id % 2 ^ k) ⟨id, true, true, false, n⟩ }

section Calls

/-- An entry that is in use has an object. -/
theorem Sane.used (h : Sane k d) (hid : id ≠ invalid) (hh : (d.header (id % 2 ^ k)).id = id)
    (hu : (d.header (id % 2 ^ k)).used = true) :
    ∃ n o, d.header (id % 2 ^ k) = ⟨id, true, true, false, n⟩ ∧ 0 < id % 2 ^ k ∧ 0 < n ∧ n ≤ refcntMax ∧
      d.object (id % 2 ^ k) = some o := by
  have hpos : 0 < id % 2 ^ k := by
    rw [Nat.pos_iff_ne_zero]
    intro hz
    rw [hz, h.zero] at hh
    exact hid hh.symm
  obtain ⟨i, hi⟩ | ⟨i, n, o, hi, -, hn, hmax, ho⟩ := h.entry _ hpos (Nat.mod_lt id (Nat.two_pow_pos k))
  · rw [hi] at hu
    cases hu
  · rw [hi] at hh
    obtain rfl : i = id := hh
    exact ⟨n, o, hi, hpos, hn, hmax, ho⟩

/-- **What an id has.** -/
theorem Sane.find_eq_some (h : Sane k d) :
    d.find k id = some (o, n) ↔
      id ≠ invalid ∧ d.header (id % 2 ^ k) = ⟨id, true, true, false, n⟩ ∧ d.object (id % 2 ^ k) = some o := by
  unfold Dir.find
  constructor
  · intro hf
    obtain ⟨⟨hid, hh, hu⟩, hf⟩ := Option.ite_none_right_eq_some.1 hf
    obtain ⟨n', o', hn', -, -, -, ho'⟩ := h.used hid hh hu
    rw [hn', ho', Option.map_some, Option.some.injEq, Prod.mk.injEq] at hf
    obtain ⟨rfl, rfl⟩ := hf
    exact ⟨hid, hn', ho'⟩
  · rintro ⟨hid, hh, ho⟩
    rw [hh, ho, if_pos ⟨hid, rfl, rfl⟩]
    rfl

theorem Sane.find_bounds (h : Sane k d) (hf : d.find k id = some (o, n)) :
    id < 2 ^ 32 ∧ 0 < id % 2 ^ k ∧ 0 < n ∧ n ≤ refcntMax := by
  obtain ⟨hid, hh, -⟩ := h.find_eq_some.1 hf
  obtain ⟨n', o', hn', hpos, hn, hmax, -⟩ := h.used hid (by rw [hh]) (by rw [hh])
  have hold := h.old _ (Nat.mod_lt id (Nat.two_pow_pos k))
  have hb := h.bound
  rw [hh] at hn' hold
  obtain rfl : n = n' := congrArg Header.refcnt hn'
  have hlt : id < d.writeIndex := hold
  exact ⟨by omega, hpos, hn, hmax⟩

/-- The locks of an object, as an unlock sees them: the last one, or one of several. -/
theorem Sane.refcnt_cases (h : Sane k d) (hf : d.find k id = some (o, n)) :
    n = 1 ∨ ∃ m, n = m + 2 ∧ m + 2 ≤ refcntMax := by
  obtain ⟨-, -, hpos, hmax⟩ := h.find_bounds hf
  by_cases hone : n = 1
  · exact .inl hone
  · exact .inr ⟨n - 2, by omega, by omega⟩

theorem Sane.find_eq_none (h : Sane k d) :
    d.find k id = none ↔
      (id ≠ invalid → (d.header (id % 2 ^ k)).id = id → (d.header (id % 2 ^ k)).used = false) := by
  unfold Dir.find
  constructor
  · intro hf hid hh
    rw [← Bool.not_eq_true]
    intro hu
    obtain ⟨n, o, hn, -, -, -, ho⟩ := h.used hid hh hu
    rw [if_pos ⟨hid, hh, hu⟩, ho] at hf
    cases hf
  · intro hno
    apply if_neg
    rintro ⟨hid, hh, hu⟩
    rw [hno hid hh] at hu
    cases hu

theorem Sane.fits (h : Sane k d) (hf : d.find k id = some (o, n)) : Header.Fits ⟨id, true, true, false, n⟩ := by
  obtain ⟨hid, -, -, hn⟩ := h.find_bounds hf
  exact ⟨hid, hn⟩

/-- A lock of an id that no object has. -/
theorem Sane.lock_of_none (h : Sane k d) (hf : d.find k id = none) : d.lock k id = (none, d) := by
  have hno := h.find_eq_none.1 hf
  unfold Dir.lock
  by_cases hid : id = invalid
  · simp [hid]
  · by_cases hh : (d.header (id % 2 ^ k)).id = id
    · simp [hno hid hh]
    · simp [hh]

/-- **A lock** of an object. -/
theorem Sane.lock_of_find (h : Sane k d) (hf : d.find k id = some (o, n)) (hn : n ≠ refcntMax) :
    d.lock k id = (some o, d.setRefcnt k id (n + 1)) := by
  obtain ⟨hid, hh, ho⟩ := h.find_eq_some.1 hf
  have hsucc := ofWord_succ (h.fits hf) hn
  unfold Dir.lock Dir.setRefcnt
  simp [hid, hh, ho, hn, hsucc]

/-- A lock of an object that has been locked too often. -/
theorem Sane.lock_of_max (h : Sane k d) (hf : d.find k id = some (o, refcntMax)) : d.lock k id = (none, d) := by
  obtain ⟨hid, hh, -⟩ := h.find_eq_some.1 hf
  unfold Dir.lock
  simp [hid, hh]

theorem Sane.unlock_of_none (h : Sane k d) (hf : d.find k id = none) : d.unlock k id = (none, d) := by
  have hno := h.find_eq_none.1 hf
  unfold Dir.unlock
  by_cases hid : id = invalid
  · simp [hid]
  · by_cases hh : (d.header (id % 2 ^ k)).id = id
    · simp [hno hid hh]
    · simp [hh]

/-- **An unlock** of an object that stays locked. -/
theorem Sane.unlock_of_find (h : Sane k d) (hf : d.find k id = some (o, n + 2)) :
    d.unlock k id = (none, d.setRefcnt k id (n + 1)) := by
  obtain ⟨hid, hh, -⟩ := h.find_eq_some.1 hf
  have hpred := ofWord_pred (h.fits hf) (by simp)
  unfold Dir.unlock Dir.setRefcnt
  simp [hid, hh, Header.unlocked, hpred]

/-- **The last unlock** of an object. -/
theorem Sane.unlock_of_one (h : Sane k d) (hf : d.find k id = some (o, 1)) :
    d.unlock k id = (some o, { d with header := update d.header (id % 2 ^ k) ⟨id, false, false, false, 0⟩ }) := by
  obtain ⟨hid, hh, ho⟩ := h.find_eq_some.1 hf
  unfold Dir.unlock
  simp [hid, hh, ho, Header.unlocked, Header.mark, Header.onlyId]

end Calls

section Keeps

/-- A header is written that has the id that was there. -/
theorem Sane.write (h : Sane k d) (hf : d.find k id = some (o, n)) {header : Header} (hid : header.id = id)
    (hh : header = ⟨id, false, false, false, 0⟩ ∨ ∃ n, header = ⟨id, true, true, false, n⟩ ∧ 0 < n ∧
      n ≤ refcntMax) :
    Sane k { d with header := update d.header (id % 2 ^ k) header } := by
  obtain ⟨-, hpos, -, -⟩ := h.find_bounds hf
  obtain ⟨-, hold, ho⟩ := h.find_eq_some.1 hf
  refine ⟨(update_of_ne hpos.ne _ _).trans h.zero, fun e he hlt => ?_, fun e he => ?_, h.bound⟩
  · by_cases hee : e = id % 2 ^ k
    · subst hee
      simp only [update_self]
      obtain hh | ⟨n, hh, hn, hmax⟩ := hh
      · exact .inl ⟨id, hh⟩
      · exact .inr ⟨id, n, o, hh, rfl, hn, hmax, ho⟩
    · simp only [update_of_ne hee]
      exact h.entry e he hlt
  · have hlt := h.old e he
    by_cases hee : e = id % 2 ^ k
    · subst hee
      rw [hold] at hlt
      simpa only [update_self, hid] using hlt
    · simpa only [update_of_ne hee] using hlt

theorem Sane.setRefcnt (h : Sane k d) (hf : d.find k id = some (o, n)) {m : ℕ} (hm : 0 < m)
    (hmax : m ≤ refcntMax) :
    Sane k (d.setRefcnt k id m) :=
  h.write hf rfl (.inr ⟨m, rfl, hm, hmax⟩)

theorem Sane.lock (h : Sane k d) (id : ℕ) : Sane k (d.lock k id).2 := by
  obtain hf | ⟨⟨o, n⟩, hf⟩ := Option.eq_none_or_eq_some (d.find k id)
  · rw [h.lock_of_none hf]
    exact h
  · by_cases hn : n = refcntMax
    · subst hn
      rw [h.lock_of_max hf]
      exact h
    · obtain ⟨-, -, -, hmax⟩ := h.find_bounds hf
      rw [h.lock_of_find hf hn]
      exact h.setRefcnt hf (Nat.succ_pos n) (by omega)

theorem Sane.unlock (h : Sane k d) (id : ℕ) : Sane k (d.unlock k id).2 := by
  obtain hf | ⟨⟨o, n⟩, hf⟩ := Option.eq_none_or_eq_some (d.find k id)
  · rw [h.unlock_of_none hf]
    exact h
  · obtain rfl | ⟨m, rfl, hmax⟩ := h.refcnt_cases hf
    · rw [h.unlock_of_one hf]
      exact h.write hf rfl (.inl rfl)
    · rw [h.unlock_of_find hf]
      exact h.setRefcnt hf (Nat.succ_pos m) (by omega)

/-- The index that an allocation takes. -/
theorem Sane.probe (h : Sane k d) (hk : k ≤ 31)
    (hp : Prs.probe 32 (2 ^ k) d.writeIndex (fun e => !(d.header e).reserved) (fun e => (d.header e).id) =
      some i) :
    0 < i % 2 ^ k ∧ d.writeIndex ≤ i ∧ i + 1 < 2 ^ 32 ∧ (d.header (i % 2 ^ k)).reserved = false := by
  have hm : 2 ^ k ≤ 2 ^ 32 := Nat.pow_le_pow_right Nat.two_pos (by omega)
  obtain ⟨hle, hfree, -⟩ := mem_of_probe hp
  obtain ⟨hlt, hfit⟩ := lt_of_probe hm h.bound hp
  rw [Bool.not_eq_true'] at hfree
  refine ⟨?_, hle, by omega, hfree⟩
  rw [Nat.pos_iff_ne_zero]
  intro hz
  rw [hz, h.zero] at hfree
  cases hfree

/-- **An allocation** is refused, or takes a free entry. -/
theorem Sane.alloc_cases (h : Sane k d) (hk : k ≤ 31) (o : P) :
    d.alloc k o = (invalid, d) ∨
      ∃ i, 0 < i % 2 ^ k ∧ d.writeIndex ≤ i ∧ i + 1 < 2 ^ 32 ∧ (d.header (i % 2 ^ k)).reserved = false ∧
        d.alloc k o = (i, ⟨update d.header (i % 2 ^ k) ⟨i, true, true, false, 1⟩,
          update d.object (i % 2 ^ k) (some o), i + 1⟩) := by
  unfold Dir.alloc
  obtain hp | ⟨i, hp⟩ := Option.eq_none_or_eq_some
    (Prs.probe 32 (2 ^ k) d.writeIndex (fun e => !(d.header e).reserved) (fun e => (d.header e).id))
  · rw [hp]
    exact .inl rfl
  · obtain ⟨hpos, hle, hlt, hfree⟩ := h.probe hk hp
    have hsucc : succ i = i + 1 := Nat.mod_eq_of_lt hlt
    rw [hp]
    simp only [hsucc]
    exact .inr ⟨i, hpos, hle, hlt, hfree, rfl⟩

theorem Sane.alloc (h : Sane k d) (hk : k ≤ 31) (o : P) : Sane k (d.alloc k o).2 := by
  obtain hno | ⟨i, hpos, hle, hlt, hfree, heq⟩ := h.alloc_cases hk o
  · rw [hno]
    exact h
  · rw [heq]
    refine ⟨(update_of_ne hpos.ne _ _).trans h.zero, fun e he hlt => ?_, fun e he => ?_, hlt⟩
    · by_cases hee : e = i % 2 ^ k
      · subst hee
        refine .inr ⟨i, 1, o, update_self .., rfl, Nat.one_pos, ?_, update_self ..⟩
        unfold refcntMax
        omega
      · simp only [update_of_ne hee]
        exact h.entry e he hlt
    · by_cases hee : e = i % 2 ^ k
      · subst hee
        simp only [update_self]
        omega
      · have := h.old e he
        simp only [update_of_ne hee]
        omega

theorem Sane.exec (h : Sane k d) (hk : k ≤ 31) (a : Act P) : Sane k (d.exec k a) := by
  cases a with
  | alloc o => exact h.alloc hk o
  | lock id => exact h.lock id
  | unlock id => exact h.unlock id

/-- What holds in every directory, whatever is called. -/
theorem Sane.after (h : Sane k d) (hk : k ≤ 31) (as : List (Act P)) : Sane k (d.after k as) := by
  induction as generalizing d with
  | nil => exact h
  | cons a as ih => exact ih (h.exec hk a)

end Keeps

section Find

/-- What is in an entry, if it is in use. -/
def Dir.slot (d : Dir P) (e : ℕ) : Option (ℕ × P × ℕ) :=
  if (d.header e).id ≠ invalid ∧ (d.header e).used = true then
    (d.object e).map fun o => ((d.header e).id, o, (d.header e).refcnt)
  else none

theorem find_eq_lookup (k : ℕ) (d : Dir P) : d.find k = lookup (2 ^ k) d.slot := by
  funext j
  unfold Dir.find lookup Dir.slot
  by_cases hid : (d.header (j % 2 ^ k)).id = j
  · simp only [hid, true_and]
    split
    · cases d.object (j % 2 ^ k) <;> simp
    · rfl
  · rw [if_neg fun hc => hid hc.2.1]
    split
    · cases d.object (j % 2 ^ k) <;> simp [hid]
    · rfl

/-- What the ids have when an entry is written that is free or has the id. -/
theorem find_entry {header : Header} (x : Option P) (wi : ℕ) (hinv : id ≠ invalid) (hid : header.id = id)
    (hold : (d.header (id % 2 ^ k)).used = true → (d.header (id % 2 ^ k)).id = id) :
    Dir.find k ⟨update d.header (id % 2 ^ k) header, update d.object (id % 2 ^ k) x, wi⟩ =
      update (d.find k) id (if header.used = true then x.map fun o => (o, header.refcnt) else none) := by
  rw [find_eq_lookup, find_eq_lookup, ← lookup_update]
  · congr 1
    funext e
    by_cases he : e = id % 2 ^ k
    · subst he
      unfold Dir.slot
      simp only [update_self, hid, hinv, ne_eq, not_false_eq_true, true_and]
      split
      · cases x <;> rfl
      · rfl
    · unfold Dir.slot
      simp only [update_of_ne he]
  · intro y hy
    obtain ⟨⟨-, hu⟩, hy⟩ := Option.ite_none_right_eq_some.1 hy
    obtain ⟨o, -, rfl⟩ := Option.map_eq_some_iff.1 hy
    exact hold hu

/-- What the ids have when a header is written. -/
theorem Sane.find_write (h : Sane k d) (hf : d.find k id = some (o, n)) {header : Header} (hid : header.id = id) :
    Dir.find k { d with header := update d.header (id % 2 ^ k) header } =
      update (d.find k) id (if header.used = true then some (o, header.refcnt) else none) := by
  obtain ⟨hinv, hh, ho⟩ := h.find_eq_some.1 hf
  have hfind := find_entry (some o) d.writeIndex hinv hid fun _ => congrArg Header.id hh
  rwa [← ho, update_eq_self, ho] at hfind

theorem Sane.find_setRefcnt (h : Sane k d) (hf : d.find k id = some (o, n)) (m : ℕ) :
    (d.setRefcnt k id m).find k = update (d.find k) id (some (o, m)) :=
  (h.find_write hf rfl).trans rfl

/-- What the ids have after an allocation. -/
theorem Sane.find_alloc (h : Sane k d) (hk : k ≤ 31) (o : P) (hi : (d.alloc k o).1 ≠ invalid) :
    d.writeIndex ≤ (d.alloc k o).1 ∧ (d.alloc k o).2.find k = update (d.find k) (d.alloc k o).1
    (some (o, 1)) := by
  obtain hno | ⟨i, hpos, hle, -, hfree, heq⟩ := h.alloc_cases hk o
  · rw [hno] at hi
    exact absurd rfl hi
  · rw [heq] at hi ⊢
    refine ⟨hle, find_entry (some o) (i + 1) hi rfl fun hu => ?_⟩
    -- the entry was free
    obtain ⟨j, hj⟩ | ⟨j, n, o', hj, -⟩ := h.entry _ hpos (Nat.mod_lt i (Nat.two_pow_pos k))
    · rw [hj] at hu
      cases hu
    · rw [hj] at hfree
      cases hfree

theorem Sane.lock_eq_some (h : Sane k d) :
    (d.lock k id).1 = some o ↔ ∃ n, d.find k id = some (o, n) ∧ n ≠ refcntMax := by
  obtain hf | ⟨⟨o', n⟩, hf⟩ := Option.eq_none_or_eq_some (d.find k id)
  · rw [h.lock_of_none hf, hf]
    simp
  · rw [hf]
    by_cases hn : n = refcntMax
    · subst hn
      rw [h.lock_of_max hf]
      simp +contextual
    · rw [h.lock_of_find hf hn]
      simp [hn]

/-- A lock that gets nothing does nothing. -/
theorem Sane.lock_eq_none (h : Sane k d) (hl : (d.lock k id).1 = none) : d.lock k id = (none, d) := by
  obtain hf | ⟨⟨o, n⟩, hf⟩ := Option.eq_none_or_eq_some (d.find k id)
  · exact h.lock_of_none hf
  · by_cases hn : n = refcntMax
    · subst hn
      exact h.lock_of_max hf
    · rw [h.lock_of_find hf hn] at hl
      cases hl

/-- **A lock and an unlock** leave the directory as it was. -/
theorem Sane.unlock_lock (h : Sane k d) (hl : (d.lock k id).1 = some o) :
    (d.lock k id).2.unlock k id = (none, d) := by
  obtain ⟨n, hf, hn⟩ := h.lock_eq_some.1 hl
  obtain ⟨-, -, hpos, hmax⟩ := h.find_bounds hf
  obtain ⟨-, hh, -⟩ := h.find_eq_some.1 hf
  obtain ⟨m, rfl⟩ : ∃ m, n = m + 1 := ⟨n - 1, by omega⟩
  have hsane := h.setRefcnt hf (Nat.succ_pos (m + 1)) (by omega)
  have hf' : (d.setRefcnt k id (m + 2)).find k id = some (o, m + 2) := by
    rw [h.find_setRefcnt hf, update_self]
  rw [h.lock_of_find hf hn, hsane.unlock_of_find hf']
  unfold Dir.setRefcnt
  simp only [update_idem, ← hh, update_eq_self]

/-- **An object keeps its id**: what an id has after a call it had before, or it is new. -/
theorem Sane.find_exec (h : Sane k d) (hk : k ≤ 31) (a : Act P) (hf : (d.exec k a).find k id = some (o, n)) :
    d.writeIndex ≤ id ∨ ∃ n', d.find k id = some (o, n') := by
  have hwrite : ∀ {id' n' o'} {header : Header}, d.find k id' = some (o', n') → header.id = id' →
      Dir.find k { d with header := update d.header (id' % 2 ^ k) header } id = some (o, n) →
      ∃ n', d.find k id = some (o, n') := by
    intro id' n' o' header hf' hid hfind
    rw [h.find_write hf' hid] at hfind
    by_cases hii : id = id'
    · subst hii
      rw [update_self] at hfind
      obtain ⟨-, heq⟩ := Option.ite_none_right_eq_some.1 hfind
      cases heq
      exact ⟨n', hf'⟩
    · rw [update_of_ne hii] at hfind
      exact ⟨n, hfind⟩
  cases a with
  | alloc o' =>
    by_cases hi : (d.alloc k o').1 = invalid
    · obtain hno | ⟨i, hpos, -, -, -, heq⟩ := h.alloc_cases hk o'
      · have hexec : d.exec k (.alloc o') = d := congrArg Prod.snd hno
        rw [hexec] at hf
        exact .inr ⟨n, hf⟩
      · rw [heq] at hi
        obtain rfl : i = 0 := hi
        rw [Nat.zero_mod] at hpos
        omega
    · obtain ⟨hle, hfind⟩ := h.find_alloc hk o' hi
      have hf' : (d.alloc k o').2.find k id = some (o, n) := hf
      rw [hfind] at hf'
      by_cases hii : id = (d.alloc k o').1
      · exact .inl (hii ▸ hle)
      · rw [update_of_ne hii] at hf'
        exact .inr ⟨n, hf'⟩
  | lock id' =>
    refine .inr ?_
    have hf' : (d.lock k id').2.find k id = some (o, n) := hf
    obtain hnone | ⟨o', hsome⟩ := Option.eq_none_or_eq_some (d.lock k id').1
    · rw [h.lock_eq_none hnone] at hf'
      exact ⟨n, hf'⟩
    · obtain ⟨n', hfind, hn'⟩ := h.lock_eq_some.1 hsome
      rw [h.lock_of_find hfind hn'] at hf'
      exact hwrite hfind rfl hf'
  | unlock id' =>
    refine .inr ?_
    have hf' : (d.unlock k id').2.find k id = some (o, n) := hf
    obtain hnone | ⟨⟨o', n'⟩, hfind⟩ := Option.eq_none_or_eq_some (d.find k id')
    · rw [h.unlock_of_none hnone] at hf'
      exact ⟨n, hf'⟩
    · obtain rfl | ⟨m, rfl, -⟩ := h.refcnt_cases hfind
      · rw [h.unlock_of_one hfind] at hf'
        exact hwrite hfind rfl hf'
      · rw [h.unlock_of_find hfind] at hf'
        exact hwrite hfind rfl hf'

theorem Sane.writeIndex_le_exec (h : Sane k d) (hk : k ≤ 31) (a : Act P) :
    d.writeIndex ≤ (d.exec k a).writeIndex := by
  cases a with
  | alloc o =>
    unfold Dir.exec
    obtain hno | ⟨i, -, hle, -, -, heq⟩ := h.alloc_cases hk o
    · exact le_of_eq (congrArg (fun x => x.2.writeIndex) hno).symm
    · have hwi : (d.alloc k o).2.writeIndex = i + 1 := congrArg (fun x => x.2.writeIndex) heq
      dsimp only
      omega
  | lock id =>
    unfold Dir.exec Dir.lock
    dsimp only
    repeat' split
    all_goals exact le_rfl
  | unlock id =>
    unfold Dir.exec Dir.unlock
    dsimp only
    repeat' split
    all_goals exact le_rfl

end Find

end Prs.GodSeq
