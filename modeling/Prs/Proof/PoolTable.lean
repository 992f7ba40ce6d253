import Prs.Model.PoolWords

/-!
# What the calls of a pool do

* `held`: the word of an entry that is allocated. The operations on words come to changes of its count.
* `Sane`: what holds in every pool whose ids have 52 bits. `find` says whether an id is allocated, and how
  often it is locked.
* `alloc_cases`, `lockFirst_of_find`, `lock_of_find`, `unlock_of_find` and the like: what a call does to an entry;
  `find_set`, `find_release`, `find_alloc`: what it leaves alone.
-/

namespace Prs.PoolWords

open Function

section Words

variable {n i : ℕ}

/-- The word of an entry that is allocated with an id and locked `n` times. -/
def held (n i : ℕ) : ℕ := allocMask + n * refcntInc + i

theorem getId_held (hi : i < refcntInc) (n : ℕ) : getId (held n i) = i := by
  unfold getId held allocMask refcntInc at *
  omega

theorem getRefcnt_held (hi : i < refcntInc) (hn : n ≤ refcntMax) : getRefcnt (held n i) = n := by
  unfold getRefcnt held allocMask refcntInc refcntMax at *
  omega

theorem testAlloc_held (hi : i < refcntInc) (hn : n ≤ refcntMax) : testAlloc (held n i) = true := by
  unfold testAlloc held allocMask refcntInc refcntMax at *
  rw [decide_eq_true_eq]
  omega

theorem fresh_eq (hi : i < refcntInc) : fresh i = held 0 i := by
  unfold fresh held
  rw [Nat.mod_eq_of_lt hi, Nat.zero_mul, Nat.add_zero]

theorem first_held (i : ℕ) : first (held 0 i) = held 1 i := by
  unfold first held
  omega

/-- **`header + PRS_POOL_REFCNT_INC` does not carry** below the limit of the count. -/
theorem incr_held (hi : i < refcntInc) (hn : n < refcntMax) : incr (held n i) = held (n + 1) i := by
  unfold incr held allocMask refcntInc refcntMax at *
  omega

theorem decr_held (hi : i < refcntInc) (hn : n < refcntMax) : decr (held (n + 1) i) = held n i := by
  unfold decr held allocMask refcntInc refcntMax at *
  omega

theorem clearAlloc_held (hi : i < refcntInc) : clearAlloc (held 0 i) = i := by
  unfold clearAlloc held allocMask refcntInc at *
  omega

theorem getId_free (hi : i < refcntInc) : getId i = i := Nat.mod_eq_of_lt hi

theorem testAlloc_free (hi : i < refcntInc) : testAlloc i = false := by
  unfold testAlloc allocMask refcntInc at *
  rw [decide_eq_false_iff_not]
  omega

end Words

variable {k id i n m : ℕ} {p : Pool}

/-- What holds in every pool whose ids have 52 bits. The first entry is never given out. -/
structure Sane (k : ℕ) (p : Pool) : Prop where
  zero : p.header 0 = held 0 0
  entry : ∀ e, 0 < e → e < 2 ^ k →
    ∃ i, i < refcntInc ∧ (p.header e = i ∨ i % 2 ^ k = e ∧ ∃ n, n ≤ refcntMax ∧ p.header e = held n i)
  old : ∀ e < 2 ^ k, getId (p.header e) < p.writeIndex

theorem create_header (e : ℕ) : Pool.create.header e = if e = 0 then held 0 0 else 0 := by
  unfold Pool.create held
  simp only [update_apply, Nat.zero_mul, Nat.add_zero]

theorem sane_create (k : ℕ) : Sane k .create where
  zero := create_header 0
  entry := fun e he _ => by
    refine ⟨0, by decide, .inl ?_⟩
    rw [create_header, if_neg he.ne']
  old := fun e _ => by
    rw [create_header]
    split <;> decide

/-- The count of an id, if it is allocated. -/
def Pool.find (k : ℕ) (p : Pool) (id : ℕ) : Option ℕ :=
  if id % 2 ^ k ≠ 0 ∧ getId (p.header (id % 2 ^ k)) = id ∧ testAlloc (p.header (id % 2 ^ k)) = true then
    some (getRefcnt (p.header (id % 2 ^ k)))
  else none

/-- The pool with an entry locked `n` times. -/
def Pool.set (k : ℕ) (p : Pool) (id n : ℕ) : Pool := { p with header := update p.header (id % 2 ^ k) (held n id) }

/-- The pool with an entry that is not allocated any more. -/
def Pool.release (k : ℕ) (p : Pool) (id : ℕ) : Pool := { p with header := update p.header (id % 2 ^ k) id }

section Calls

/-- **What an id has.** -/
theorem Sane.find_eq_some (h : Sane k p) :
    p.find k id = some n ↔ id % 2 ^ k ≠ 0 ∧ id < refcntInc ∧ n ≤ refcntMax ∧
      p.header (id % 2 ^ k) = held n id := by
  unfold Pool.find
  constructor
  · intro hf
    obtain ⟨⟨hpos, hid, ha⟩, heq⟩ := Option.ite_none_right_eq_some.1 hf
    obtain ⟨i, hi, hh | ⟨-, c, hc, hh⟩⟩ := h.entry _ (Nat.pos_of_ne_zero hpos) (Nat.mod_lt id (Nat.two_pow_pos k))
    · rw [hh, testAlloc_free hi] at ha
      cases ha
    · rw [hh, getId_held hi] at hid
      subst hid
      rw [hh, getRefcnt_held hi hc, Option.some.injEq] at heq
      subst heq
      exact ⟨hpos, hi, hc, hh⟩
  · rintro ⟨hpos, hid, hn, hh⟩
    rw [hh, getId_held hid, testAlloc_held hid hn, getRefcnt_held hid hn, if_pos ⟨hpos, rfl, rfl⟩]

theorem Sane.find_eq_none (h : Sane k p) (hf : p.find k id = none) :
    getId (p.header (id % 2 ^ k)) = id → testAlloc (p.header (id % 2 ^ k)) = true →
      getRefcnt (p.header (id % 2 ^ k)) = 0 := by
  intro hid ha
  by_cases hpos : id % 2 ^ k = 0
  · rw [hpos, h.zero]
    exact getRefcnt_held (by decide) (by decide)
  · unfold Pool.find at hf
    rw [if_pos ⟨hpos, hid, ha⟩] at hf
    cases hf

theorem ne_invalid (hid : id < refcntInc) : id ≠ invalid := by
  unfold refcntInc invalid at *
  omega

/-- A lock of an id that is not allocated. -/
theorem Sane.lock_of_none (h : Sane k p) (hf : p.find k id = none) : p.lock k id = (false, p) := by
  have hz := h.find_eq_none hf
  unfold Pool.lock
  dsimp only
  repeat' split
  all_goals first | rfl | skip
  rename_i hid ha hn _
  exact absurd (hz (not_not.1 hid) (by simpa using ha)) hn

/-- A lock of an entry that was not locked firsthand. -/
theorem Sane.lock_of_zero (h : Sane k p) (hf : p.find k id = some 0) : p.lock k id = (false, p) := by
  obtain ⟨-, hid, hn, hh⟩ := h.find_eq_some.1 hf
  unfold Pool.lock
  simp [hh, getId_held hid, testAlloc_held hid hn, getRefcnt_held hid hn]

/-- **A lock.** -/
theorem Sane.lock_of_find (h : Sane k p) (hf : p.find k id = some (n + 1)) (hlt : n + 1 < refcntMax) :
    p.lock k id = (true, p.set k id (n + 2)) := by
  obtain ⟨-, hid, hn, hh⟩ := h.find_eq_some.1 hf
  have hinv := ne_invalid hid
  have hmax := hlt.ne
  unfold Pool.lock Pool.set
  simp [hh, hinv, getId_held hid, testAlloc_held hid hn, getRefcnt_held hid hn, hmax, incr_held hid hlt]

/-- A lock of an entry that has been locked too often. -/
theorem Sane.lock_of_max (h : Sane k p) (hf : p.find k id = some refcntMax) : p.lock k id = (false, p) := by
  obtain ⟨-, hid, hn, hh⟩ := h.find_eq_some.1 hf
  unfold Pool.lock
  simp [hh, getRefcnt_held hid hn]

/-- An unlock of an id that is not allocated. -/
theorem Sane.unlock_of_none (h : Sane k p) (hf : p.find k id = none) : p.unlock k id = (false, p) := by
  have hz := h.find_eq_none hf
  unfold Pool.unlock
  dsimp only
  repeat' split
  all_goals first | rfl | skip
  all_goals
    rename_i hid ha hn _
    exact absurd (hz (not_not.1 hid) (by simpa using ha)) hn

theorem Sane.unlock_of_zero (h : Sane k p) (hf : p.find k id = some 0) : p.unlock k id = (false, p) := by
  obtain ⟨-, hid, hn, hh⟩ := h.find_eq_some.1 hf
  unfold Pool.unlock
  simp [hh, getId_held hid, testAlloc_held hid hn, getRefcnt_held hid hn]

/-- **An unlock** of an entry that stays locked. -/
theorem Sane.unlock_of_find (h : Sane k p) (hf : p.find k id = some (n + 2)) :
    p.unlock k id = (false, p.set k id (n + 1)) := by
  obtain ⟨-, hid, hn, hh⟩ := h.find_eq_some.1 hf
  have hinv := ne_invalid hid
  have hlt : n + 1 < refcntMax := hn
  unfold Pool.unlock Pool.set
  simp [hh, hinv, getId_held hid, testAlloc_held hid hn, getRefcnt_held hid hn, decr_held hid hlt]

/-- **The last unlock** of an entry. -/
theorem Sane.unlock_of_one (h : Sane k p) (hf : p.find k id = some 1) :
    p.unlock k id = (true, p.release k id) := by
  obtain ⟨-, hid, hn, hh⟩ := h.find_eq_some.1 hf
  have hinv := ne_invalid hid
  have hdecr : decr (held 1 id) = held 0 id := decr_held hid (by decide)
  unfold Pool.unlock Pool.release
  simp [hh, hinv, getId_held hid, testAlloc_held hid hn, getRefcnt_held hid hn, hdecr, clearAlloc_held hid]

/-- **The first lock.** -/
theorem Sane.lockFirst_of_zero (h : Sane k p) (hf : p.find k id = some 0) : p.lockFirst k id = p.set k id 1 := by
  obtain ⟨-, hid, hn, hh⟩ := h.find_eq_some.1 hf
  unfold Pool.lockFirst Pool.set
  simp [hh, getId_held hid, testAlloc_held hid hn, getRefcnt_held hid hn, first_held]

/-- A first lock of an entry that is locked. -/
theorem Sane.lockFirst_of_find (h : Sane k p) (hf : p.find k id = some (n + 1)) : p.lockFirst k id = p := by
  obtain ⟨-, hid, hn, hh⟩ := h.find_eq_some.1 hf
  unfold Pool.lockFirst
  simp [hh, getRefcnt_held hid hn]

theorem Sane.free_of_zero (h : Sane k p) (hf : p.find k id = some 0) : p.free k id = p.release k id := by
  obtain ⟨-, hid, hn, hh⟩ := h.find_eq_some.1 hf
  unfold Pool.free Pool.release
  simp [hh, testAlloc_held hid hn, getRefcnt_held hid hn]

/-- A locked entry is not freed. -/
theorem Sane.free_of_find (h : Sane k p) (hf : p.find k id = some (n + 1)) : p.free k id = p := by
  obtain ⟨-, hid, hn, hh⟩ := h.find_eq_some.1 hf
  unfold Pool.free
  simp [hh, getRefcnt_held hid hn]

end Calls

section Write

/-- A header is written that has the id that was there. -/
theorem Sane.write (h : Sane k p) (hf : p.find k id = some n) {header : ℕ}
    (hh : header = id ∨ ∃ m, m ≤ refcntMax ∧ header = held m id) :
    Sane k { p with header := update p.header (id % 2 ^ k) header } := by
  obtain ⟨hpos, hid, -, hold⟩ := h.find_eq_some.1 hf
  have hgetId : getId header = id := by
    obtain rfl | ⟨m, -, rfl⟩ := hh
    · exact getId_free hid
    · exact getId_held hid m
  refine ⟨(update_of_ne hpos.symm _ _).trans h.zero, fun e he hlt => ?_, fun e he => ?_⟩
  · by_cases hee : e = id % 2 ^ k
    · subst hee
      simp only [update_self]
      exact ⟨id, hid, hh.imp_right fun ⟨m, hm, heq⟩ => ⟨rfl, m, hm, heq⟩⟩
    · simp only [update_of_ne hee]
      exact h.entry e he hlt
  · have hlt := h.old e he
    by_cases hee : e = id % 2 ^ k
    · subst hee
      rw [hold, getId_held hid] at hlt
      simpa only [update_self, hgetId] using hlt
    · simpa only [update_of_ne hee] using hlt

theorem Sane.set (h : Sane k p) (hf : p.find k id = some n) (hm : m ≤ refcntMax) : Sane k (p.set k id m) :=
  h.write hf (.inr ⟨m, hm, rfl⟩)

theorem Sane.release (h : Sane k p) (hf : p.find k id = some n) : Sane k (p.release k id) := h.write hf (.inl rfl)

/-- What is in an entry, if it is allocated. -/
def Pool.slot (p : Pool) (e : ℕ) : Option (ℕ × ℕ) :=
  if e ≠ 0 ∧ testAlloc (p.header e) = true then some (getId (p.header e), getRefcnt (p.header e)) else none

theorem find_eq_lookup (k : ℕ) (p : Pool) : p.find k = lookup (2 ^ k) p.slot := by
  funext j
  unfold Pool.find lookup Pool.slot
  by_cases hc : j % 2 ^ k ≠ 0 ∧ testAlloc (p.header (j % 2 ^ k)) = true
  · simp [hc]
  · rw [if_neg hc, if_neg fun hcc => hc ⟨hcc.1, hcc.2.2⟩]
    rfl

/-- What the ids have when a header is written to an entry that is not allocated or has the id. -/
theorem find_header {header : ℕ} (wi : ℕ) (hpos : id % 2 ^ k ≠ 0) (hh : getId header = id)
    (hold : testAlloc (p.header (id % 2 ^ k)) = true → getId (p.header (id % 2 ^ k)) = id) :
    Pool.find k ⟨update p.header (id % 2 ^ k) header, wi⟩ =
      update (p.find k) id (if testAlloc header = true then some (getRefcnt header) else none) := by
  rw [find_eq_lookup, find_eq_lookup, ← lookup_update]
  · congr 1
    funext e
    by_cases he : e = id % 2 ^ k
    · subst he
      unfold Pool.slot
      simp only [update_self, hh, hpos, ne_eq, not_false_eq_true, true_and]
      split <;> rfl
    · unfold Pool.slot
      simp only [update_of_ne he]
  · intro x hx
    obtain ⟨⟨-, ha⟩, rfl⟩ := Option.ite_none_right_eq_some.1 hx |>.imp_right Option.some.inj
    exact hold ha

/-- What the ids have when a header is written. -/
theorem Sane.find_write (h : Sane k p) (hf : p.find k id = some n) {header : ℕ} (hh : getId header = id) :
    Pool.find k { p with header := update p.header (id % 2 ^ k) header } =
      update (p.find k) id (if testAlloc header = true then some (getRefcnt header) else none) := by
  obtain ⟨hpos, hid, -, hold⟩ := h.find_eq_some.1 hf
  refine find_header _ hpos hh fun _ => ?_
  rw [hold, getId_held hid]

theorem Sane.find_set (h : Sane k p) (hf : p.find k id = some n) (hm : m ≤ refcntMax) :
    (p.set k id m).find k = update (p.find k) id (some m) := by
  obtain ⟨-, hid, -, -⟩ := h.find_eq_some.1 hf
  refine (h.find_write hf (getId_held hid m)).trans ?_
  rw [testAlloc_held hid hm, getRefcnt_held hid hm, if_pos rfl]

theorem Sane.find_release (h : Sane k p) (hf : p.find k id = some n) :
    (p.release k id).find k = update (p.find k) id none := by
  obtain ⟨-, hid, -, -⟩ := h.find_eq_some.1 hf
  refine (h.find_write hf (getId_free hid)).trans ?_
  rw [testAlloc_free hid, if_neg Bool.false_ne_true]

/-- **A lock and an unlock** leave the pool as it was. -/
theorem Sane.unlock_lock (h : Sane k p) (hf : p.find k id = some (n + 1)) (hlt : n + 1 < refcntMax) :
    (p.lock k id).2.unlock k id = (false, p) := by
  obtain ⟨-, -, -, hh⟩ := h.find_eq_some.1 hf
  have hfind := h.find_set hf (m := n + 2) hlt
  have hsane := h.set hf (m := n + 2) hlt
  have hf' : (p.set k id (n + 2)).find k id = some (n + 2) := by rw [hfind, update_self]
  rw [h.lock_of_find hf hlt, hsane.unlock_of_find hf']
  unfold Pool.set
  simp only [update_idem, ← hh, update_eq_self]

/-- Ids that are allocated are in different entries. -/
theorem Sane.find_inj (h : Sane k p) {x y : ℕ} (hx : p.find k x ≠ none) (hy : p.find k y ≠ none)
    (hxy : x % 2 ^ k = y % 2 ^ k) : x = y := by
  obtain ⟨n, hn⟩ := Option.ne_none_iff_exists'.1 hx
  obtain ⟨m, hm⟩ := Option.ne_none_iff_exists'.1 hy
  obtain ⟨-, hx', -, hhx⟩ := h.find_eq_some.1 hn
  obtain ⟨-, hy', -, hhy⟩ := h.find_eq_some.1 hm
  rw [← getId_held hx' n, ← getId_held hy' m, ← hhx, ← hhy, hxy]

end Write

section Alloc

/-- An entry is allocated exactly when an id that belongs there is. -/
theorem Sane.testAlloc_iff (h : Sane k p) {e : ℕ} (hpos : 0 < e) (he : e < 2 ^ k) :
    testAlloc (p.header e) = true ↔ ∃ id, id % 2 ^ k = e ∧ p.find k id ≠ none := by
  constructor
  · intro ha
    obtain ⟨i, hi, hh | ⟨hmod, n, hn, hh⟩⟩ := h.entry e hpos he
    · rw [hh, testAlloc_free hi] at ha
      cases ha
    · refine ⟨i, hmod, ?_⟩
      have hf : p.find k i = some n := h.find_eq_some.2 ⟨by omega, hi, hn, by rw [hmod]; exact hh⟩
      rw [hf]
      exact Option.some_ne_none n
  · rintro ⟨id, rfl, hf⟩
    obtain ⟨n, hn⟩ := Option.ne_none_iff_exists'.1 hf
    obtain ⟨-, hid, hmax, hh⟩ := h.find_eq_some.1 hn
    rw [hh]
    exact testAlloc_held hid hmax

variable (hfit : p.writeIndex + 2 ^ k ≤ refcntInc)

include hfit

theorem fits_lt : p.writeIndex + 2 ^ k < 2 ^ 64 := by
  unfold refcntInc at hfit
  omega

/-- **An allocation** is refused, or takes an entry that is not allocated. -/
theorem Sane.alloc_cases (h : Sane k p) :
    p.alloc k = (none, p) ∧ (∀ e < 2 ^ k, testAlloc (p.header e) = true) ∨
      ∃ i, i % 2 ^ k ≠ 0 ∧ p.writeIndex ≤ i ∧ i < p.writeIndex + 2 ^ k ∧
      testAlloc (p.header (i % 2 ^ k)) = false ∧
        p.alloc k = (some i, ⟨update p.header (i % 2 ^ k) (held 0 i), i + 1⟩) := by
  have hlt := fits_lt hfit
  unfold Pool.alloc
  obtain hp | ⟨i, hp⟩ := Option.eq_none_or_eq_some
    (probe 64 (2 ^ k) p.writeIndex (fun e => !testAlloc (p.header e)) (fun e => getId (p.header e)))
  · have hfull := (probe_eq_none_iff _ hlt h.old).1 hp
    rw [hp]
    exact .inl ⟨rfl, fun e he => by simpa using hfull e he⟩
  · obtain ⟨hle, hfree, -⟩ := mem_of_probe hp
    obtain ⟨hi, -⟩ := lt_of_probe (le_of_lt (lt_of_le_of_lt (Nat.le_add_left _ _) hlt))
      (lt_of_le_of_lt (Nat.le_add_right _ _) hlt) hp
    rw [Bool.not_eq_true'] at hfree
    have hpos : i % 2 ^ k ≠ 0 := by
      intro hz
      rw [hz, h.zero, testAlloc_held (by decide) (by decide)] at hfree
      cases hfree
    have hmod : (i + 1) % 2 ^ 64 = i + 1 := Nat.mod_eq_of_lt (by omega)
    rw [hp]
    simp only [hmod, fresh_eq (lt_of_lt_of_le hi hfit)]
    exact .inr ⟨i, hpos, hle, hi, hfree, rfl⟩

/-- What the ids have after an allocation. -/
theorem Sane.find_alloc (h : Sane k p) (hi : (p.alloc k).1 = some i) :
    Sane k (p.alloc k).2 ∧ p.find k i = none ∧ (p.alloc k).2.find k = update (p.find k) i (some 0) ∧
      i % 2 ^ k ≠ 0 ∧ p.writeIndex ≤ i ∧ (p.alloc k).2.writeIndex = i + 1 ∧
      testAlloc (p.header (i % 2 ^ k)) = false := by
  obtain ⟨hno, -⟩ | ⟨j, hpos, hle, hlt, hfree, heq⟩ := h.alloc_cases hfit
  · rw [hno] at hi
    cases hi
  · rw [heq] at hi ⊢
    obtain rfl : j = i := Option.some.inj hi
    have hj : j < refcntInc := lt_of_lt_of_le hlt hfit
    have hnone : p.find k j = none := by
      unfold Pool.find
      rw [hfree]
      exact if_neg fun hc => Bool.false_ne_true hc.2.2
    have hfind := find_header (j + 1) hpos (getId_held hj 0) fun ha =>
      absurd (hfree.symm.trans ha) Bool.false_ne_true
    rw [testAlloc_held hj (Nat.zero_le _), getRefcnt_held hj (Nat.zero_le _), if_pos rfl] at hfind
    refine ⟨⟨(update_of_ne hpos.symm _ _).trans h.zero, fun e he hlt => ?_, fun e he => ?_⟩, hnone, hfind,
      hpos, hle, rfl, hfree⟩
    · by_cases hee : e = j % 2 ^ k
      · subst hee
        exact ⟨j, hj, .inr ⟨rfl, 0, Nat.zero_le _, update_self ..⟩⟩
      · simp only [update_of_ne hee]
        exact h.entry e he hlt
    · by_cases hee : e = j % 2 ^ k
      · subst hee
        simp only [update_self, getId_held hj]
        omega
      · have := h.old e he
        simp only [update_of_ne hee]
        omega

end Alloc

end Prs.PoolWords
