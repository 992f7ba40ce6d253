import Prs.Proof.PoolTable

/-!
# A pool among threads

`Sane` says of `write_index` that it is above the ids in use, which threads that allocate at once can break.
`Sound` is what is left of it, and each exchange of a header keeps it.

* `Kept`: what a lock or an unlock leaves alone.
* `Sound.lock_cases`, `Sound.unlock_count`, `Sound.lockFirst_find`, `Sound.fresh_find`: what an exchange does
  to the count of its id.
-/

namespace Prs.PoolWords

open Function

variable {k id i n : ℕ} {p p' : Pool}

/-- The headers of a pool, with the ids that there can be. -/
def Pool.bounded (p : Pool) : Pool := { p with writeIndex := refcntInc }

/-- What holds of the headers of every pool whose ids have 52 bits. -/
def Sound (k : ℕ) (p : Pool) : Prop := Sane k p.bounded

/-- How often an id is locked. -/
def Pool.count (k : ℕ) (p : Pool) (id : ℕ) : ℕ := (p.find k id).getD 0

theorem sound_create (k : ℕ) : Sound k .create where
  zero := (sane_create k).zero
  entry := (sane_create k).entry
  old := fun e _ => Nat.mod_lt _ (by decide)

theorem bounded_lock (k id : ℕ) (p : Pool) :
    p.bounded.lock k id = ((p.lock k id).1, (p.lock k id).2.bounded) := by
  unfold Pool.lock Pool.bounded
  dsimp only
  repeat' split
  all_goals rfl

theorem bounded_unlock (k id : ℕ) (p : Pool) :
    p.bounded.unlock k id = ((p.unlock k id).1, (p.unlock k id).2.bounded) := by
  unfold Pool.unlock Pool.bounded
  dsimp only
  repeat' split
  all_goals rfl

theorem bounded_lockFirst (k id : ℕ) (p : Pool) : p.bounded.lockFirst k id = (p.lockFirst k id).bounded := by
  unfold Pool.lockFirst Pool.bounded
  dsimp only
  repeat' split
  all_goals rfl

/-- An id that is locked. -/
theorem find_of_count (h : p.count k id ≠ 0) : ∃ n, p.find k id = some (n + 1) := by
  unfold Pool.count at h
  cases hf : p.find k id with
  | none =>
    rw [hf] at h
    exact absurd rfl h
  | some n =>
    rw [hf] at h
    obtain ⟨m, rfl⟩ := Nat.exists_eq_succ_of_ne_zero h
    exact ⟨m, rfl⟩

theorem count_of_find (h : p.find k id = some n) : p.count k id = n := by
  unfold Pool.count
  rw [h]
  rfl

theorem Sound.lt (h : Sound k p) (hc : p.count k id ≠ 0) : id < refcntInc := by
  obtain ⟨n, hf⟩ := find_of_count hc
  exact (h.find_eq_some.1 hf).2.1

theorem Sound.ne_invalid (h : Sound k p) (hc : p.count k id ≠ 0) : id ≠ invalid := PoolWords.ne_invalid (h.lt hc)

/-- An id that is allocated is the one of its entry. -/
theorem getId_of_find (h : p.find k id = some n) : getId (p.header (id % 2 ^ k)) = id :=
  (Option.ite_none_right_eq_some.1 h).1.2.1

/-- Ids that are allocated are in different entries. -/
theorem find_inj {x y m : ℕ} (hx : p.find k x = some n) (hy : p.find k y = some m) (hxy : x % 2 ^ k = y % 2 ^ k) :
    x = y := by
  rw [← getId_of_find hx, ← getId_of_find hy, hxy]

/-- What an exchange that changes a count leaves alone. -/
structure Kept (k : ℕ) (p p' : Pool) : Prop where
  sound : Sound k p'
  ids : ∀ e, getId (p'.header e) = getId (p.header e)
  zero : ∀ id, p'.find k id = some 0 ↔ p.find k id = some 0
  live : ∀ id, p'.count k id ≠ 0 → p.count k id ≠ 0

theorem Kept.refl (h : Sound k p) : Kept k p p := ⟨h, fun _ => rfl, fun _ => Iff.rfl, fun _ hc => hc⟩

/-- An entry that is locked gets another count. -/
theorem kept_of_update {c : Option ℕ} (h : Sound k p') (hf : p.find k id = some (n + 1)) (hc : c ≠ some 0)
    (hids : ∀ e, getId (p'.header e) = getId (p.header e)) (hp : p'.find k = update (p.find k) id c) :
    Kept k p p' := by
  refine ⟨h, hids, fun m => ?_, fun m hm => ?_⟩
  · rw [hp]
    by_cases hid : m = id
    · subst hid
      rw [update_self, hf]
      exact iff_of_false hc (by simp)
    · rw [update_of_ne hid]
  · unfold Pool.count at hm ⊢
    rw [hp] at hm
    by_cases hid : m = id
    · subst hid
      rw [hf]
      exact Nat.succ_ne_zero n
    · rwa [update_of_ne hid] at hm

theorem count_of_update {c : Option ℕ} (hp : p'.find k = update (p.find k) id c) :
    p'.count k = update (p.count k) id (c.getD 0) := by
  funext m
  unfold Pool.count
  rw [hp]
  by_cases hid : m = id
  · subst hid
    rw [update_self, update_self]
  · rw [update_of_ne hid, update_of_ne hid]

/-- A word with the same id is written. -/
theorem getId_update {header : ℕ → ℕ} {e w : ℕ} (h : getId w = getId (header e)) (m : ℕ) :
    getId (update header e w m) = getId (header m) := by
  by_cases hm : m = e
  · rw [hm, update_self, h]
  · rw [update_of_ne hm]

theorem sound_congr {q : Pool} (hq : q.header = p.header) (h : Sound k p) : Sound k q := by
  unfold Sound Pool.bounded at h ⊢
  rwa [hq]

theorem find_congr {q : Pool} (hq : q.header = p.header) : q.find k = p.find k := by
  unfold Pool.find
  rw [hq]

theorem Sound.set_kept (h : Sound k p) (hf : p.find k id = some (n + 1)) {m : ℕ} (hm : m + 1 ≤ refcntMax)
    (hp : p'.header = (p.set k id (m + 1)).header) :
    Kept k p p' ∧ p'.count k = update (p.count k) id (m + 1) := by
  have hfind : p'.find k = update (p.find k) id (some (m + 1)) := (find_congr hp).trans (h.find_set hf hm)
  refine ⟨kept_of_update (sound_congr hp (h.set hf hm)) hf (by simp) ?_ hfind, count_of_update hfind⟩
  rw [hp]
  exact getId_update (by rw [getId_held (h.find_eq_some.1 hf).2.1, getId_of_find hf])

theorem Sound.release_kept (h : Sound k p) (hf : p.find k id = some (n + 1))
    (hp : p'.header = (p.release k id).header) : Kept k p p' ∧ p'.count k = update (p.count k) id 0 := by
  have hfind : p'.find k = update (p.find k) id none := (find_congr hp).trans (h.find_release hf)
  refine ⟨kept_of_update (sound_congr hp (h.release hf)) hf (by simp) ?_ hfind, count_of_update hfind⟩
  rw [hp]
  exact getId_update (by rw [getId_free (h.find_eq_some.1 hf).2.1, getId_of_find hf])

/-- **A lock** of an id that is locked adds one, or is refused. -/
theorem Sound.lock_cases (h : Sound k p) (id : ℕ) :
    ((p.lock k id).1 = false ∧ Kept k p (p.lock k id).2 ∧ (p.lock k id).2.count k = p.count k) ∨
      ((p.lock k id).1 = true ∧ Kept k p (p.lock k id).2 ∧ p.count k id ≠ 0 ∧
        (p.lock k id).2.count k = update (p.count k) id (p.count k id + 1)) := by
  have hb := bounded_lock k id p
  have hrefused (hl : p.bounded.lock k id = (false, p.bounded)) :
      (p.lock k id).1 = false ∧ Kept k p (p.lock k id).2 ∧ (p.lock k id).2.count k = p.count k := by
    rw [hl, Prod.mk.injEq] at hb
    have hheader : (p.lock k id).2.header = p.header := (congrArg Pool.header hb.2).symm
    have hcount : (p.lock k id).2.count k = p.count k := by
      unfold Pool.count
      rw [find_congr hheader]
    refine ⟨hb.1.symm, ⟨sound_congr hheader h,
      fun e => by rw [hheader], fun m => by rw [find_congr hheader], ?_⟩, hcount⟩
    rw [hcount]
    exact fun _ hm => hm
  cases hf : p.find k id with
  | none => exact .inl (hrefused (h.lock_of_none hf))
  | some n =>
    obtain _ | n := n
    · exact .inl (hrefused (h.lock_of_zero hf))
    · by_cases hmax : n + 1 = refcntMax
      · exact .inl (hrefused (h.lock_of_max (hmax ▸ hf)))
      · have hle : n + 1 ≤ refcntMax := (h.find_eq_some.1 hf).2.2.1
        have hlt : n + 1 < refcntMax := by omega
        rw [h.lock_of_find hf hlt, Prod.mk.injEq] at hb
        have hheader : (p.lock k id).2.header = (p.set k id (n + 2)).header := (congrArg Pool.header hb.2).symm
        obtain ⟨hkept, hcount⟩ := h.set_kept hf hlt hheader
        rw [count_of_find hf]
        exact .inr ⟨hb.1.symm, hkept, Nat.succ_ne_zero n, hcount⟩

/-- An id that is locked can be locked again below the limit of the count. -/
theorem Sound.lock_true (h : Sound k p) (hc : p.count k id ≠ 0) (hlt : p.count k id < refcntMax) :
    (p.lock k id).1 = true := by
  have hb := bounded_lock k id p
  obtain ⟨n, hf⟩ := find_of_count hc
  rw [count_of_find hf] at hlt
  rw [h.lock_of_find hf hlt, Prod.mk.injEq] at hb
  exact hb.1.symm

/-- **An unlock** takes one. -/
theorem Sound.unlock_count (h : Sound k p) (hc : p.count k id ≠ 0) :
    Kept k p (p.unlock k id).2 ∧ (p.unlock k id).2.count k = update (p.count k) id (p.count k id - 1) := by
  have hb := bounded_unlock k id p
  obtain ⟨n, hf⟩ := find_of_count hc
  rw [count_of_find hf]
  obtain _ | n := n
  · rw [h.unlock_of_one hf, Prod.mk.injEq] at hb
    exact h.release_kept hf (congrArg Pool.header hb.2).symm
  · have hle : n + 2 ≤ refcntMax := (h.find_eq_some.1 hf).2.2.1
    rw [h.unlock_of_find hf, Prod.mk.injEq] at hb
    exact h.set_kept hf (by omega) (congrArg Pool.header hb.2).symm

/-- **The first lock.** -/
theorem Sound.lockFirst_find (h : Sound k p) (hf : p.find k id = some 0) :
    Sound k (p.lockFirst k id) ∧ (∀ e, getId ((p.lockFirst k id).header e) = getId (p.header e)) ∧
      (p.lockFirst k id).find k = update (p.find k) id (some 1) := by
  have hb := bounded_lockFirst k id p
  rw [h.lockFirst_of_zero hf] at hb
  have hheader : (p.lockFirst k id).header = (p.set k id 1).header := (congrArg Pool.header hb).symm
  refine ⟨sound_congr hheader (h.set hf (by decide)), ?_, (find_congr hheader).trans (h.find_set hf (by decide))⟩
  rw [hheader]
  exact getId_update (by rw [getId_held (h.find_eq_some.1 hf).2.1, getId_of_find hf])

/-- **The exchange of an allocation.** -/
theorem Sound.fresh_find (h : Sound k p) (hi : i < refcntInc) (hfree : testAlloc (p.header (i % 2 ^ k)) = false) :
    Sound k { p with header := update p.header (i % 2 ^ k) (fresh i) } ∧ p.find k i = none ∧
      Pool.find k { p with header := update p.header (i % 2 ^ k) (fresh i) } = update (p.find k) i (some 0) := by
  have hpos : i % 2 ^ k ≠ 0 := by
    intro hz
    have h0 : p.header 0 = held 0 0 := h.zero
    rw [hz, h0, testAlloc_held (by decide) (by decide)] at hfree
    cases hfree
  have hnone : p.find k i = none := by
    unfold Pool.find
    rw [hfree]
    exact if_neg fun hc => Bool.false_ne_true hc.2.2
  rw [fresh_eq hi]
  refine ⟨⟨(update_of_ne hpos.symm _ _).trans h.zero, fun e he hlt => ?_,
    fun e _ => Nat.mod_lt _ (by decide)⟩, hnone, ?_⟩
  · by_cases hee : e = i % 2 ^ k
    · subst hee
      exact ⟨i, hi, .inr ⟨rfl, 0, Nat.zero_le _, update_self ..⟩⟩
    · unfold Pool.bounded
      simp only [update_of_ne hee]
      exact h.entry e he hlt
  · have hfind := find_header p.writeIndex hpos (getId_held hi 0) fun ha =>
      absurd (hfree.symm.trans ha) Bool.false_ne_true
    rwa [testAlloc_held hi (Nat.zero_le _), getRefcnt_held hi (Nat.zero_le _), if_pos rfl] at hfind

end Prs.PoolWords
