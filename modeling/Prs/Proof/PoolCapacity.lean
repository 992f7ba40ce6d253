import Prs.Proof.PoolTable

/-!
# How many entries a pool has

`prs_pool_create` marks the first entry as allocated, under an id that no caller ever gets. The history of a
pool is the set of the ids that `prs_pool_alloc` has given out and that have not been freed since, by
`prs_pool_free` or by the `prs_pool_unlock` that returned true.

* `alloc_null_iff`: that `prs_pool_alloc` returns null only when all entries are allocated by callers is so
  exactly when two entries or more are left, as one of them is never given out.
* `entry_missing`: a pool of two entries has one.
-/

namespace Prs.PoolWords

open Function

variable {k id i n : ℕ} {p : Pool} {allocated : Finset ℕ}

/-- A pool with the ids that are allocated. -/
def sysAllocated (k : ℕ) : System (Pool × Finset ℕ) Act :=
  (sys k).withTrace ∅ fun p a p' allocated =>
    match a with
    | .alloc => (p.alloc k).1.elim allocated fun id => insert id allocated
    | .free id => if testAlloc (p'.header (id % 2 ^ k)) = true then allocated else allocated.erase id
    | .lockFirst _ => allocated
    | .unlock id => if (p.unlock k id).1 = true then allocated.erase id else allocated

/-- An id is freed or locked firsthand by a caller to whom it was given, and the ids that are tried have 52
bits. -/
def Valid (k : ℕ) (q : Pool × Finset ℕ) : Act → Prop
  | .alloc => q.1.writeIndex + 2 ^ k ≤ refcntInc
  | .free id => id ∈ q.2
  | .lockFirst id => id ∈ q.2
  | .unlock _ => True

instance (k : ℕ) (q : Pool × Finset ℕ) (a : Act) : Decidable (Valid k q a) :=
  match a with
  | .alloc => inferInstanceAs (Decidable (_ ≤ _))
  | .free _ => inferInstanceAs (Decidable (_ ∈ _))
  | .lockFirst _ => inferInstanceAs (Decidable (_ ∈ _))
  | .unlock _ => inferInstanceAs (Decidable True)

/-- The ids that are allocated are those that the pool finds. -/
structure Inv (k : ℕ) (p : Pool) (allocated : Finset ℕ) : Prop where
  sane : Sane k p
  mem : ∀ id, id ∈ allocated ↔ p.find k id ≠ none

theorem inv_create (k : ℕ) : Inv k .create ∅ where
  sane := sane_create k
  mem := fun id => by
    refine iff_of_false (Finset.notMem_empty id) (not_not.2 ?_)
    unfold Pool.find
    apply if_neg
    rintro ⟨hpos, -, ha⟩
    rw [create_header, if_neg hpos] at ha
    exact absurd ha (by decide)

section Steps

/-- The count of an id has changed. -/
theorem Inv.set (h : Inv k p allocated) (hf : p.find k id = some n) {m : ℕ} (hm : m ≤ refcntMax) :
    Inv k (p.set k id m) allocated where
  sane := h.sane.set hf hm
  mem := fun x => by
    rw [h.mem x, h.sane.find_set hf hm]
    by_cases hx : x = id
    · subst hx
      rw [update_self, hf]
      exact iff_of_true (Option.some_ne_none _) (Option.some_ne_none _)
    · rw [update_of_ne hx]

/-- An id has been freed. -/
theorem Inv.release (h : Inv k p allocated) (hf : p.find k id = some n) :
    Inv k (p.release k id) (allocated.erase id) where
  sane := h.sane.release hf
  mem := fun x => by
    rw [Finset.mem_erase, h.mem x, h.sane.find_release hf]
    by_cases hx : x = id
    · subst hx
      rw [update_self]
      exact iff_of_false (fun hc => hc.1 rfl) (fun hc => hc rfl)
    · rw [update_of_ne hx]
      exact and_iff_right hx

/-- An allocation. -/
theorem Inv.alloc (h : Inv k p allocated) (hfit : p.writeIndex + 2 ^ k ≤ refcntInc) :
    Inv k (p.alloc k).2 ((p.alloc k).1.elim allocated fun id => insert id allocated) := by
  obtain hno | ⟨i, hi⟩ := Option.eq_none_or_eq_some (p.alloc k).1
  · obtain ⟨heq, -⟩ | ⟨j, -, -, -, -, heq⟩ := h.sane.alloc_cases hfit
    · rw [heq]
      exact h
    · rw [heq] at hno
      cases hno
  · obtain ⟨hsane, -, hfind, -⟩ := h.sane.find_alloc hfit hi
    rw [hi]
    refine ⟨hsane, fun x => ?_⟩
    rw [Option.elim_some, Finset.mem_insert, h.mem x, hfind]
    by_cases hx : x = i
    · subst hx
      rw [update_self]
      exact iff_of_true (.inl rfl) (Option.some_ne_none _)
    · rw [update_of_ne hx, or_iff_right hx]

theorem Inv.free (h : Inv k p allocated) (hid : id ∈ allocated) :
    Inv k (p.free k id)
      (if testAlloc ((p.free k id).header (id % 2 ^ k)) = true then allocated else allocated.erase id) := by
  obtain ⟨n, hf⟩ := Option.ne_none_iff_exists'.1 ((h.mem id).1 hid)
  obtain ⟨-, hlt, hn, hh⟩ := h.sane.find_eq_some.1 hf
  cases n with
  | zero =>
    have hheader : (p.release k id).header (id % 2 ^ k) = id := update_self ..
    rw [h.sane.free_of_zero hf, hheader, testAlloc_free hlt, if_neg Bool.false_ne_true]
    exact h.release hf
  | succ n =>
    rw [h.sane.free_of_find hf, hh, testAlloc_held hlt hn, if_pos rfl]
    exact h

theorem Inv.lockFirst (h : Inv k p allocated) (hid : id ∈ allocated) : Inv k (p.lockFirst k id) allocated := by
  obtain ⟨n, hf⟩ := Option.ne_none_iff_exists'.1 ((h.mem id).1 hid)
  cases n with
  | zero =>
    rw [h.sane.lockFirst_of_zero hf]
    exact h.set hf (by decide)
  | succ n =>
    rw [h.sane.lockFirst_of_find hf]
    exact h

theorem Inv.unlock (h : Inv k p allocated) (id : ℕ) :
    Inv k (p.unlock k id).2 (if (p.unlock k id).1 = true then allocated.erase id else allocated) := by
  obtain hf | ⟨n, hf⟩ := Option.eq_none_or_eq_some (p.find k id)
  · rw [h.sane.unlock_of_none hf, if_neg Bool.false_ne_true]
    exact h
  · obtain ⟨-, -, hn, -⟩ := h.sane.find_eq_some.1 hf
    obtain rfl | rfl | ⟨m, rfl⟩ : n = 0 ∨ n = 1 ∨ ∃ m, n = m + 2 := by
      by_cases hz : n < 2
      · omega
      · exact .inr (.inr ⟨n - 2, by omega⟩)
    · rw [h.sane.unlock_of_zero hf, if_neg Bool.false_ne_true]
      exact h
    · rw [h.sane.unlock_of_one hf, if_pos rfl]
      exact h.release hf
    · rw [h.sane.unlock_of_find hf, if_neg Bool.false_ne_true]
      exact h.set hf (by omega)

/-- **A step.** -/
theorem Inv.step {q q' : Pool × Finset ℕ} (h : Inv k q.1 q.2) {a : Act} (hok : Valid k q a)
    (hs : (sysAllocated k).step q a = some q') : Inv k q'.1 q'.2 := by
  obtain ⟨hstep, hall⟩ := System.withTrace_step hs
  have hexec : q.1.exec k a = q'.1 := Option.some.inj hstep
  rw [hall, ← hexec]
  cases a with
  | alloc => exact h.alloc hok
  | free id => exact h.free hok
  | lockFirst id => exact h.lockFirst hok
  | unlock id => exact h.unlock id

theorem inv_reach {q : Pool × Finset ℕ} (hr : (sysAllocated k).Reach (Valid k) q) : Inv k q.1 q.2 := by
  apply hr.inv
  · rintro ⟨p, allocated⟩ ⟨rfl, rfl⟩
    exact inv_create k
  · intro q a q' h hok hs
    exact h.step hok hs

end Steps

section Capacity

/-- The ids that are allocated, and that of the first entry, are in different entries. -/
theorem Inv.inj (h : Inv k p allocated) :
    ∀ i ∈ insert 0 allocated, ∀ j ∈ insert 0 allocated, i % 2 ^ k = j % 2 ^ k → i = j := by
  have hpos : ∀ i ∈ allocated, i % 2 ^ k ≠ 0 := by
    intro i hi
    obtain ⟨n, hf⟩ := Option.ne_none_iff_exists'.1 ((h.mem i).1 hi)
    exact (h.sane.find_eq_some.1 hf).1
  intro i hi j hj hij
  obtain rfl | hi := Finset.mem_insert.1 hi
  · obtain rfl | hj := Finset.mem_insert.1 hj
    · rfl
    · rw [Nat.zero_mod] at hij
      exact absurd hij.symm (hpos j hj)
  · obtain rfl | hj := Finset.mem_insert.1 hj
    · rw [Nat.zero_mod] at hij
      exact absurd hij (hpos i hi)
    · exact h.sane.find_inj ((h.mem i).1 hi) ((h.mem j).1 hj) hij

theorem Inv.zero_notMem (h : Inv k p allocated) : 0 ∉ allocated := by
  intro hz
  obtain ⟨n, hf⟩ := Option.ne_none_iff_exists'.1 ((h.mem 0).1 hz)
  exact (h.sane.find_eq_some.1 hf).1 (Nat.zero_mod _)

/-- **When an allocation is refused**: one entry less is allocated than there are. -/
theorem Inv.alloc_eq_none (h : Inv k p allocated) (hfit : p.writeIndex + 2 ^ k ≤ refcntInc) :
    (p.alloc k).1 = none ↔ allocated.card + 1 = 2 ^ k := by
  have hcard := Finset.card_insert_of_notMem h.zero_notMem
  have hle := card_le_slots h.inj (Nat.two_pow_pos k)
  have hlt := card_lt_iff h.inj (Nat.two_pow_pos k)
  rw [hcard] at hle hlt
  obtain ⟨heq, hfull⟩ | ⟨i, hpos, -, -, hfree, heq⟩ := h.sane.alloc_cases hfit
  · refine iff_of_true (by rw [heq]) (le_antisymm hle (not_lt.1 fun hc => ?_))
    obtain ⟨e, he, hno⟩ := hlt.1 hc
    have hpos : e ≠ 0 := fun hz => hno 0 (Finset.mem_insert_self 0 allocated) (by rw [hz, Nat.zero_mod])
    obtain ⟨id, hid, hf⟩ := (h.sane.testAlloc_iff (Nat.pos_of_ne_zero hpos) he).1 (hfull e he)
    exact hno id (Finset.mem_insert_of_mem ((h.mem id).2 hf)) hid
  · refine iff_of_false (by rw [heq]; exact Option.some_ne_none i) (ne_of_lt (hlt.2 ?_))
    refine ⟨i % 2 ^ k, Nat.mod_lt i (Nat.two_pow_pos k), fun j hj hji => ?_⟩
    obtain rfl | hj := Finset.mem_insert.1 hj
    · rw [Nat.zero_mod] at hji
      exact hpos hji.symm
    · have ha := (h.sane.testAlloc_iff (Nat.pos_of_ne_zero hpos) (Nat.mod_lt i (Nat.two_pow_pos k))).2
        ⟨j, hji, (h.mem j).1 hj⟩
      rw [hfree] at ha
      cases ha

/-- **The capacity of a pool.** In every run, that an allocation which is refused finds all entries allocated
is so exactly when two entries or more are left. -/
theorem alloc_null_iff (k : ℕ) (p : Pool) (allocated : Finset ℕ)
    (hr : (sysAllocated k).Reach (Valid k) (p, allocated)) (hfit : p.writeIndex + 2 ^ k ≤ refcntInc) :
    ((p.alloc k).1 = none → allocated.card = 2 ^ k) ↔ allocated.card + 1 < 2 ^ k := by
  have h : Inv k p allocated := inv_reach hr
  have hcard := Finset.card_insert_of_notMem h.zero_notMem
  have hle := card_le_slots h.inj (Nat.two_pow_pos k)
  rw [h.alloc_eq_none hfit]
  omega

theorem alloc_null_iff_four : ∃ (p : Pool) (allocated : Finset ℕ), allocated.card = 2 ∧
    (((p.alloc 2).1 = none → allocated.card = 2 ^ 2) ↔ allocated.card + 1 < 2 ^ 2) := by
  obtain ⟨q, hr, hcard, hfit⟩ := System.exists_of_check (sysAllocated 2) (Valid 2)
    (fun q => q.2.card = 2 ∧ q.1.writeIndex + 2 ^ 2 ≤ refcntInc) (.create, ∅) ⟨rfl, rfl⟩
    [.alloc, .alloc, .lockFirst 2, .unlock 2, .alloc, .free 1, .alloc] (by decide +kernel)
  exact ⟨q.1, q.2, hcard, alloc_null_iff 2 q.1 q.2 hr hfit⟩

/-- **An entry is missing**: a pool of two entries has no second one. -/
theorem entry_missing :
    ¬ ∀ (k : ℕ) (p : Pool) (allocated : Finset ℕ), 1 ≤ k → (sysAllocated k).Reach (Valid k) (p, allocated) →
      (p.alloc k).1 = none → allocated.card = 2 ^ k := by
  intro hall
  obtain ⟨q, hr, hnone, hcard⟩ := System.exists_of_check (sysAllocated 1) (Valid 1)
    (fun q => (q.1.alloc 1).1 = none ∧ q.2.card = 1) (.create, ∅) ⟨rfl, rfl⟩ [.alloc] (by decide +kernel)
  have hfull := hall 1 q.1 q.2 le_rfl hr hnone
  omega

end Capacity

end Prs.PoolWords
