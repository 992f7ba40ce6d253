import Prs.Model.Pd
import Prs.Model.PdWords

/-!
# The pointer directory is a finite map

* `find`: what the words of the directory say about an id. `find_alloc`, `find_lock` and `find_unlock` say how the
  operations change it.
* `exec_step`: from a directory that represents a map, each operation is one of the map's.
* `run_of_trace`: so is every run, as long as the indices that allocations try have 52 bits.
* `toPd_alloc`, `toPd_lock`, `toPd_unlock`: without its pointers the map is the directory of `Model/Pd.lean`,
  which other models share.
* `id_lost`: an allocation can get an index that has more, long before that many allocations were made. Its id
  is live, but nothing can lock it.
-/

namespace Prs.PdWords

open Function

section Words

variable {header i : ℕ}

theorem getId_zero : getId 0 = 0 := Nat.zero_mod refcntInc

theorem getRefcnt_zero : getRefcnt 0 = 0 := by
  unfold getRefcnt
  rw [Nat.zero_div, Nat.zero_mod]

theorem getId_first_mod (i : ℕ) : getId (first i) = i % refcntInc := by
  unfold getId first refcntInc
  omega

theorem getId_first (hi : i < refcntInc) : getId (first i) = i := by
  unfold getId first refcntInc at *
  omega

theorem getRefcnt_first (i : ℕ) : getRefcnt (first i) = 1 := by
  unfold getRefcnt first refcntInc
  omega

theorem getId_incr (header : ℕ) : getId (incr header) = getId header := by
  unfold getId incr refcntInc
  omega

theorem getRefcnt_incr (h : getRefcnt header ≠ refcntMax) : getRefcnt (incr header) = getRefcnt header + 1 := by
  unfold getRefcnt refcntMax incr refcntInc at *
  omega

theorem getId_decr (header : ℕ) : getId (decr header) = getId header := by
  unfold getId decr refcntInc
  omega

theorem getRefcnt_decr (h : getRefcnt header ≠ 0) : getRefcnt (decr header) = getRefcnt header - 1 := by
  unfold getRefcnt decr refcntInc at *
  omega

theorem getRefcnt_le (header : ℕ) : getRefcnt header ≤ refcntMax := by
  unfold getRefcnt refcntMax
  omega

theorem getId_lt (header : ℕ) : getId header < refcntInc := Nat.mod_lt header (by unfold refcntInc; omega)

end Words

variable {P : Type} {k id : ℕ} {null : P} {d : Dir P} {f : Map P}

/-- The pointer and the count of an id, if it is live. -/
def Dir.find (k : ℕ) (d : Dir P) (id : ℕ) : Option (P × ℕ) :=
  if getId (d.header (id % 2 ^ k)) = id ∧ getRefcnt (d.header (id % 2 ^ k)) ≠ 0 then
    some (d.ptr (id % 2 ^ k), getRefcnt (d.header (id % 2 ^ k)))
  else none

theorem find_eq_some {ptr : P} {count : ℕ} :
    d.find k id = some (ptr, count) ↔ getId (d.header (id % 2 ^ k)) = id ∧ getRefcnt (d.header (id % 2 ^ k)) ≠ 0 ∧
      d.ptr (id % 2 ^ k) = ptr ∧ getRefcnt (d.header (id % 2 ^ k)) = count := by
  unfold Dir.find
  simp only [Option.ite_none_right_eq_some, Option.some.injEq, Prod.mk.injEq, and_assoc]

theorem find_eq_none :
    d.find k id = none ↔ getId (d.header (id % 2 ^ k)) = id → getRefcnt (d.header (id % 2 ^ k)) = 0 := by
  unfold Dir.find
  simp only [ite_eq_right_iff, reduceCtorEq, imp_false, not_and, not_not]

/-- A count is between 1 and the largest that a header holds. -/
theorem count_of_find {ptr : P} {count : ℕ} (h : d.find k id = some (ptr, count)) :
    0 < count ∧ count ≤ refcntMax := by
  obtain ⟨-, hne, -, hcount⟩ := find_eq_some.1 h
  have := getRefcnt_le (d.header (id % 2 ^ k))
  omega

theorem lt_of_find {x : P × ℕ} (h : d.find k id = some x) : id < refcntInc := by
  obtain ⟨hid, -⟩ := find_eq_some.1 h
  rw [← hid]
  exact getId_lt _

theorem ne_invalid (h : id < refcntInc) : id ≠ invalid := by
  unfold invalid refcntInc at *
  omega

/-- What is in an entry, if it is in use. -/
def Dir.slot (d : Dir P) (e : ℕ) : Option (ℕ × P × ℕ) :=
  if getRefcnt (d.header e) ≠ 0 then some (getId (d.header e), d.ptr e, getRefcnt (d.header e)) else none

theorem find_eq_lookup (k : ℕ) (d : Dir P) : d.find k = lookup (2 ^ k) d.slot := by
  funext j
  unfold Dir.find lookup Dir.slot
  by_cases hr : getRefcnt (d.header (j % 2 ^ k)) = 0
  · simp [hr]
  · simp [hr]

theorem id_of_slot {e : ℕ} {x : ℕ × P × ℕ} (h : d.slot e = some x) :
    x.1 = getId (d.header e) ∧ getRefcnt (d.header e) ≠ 0 := by
  obtain ⟨hr, rfl⟩ := Option.ite_none_right_eq_some.1 h |>.imp_right Option.some.inj
  exact ⟨rfl, hr⟩

/-- What the ids of an entry come to when a word with id `id` and a pointer is written to it. -/
theorem find_write {header : ℕ} (ptr : P) (wi : ℕ) (hid : getId header = id)
    (hold : getRefcnt (d.header (id % 2 ^ k)) = 0 ∨ getId (d.header (id % 2 ^ k)) = id) :
    Dir.find k ⟨update d.header (id % 2 ^ k) header, update d.ptr (id % 2 ^ k) ptr, wi⟩ =
      update (d.find k) id (if getRefcnt header ≠ 0 then some (ptr, getRefcnt header) else none) := by
  rw [find_eq_lookup, find_eq_lookup, ← lookup_update]
  · congr 1
    funext e
    by_cases he : e = id % 2 ^ k
    · subst he
      unfold Dir.slot
      simp only [update_self, hid]
      split <;> rfl
    · unfold Dir.slot
      simp only [update_of_ne he]
  · intro x hx
    obtain ⟨hx, hr⟩ := id_of_slot hx
    rw [hx]
    exact hold.resolve_left hr

/-- A write of a header alone. -/
theorem find_writeHeader {header : ℕ} (hid : getId header = id) (hold : getId (d.header (id % 2 ^ k)) = id) :
    Dir.find k { d with header := update d.header (id % 2 ^ k) header } =
      update (d.find k) id
        (if getRefcnt header ≠ 0 then some (d.ptr (id % 2 ^ k), getRefcnt header) else none) := by
  have h := find_write (d.ptr (id % 2 ^ k)) d.writeIndex hid (Or.inr hold)
  rwa [update_eq_self] at h

variable (null) in
/-- **`prs_pd_lock`** of a live id below the limit returns its pointer and counts one more. -/
theorem find_lock {ptr : P} {count : ℕ} (h : d.find k id = some (ptr, count)) (hc : count < refcntMax) :
    (d.lock k null id).1 = ptr ∧ (d.lock k null id).2.find k = update (d.find k) id (some (ptr, count + 1)) := by
  have hinv := ne_invalid (lt_of_find h)
  obtain ⟨hid, hne, hptr, hcount⟩ := find_eq_some.1 h
  have hmax : getRefcnt (d.header (id % 2 ^ k)) ≠ refcntMax := by omega
  unfold Dir.lock
  simp only [hinv, hid, hne, hmax, if_false, not_true_eq_false, ne_eq]
  refine ⟨hptr, ?_⟩
  rw [find_writeHeader (by rw [getId_incr, hid]) hid, getRefcnt_incr hmax, hptr, hcount]
  simp

variable (null) in
theorem lock_of_dead (h : d.find k id = none) : d.lock k null id = (null, d) := by
  have hz := find_eq_none.1 h
  unfold Dir.lock
  by_cases hid : getId (d.header (id % 2 ^ k)) = id
  · simp [hid, hz hid]
  · simp [hid]

variable (null) in
theorem lock_of_max {ptr : P} (h : d.find k id = some (ptr, refcntMax)) : d.lock k null id = (null, d) := by
  obtain ⟨hid, hne, -, hcount⟩ := find_eq_some.1 h
  unfold Dir.lock
  simp [hid, hcount]

/-- **`prs_pd_unlock`** of a live id counts one less, and frees the entry with the last. -/
theorem find_unlock {ptr : P} {count : ℕ} (h : d.find k id = some (ptr, count)) :
    (d.unlock k id).1 = (count == 1) ∧
      (d.unlock k id).2.find k = update (d.find k) id (if count = 1 then none else some (ptr, count - 1)) := by
  have hinv := ne_invalid (lt_of_find h)
  obtain ⟨hid, hne, hptr, hcount⟩ := find_eq_some.1 h
  unfold Dir.unlock
  simp only [hinv, hid, hne, if_false, not_true_eq_false, ne_eq]
  refine ⟨by rw [hcount], ?_⟩
  rw [find_writeHeader (by rw [getId_decr, hid]) hid, getRefcnt_decr hne, hptr, hcount]
  have hiff : count - 1 ≠ 0 ↔ ¬ count = 1 := by omega
  simp only [hiff, ite_not]

theorem unlock_of_dead (h : d.find k id = none) : d.unlock k id = (false, d) := by
  have hz := find_eq_none.1 h
  unfold Dir.unlock
  by_cases hid : getId (d.header (id % 2 ^ k)) = id
  · simp [hid, hz hid]
  · simp [hid]

/-- The ids of the entries were given out, and each is in the entry of its low bits. -/
structure Sane (k : ℕ) (d : Dir P) : Prop where
  old : ∀ e < 2 ^ k, getId (d.header e) < d.writeIndex
  slot : ∀ e < 2 ^ k, getRefcnt (d.header e) ≠ 0 → getId (d.header e) % 2 ^ k = e

theorem sane_create (k : ℕ) (null : P) : Sane k (Dir.create null) where
  old := fun _ _ => Nat.lt_succ_of_le getId_zero.le
  slot := fun _ _ h => absurd getRefcnt_zero h

/-- A header that keeps its id. -/
theorem Sane.write (h : Sane k d) {header : ℕ} (hid : getId header = getId (d.header (id % 2 ^ k)))
    (hne : getRefcnt (d.header (id % 2 ^ k)) ≠ 0) :
    Sane k { d with header := update d.header (id % 2 ^ k) header } where
  old := fun e he => by
    by_cases hslot : e = id % 2 ^ k
    · subst hslot
      simp only [update_self, hid]
      exact h.old _ he
    · simp only [update_of_ne hslot]
      exact h.old e he
  slot := fun e he hr => by
    by_cases hslot : e = id % 2 ^ k
    · subst hslot
      simp only [update_self, hid]
      exact h.slot _ he hne
    · simp only [update_of_ne hslot] at hr ⊢
      exact h.slot e he hr

theorem Sane.lock (h : Sane k d) (null : P) (id : ℕ) : Sane k (d.lock k null id).2 := by
  unfold Dir.lock
  dsimp only
  repeat' split
  all_goals first | exact h | skip
  rename_i hne _
  exact h.write (getId_incr _) hne

theorem Sane.unlock (h : Sane k d) (id : ℕ) : Sane k (d.unlock k id).2 := by
  unfold Dir.unlock
  dsimp only
  repeat' split
  all_goals first | exact h | skip
  rename_i hne
  exact h.write (getId_decr _) hne

theorem lock_writeIndex (null : P) (id : ℕ) : (d.lock k null id).2.writeIndex = d.writeIndex := by
  unfold Dir.lock
  dsimp only
  repeat' split
  all_goals rfl

theorem unlock_writeIndex (id : ℕ) : (d.unlock k id).2.writeIndex = d.writeIndex := by
  unfold Dir.unlock
  dsimp only
  repeat' split
  all_goals rfl

section Alloc

/-- The state after an allocation, from its result. -/
theorem alloc_of_some {ptr : P} {i : ℕ} (h : (d.alloc k ptr).1 = some i) :
    probe 64 (2 ^ k) d.writeIndex (fun e => getRefcnt (d.header e) == 0) (fun e => getId (d.header e)) = some i ∧
      (d.alloc k ptr).2 =
        ⟨update d.header (i % 2 ^ k) (first i), update d.ptr (i % 2 ^ k) ptr, (i + 1) % 2 ^ 64⟩ := by
  unfold Dir.alloc at h ⊢
  cases hp : probe 64 (2 ^ k) d.writeIndex (fun e => getRefcnt (d.header e) == 0)
    (fun e => getId (d.header e)) with
  | none =>
    rw [hp] at h
    cases h
  | some j =>
    rw [hp] at h
    cases h
    exact ⟨rfl, rfl⟩

/-- What an allocation does to the other live ids, whether or not its index has 52 bits. -/
theorem find_of_alloc {ptr : P} {i : ℕ} (h : (d.alloc k ptr).1 = some i) (hid : d.find k id ≠ none) :
    (d.alloc k ptr).2.find k id = d.find k id := by
  obtain ⟨hp, hd⟩ := alloc_of_some h
  obtain ⟨-, hfree, -⟩ := mem_of_probe hp
  rw [beq_iff_eq] at hfree
  have hslot : id % 2 ^ k ≠ i % 2 ^ k := by
    intro heq
    refine hid (find_eq_none.2 fun _ => ?_)
    rw [heq]
    exact hfree
  rw [hd]
  unfold Dir.find
  simp only [update_of_ne hslot]

/-- The directory has no free entry. -/
def Dir.Full (k : ℕ) (d : Dir P) : Prop := ∀ e < 2 ^ k, getRefcnt (d.header e) ≠ 0

instance (k : ℕ) (d : Dir P) : Decidable (d.Full k) := inferInstanceAs (Decidable (∀ e < 2 ^ k, _))

theorem not_full_of_alloc {ptr : P} {i : ℕ} (h : (d.alloc k ptr).1 = some i) : ¬ d.Full k := by
  intro hfull
  obtain ⟨-, hfree, -⟩ := mem_of_probe (alloc_of_some h).1
  rw [beq_iff_eq] at hfree
  exact hfull _ (Nat.mod_lt i (Nat.two_pow_pos k)) hfree

variable (hfit : d.writeIndex + 2 ^ k ≤ refcntInc)

theorem fits_lt (hfit : d.writeIndex + 2 ^ k ≤ refcntInc) : d.writeIndex + 2 ^ k < 2 ^ 64 := by
  unfold refcntInc at hfit
  omega

include hfit

theorem alloc_of_full (h : Sane k d) (hfull : d.Full k) (ptr : P) : d.alloc k ptr = (none, d) := by
  have hnone := (probe_eq_none_iff (fun e => getRefcnt (d.header e) == 0) (fits_lt hfit) h.old).2 fun e he =>
    beq_eq_false_iff_ne.2 (hfull e he)
  unfold Dir.alloc
  rw [hnone]

omit hfit in
/-- **`prs_pd_alloc_and_lock`** with an id of 52 bits: the entry is the id's. -/
theorem find_alloc_of_lt {ptr : P} {i : ℕ} (ha : (d.alloc k ptr).1 = some i) (hi : i < refcntInc) :
    (d.alloc k ptr).2.find k = update (d.find k) i (some (ptr, 1)) ∧ d.find k i = none := by
  obtain ⟨hp, hd⟩ := alloc_of_some ha
  obtain ⟨-, hfree, -⟩ := mem_of_probe hp
  rw [beq_iff_eq] at hfree
  refine ⟨?_, find_eq_none.2 fun _ => hfree⟩
  rw [hd, find_write _ _ (getId_first hi) (Or.inl hfree), getRefcnt_first]
  simp

omit hfit in
/-- The id is new, and the ids of the entries stay in order. -/
theorem find_alloc (h : Sane k d) {ptr : P} {i : ℕ} (ha : (d.alloc k ptr).1 = some i) (hi : i < refcntInc) :
    (d.alloc k ptr).2.find k = update (d.find k) i (some (ptr, 1)) ∧ d.find k i = none ∧ d.writeIndex ≤ i ∧
      (d.alloc k ptr).2.writeIndex = i + 1 ∧ Sane k (d.alloc k ptr).2 := by
  obtain ⟨hfind, hnone⟩ := find_alloc_of_lt ha hi
  obtain ⟨hp, hd⟩ := alloc_of_some ha
  obtain ⟨hle, -, -⟩ := mem_of_probe hp
  have hmod : (i + 1) % 2 ^ 64 = i + 1 := Nat.mod_eq_of_lt (by unfold refcntInc at hi; omega)
  rw [hmod] at hd
  refine ⟨hfind, hnone, hle, by rw [hd], ?_⟩
  rw [hd]
  constructor
  · intro e he
    by_cases hslot : e = i % 2 ^ k
    · simp only [hslot, update_self, getId_first hi]
      omega
    · simp only [update_of_ne hslot]
      have := h.old e he
      omega
  · intro e he hr
    by_cases hslot : e = i % 2 ^ k
    · simp only [hslot, update_self, getId_first hi]
    · simp only [update_of_ne hslot] at hr ⊢
      exact h.slot e he hr

/-- An allocation in a directory with a free entry. -/
theorem alloc_of_not_full (h : Sane k d) (hfull : ¬ d.Full k) (ptr : P) :
    ∃ i, (d.alloc k ptr).1 = some i ∧ i < d.writeIndex + 2 ^ k := by
  have hsome := (probe_eq_none_iff (fun e => getRefcnt (d.header e) == 0) (fits_lt hfit) h.old).not.2 fun hall =>
    hfull fun e he => beq_eq_false_iff_ne.1 (hall e he)
  obtain ⟨i, hi⟩ := Option.ne_none_iff_exists'.1 hsome
  have hwi : d.writeIndex < 2 ^ 64 := lt_of_le_of_lt (Nat.le_add_right _ _) (fits_lt hfit)
  have hm : 2 ^ k ≤ 2 ^ 64 := by
    have := fits_lt hfit
    omega
  refine ⟨i, ?_, (lt_of_probe hm hwi hi).1⟩
  unfold Dir.alloc
  rw [hi]

omit hfit in
/-- An allocation takes the first index whose entry is free. -/
theorem alloc_least (h : Sane k d) {i : ℕ} (hlt : d.writeIndex + 2 ^ k < 2 ^ 64) (hle : d.writeIndex ≤ i)
    (hi : i < d.writeIndex + 2 ^ k) (hfree : ∀ id, id % 2 ^ k = i % 2 ^ k → d.find k id = none)
    (hbusy : ∀ j, d.writeIndex ≤ j → j < i → ∃ id, id % 2 ^ k = j % 2 ^ k ∧ d.find k id ≠ none) (ptr : P) :
    (d.alloc k ptr).1 = some i := by
  have hslot : i % 2 ^ k < 2 ^ k := Nat.mod_lt i (Nat.two_pow_pos k)
  have hzero : getRefcnt (d.header (i % 2 ^ k)) = 0 := by
    by_contra hne
    have hmod := h.slot _ hslot hne
    have hnone := find_eq_none.1 (hfree _ hmod)
    rw [hmod] at hnone
    exact hne (hnone rfl)
  have hold := h.old _ hslot
  have hp : probe 64 (2 ^ k) d.writeIndex (fun e => getRefcnt (d.header e) == 0) (fun e => getId (d.header e)) =
      some i := by
    unfold probe
    rw [window_eq hlt, List.find?_range'_eq_some]
    refine ⟨?_, List.mem_range'_1.2 ⟨hle, hi⟩, fun j hj hji => ?_⟩
    · have hne : getId (d.header (i % 2 ^ k)) ≠ i := by omega
      simp [hzero, hne]
    · obtain ⟨id, hid, hlive⟩ := hbusy j hj hji
      obtain ⟨x, hx⟩ := Option.ne_none_iff_exists'.1 hlive
      have hne := (find_eq_some.1 hx).2.1
      rw [hid] at hne
      simp [hne]
  unfold Dir.alloc
  rw [hp]

end Alloc

/-- The directory represents the map. -/
structure Rel (k : ℕ) (d : Dir P) (f : Map P) : Prop where
  sane : Sane k d
  lookup : ∀ id, f.entries.lookup id = d.find k id
  given : ∀ id ∈ f.given, id < d.writeIndex

theorem rel_create (k : ℕ) (null : P) : Rel k (Dir.create null) Map.empty where
  sane := sane_create k null
  lookup := fun id => (Finmap.lookup_empty id).trans (find_eq_none.2 fun _ => getRefcnt_zero).symm
  given := fun id hid => absurd hid (Finset.notMem_empty id)

theorem mem_keys_iff (h : Rel k d f) : id ∈ f.entries.keys ↔ d.find k id ≠ none := by
  rw [Finmap.mem_keys, ← Finmap.lookup_isSome, h.lookup, Option.isSome_iff_ne_none]

/-- As many ids are live as entries are in use. -/
theorem Rel.card_lt_iff (h : Rel k d f) : f.entries.keys.card < 2 ^ k ↔ ¬ d.Full k := by
  have hinj : ∀ i ∈ f.entries.keys, ∀ j ∈ f.entries.keys, i % 2 ^ k = j % 2 ^ k → i = j := by
    intro i hi j hj hij
    have hi' := (mem_keys_iff h).1 hi
    have hj' := (mem_keys_iff h).1 hj
    obtain ⟨x, hx⟩ := Option.ne_none_iff_exists'.1 hi'
    obtain ⟨y, hy⟩ := Option.ne_none_iff_exists'.1 hj'
    rw [← (find_eq_some.1 hx).1, ← (find_eq_some.1 hy).1, hij]
  rw [Prs.card_lt_iff hinj (Nat.two_pow_pos k)]
  unfold Dir.Full
  push Not
  refine exists_congr fun e => and_congr_right fun he => ?_
  constructor
  · intro hno
    by_contra hr
    have hslot := h.sane.slot e he hr
    refine hno (getId (d.header e)) ((mem_keys_iff h).2 fun hnone => ?_) hslot
    refine hr ?_
    have := find_eq_none.1 hnone
    rw [hslot] at this
    exact this rfl
  · intro hr i hi hie
    obtain ⟨x, hx⟩ := Option.ne_none_iff_exists'.1 ((mem_keys_iff h).1 hi)
    have := (find_eq_some.1 hx).2.1
    rw [hie] at this
    exact this hr

theorem Rel.card_le (h : Rel k d f) : f.entries.keys.card ≤ 2 ^ k := by
  have hinj : Set.InjOn (· % 2 ^ k) (f.entries.keys : Set ℕ) := by
    intro i hi j hj hij
    obtain ⟨x, hx⟩ := Option.ne_none_iff_exists'.1 ((mem_keys_iff h).1 hi)
    obtain ⟨y, hy⟩ := Option.ne_none_iff_exists'.1 ((mem_keys_iff h).1 hj)
    simp only at hij
    rw [← (find_eq_some.1 hx).1, ← (find_eq_some.1 hy).1, hij]
  have hle := Finset.card_le_card_of_injOn (t := Finset.range (2 ^ k)) (· % 2 ^ k)
    (fun i _ => Finset.mem_coe.2 (Finset.mem_range.2 (Nat.mod_lt i (Nat.two_pow_pos k)))) hinj
  rwa [Finset.card_range] at hle

/-- The map after a change of one id. -/
theorem lookup_set (h : Rel k d f) {ptr : P} {count : ℕ} (j : ℕ) :
    (f.set id ptr count).entries.lookup j = update (d.find k) id (some (ptr, count)) j := by
  unfold Map.set
  by_cases hj : j = id
  · subst hj
    rw [Finmap.lookup_insert, update_self]
  · rw [Finmap.lookup_insert_of_ne _ hj, update_of_ne hj, h.lookup]

theorem lookup_erase (h : Rel k d f) (j : ℕ) :
    (f.entries.erase id).lookup j = update (d.find k) id none j := by
  by_cases hj : j = id
  · subst hj
    rw [Finmap.lookup_erase, update_self]
  · rw [Finmap.lookup_erase_ne hj, update_of_ne hj, h.lookup]

variable (null) in
/-- **Each operation is one of the map's.** -/
theorem exec_step (h : Rel k d f) {a : Act P}
    (hfit : (∃ ptr, a = .alloc ptr) → d.writeIndex + 2 ^ k ≤ refcntInc) :
    ∃ g, Map.Step (2 ^ k) null f a (d.exec k null a).1 g ∧ Rel k (d.exec k null a).2 g := by
  cases a with
  | alloc ptr =>
    have hfit' := hfit ⟨ptr, rfl⟩
    by_cases hfull : d.Full k
    · have hcard : f.entries.keys.card = 2 ^ k := by
        have hno := h.card_lt_iff.not_left.2 hfull
        have := h.card_le
        omega
      refine ⟨f, ?_, ?_⟩
      · simp only [Dir.exec, alloc_of_full hfit' h.sane hfull]
        exact .full hcard
      · simp only [Dir.exec, alloc_of_full hfit' h.sane hfull]
        exact h
    · obtain ⟨i, hres, hlt⟩ := alloc_of_not_full hfit' h.sane hfull ptr
      obtain ⟨hfind, -, hle, hwi, hsane⟩ := find_alloc h.sane hres (by omega)
      refine ⟨{ f.set i ptr 1 with given := insert i f.given }, ?_, hsane, fun j => ?_, fun j hj => ?_⟩
      · simp only [Dir.exec, hres, Option.elim_some]
        refine .alloc (h.card_lt_iff.2 hfull) (fun hi => ?_) (ne_invalid (by omega))
        have := h.given i hi
        omega
      · simp only [Dir.exec, hfind]
        exact lookup_set h j
      · simp only [Dir.exec, hwi]
        obtain rfl | hj := Finset.mem_insert.1 hj
        · omega
        · have := h.given j hj
          omega
  | lock id =>
    have hsane := h.sane.lock null id
    have hgiven : ∀ j ∈ f.given, j < (d.lock k null id).2.writeIndex := by
      intro j hj
      rw [lock_writeIndex]
      exact h.given j hj
    cases hf : d.find k id with
    | none =>
      have hl := lock_of_dead null hf
      refine ⟨f, ?_, ?_⟩
      · simp only [Dir.exec, hl]
        exact .lockDead ((h.lookup id).trans hf)
      · simp only [Dir.exec, hl]
        exact h
    | some x =>
      obtain ⟨ptr, count⟩ := x
      by_cases hc : count < refcntMax
      · obtain ⟨hptr, hfind⟩ := find_lock null hf hc
        refine ⟨f.set id ptr (count + 1), ?_, hsane, fun j => ?_, hgiven⟩
        · simp only [Dir.exec, hptr]
          exact .lock ((h.lookup id).trans hf) hc
        · simp only [Dir.exec, hfind]
          exact lookup_set h j
      · have hmax : count = refcntMax := by
          have := (count_of_find hf).2
          omega
        subst hmax
        have hl := lock_of_max null hf
        refine ⟨f, ?_, ?_⟩
        · simp only [Dir.exec, hl]
          exact .lockMax ((h.lookup id).trans hf)
        · simp only [Dir.exec, hl]
          exact h
  | unlock id =>
    have hsane := h.sane.unlock id
    have hgiven : ∀ j ∈ f.given, j < (d.unlock k id).2.writeIndex := by
      intro j hj
      rw [unlock_writeIndex]
      exact h.given j hj
    cases hf : d.find k id with
    | none =>
      have hl := unlock_of_dead hf
      refine ⟨f, ?_, ?_⟩
      · simp only [Dir.exec, hl]
        exact .unlockDead ((h.lookup id).trans hf)
      · simp only [Dir.exec, hl]
        exact h
    | some x =>
      obtain ⟨ptr, count⟩ := x
      obtain ⟨hlast, hfind⟩ := find_unlock hf
      by_cases hc : count = 1
      · subst hc
        refine ⟨{ f with entries := f.entries.erase id }, ?_, hsane, fun j => ?_, hgiven⟩
        · simp only [Dir.exec, hlast]
          exact .unlockLast ((h.lookup id).trans hf)
        · simp only [Dir.exec, hfind]
          exact lookup_erase h j
      · obtain ⟨c, rfl⟩ : ∃ c, count = c + 2 := ⟨count - 2, by have := (count_of_find hf).1; omega⟩
        refine ⟨f.set id ptr (c + 1), ?_, hsane, fun j => ?_, hgiven⟩
        · simp only [Dir.exec, hlast]
          exact .unlock ((h.lookup id).trans hf)
        · simp only [Dir.exec, hfind]
          exact lookup_set h j

theorem run_of_rel (h : Rel k d f) {as : List (Act P)} (hfit : d.Fits k null as) :
    ∃ g, Map.Run (2 ^ k) null f (d.trace k null as) g := by
  induction as generalizing d f with
  | nil => exact ⟨f, .nil f⟩
  | cons a as ih =>
    obtain ⟨g, hstep, hrel⟩ := exec_step null h hfit.1
    obtain ⟨g', hrun⟩ := ih hrel hfit.2
    exact ⟨g', .cons hstep hrun⟩

/-- **The directory behaves as a finite map**, in every run in which the indices that allocations try have 52
bits. -/
theorem run_of_trace (k : ℕ) {P : Type} (null : P) (as : List (Act P)) (hfit : (Dir.create null).Fits k null as) :
    ∃ g, Map.Run (2 ^ k) null Map.empty ((Dir.create null).trace k null as) g :=
  run_of_rel (rel_create k null) hfit

section Fits

/-- How many allocations a run has. -/
def allocs (as : List (Act P)) : ℕ := as.countP fun a => match a with | .alloc _ => true | _ => false

theorem alloc_writeIndex_le (hfit : d.writeIndex + 2 ^ k ≤ refcntInc) (h : Sane k d) (ptr : P) :
    (d.alloc k ptr).2.writeIndex ≤ d.writeIndex + 2 ^ k := by
  by_cases hfull : d.Full k
  · rw [alloc_of_full hfit h hfull]
    exact Nat.le_add_right _ _
  · obtain ⟨i, hres, hlt⟩ := alloc_of_not_full hfit h hfull ptr
    obtain ⟨-, -, -, hwi, -⟩ := find_alloc h hres (by omega)
    omega

/-- An allocation moves the write index by at most the number of entries. -/
theorem fits_of_allocs (h : Rel k d f) {as : List (Act P)} (ha : d.writeIndex + allocs as * 2 ^ k ≤ refcntInc) :
    d.Fits k null as := by
  induction as generalizing d f with
  | nil => trivial
  | cons a as ih =>
    have hfit : (∃ ptr, a = .alloc ptr) → d.writeIndex + 2 ^ k ≤ refcntInc := by
      rintro ⟨ptr, rfl⟩
      have hcount : allocs (Act.alloc ptr :: as) = allocs as + 1 := List.countP_cons_of_pos rfl
      rw [hcount, Nat.add_mul] at ha
      omega
    obtain ⟨g, -, hrel⟩ := exec_step null h hfit
    refine ⟨hfit, ih hrel ?_⟩
    cases a with
    | alloc ptr =>
      have hle := alloc_writeIndex_le (hfit ⟨ptr, rfl⟩) h.sane ptr
      have hcount : allocs (Act.alloc ptr :: as) = allocs as + 1 := List.countP_cons_of_pos rfl
      rw [hcount, Nat.add_mul] at ha
      simp only [Dir.exec]
      omega
    | lock id =>
      simp only [Dir.exec, lock_writeIndex]
      exact ha
    | unlock id =>
      simp only [Dir.exec, unlock_writeIndex]
      exact ha

end Fits

/-- A run with three operations after the first. -/
theorem run_of_trace_four :
    ∃ g, Map.Run (2 ^ 1) 0 Map.empty ((Dir.create 0).trace 1 0 [.alloc 7, .lock 1, .unlock 1, .unlock 1]) g :=
  run_of_trace 1 0 _ (fits_of_allocs (rel_create 1 0) (by decide))

section Pd

/-- The counts of a map. -/
def Map.toPd (f : Map P) : Pd where
  refcnt id := ((f.entries.lookup id).map Prod.snd).getD 0
  used id := decide (id ∈ f.given)

theorem toPd_set (f : Map P) (id : ℕ) (ptr : P) (count : ℕ) :
    (f.set id ptr count).toPd = { f.toPd with refcnt := update f.toPd.refcnt id count } := by
  have hrefcnt : (f.set id ptr count).toPd.refcnt = update f.toPd.refcnt id count := by
    funext j
    unfold Map.toPd Map.set
    by_cases hj : j = id
    · subst hj
      simp
    · simp [hj, Finmap.lookup_insert_of_ne]
  rw [← hrefcnt]
  rfl

theorem toPd_erase (f : Map P) (id : ℕ) :
    Map.toPd { f with entries := f.entries.erase id } = { f.toPd with refcnt := update f.toPd.refcnt id 0 } := by
  have hrefcnt : (Map.toPd { f with entries := f.entries.erase id }).refcnt = update f.toPd.refcnt id 0 := by
    funext j
    unfold Map.toPd
    by_cases hj : j = id
    · subst hj
      simp
    · simp [hj, Finmap.lookup_erase_ne]
  rw [← hrefcnt]
  rfl

theorem toPd_refcnt {ptr : P} {count : ℕ} (h : f.entries.lookup id = some (ptr, count)) :
    f.toPd.refcnt id = count := by
  simp [Map.toPd, h]

theorem toPd_refcnt_none (h : f.entries.lookup id = none) : f.toPd.refcnt id = 0 := by
  simp [Map.toPd, h]

variable {m : ℕ} {g : Map P}

theorem toPd_alloc {ptr : P} (hs : Map.Step m null f (.alloc ptr) (.ok id) g) :
    f.toPd.alloc id = some g.toPd := by
  cases hs with
  | alloc _ hid _ =>
    have hset := toPd_set f id ptr 1
    unfold Pd.alloc
    rw [if_neg (by simpa [Map.toPd] using hid)]
    refine congrArg some ?_
    unfold Map.toPd at hset ⊢
    simp only [Pd.mk.injEq] at hset ⊢
    refine ⟨hset.1.symm, ?_⟩
    funext j
    by_cases hj : j = id
    · simp [hj]
    · simp [hj]

theorem toPd_lock {r : Res P} (h : Rel k d f) (hs : Map.Step m null f (.lock id) r g) :
    g.toPd = (f.toPd.lock id).getD f.toPd := by
  unfold Pd.lock
  cases hs with
  | lock hl hc =>
    have hpos := (count_of_find ((h.lookup id).symm.trans hl)).1
    rw [toPd_refcnt hl, if_neg (by unfold refcntMax at hc; unfold Pd.refcntMax; omega), toPd_set]
    rfl
  | lockMax hl =>
    rw [toPd_refcnt hl, if_pos (Or.inr (show refcntMax = Pd.refcntMax from rfl))]
    rfl
  | lockDead hl =>
    rw [toPd_refcnt_none hl, if_pos (Or.inl rfl)]
    rfl

theorem toPd_unlock {last : Bool} (hs : Map.Step m null f (.unlock id) (.last last) g) :
    f.toPd.unlock id = (g.toPd, last) := by
  unfold Pd.unlock
  cases hs with
  | unlock hl =>
    rw [toPd_refcnt hl, toPd_set]
    simp
  | unlockLast hl =>
    rw [toPd_refcnt hl, toPd_erase]
    simp
  | unlockDead hl =>
    have hzero := toPd_refcnt_none hl
    have hsub : f.toPd.refcnt id - 1 = f.toPd.refcnt id := by omega
    rw [hsub, update_eq_self, hzero]
    simp

end Pd

/-- The directory after the operations. -/
def Dir.after (k : ℕ) (null : P) (d : Dir P) (as : List (Act P)) : Dir P :=
  as.foldl (fun d a => (d.exec k null a).2) d

section Refused

/-- The ids of the entries are below the write index. -/
structure Old (k : ℕ) (d : Dir P) : Prop where
  lt : d.writeIndex < 2 ^ 64
  old : ∀ e < 2 ^ k, getId (d.header e) < d.writeIndex

theorem Old.write (h : Old k d) {header : ℕ} (hid : getId header = getId (d.header (id % 2 ^ k))) :
    Old k { d with header := update d.header (id % 2 ^ k) header } where
  lt := h.lt
  old e he := by
    by_cases hslot : e = id % 2 ^ k
    · subst hslot
      simp only [update_self, hid]
      exact h.old _ he
    · simp only [update_of_ne hslot]
      exact h.old e he

theorem Old.exec (hk : k < 64) (h : Old k d) (a : Act P) : Old k (d.exec k null a).2 := by
  cases a with
  | alloc ptr =>
    simp only [Dir.exec]
    cases ha : (d.alloc k ptr).1 with
    | none =>
      have hd : (d.alloc k ptr).2 = d := by
        unfold Dir.alloc at ha ⊢
        cases hp : probe 64 (2 ^ k) d.writeIndex (fun e => getRefcnt (d.header e) == 0)
          (fun e => getId (d.header e)) with
        | none => rfl
        | some i =>
          rw [hp] at ha
          cases ha
      rw [hd]
      exact h
    | some i =>
      obtain ⟨hp, hd⟩ := alloc_of_some ha
      obtain ⟨hle, -, -⟩ := mem_of_probe hp
      obtain ⟨hi, hend⟩ := lt_of_probe (Nat.pow_le_pow_right (by omega) hk.le) h.lt hp
      have hmod : (i + 1) % 2 ^ 64 = i + 1 := Nat.mod_eq_of_lt (by omega)
      rw [hd, hmod]
      refine ⟨by simp only; omega, fun e he => ?_⟩
      by_cases hslot : e = i % 2 ^ k
      · simp only [hslot, update_self, getId_first_mod]
        exact Nat.lt_succ_of_le (Nat.mod_le i refcntInc)
      · simp only [update_of_ne hslot]
        have := h.old e he
        omega
  | lock id =>
    simp only [Dir.exec]
    unfold Dir.lock
    dsimp only
    repeat' split
    all_goals first | exact h | exact h.write (getId_incr _)
  | unlock id =>
    simp only [Dir.exec]
    unfold Dir.unlock
    dsimp only
    repeat' split
    all_goals first | exact h | exact h.write (getId_decr _)

theorem old_after (hk : k < 64) (null : P) (as : List (Act P)) : Old k ((Dir.create null).after k null as) := by
  have hall : ∀ (as : List (Act P)) (d : Dir P), Old k d → Old k (d.after k null as) := by
    intro as
    induction as with
    | nil => exact fun d h => h
    | cons a as ih => exact fun d h => ih _ (h.exec hk a)
  exact hall as _ ⟨by simp only [Dir.create]; omega, fun _ _ => Nat.lt_succ_of_le getId_zero.le⟩

/-- **When an allocation is refused**: in a full directory, and when the end of the search wraps. -/
theorem alloc_eq_none_iff (hk : k < 64) (h : Old k d) (ptr : P) :
    (d.alloc k ptr).1 = none ↔ d.Full k ∨ 2 ^ 64 ≤ d.writeIndex + 2 ^ k := by
  have hp : (d.alloc k ptr).1 = none ↔
      probe 64 (2 ^ k) d.writeIndex (fun e => getRefcnt (d.header e) == 0) (fun e => getId (d.header e)) =
        none := by
    unfold Dir.alloc
    cases probe 64 (2 ^ k) d.writeIndex (fun e => getRefcnt (d.header e) == 0)
      (fun e => getId (d.header e)) <;> simp
  rw [hp]
  by_cases hend : d.writeIndex + 2 ^ k < 2 ^ 64
  · rw [probe_eq_none_iff _ hend h.old, or_iff_left (not_le.2 hend)]
    simp only [beq_eq_false_iff_ne]
    rfl
  · unfold probe
    rw [window_wrap (Nat.pow_le_pow_right (by omega) hk.le) h.lt (not_lt.1 hend)]
    exact iff_of_true rfl (Or.inr (not_lt.1 hend))

end Refused

section Lost

theorem trace_append (as bs : List (Act P)) :
    d.trace k null (as ++ bs) = d.trace k null as ++ (d.after k null as).trace k null bs := by
  induction as generalizing d with
  | nil => rfl
  | cons a as ih =>
    simp only [List.cons_append, Dir.trace, ih]
    rfl

theorem run_append {m : ℕ} {h : Map P} {t u : List (Act P × Res P)} (hr : Map.Run m null f (t ++ u) h) :
    ∃ g, Map.Run m null g u h := by
  induction t generalizing f with
  | nil => exact ⟨f, hr⟩
  | cons x t ih =>
    cases hr with
    | cons _ ht => exact ih ht

/-- Entry 1 of two is in use for good, and entry 0 was last used with id `a`. -/
structure Churned (d : Dir ℕ) (a : ℕ) : Prop where
  zero : d.header 0 = a
  one : d.header 1 = first 1
  writeIndex : d.writeIndex = a + 1
  even : a % 2 = 0
  lt : a < refcntInc

variable {d : Dir ℕ} {a : ℕ}

/-- The next allocation passes over entry 1. -/
theorem Churned.alloc (h : Churned d a) :
    d.alloc 1 1 = (some (a + 2), ⟨update d.header 0 (first (a + 2)), update d.ptr 0 1, a + 3⟩) := by
  have hlt := h.lt
  have hev := h.even
  unfold refcntInc at hlt
  have hslot : (a + 2) % 2 = 0 := by omega
  have hskip : (a + 1) % 2 = 1 := by omega
  have hwin : window 64 2 (a + 1) = [a + 1, a + 2] := window_eq (by omega)
  have hfree : getRefcnt a = 0 := by
    unfold getRefcnt refcntInc
    omega
  have hid : getId a = a := Nat.mod_eq_of_lt h.lt
  have hmod : (a + 2 + 1) % 2 ^ 64 = a + 3 := Nat.mod_eq_of_lt (by omega)
  have hp : probe 64 (2 ^ 1) d.writeIndex (fun e => getRefcnt (d.header e) == 0) (fun e => getId (d.header e)) =
      some (a + 2) := by
    unfold probe
    rw [pow_one, h.writeIndex, hwin, List.find?_cons_of_neg, List.find?_cons_of_pos]
    · simp only [hslot, h.zero, hfree, hid]
      simp
    · simp only [hskip, h.one, getRefcnt_first]
      simp
  unfold Dir.alloc
  rw [hp]
  simp only [pow_one, hslot, hmod]

theorem Churned.unlock (h : Churned d a) (hlt : a + 2 < refcntInc) :
    Churned (d.after 1 0 [.alloc 1, .unlock (a + 2)]) (a + 2) := by
  have hev := h.even
  have hslot : (a + 2) % 2 ^ 1 = 0 := by omega
  have hdecr : decr (first (a + 2)) = a + 2 := by
    unfold decr first refcntInc at *
    omega
  have hinv := ne_invalid hlt
  have hd : d.after 1 0 [.alloc 1, .unlock (a + 2)] = ⟨update (update d.header 0 (first (a + 2))) 0 (a + 2),
      update d.ptr 0 1, a + 3⟩ := by
    simp only [Dir.after, List.foldl_cons, List.foldl_nil, Dir.exec, h.alloc]
    unfold Dir.unlock
    simp only [hslot, update_self, getId_first hlt, getRefcnt_first, hdecr]
    simp [hinv]
  rw [hd]
  exact ⟨by simp, by simp [h.one], by simp, by omega, hlt⟩

/-- `n` times an allocation with its release. -/
def churn (a : ℕ) : ℕ → List (Act ℕ)
  | 0 => []
  | n + 1 => .alloc 1 :: .unlock (a + 2) :: churn (a + 2) n

theorem allocs_churn (a n : ℕ) : allocs (churn a n) = n := by
  induction n generalizing a with
  | zero => rfl
  | succ n ih =>
    have hcount : allocs (churn a (n + 1)) = allocs (churn (a + 2) n) + 1 := by
      simp [allocs, churn]
    rw [hcount, ih]

theorem Churned.churn {n : ℕ} (h : Churned d a) (hlt : a + 2 * n < refcntInc) :
    Churned (d.after 1 0 (churn a n)) (a + 2 * n) := by
  induction n generalizing d a with
  | zero => exact h
  | succ n ih =>
    have hnext := ih (h.unlock (by omega)) (by omega)
    rwa [show a + 2 + 2 * n = a + 2 * (n + 1) by omega] at hnext

theorem churned_two : Churned ((Dir.create 0).after 1 0 [.alloc 1, .alloc 1, .unlock 2]) 2 :=
  ⟨by decide +kernel, by decide +kernel, by decide +kernel, by decide, by decide⟩

/-- The run ends with an allocation in entry 0, with an id that is tried to be locked. -/
def lostRun (n : ℕ) : List (Act ℕ) :=
  [.alloc 1, .alloc 1, .unlock 2] ++ (churn 2 n ++ [.alloc 1, .lock (2 + 2 * n + 2)])

theorem mem_churn {a n : ℕ} {x : Act ℕ} (hx : x ∈ churn a n) :
    x = .alloc 1 ∨ ∃ id ≤ a + 2 * n, x = .unlock id := by
  induction n generalizing a with
  | zero => cases hx
  | succ n ih =>
    simp only [churn, List.mem_cons] at hx
    obtain rfl | rfl | hx := hx
    · exact Or.inl rfl
    · exact Or.inr ⟨a + 2, by omega, rfl⟩
    · obtain rfl | ⟨id, hid, rfl⟩ := ih hx
      · exact Or.inl rfl
      · exact Or.inr ⟨id, by omega, rfl⟩

/-- An allocation that gives `2 ^ 52`, and a lock of it. -/
theorem Churned.lost (h : Churned d a) (ha : a + 2 = 2 ^ 52) :
    d.trace 1 0 [.alloc 1, .lock (a + 2)] = [(.alloc 1, .ok (a + 2)), (.lock (a + 2), .ptr 0)] := by
  have hdead :
      Dir.find 1 (⟨update d.header 0 (first (a + 2)), update d.ptr 0 1, a + 3⟩ : Dir ℕ) (a + 2) = none := by
    by_contra hne
    obtain ⟨x, hx⟩ := Option.ne_none_iff_exists'.1 hne
    have hlt := lt_of_find hx
    unfold refcntInc at hlt
    omega
  simp only [Dir.trace, Dir.exec, h.alloc, lock_of_dead _ hdead, Option.elim_some]

/-- A map does not refuse to lock what it has just given out. -/
theorem not_run_lost {m id : ℕ} {f g : Map ℕ} :
    ¬ Map.Run m 0 f [(.alloc 1, .ok id), (.lock id, .ptr 0)] g := by
  intro h
  cases h with
  | cons halloc ht =>
    cases halloc
    cases ht with
    | cons hlock _ =>
      have hlookup : (f.set id 1 1).entries.lookup id = some (1, 1) := Finmap.lookup_insert _
      cases hlock with
      | lock hl _ => simp [hlookup] at hl
      | lockMax hl => simp [hlookup, refcntMax] at hl
      | lockDead hl => simp [hlookup] at hl

/-- **An id is lost.** A run with fewer than `2 ^ 52 - 2` allocations in a table of two entries gets an id
that is live and cannot be locked. -/
theorem id_lost :
    ¬ ∀ (k : ℕ) (as : List (Act ℕ)), 1 ≤ k → allocs as < 2 ^ 52 - 2 ^ k →
      (∀ id, .lock id ∈ as ∨ .unlock id ∈ as → id ≠ invalid) →
      ∃ g, Map.Run (2 ^ k) 0 Map.empty ((Dir.create 0).trace k 0 as) g := by
  intro hall
  obtain ⟨n, hn⟩ : ∃ n, 2 + 2 * n + 2 = 2 ^ 52 := ⟨2 ^ 51 - 2, by omega⟩
  have hcount : allocs (lostRun n) < 2 ^ 52 - 2 ^ 1 := by
    have happ : allocs (lostRun n) = 2 + (allocs (churn 2 n) + 1) := by
      simp only [allocs, lostRun, List.countP_append]
      rfl
    rw [happ, allocs_churn]
    omega
  have hvalid : ∀ id, .lock id ∈ lostRun n ∨ .unlock id ∈ lostRun n → id ≠ invalid := by
    have hle : ∀ id, .lock id ∈ lostRun n ∨ .unlock id ∈ lostRun n → id ≤ 2 ^ 52 := by
      intro id hid
      simp only [lostRun, List.mem_append, List.mem_cons, List.not_mem_nil, reduceCtorEq, Act.lock.injEq,
        Act.unlock.injEq, or_false, false_or] at hid
      obtain (hc | rfl) | rfl | hc := hid
      · obtain hc | ⟨_, _, hc⟩ := mem_churn hc <;> cases hc
      · exact hn.le
      · omega
      · obtain hc | ⟨_, hle, hc⟩ := mem_churn hc
        · cases hc
        · cases hc
          omega
    intro id hid
    have := hle id hid
    unfold invalid
    omega
  obtain ⟨g, hrun⟩ := hall 1 (lostRun n) le_rfl hcount hvalid
  unfold lostRun at hrun
  rw [trace_append, trace_append] at hrun
  obtain ⟨f, hrun⟩ := run_append hrun
  obtain ⟨f', hend⟩ := run_append hrun
  have hch := churned_two.churn (n := n) (by unfold refcntInc; omega)
  rw [hch.lost hn] at hend
  exact not_run_lost hend

end Lost

end Prs.PdWords
