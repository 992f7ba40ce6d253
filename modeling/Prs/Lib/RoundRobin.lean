import Mathlib.Algebra.Order.Group.Nat
import Mathlib.Data.Finset.Card
import Mathlib.Data.List.Range
import Mathlib.Logic.Function.Basic

/-!
# Directories with ids that go round

A table of `m` slots keeps what has an id `i` in slot `i % m`. A new id is searched for from a write index `w`
on: the first of the `m` indices from `w` whose slot is free and whose id is not the one that the slot had
last. The loop over the indices computes its end in unsigned arithmetic of `b` bits.

* `window_eq`, `window_wrap`: the loop goes through the `m` indices, or through none when the end wraps.
* `exists_mem_window`: the `m` indices visit every slot.
* `probe_eq_none_iff`: while the ids in the table are below `w`, the search fails only in a full table.
* `lookup_update`: a write to the slot of an id changes what this id has, and nothing else.
* `card_le_slots`, `card_lt_iff`: a set of ids in different slots has at most `m` elements, and fewer exactly
  when it leaves a slot out.
-/

namespace Prs

/-- The indices of the loop `for (i = w; i < w + m; ++i)` on numbers of `b` bits. -/
def window (b m w : ℕ) : List ℕ := List.range' w ((w + m) % 2 ^ b - w)

/-- The search for a new id. -/
def probe (b m w : ℕ) (free : ℕ → Bool) (stored : ℕ → ℕ) : Option ℕ :=
  (window b m w).find? fun i => free (i % m) && stored (i % m) != i

variable {b m w i : ℕ} {free : ℕ → Bool} {stored : ℕ → ℕ}

theorem window_eq (h : w + m < 2 ^ b) : window b m w = List.range' w m := by
  unfold window
  rw [Nat.mod_eq_of_lt h, Nat.add_sub_cancel_left]

theorem window_wrap (hm : m ≤ 2 ^ b) (hw : w < 2 ^ b) (h : 2 ^ b ≤ w + m) : window b m w = [] := by
  have hend : (w + m) % 2 ^ b = w + m - 2 ^ b := by
    rw [Nat.mod_eq_sub_mod h]
    exact Nat.mod_eq_of_lt (by omega)
  have hlen : (w + m) % 2 ^ b - w = 0 := by omega
  unfold window
  rw [hlen, List.range'_zero]

/-- **Every slot is visited.** -/
theorem exists_mem_window {e : ℕ} (he : e < m) (w : ℕ) : ∃ i, w ≤ i ∧ i < w + m ∧ i % m = e := by
  have hm : 0 < m := by omega
  have hr : w % m < m := Nat.mod_lt w hm
  have hw : m * (w / m) + w % m = w := Nat.div_add_mod w m
  by_cases h : w % m ≤ e
  · refine ⟨m * (w / m) + e, by omega, by omega, ?_⟩
    rw [Nat.mul_add_mod, Nat.mod_eq_of_lt he]
  · refine ⟨m * (w / m + 1) + e, by rw [Nat.mul_add]; omega, by rw [Nat.mul_add]; omega, ?_⟩
    rw [Nat.mul_add_mod, Nat.mod_eq_of_lt he]

theorem mem_of_probe (h : probe b m w free stored = some i) :
    w ≤ i ∧ free (i % m) = true ∧ stored (i % m) ≠ i := by
  unfold probe at h
  have hp := List.find?_some h
  have hi := List.mem_of_find?_eq_some h
  unfold window at hi
  rw [List.mem_range'_1] at hi
  rw [Bool.and_eq_true, bne_iff_ne] at hp
  exact ⟨hi.1, hp.1, hp.2⟩

theorem lt_of_probe (hm : m ≤ 2 ^ b) (hw : w < 2 ^ b) (h : probe b m w free stored = some i) :
    i < w + m ∧ w + m < 2 ^ b := by
  by_cases hfit : w + m < 2 ^ b
  · refine ⟨?_, hfit⟩
    unfold probe at h
    have hi := List.mem_of_find?_eq_some h
    rw [window_eq hfit, List.mem_range'_1] at hi
    exact hi.2
  · unfold probe at h
    rw [window_wrap hm hw (by omega)] at h
    cases h

variable (free) in
/-- **The search fails only in a full table.** The ids in the table are below `w`. -/
theorem probe_eq_none_iff (hfit : w + m < 2 ^ b) (hold : ∀ e < m, stored e < w) :
    probe b m w free stored = none ↔ ∀ e < m, free e = false := by
  unfold probe
  rw [window_eq hfit, List.find?_range'_eq_none]
  constructor
  · intro h e he
    obtain ⟨i, hi, hlt, hmod⟩ := exists_mem_window he w
    have hno := h i hi hlt
    have hne : stored e ≠ i := by
      have := hold e he
      omega
    simpa [hmod, hne] using hno
  · intro h i hi hlt
    have hm : 0 < m := by omega
    simp [h (i % m) (Nat.mod_lt i hm)]

section Lookup

open Function

variable {β : Type*} {slot : ℕ → Option (ℕ × β)} {id : ℕ}

/-- What an id has, in a table of slots that are empty or have an id and what goes with it. -/
def lookup (m : ℕ) (slot : ℕ → Option (ℕ × β)) (id : ℕ) : Option β :=
  (slot (id % m)).bind fun p => if p.1 = id then some p.2 else none

theorem lookup_of_ne {j : ℕ} (h : ∀ p, slot (j % m) = some p → p.1 ≠ j) : lookup m slot j = none := by
  unfold lookup
  rw [Option.bind_eq_none_iff]
  intro p hp
  exact if_neg (h p hp)

/-- **A write to the slot of an id** that is empty, or has the id in it. -/
theorem lookup_update (h : ∀ p, slot (id % m) = some p → p.1 = id) (x : Option β) :
    lookup m (update slot (id % m) (x.map fun y => (id, y))) = update (lookup m slot) id x := by
  funext j
  by_cases hj : j = id
  · subst hj
    unfold lookup
    cases x <;> simp
  · rw [update_of_ne hj]
    by_cases hslot : j % m = id % m
    · have hold : lookup m slot j = none := by
        apply lookup_of_ne
        intro p hp hpj
        rw [hslot] at hp
        exact hj (hpj.symm.trans (h p hp))
      rw [hold]
      apply lookup_of_ne
      intro p hp hpj
      rw [hslot, update_self] at hp
      obtain ⟨y, -, rfl⟩ := Option.map_eq_some_iff.1 hp
      exact hj hpj.symm
    · unfold lookup
      rw [update_of_ne hslot]

end Lookup

theorem card_slots {s : Finset ℕ} (hinj : ∀ i ∈ s, ∀ j ∈ s, i % m = j % m → i = j) :
    (s.image (· % m)).card = s.card :=
  Finset.card_image_of_injOn fun i hi j hj => hinj i hi j hj

theorem slots_subset (s : Finset ℕ) (hm : 0 < m) : s.image (· % m) ⊆ Finset.range m := by
  intro e he
  obtain ⟨i, -, rfl⟩ := Finset.mem_image.1 he
  exact Finset.mem_range.2 (Nat.mod_lt i hm)

/-- Ids in different slots are no more than the slots. -/
theorem card_le_slots {s : Finset ℕ} (hinj : ∀ i ∈ s, ∀ j ∈ s, i % m = j % m → i = j) (hm : 0 < m) :
    s.card ≤ m := by
  have hle := Finset.card_le_card (slots_subset s hm)
  rwa [card_slots hinj, Finset.card_range] at hle

/-- Ids in different slots, and the slots that they are in. -/
theorem card_lt_iff {s : Finset ℕ} (hinj : ∀ i ∈ s, ∀ j ∈ s, i % m = j % m → i = j) (hm : 0 < m) :
    s.card < m ↔ ∃ e < m, ∀ i ∈ s, i % m ≠ e := by
  have hcard := card_slots hinj
  have hsub := slots_subset s hm
  constructor
  · intro h
    by_contra hall
    have hsup : Finset.range m ⊆ s.image (· % m) := by
      intro e he
      by_contra hno
      refine hall ⟨e, Finset.mem_range.1 he, fun i hi hie => hno ?_⟩
      exact Finset.mem_image.2 ⟨i, hi, hie⟩
    have hle := Finset.card_le_card hsup
    rw [hcard, Finset.card_range] at hle
    omega
  · rintro ⟨e, he, hno⟩
    have hss : s.image (· % m) ⊆ (Finset.range m).erase e := by
      intro x hx
      refine Finset.mem_erase.2 ⟨?_, hsub hx⟩
      obtain ⟨i, hi, rfl⟩ := Finset.mem_image.1 hx
      exact hno i hi
    have hle := Finset.card_le_card hss
    rw [hcard, Finset.card_erase_of_mem (Finset.mem_range.2 he), Finset.card_range] at hle
    omega

end Prs
