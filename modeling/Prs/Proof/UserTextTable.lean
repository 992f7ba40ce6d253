import Prs.Model.UserText
import Mathlib.Data.List.Perm.Subperm
import Mathlib.Data.List.Nodup

/-!
# The table of user text mirrors the loaded processes

* `Mirror`: each loaded process has the entry that it remembers, and an entry that is not free is that of a
  loaded process.
* `Mirror.add`, `Mirror.del`: the two calls keep it, and `add_defined` says that there is an entry for each
  process.
* `isUserText_iff`: an address is found when it is behind the base of a loaded process, and before its end.
* `user_text_iff`: so an address is judged as it should be exactly when it is not the base of a process alone.
* `base_missed`: the base of a process is not found.
-/

namespace Prs.UserText

open Function

variable {t t' : Table} {s s' : St} {p : Proc} {base : ℕ → ℕ} {b size i n ip : ℕ} {loaded : List Proc}

/-- The table mirrors the loaded processes. -/
structure Mirror (t : Table) (loaded : List Proc) : Prop where
  entry : ∀ p ∈ loaded, p.index < t.count ∧ t.base p.index = p.base ∧ t.size p.index = p.size
  valid : ∀ p ∈ loaded, p.base ≠ 0 ∧ p.base + p.size < 2 ^ 64
  owner : ∀ i, t.base i ≠ 0 → ∃ p ∈ loaded, p.index = i
  nodup : (loaded.map Proc.index).Nodup
  count : t.count ≤ maxObjects

section Search

theorem findFree_some (h : findFree base n = some i) : i < n ∧ base i = 0 := by
  induction n with
  | zero => cases h
  | succ n ih =>
    unfold findFree at h
    by_cases hn : base n = 0
    · rw [if_pos hn] at h
      obtain rfl : n = i := Option.some.inj h
      exact ⟨Nat.lt_succ_self n, hn⟩
    · rw [if_neg hn] at h
      obtain ⟨hlt, hi⟩ := ih h
      exact ⟨Nat.lt_succ_of_lt hlt, hi⟩

theorem findFree_none (h : findFree base n = none) : ∀ i < n, base i ≠ 0 := by
  induction n with
  | zero => intro i hi; omega
  | succ n ih =>
    unfold findFree at h
    by_cases hn : base n = 0
    · rw [if_pos hn] at h
      cases h
    · rw [if_neg hn] at h
      intro i hi
      obtain rfl | hlt := Nat.eq_or_lt_of_le (Nat.le_of_lt_succ hi)
      · exact hn
      · exact ih h i hlt

/-- The entries behind the count are free. -/
theorem Mirror.base_of_le (h : Mirror t loaded) (hi : t.count ≤ i) : t.base i = 0 := by
  by_contra hne
  obtain ⟨p, hp, rfl⟩ := h.owner i hne
  exact absurd (h.entry p hp).1 (Nat.not_lt.2 hi)

/-- The index is that of a free entry, or the next one. -/
theorem Mirror.index_free (h : Mirror t loaded) : t.base t.index = 0 ∧ t.index ≤ t.count := by
  unfold Table.index
  cases hf : findFree t.base t.count with
  | none => exact ⟨h.base_of_le (Nat.le_refl _), Nat.le_refl _⟩
  | some i =>
    obtain ⟨hlt, hi⟩ := findFree_some hf
    exact ⟨hi, Nat.le_of_lt hlt⟩

/-- **There is an entry for each process.** -/
theorem Mirror.index_lt (h : Mirror t loaded) (hl : loaded.length < maxObjects) : t.index < maxObjects := by
  unfold Table.index
  cases hf : findFree t.base t.count with
  | none =>
    -- all entries up to the count are of different processes
    have hsub : List.range t.count ⊆ loaded.map Proc.index := by
      intro i hi
      obtain ⟨p, hp, hpi⟩ := h.owner i (findFree_none hf i (List.mem_range.1 hi))
      exact List.mem_map.2 ⟨p, hp, hpi⟩
    have hle := (List.nodup_range.subperm hsub).length_le
    rw [List.length_range, List.length_map] at hle
    exact Nat.lt_of_le_of_lt hle hl
  | some i =>
    obtain ⟨hlt, -⟩ := findFree_some hf
    exact Nat.lt_of_lt_of_le hlt h.count

end Search

section Calls

theorem Mirror.add (h : Mirror t loaded) (hb : b ≠ 0) (hfit : b + size < 2 ^ 64)
    (ha : t.add b size = some (i, t')) :
    Mirror t' (⟨b, size, i⟩ :: loaded) := by
  obtain ⟨hfree, hle⟩ := h.index_free
  unfold Table.add at ha
  dsimp only at ha
  by_cases hmax : maxObjects ≤ t.index
  · rw [if_pos hmax] at ha
    cases ha
  rw [if_neg hmax] at ha
  obtain ⟨rfl, rfl⟩ := Prod.mk.inj (Option.some.inj ha)
  have hother : ∀ p ∈ loaded, p.index ≠ t.index := by
    intro p hp heq
    exact (h.valid p hp).1 ((h.entry p hp).2.1.symm.trans (heq ▸ hfree))
  have hcount : ∀ {i}, i < t.count → i < if t.count ≤ t.index then t.index + 1 else t.count := by
    intro i hi
    split <;> omega
  refine ⟨?_, ?_, ?_, ?_, ?_⟩
  · intro p hp
    obtain rfl | hp := List.mem_cons.1 hp
    · refine ⟨?_, update_self .., update_self ..⟩
      dsimp only
      split <;> omega
    · obtain ⟨hlt, hbase, hsize⟩ := h.entry p hp
      have hne := hother p hp
      dsimp only
      rw [update_of_ne hne, update_of_ne hne]
      exact ⟨hcount hlt, hbase, hsize⟩
  · intro p hp
    obtain rfl | hp := List.mem_cons.1 hp
    · exact ⟨hb, hfit⟩
    · exact h.valid p hp
  · intro i hi
    by_cases hii : i = t.index
    · exact ⟨_, List.mem_cons_self, hii.symm⟩
    · dsimp only at hi
      rw [update_of_ne hii] at hi
      obtain ⟨p, hp, hpi⟩ := h.owner i hi
      exact ⟨p, List.mem_cons_of_mem _ hp, hpi⟩
  · rw [List.map_cons, List.nodup_cons]
    refine ⟨?_, h.nodup⟩
    intro hm
    obtain ⟨p, hp, hpi⟩ := List.mem_map.1 hm
    exact hother p hp hpi
  · have := h.count
    dsimp only
    split <;> omega

theorem Mirror.del (h : Mirror t loaded) (hp : p ∈ loaded) (hd : t.del p.index = some t') :
    Mirror t' (loaded.erase p) := by
  unfold Table.del at hd
  by_cases hmax : maxObjects ≤ p.index
  · rw [if_pos hmax] at hd
    cases hd
  rw [if_neg hmax] at hd
  obtain rfl := Option.some.inj hd
  have hnd : loaded.Nodup := List.Nodup.of_map _ h.nodup
  -- no other process has the index
  have hother : ∀ q ∈ loaded.erase p, q ∈ loaded ∧ q.index ≠ p.index := by
    intro q hq
    obtain ⟨hne, hq⟩ := (hnd.mem_erase_iff).1 hq
    exact ⟨hq, fun heq => hne (List.inj_on_of_nodup_map h.nodup hq hp heq)⟩
  refine ⟨?_, ?_, ?_, ?_, h.count⟩
  · intro q hq
    obtain ⟨hq, hne⟩ := hother q hq
    dsimp only
    rw [update_of_ne hne, update_of_ne hne]
    exact h.entry q hq
  · intro q hq
    exact h.valid q (hother q hq).1
  · intro i hi
    dsimp only at hi
    by_cases hii : i = p.index
    · rw [hii, update_self] at hi
      exact absurd rfl hi
    · rw [update_of_ne hii] at hi
      obtain ⟨q, hq, hqi⟩ := h.owner i hi
      have hne : q ≠ p := by rintro rfl; exact hii hqi.symm
      exact ⟨q, (List.mem_erase_of_ne hne).2 hq, hqi⟩
  · exact h.nodup.sublist (List.erase_sublist.map _)

/-- The order of the processes does not matter. -/
theorem Mirror.perm {loaded' : List Proc} (h : Mirror t loaded) (hp : loaded.Perm loaded') :
    Mirror t loaded' where
  entry p hm := h.entry p (hp.mem_iff.2 hm)
  valid p hm := h.valid p (hp.mem_iff.2 hm)
  owner i hi := by
    obtain ⟨p, hm, hpi⟩ := h.owner i hi
    exact ⟨p, hp.mem_iff.1 hm, hpi⟩
  nodup := (hp.map Proc.index).nodup_iff.1 h.nodup
  count := h.count

theorem mirror_start : Mirror St.start.table St.start.loaded where
  entry := fun _ hp => absurd hp List.not_mem_nil
  valid := fun _ hp => absurd hp List.not_mem_nil
  owner := fun _ hi => absurd rfl hi
  nodup := List.nodup_nil
  count := Nat.zero_le maxObjects

theorem mirror_step (h : Mirror s.table s.loaded) {a : Act} (hs : s.step a = some s') :
    Mirror s'.table s'.loaded := by
  cases a with
  | add base size =>
    obtain ⟨⟨-, hb, hfit⟩, hs⟩ := Option.ite_none_right_eq_some.1 hs
    obtain ⟨⟨i, t⟩, ht, rfl⟩ := Option.map_eq_some_iff.1 hs
    exact h.add hb hfit ht
  | del p =>
    obtain ⟨hp, hs⟩ := Option.ite_none_right_eq_some.1 hs
    obtain ⟨t, ht, rfl⟩ := Option.map_eq_some_iff.1 hs
    exact h.del hp ht

/-- **The table mirrors the loaded processes** in every run. -/
theorem mirror_reachable (h : sys.Reachable s) : Mirror s.table s.loaded := by
  apply System.Reachable.inv (I := fun s => Mirror s.table s.loaded) _ _ h
  · rintro s rfl
    exact mirror_start
  · intro s a s' hi hs
    exact mirror_step hi hs

/-- No call of a run is fatal. -/
theorem add_defined (h : sys.Reachable s) (hl : s.loaded.length < maxObjects) (hb : b ≠ 0)
    (hfit : b + size < 2 ^ 64) :
    ∃ s', sys.step s (.add b size) = some s' := by
  have hlt := (mirror_reachable h).index_lt hl
  obtain ⟨r, hr⟩ : ∃ r, s.table.add b size = some r := ⟨_, if_neg (Nat.not_le.2 hlt)⟩
  refine ⟨⟨r.2, ⟨b, size, r.1⟩ :: s.loaded⟩, (if_pos ⟨hl, hb, hfit⟩).trans ?_⟩
  rw [hr]
  rfl

end Calls

section Scan

/-- The loop returns at an entry. -/
def Hit (t : Table) (ip i : ℕ) : Prop :=
  (t.base i ≠ 0 ∧ t.base i < ip) ∧ t.size i ≠ 0 ∧ ip < (t.base i + t.size i) % 2 ^ 64

theorem scan_iff (t : Table) (ip n i : ℕ) : scan t ip n i = true ↔ ∃ j, i ≤ j ∧ j < i + n ∧ Hit t ip j := by
  induction n generalizing i with
  | zero =>
    refine iff_of_false Bool.false_ne_true ?_
    rintro ⟨j, hj, hlt, -⟩
    omega
  | succ n ih =>
    have hrest : (∃ j, i ≤ j ∧ j < i + (n + 1) ∧ Hit t ip j) ↔
        Hit t ip i ∨ ∃ j, i + 1 ≤ j ∧ j < i + 1 + n ∧ Hit t ip j := by
      constructor
      · rintro ⟨j, hj, hlt, hh⟩
        obtain rfl | hne := Nat.eq_or_lt_of_le hj
        · exact .inl hh
        · exact .inr ⟨j, hne, by omega, hh⟩
      · rintro (hh | ⟨j, hj, hlt, hh⟩)
        · exact ⟨i, Nat.le_refl i, by omega, hh⟩
        · exact ⟨j, by omega, by omega, hh⟩
    rw [hrest, ← ih (i + 1), scan]
    dsimp only
    by_cases hb : t.base i ≠ 0 ∧ t.base i < ip
    · rw [if_pos hb]
      by_cases hs : t.size i ≠ 0 ∧ ip < (t.base i + t.size i) % 2 ^ 64
      · rw [if_pos hs]
        exact iff_of_true rfl (.inl ⟨hb, hs⟩)
      · rw [if_neg hs]
        exact (or_iff_right fun hh : Hit t ip i => hs hh.2).symm
    · rw [if_neg hb]
      exact (or_iff_right fun hh : Hit t ip i => hb hh.1).symm

/-- **What is found**: an address behind the base of a loaded process, and before its end. -/
theorem isUserText_iff (h : Mirror t loaded) (ip : ℕ) :
    t.isUserText ip = true ↔ ∃ p ∈ loaded, p.base < ip ∧ ip < p.base + p.size := by
  unfold Table.isUserText
  rw [scan_iff]
  constructor
  · rintro ⟨j, -, -, ⟨hb, hlt⟩, -, hip⟩
    obtain ⟨p, hp, rfl⟩ := h.owner j hb
    obtain ⟨-, hbase, hsize⟩ := h.entry p hp
    rw [hbase, hsize, Nat.mod_eq_of_lt (h.valid p hp).2] at hip
    exact ⟨p, hp, hbase ▸ hlt, hip⟩
  · rintro ⟨p, hp, hlt, hip⟩
    obtain ⟨hcount, hbase, hsize⟩ := h.entry p hp
    obtain ⟨hb, hfit⟩ := h.valid p hp
    refine ⟨p.index, Nat.zero_le _, by omega, ?_⟩
    unfold Hit
    rw [hbase, hsize, Nat.mod_eq_of_lt hfit]
    exact ⟨⟨hb, hlt⟩, by omega, hip⟩

/-- **An address is judged as it should be exactly when it is not the base of a process alone.** -/
theorem user_text_iff (h : sys.Reachable s) (ip : ℕ) :
    (s.table.isUserText ip = true ↔ ∃ p ∈ s.loaded, p.Has ip) ↔
      ((∃ p ∈ s.loaded, p.base = ip ∧ 0 < p.size) → ∃ q ∈ s.loaded, q.base < ip ∧ ip < q.base + q.size) := by
  rw [isUserText_iff (mirror_reachable h)]
  constructor
  · rintro hall ⟨p, hp, rfl, hsize⟩
    exact hall.2 ⟨p, hp, Nat.le_refl _, Nat.lt_add_of_pos_right hsize⟩
  · intro hbase
    constructor
    · rintro ⟨p, hp, hlt, hip⟩
      exact ⟨p, hp, Nat.le_of_lt hlt, hip⟩
    · rintro ⟨p, hp, hle, hip⟩
      obtain heq | hlt := Nat.eq_or_lt_of_le hle
      · exact hbase ⟨p, hp, heq, by omega⟩
      · exact ⟨p, hp, hlt, hip⟩

/-- Two processes are loaded, one of them in the entry of a third that was deleted. The base of the first is
in the second, and it is found. -/
theorem user_text_iff_inside : ∃ s, sys.Reachable s ∧ s.loaded = [⟨4000, 200, 1⟩, ⟨4096, 100, 0⟩] ∧
    s.table.isUserText 4096 = true := by
  obtain ⟨s, hs, hloaded⟩ := System.exists_of_check sys (fun _ _ => True)
    (fun s => s.loaded = [⟨4000, 200, 1⟩, ⟨4096, 100, 0⟩]) St.start rfl
    [.add 4096 100, .add 9000 50, .del ⟨9000, 50, 1⟩, .add 4000 200] (by decide +kernel)
  refine ⟨s, hs, hloaded, ((user_text_iff hs 4096).2 fun _ => ?_).2 ?_⟩
  · exact ⟨⟨4000, 200, 1⟩, by rw [hloaded]; exact List.mem_cons_self, by decide⟩
  · exact ⟨⟨4096, 100, 0⟩, by rw [hloaded]; decide, by decide⟩

/-- The base of the only process is not found. -/
theorem base_missed :
    ∃ s, sys.Reachable s ∧ s.table.isUserText 4096 = false ∧ ∃ p ∈ s.loaded, p.Has 4096 := by
  obtain ⟨s, hs, h⟩ := System.exists_of_check sys (fun _ _ => True)
    (fun s => s.table.isUserText 4096 = false ∧ ∃ p ∈ s.loaded, p.Has 4096) St.start rfl [.add 4096 100]
      (by decide +kernel)
  exact ⟨s, hs, h⟩

end Scan

end Prs.UserText
