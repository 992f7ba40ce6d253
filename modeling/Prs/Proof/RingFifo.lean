import Prs.Proof.RingCalls

/-!
# A ring is a queue

The history of a ring has the elements that were pushed and not popped, and those that users have: allocated
and not pushed or freed, or popped and not freed.

* `Inv`: what a ring has is what its history says. `Inv.alloc`, `Inv.push`, `Inv.pop` and `Inv.free` are the
  calls: a pop returns the elements in the order of their pushes, and null when there are none.
* `Inv.unused`: an allocation returns an element that nobody has; `Inv.free_of_unused`: one that nobody has,
  and that is not the first of the ring, is free to be allocated.
-/

namespace Prs.RingSeq

open Function PoolWords

/-- The elements that were pushed and not popped, in order, those that were allocated and not pushed or freed,
and those that were popped and not freed. -/
structure Hist where
  queue : List ℕ
  owned : Finset ℕ
  popped : Finset ℕ

variable {k : ℕ} {s : St} {h : Hist}

section Slots

/-- The entries of a set of ids. -/
def Slots (k : ℕ) (entries ids : Finset ℕ) : Prop := ∀ e, e ∈ entries ↔ ∃ id ∈ ids, id % 2 ^ k = e

variable {entries ids : Finset ℕ} {id : ℕ}

theorem Slots.insert (hs : Slots k entries ids) (id : ℕ) :
    Slots k (insert (id % 2 ^ k) entries) (insert id ids) := by
  intro e
  rw [Finset.mem_insert, hs e]
  constructor
  · rintro (rfl | ⟨x, hx, rfl⟩)
    · exact ⟨id, Finset.mem_insert_self _ _, rfl⟩
    · exact ⟨x, Finset.mem_insert_of_mem hx, rfl⟩
  · rintro ⟨x, hx, rfl⟩
    obtain rfl | hx := Finset.mem_insert.1 hx
    · exact .inl rfl
    · exact .inr ⟨x, hx, rfl⟩

theorem Slots.erase (hs : Slots k entries ids) (hinj : ∀ x ∈ ids, x ≠ id → x % 2 ^ k ≠ id % 2 ^ k) :
    Slots k (entries.erase (id % 2 ^ k)) (ids.erase id) := by
  intro e
  rw [Finset.mem_erase, hs e]
  constructor
  · rintro ⟨hne, x, hx, rfl⟩
    refine ⟨x, Finset.mem_erase.2 ⟨?_, hx⟩, rfl⟩
    rintro rfl
    exact hne rfl
  · rintro ⟨x, hx, rfl⟩
    obtain ⟨hne, hx⟩ := Finset.mem_erase.1 hx
    exact ⟨hinj x hx hne, x, hx, rfl⟩

end Slots

/-- What a ring has is what its history says. -/
def Inv (k : ℕ) (s : St) (h : Hist) : Prop :=
  ∃ nodes spent owned popped, Rep k s nodes spent owned popped ∧
    h.queue = (contents spent nodes).map (· % 2 ^ k) ∧ Slots k h.owned owned ∧ Slots k h.popped popped

theorem inv_create (k : ℕ) : Inv k .create ⟨[], ∅, ∅⟩ := by
  have hempty : Slots k ∅ ∅ := by
    intro e
    simp
  exact ⟨[], false, ∅, ∅, rep_create k, rfl, hempty, hempty⟩

section Steps

theorem contents_snoc {spent : Bool} {nodes : List ℕ} (hfresh : nodes = [] → spent = false) (id : ℕ) :
    contents spent (nodes ++ [id]) = contents spent nodes ++ [id] := by
  cases spent with
  | false => rfl
  | true =>
    cases nodes with
    | nil => exact absurd (hfresh rfl) Bool.noConfusion
    | cons n ns => rfl

theorem Inv.alloc (hi : Inv k s h) (hfit : s.pool.writeIndex + 2 ^ k ≤ refcntInc) :
    Inv k (s.alloc k).2 { h with owned := (s.alloc k).1.elim h.owned fun e => insert e h.owned } := by
  obtain ⟨nodes, spent, owned, popped, hrep, hq, ho, hp⟩ := hi
  obtain ⟨hno, -⟩ | ⟨id, hid, -, hrep'⟩ := alloc_rep hrep hfit
  · rw [hno]
    exact ⟨nodes, spent, owned, popped, hrep, hq, ho, hp⟩
  · rw [hid]
    exact ⟨nodes, spent, insert id owned, popped, hrep', hq, ho.insert id, hp⟩

theorem Inv.push (hi : Inv k s h) {e : ℕ} (he : e ∈ h.owned) (spurious : List Bool) :
    ∃ s', s.push k e spurious = some s' ∧ Inv k s'
    { h with queue := h.queue ++ [e], owned := h.owned.erase e } := by
  obtain ⟨nodes, spent, owned, popped, hrep, hq, ho, hp⟩ := hi
  obtain ⟨id, hid, rfl⟩ := (ho e).1 he
  obtain ⟨s', hpush, hrep', -⟩ := push_rep hrep hid spurious
  have hinj : ∀ x ∈ owned, x ≠ id → x % 2 ^ k ≠ id % 2 ^ k := fun x hx hne =>
    hrep.slot_ne (.inr (.inl hx)) (.inr (.inl hid)) hne
  refine ⟨s', hpush, nodes ++ [id], spent, owned.erase id, popped, hrep', ?_, ho.erase hinj, hp⟩
  rw [contents_snoc hrep.fresh, List.map_append, hq]
  rfl

theorem Inv.pop (hi : Inv k s h) (spurious : List Bool) :
    ∃ s', s.pop k spurious = some (h.queue.head?, s') ∧
      Inv k s' { h with queue := h.queue.tail, popped :=
        h.queue.head?.elim h.popped fun e => insert e h.popped } := by
  obtain ⟨nodes, spent, owned, popped, hrep, hq, ho, hp⟩ := hi
  obtain ⟨s', nodes', spent', hpop, hrep', hcont, -⟩ := pop_rep hrep spurious
  refine ⟨s', ?_, nodes', spent', owned, _, hrep', ?_, ho, ?_⟩
  · rw [hpop, hq, List.head?_map]
  · rw [hcont, hq, List.map_tail]
  · rw [hq, List.head?_map]
    cases (contents spent nodes).head? with
    | none => exact hp
    | some id => exact hp.insert id

theorem Inv.free (hi : Inv k s h) {e : ℕ} (he : e ∈ h.owned ∨ e ∈ h.popped) :
    Inv k (s.free k e) { h with owned := h.owned.erase e, popped := h.popped.erase e } := by
  obtain ⟨nodes, spent, owned, popped, hrep, hq, ho, hp⟩ := hi
  obtain ⟨id, hid, rfl⟩ : ∃ id, (id ∈ owned ∨ id ∈ popped) ∧ id % 2 ^ k = e := by
    obtain he | he := he
    · obtain ⟨id, hid, hslot⟩ := (ho e).1 he
      exact ⟨id, .inl hid, hslot⟩
    · obtain ⟨id, hid, hslot⟩ := (hp e).1 he
      exact ⟨id, .inr hid, hslot⟩
  have hinj : ∀ x, x ∈ owned ∨ x ∈ popped → x ≠ id → x % 2 ^ k ≠ id % 2 ^ k := fun x hx hne =>
    hrep.slot_ne (.inr hx) (.inr hid) hne
  exact ⟨nodes, spent, owned.erase id, popped.erase id, (free_rep hrep hid).1, hq, ho.erase fun x hx =>
    hinj x (.inl hx), hp.erase fun x hx => hinj x (.inr hx)⟩

end Steps

section Allocation

/-- Nobody has the element: it is not in the ring, and no user has it. -/
def Hist.Unused (h : Hist) (e : ℕ) : Prop := e ∉ h.queue ∧ e ∉ h.owned ∧ e ∉ h.popped

/-- The element is the first of the ring: the head has not passed it. -/
def St.AtHead (k : ℕ) (s : St) (e : ℕ) : Prop := s.headId ≠ invalid ∧ s.headId % 2 ^ k = e

/-- An allocation returns an element that nobody has and that is not the first of the ring. -/
theorem Inv.unused (hi : Inv k s h) (hfit : s.pool.writeIndex + 2 ^ k ≤ refcntInc) {e : ℕ}
    (he : (s.alloc k).1 = some e) :
    h.Unused e ∧ ¬ s.AtHead k e := by
  obtain ⟨nodes, spent, owned, popped, hrep, hq, ho, hp⟩ := hi
  obtain ⟨hno, -⟩ | ⟨id, hid, hfree, -⟩ := alloc_rep hrep hfit
  · rw [hno] at he
    cases he
  · rw [hid] at he
    obtain rfl : id % 2 ^ k = e := Option.some.inj he
    refine ⟨⟨fun hmem => ?_, fun hmem => ?_, fun hmem => ?_⟩, fun ⟨hvalid, hslot⟩ => ?_⟩
    · rw [hq] at hmem
      obtain ⟨x, hx, hslot⟩ := List.mem_map.1 hmem
      refine hrep.slot_ne_free (.inl ?_) hfree hslot
      unfold contents at hx
      split at hx
      · exact List.mem_of_mem_tail hx
      · exact hx
    · obtain ⟨x, hx, hslot⟩ := (ho _).1 hmem
      exact hrep.slot_ne_free (.inr (.inl hx)) hfree hslot
    · obtain ⟨x, hx, hslot⟩ := (hp _).1 hmem
      exact hrep.slot_ne_free (.inr (.inr hx)) hfree hslot
    · have hfirst := hrep.head
      cases nodes with
      | nil => exact hvalid hfirst
      | cons n ns =>
        have hn : s.headId = n := hfirst
        rw [hn] at hslot
        exact hrep.slot_ne_free (.inl List.mem_cons_self) hfree hslot

/-- An element that nobody has and that is not the first of the ring is free. -/
theorem Inv.free_of_unused (hi : Inv k s h) {e : ℕ} (hpos : 0 < e) (hlt : e < 2 ^ k) (hunused : h.Unused e)
    (hhead : ¬ s.AtHead k e) : testAlloc (s.pool.header e) = false := by
  obtain ⟨nodes, spent, owned, popped, hrep, hq, ho, hp⟩ := hi
  rw [← Bool.not_eq_true]
  intro ha
  obtain ⟨id, rfl, hf⟩ := (hrep.sane.testAlloc_iff hpos hlt).1 ha
  -- an allocated entry has a reference, and each reference has its owner
  by_cases hn : id ∈ nodes
  · by_cases hc : id ∈ contents spent nodes
    · exact hunused.1 (by rw [hq]; exact List.mem_map_of_mem hc)
    · refine hhead ?_
      cases nodes with
      | nil => exact absurd hn List.not_mem_nil
      | cons n ns =>
        have hfirst : s.headId = n := hrep.head
        cases spent with
        | false => exact absurd hn hc
        | true =>
          obtain rfl : id = n := (List.mem_cons.1 hn).resolve_right hc
          unfold St.AtHead
          rw [hfirst]
          exact ⟨hrep.ne_invalid (.inl hn), rfl⟩
  · have hno : id ∉ owned := fun hmem => hunused.2.1 ((ho _).2 ⟨id, hmem, rfl⟩)
    have hnp : id ∉ popped := fun hmem => hunused.2.2 ((hp _).2 ⟨id, hmem, rfl⟩)
    refine hf ?_
    rw [hrep.find]
    unfold refs
    rw [if_neg hn, if_neg hno, if_neg hnp]
    rfl

/-- An allocation finds an entry that is free. -/
theorem Inv.alloc_ne_none (hi : Inv k s h) (hfit : s.pool.writeIndex + 2 ^ k ≤ refcntInc) {e : ℕ}
    (hlt : e < 2 ^ k) (hfree : testAlloc (s.pool.header e) = false) : (s.alloc k).1 ≠ none := by
  obtain ⟨nodes, spent, owned, popped, hrep, -⟩ := hi
  intro hnone
  obtain ⟨-, hfull⟩ | ⟨id, hid, -⟩ := alloc_rep hrep hfit
  · rw [hfull e hlt] at hfree
    cases hfree
  · rw [hid] at hnone
    cases hnone

end Allocation

end Prs.RingSeq
