import Prs.Proof.NameUnique
import Mathlib.Data.Finset.Basic

/-!
# What a search finds

`registered` is the history of a table: the ids that `prs_name_alloc` has taken and `prs_name_free` has not
given back. An object may be destroyed while its id is there. In the runs here, no id is registered that is
there already.

* `Listed`: an id is in a node exactly when it is registered.
* `find_correct`: `prs_name_find` finds an object that is registered, has the name and can be locked, when
  there is one, and leaves every count as it was; `prs_name_find_and_lock` locks it.
-/

namespace Prs.NameSeq

open Function GodSeq

variable {k m id : ℕ} {s : St} {registered : Finset ℕ}

/-- A table with the ids that are registered. -/
def sysRegistered (k m : ℕ) : System (St × Finset ℕ) Act :=
  (sys k m).withTrace ∅ fun s a _ registered =>
    match a with
    | .alloc id => if (s.alloc k m id).1 = .ok then insert id registered else registered
    | .free id => if (s.free k m id).1 = .ok then registered.erase id else registered
    | _ => registered

/-- No id is registered again. -/
def Fresh (p : St × Finset ℕ) : Act → Prop
  | .alloc id => id ∉ p.2
  | _ => True

instance (p : St × Finset ℕ) (a : Act) : Decidable (Fresh p a) :=
  match a with
  | .alloc _ => inferInstanceAs (Decidable (_ ∉ _))
  | .god _ => inferInstanceAs (Decidable True)
  | .free _ => inferInstanceAs (Decidable True)
  | .find _ => inferInstanceAs (Decidable True)
  | .findAndLock _ => inferInstanceAs (Decidable True)

/-- The ids in the nodes are those that are registered. -/
structure Listed (k m : ℕ) (s : St) (registered : Finset ℕ) : Prop where
  inv : Inv k m s
  mem : ∀ id, id ≠ invalid → (id ∈ registered ↔ s.Registered id)
  invalid : invalid ∉ registered

theorem listed_create (k m : ℕ) : Listed k m .create ∅ where
  inv := inv_create k m
  mem := fun id _ => iff_of_false (Finset.notMem_empty id) fun ⟨_, he⟩ => List.not_mem_nil he
  invalid := Finset.notMem_empty _

section Steps

/-- An id that is not registered is not in the way of its registration. -/
theorem Listed.clear (h : Listed k m s registered) {a : Act} (hok : Fresh (s, registered) a) : Clear k m s a := by
  cases a with
  | alloc id =>
    have hno : id ∉ registered := hok
    unfold Clear
    refine (Option.all_eq_true _ _).2 fun o hl => decide_eq_true fun hid => absurd ?_ hno
    obtain ⟨n, hf, -⟩ := h.inv.sane.lock_eq_some.1 hl
    obtain ⟨hinv, -, -⟩ := h.inv.sane.find_eq_some.1 hf
    exact (h.mem id hinv).2 ⟨_, hid⟩
  | god _ => trivial
  | free _ => trivial
  | find _ => trivial
  | findAndLock _ => trivial

/-- The nodes of an object's list, as far as other ids go. -/
theorem registered_write {e x : ℕ} {l : List ℕ} (hcount : l.count x = (s.list e).count x) :
    St.Registered { s with list := update s.list e l } x ↔ s.Registered x := by
  have hmem : x ∈ l ↔ x ∈ s.list e := by rw [← List.count_pos_iff, ← List.count_pos_iff, hcount]
  have hiff : ∀ e', x ∈ update s.list e l e' ↔ x ∈ s.list e' := by
    intro e'
    by_cases he : e' = e
    · subst he
      rw [update_self]
      exact hmem
    · rw [update_of_ne he]
  exact exists_congr hiff

/-- A registration. -/
theorem Listed.alloc (h : Listed k m s registered) (hid : id ∉ registered) :
    Listed k m (s.alloc k m id).2 (if (s.alloc k m id).1 = .ok then insert id registered else registered) := by
  have hinv := h.inv.step (k := k) (m := m) (a := .alloc id)
  obtain hl | ⟨o, hl⟩ := Option.eq_none_or_eq_some (s.god.lock k id).1
  · rw [alloc_of_none h.inv.sane hl, if_neg (by simp)]
    exact h
  · obtain ⟨n, hf, -⟩ := h.inv.sane.lock_eq_some.1 hl
    obtain ⟨hne, -, -⟩ := h.inv.sane.find_eq_some.1 hf
    have hno : ∀ e, id ∉ s.list e := fun e he => hid ((h.mem id hne).2 ⟨e, he⟩)
    have hfst : (allocLoop id (s.list (entry m o.name))).1 = .ok := by
      refine (allocLoop_ok _).resolve_right fun hexists => ?_
      exact hno _ ((allocLoop_fst _).1 hexists).1
    have hinv := h.inv.alloc (m := m) fun o hl hmem => absurd hmem (hno (entry m o.name))
    rw [alloc_of_lock h.inv.sane hl] at hinv ⊢
    rw [hfst, if_pos rfl]
    refine ⟨hinv, fun x hx => ?_, ?_⟩
    · rw [Finset.mem_insert]
      by_cases hxid : x = id
      · subst hxid
        refine iff_of_true (.inl rfl) ⟨entry m o.name, ?_⟩
        simp only [update_self]
        rw [← List.count_pos_iff, count_allocLoop hx, if_pos ⟨rfl, hfst⟩]
        omega
      · rw [or_iff_right hxid, h.mem x hx]
        refine (registered_write ?_).symm
        rw [count_allocLoop hx, if_neg fun hc => hxid hc.1, Nat.add_zero]
    · rw [Finset.mem_insert, not_or]
      exact ⟨hne.symm, h.invalid⟩

/-- A release. -/
theorem Listed.free (h : Listed k m s registered) (id : ℕ) :
    Listed k m (s.free k m id).2 (if (s.free k m id).1 = .ok then registered.erase id else registered) := by
  have hinv := h.inv.free id
  obtain hl | ⟨o, hl⟩ := Option.eq_none_or_eq_some (s.god.lock k id).1
  · rw [free_of_none h.inv.sane hl, if_neg (by simp)]
    exact h
  · have hgone := h.inv.free_gone (m := m) hl
    rw [free_of_lock h.inv.sane hl] at hinv hgone ⊢
    have hkeep : ∀ x, x ≠ GodSeq.invalid → x ≠ id → (x ∈ registered ↔
        St.Registered { s with
          list := update s.list (entry m o.name) (freeLoop id (s.list (entry m o.name))).2 } x) := by
      intro x hx hxid
      rw [h.mem x hx]
      refine (registered_write ?_).symm
      rw [count_freeLoop hx, if_neg hxid, Nat.sub_zero]
    have hreg : ¬ St.Registered
      { s with list := update s.list (entry m o.name) (freeLoop id (s.list (entry m o.name))).2 } id :=
      fun ⟨e, he⟩ => hgone e he
    by_cases hok : (freeLoop id (s.list (entry m o.name))).1 = .ok
    · rw [if_pos hok]
      refine ⟨hinv, fun x hx => ?_, fun hmem => h.invalid (Finset.mem_of_mem_erase hmem)⟩
      by_cases hxid : x = id
      · subst hxid
        exact iff_of_false (Finset.notMem_erase x registered) hreg
      · rw [Finset.mem_erase, and_iff_right hxid]
        exact hkeep x hx hxid
    · rw [if_neg hok]
      refine ⟨hinv, fun x hx => ?_, h.invalid⟩
      by_cases hxid : x = id
      · subst hxid
        refine iff_of_false (fun hmem => ?_) hreg
        -- the id is not in its list, and in no other
        obtain ⟨e, he⟩ := (h.mem x hx).1 hmem
        obtain ⟨n, hf, -⟩ := h.inv.sane.lock_eq_some.1 hl
        rw [h.inv.place e x o n he hf] at he
        exact hok ((freeLoop_fst _).2 he)
      · exact hkeep x hx hxid

/-- **A step** of a run in which no id is registered again. -/
theorem Listed.step {p p' : St × Finset ℕ} (h : Listed k m p.1 p.2) (hk : k ≤ 31) {a : Act} (hok : Fresh p a)
    (hs : (sysRegistered k m).step p a = some p') : Listed k m p'.1 p'.2 := by
  obtain ⟨hstep, hreg⟩ := System.withTrace_step hs
  have hinv := h.inv.step hk a (h.clear hok)
  have hexec : p.1.exec k m a = p'.1 := Option.some.inj hstep
  rw [hreg, ← hexec]
  cases a with
  | alloc id => exact h.alloc hok
  | free id => exact h.free id
  | god a => exact ⟨hinv, h.mem, h.invalid⟩
  | find key =>
    have heq := find_eq (m := m) h.inv.sane key
    unfold St.exec at hinv ⊢
    simp only [heq] at hinv ⊢
    exact ⟨hinv, h.mem, h.invalid⟩
  | findAndLock key =>
    have heq := findAndLock_eq (m := m) h.inv.sane key
    unfold St.exec at hinv ⊢
    simp only [heq] at hinv ⊢
    exact ⟨hinv, h.mem, h.invalid⟩

theorem listed_reach {p : St × Finset ℕ} (hk : k ≤ 31) (hr : (sysRegistered k m).Reach Fresh p) :
    Listed k m p.1 p.2 := by
  apply hr.inv
  · rintro ⟨s, registered⟩ ⟨rfl, rfl⟩
    exact listed_create k m
  · intro p a p' h hok hs
    exact h.step hk hok hs

end Steps

section Find

/-- The object of a registered id has the name, and can be locked. -/
def St.Match (k : ℕ) (s : St) (registered : Finset ℕ) (key : List (BitVec 8)) (id : ℕ) : Prop :=
  id ∈ registered ∧ ∃ o, (s.god.lock k id).1 = some o ∧ o.name = key

/-- The header with one more reference. -/
def incr (header : God.Header) : God.Header := { header with refcnt := header.refcnt + 1 }

theorem Listed.hit (h : Listed k m s registered) (key : List (BitVec 8)) :
    (s.hit k m key = none → ∀ id, ¬ s.Match k registered key id) ∧
      ∀ id, s.hit k m key = some id → s.Match k registered key id := by
  have hne : ∀ {id o}, (s.god.lock k id).1 = some o → id ≠ GodSeq.invalid := by
    intro id o hl
    obtain ⟨n, hf, -⟩ := h.inv.sane.lock_eq_some.1 hl
    exact (h.inv.sane.find_eq_some.1 hf).1
  unfold St.hit
  constructor
  · rintro hnone id ⟨hid, o, hl, rfl⟩
    obtain ⟨n, hf, -⟩ := h.inv.sane.lock_eq_some.1 hl
    obtain ⟨e, he⟩ := (h.mem id (hne hl)).1 hid
    rw [h.inv.place e id o n he hf] at he
    have hno := List.find?_eq_none.1 hnone id he
    simp [hl] at hno
  · intro id hsome
    have hp := List.find?_some hsome
    have hmem := List.mem_of_find?_eq_some hsome
    obtain ⟨o, hl, hname⟩ := (Option.any_eq_true _ _).1 hp
    exact ⟨(h.mem id (hne hl)).2 ⟨_, hmem⟩, o, hl, of_decide_eq_true hname⟩

/-- **A search is right**, in every run in which no id is registered again. -/
theorem find_correct (k m : ℕ) (hk : k ≤ 31) (s : St) (registered : Finset ℕ)
    (hr : (sysRegistered k m).Reach Fresh (s, registered)) (key : List (BitVec 8)) :
    ((s.find k m key).1 ≠ invalid ↔ ∃ id, s.Match k registered key id) ∧
    ((s.find k m key).1 ≠ invalid → s.Match k registered key (s.find k m key).1) ∧
    (s.find k m key).2 = s ∧
    (s.findAndLock k m key).1 = (s.find k m key).1 ∧
    (s.findAndLock k m key).2.list = s.list ∧
    (s.findAndLock k m key).2.god.header =
      if (s.find k m key).1 = invalid then s.god.header
      else update s.god.header ((s.find k m key).1 % 2 ^ k)
    (incr (s.god.header ((s.find k m key).1 % 2 ^ k))) := by
  have h : Listed k m s registered := listed_reach hk hr
  obtain ⟨hnone, hsome⟩ := h.hit key
  rw [find_eq h.inv.sane, findAndLock_eq h.inv.sane]
  obtain hhit | ⟨id, hhit⟩ := Option.eq_none_or_eq_some (s.hit k m key)
  · rw [hhit, Option.getD_none]
    refine ⟨iff_of_false (by simp) fun ⟨id, hm⟩ => hnone hhit id hm, fun hne => absurd rfl hne, rfl, rfl, rfl, ?_⟩
    rw [if_pos rfl]
    rfl
  · obtain ⟨hid, o, hl, hname⟩ := hsome id hhit
    obtain ⟨n, hf, hn⟩ := h.inv.sane.lock_eq_some.1 hl
    obtain ⟨hne, hh, -⟩ := h.inv.sane.find_eq_some.1 hf
    rw [hhit, Option.getD_some]
    refine ⟨iff_of_true hne ⟨id, hid, o, hl, hname⟩, fun _ => ⟨hid, o, hl, hname⟩, rfl, rfl, rfl, ?_⟩
    have hlock := h.inv.sane.lock_of_find hf hn
    rw [if_neg hne]
    unfold Dir.exec
    simp only [hlock]
    unfold Dir.setRefcnt incr
    simp only [hh]

theorem find_correct_reused :
    ∃ (s : St) (registered : Finset ℕ), s.Match 2 registered [97#8] 3 ∧ (s.find 2 1 [97#8]).1 ≠ invalid ∧
      (s.find 2 1 [97#8]).2 = s := by
  obtain ⟨p, hr, hmem, hl⟩ := System.exists_of_check (sysRegistered 2 1) Fresh
    (fun p => 3 ∈ p.2 ∧ (p.1.god.lock 2 3).1 = some ⟨[97#8]⟩) (.create, ∅) ⟨rfl, rfl⟩
    [.god (.alloc ⟨[97#8]⟩), .god (.alloc ⟨[98#8]⟩), .alloc 1, .alloc 2, .god (.unlock 2), .free 1,
      .god (.alloc ⟨[97#8]⟩), .alloc 3] (by decide +kernel)
  obtain ⟨hiff, -, hsame, -⟩ := find_correct 2 1 (by omega) p.1 p.2 hr [97#8]
  have hmatch : p.1.Match 2 p.2 [97#8] 3 := ⟨hmem, _, hl, rfl⟩
  exact ⟨p.1, p.2, hmatch, hiff.2 ⟨3, hmatch⟩, hsame⟩

end Find

end Prs.NameSeq
