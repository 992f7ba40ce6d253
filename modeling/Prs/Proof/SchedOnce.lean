import Prs.Model.SchedLife

/-!
# A scheduler object is freed once, or not

`prs_sched_create` and `prs_sched_destroy` free the block themselves. Once the object is in the GOD that is
wrong: the cleanup of `prs_sched_create` drops the last reference, so that the block is freed twice, and
`prs_sched_destroy` takes a reference and drops only that one, so that the GOD keeps a block that is freed
(`freed_wrong`).

* `freed_once`: the block is freed once, and is gone, if and only if it was not registered.
-/

namespace Prs.SchedLife

variable {o : Outcomes}

/-- The block was freed as often as it was allocated, was not accessed afterwards, and `prs_god_lock` with its
ID returns null. -/
def St.Once (s : St) : Prop := s.frees = s.allocs ∧ s.touched = false ∧ s.refcnt = none

instance (s : St) : Decidable s.Once := inferInstanceAs (Decidable (_ ∧ _))

/-- The steps up to the registration succeed. -/
def Outcomes.registers (o : Outcomes) : Bool := o.malloc && o.dllist && o.god

/-- The cleanup of an object that is not registered. -/
theorem life_unregistered (h : o.registers = false) : (life o).Once := by
  obtain ⟨malloc, dllist, god, name, init⟩ := o
  cases malloc with
  | false => exact ⟨rfl, rfl, rfl⟩
  | true =>
    cases dllist with
    | false => exact ⟨rfl, rfl, rfl⟩
    | true =>
      cases god with
      | false => exact ⟨rfl, rfl, rfl⟩
      | true => cases h

/-- The cleanup of an object that is registered: the GOD frees the block, and then `prs_sched_create` does. -/
theorem life_failed (h : o.registers = true) (hf : (o.name && o.init) = false) :
    (life o).frees = 2 ∧ (life o).touched = true := by
  obtain ⟨malloc, dllist, god, name, init⟩ := o
  simp only [Outcomes.registers, Bool.and_eq_true] at h
  obtain ⟨⟨rfl, rfl⟩, rfl⟩ := h
  cases name with
  | false => exact ⟨rfl, rfl⟩
  | true =>
    cases init with
    | false => exact ⟨rfl, rfl⟩
    | true => cases hf

/-- After `prs_sched_destroy` the first reference is still there. -/
theorem life_destroyed (h : o.registers = true) (hf : (o.name && o.init) = true) :
    (life o).frees = 1 ∧ (life o).refcnt = some 1 := by
  obtain ⟨malloc, dllist, god, name, init⟩ := o
  simp only [Outcomes.registers, Bool.and_eq_true] at h
  obtain ⟨⟨rfl, rfl⟩, rfl⟩ := h
  simp only [Bool.and_eq_true] at hf
  obtain ⟨rfl, rfl⟩ := hf
  exact ⟨rfl, rfl⟩

/-- **A scheduler object is freed once** if and only if `prs_sched_create` fails before the object is
registered in the GOD. -/
theorem freed_once (o : Outcomes) : (life o).Once ↔ o.registers = false := by
  refine ⟨fun h => ?_, life_unregistered⟩
  rw [← Bool.not_eq_true]
  intro hr
  obtain ⟨-, ht, hn⟩ := h
  cases hf : o.name && o.init with
  | false =>
    rw [(life_failed hr hf).2] at ht
    cases ht
  | true =>
    rw [(life_destroyed hr hf).2] at hn
    cases hn

/-- **A scheduler object is not freed once.** When its name is refused, the block is freed twice; when all
goes well, it is freed by `prs_sched_destroy` and still in the GOD. -/
theorem freed_wrong :
    ((life ⟨true, true, true, false, true⟩).frees = 2 ∧ (life ⟨true, true, true, false, true⟩).touched = true) ∧
      (life ⟨true, true, true, true, true⟩).frees = 1 ∧
      (life ⟨true, true, true, true, true⟩).refcnt = some 1 := by
  decide

end Prs.SchedLife
