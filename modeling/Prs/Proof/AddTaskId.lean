import Prs.Model.AddTask

/-!
# A scheduled task knows its scheduler

A task that is added is published before its `sched_id` is stored. It can run, block and be unblocked before
the thread that adds it comes to the store, and `prs_sched_ready` then finds no scheduler (`ready_early`).

* `ready_finds`: this is the only way, and it is always wrong.
-/

namespace Prs.AddTask

open Function

variable {ι : Type} {s s' : St ι} {i : ι}

structure Inv (s : St ι) : Prop where
  id : s.id ≠ 0
  stored : s.adder = .done → s.schedId = s.id
  unset : s.adder ≠ .done → s.schedId = 0
  held : ∀ i, s.source i = .ready ∨ s.source i = .unlock → s.adder = .done
  found : s.early = false → ∀ x ∈ s.found, x = s.id
  early : s.early = true → 0 ∈ s.found

theorem inv_init {n : ℕ} (hn : n ≠ 0) : Inv (St.init n : St ι) where
  id := hn
  stored := fun h => by cases h
  unset := fun _ => rfl
  held := fun i h => by rcases h with h | h <;> cases h
  found := fun _ x hx => by cases hx
  early := fun h => by cases h

variable [DecidableEq ι]

/-- A source comes to a place where it does not hold the scheduler. -/
theorem Inv.move (h : Inv s) {x : Source} (hx : x = .ready ∨ x = .unlock → s.adder = .done) (j : ι)
    (hj : update s.source i x j = .ready ∨ update s.source i x j = .unlock) : s.adder = .done := by
  by_cases hji : j = i
  · subst hji
    rw [update_self] at hj
    exact hx hj
  · rw [update_of_ne hji] at hj
    exact h.held j hj

omit [DecidableEq ι] in
theorem Inv.adder (h : Inv s) (hs : s.adderStep = some s') : Inv s' := by
  unfold St.adderStep at hs
  split at hs
  case h_1 ha =>
    rw [← Option.some.inj hs]
    have hne : s.adder ≠ .done := by simp [ha]
    exact ⟨h.id, fun hd => (by cases hd), fun _ => h.unset hne, fun i hi => absurd (h.held i hi) hne, h.found,
      h.early⟩
  case h_2 ha =>
    rw [← Option.some.inj hs]
    have hne : s.adder ≠ .done := by simp [ha]
    exact ⟨h.id, fun hd => (by cases hd), fun _ => h.unset hne, fun i hi => absurd (h.held i hi) hne, h.found,
      h.early⟩
  case h_3 ha =>
    rw [← Option.some.inj hs]
    exact ⟨h.id, fun _ => rfl, fun hd => absurd rfl hd, fun _ _ => rfl, h.found, h.early⟩
  case h_4 => cases hs

/-- The read of `sched_id` for the lock. -/
theorem Inv.lock (h : Inv s) : Inv { s with
    found := s.schedId :: s.found
    early := s.early || decide (s.adder ≠ .done)
    source := update s.source i (if s.schedId = s.id then .ready else .none) } := by
  refine ⟨h.id, h.stored, h.unset, ?_, fun he x hx => ?_, fun he => ?_⟩
  · refine h.move fun hx => ?_
    by_contra hd
    rw [h.unset hd, if_neg h.id.symm] at hx
    rcases hx with hx | hx <;> cases hx
  · obtain ⟨he, hd⟩ := Bool.or_eq_false_iff.1 he
    rcases List.mem_cons.1 hx with rfl | hx
    · exact h.stored (not_not.1 (of_decide_eq_false hd))
    · exact h.found he x hx
  · rcases Bool.or_eq_true_iff.1 he with he | hd
    · exact List.mem_cons_of_mem _ (h.early he)
    · show 0 ∈ s.schedId :: s.found
      rw [h.unset (of_decide_eq_true hd)]
      exact List.mem_cons_self

theorem Inv.source (h : Inv s) (hs : s.sourceStep i = some s') : Inv s' := by
  unfold St.sourceStep at hs
  split at hs
  case h_1 => cases hs
  case h_2 token hi =>
    split at hs
    · rw [← Option.some.inj hs]
      exact ⟨h.id, h.stored, h.unset, h.move (by simp), h.found, h.early⟩
    · rw [← Option.some.inj hs]
      exact ⟨h.id, h.stored, h.unset, h.move (by simp), h.found, h.early⟩
  case h_3 hi =>
    rw [← Option.some.inj hs]
    exact h.lock
  case h_4 hi =>
    rw [← Option.some.inj hs]
    exact ⟨h.id, h.stored, h.unset, h.move fun _ => h.held i (.inl hi), h.found, h.early⟩
  case h_5 hi =>
    -- the scheduler is held, so the ID was stored
    have hid := h.stored (h.held i (.inr hi))
    rw [← Option.some.inj hs]
    refine ⟨h.id, h.stored, h.unset, h.move (by simp), fun he x hx => ?_,
      fun he => List.mem_cons_of_mem _ (h.early he)⟩
    rcases List.mem_cons.1 hx with rfl | hx
    · exact hid
    · exact h.found he x hx

theorem Inv.step (h : Inv s) {a : Act ι} (hs : s.step a = some s') : Inv s' := by
  cases a with
  | adder => exact h.adder hs
  | run =>
    obtain ⟨-, rfl⟩ := Option.ite_none_right_eq_some.1 hs |>.imp_right Option.some.inj
    exact ⟨h.id, h.stored, h.unset, h.held, h.found, h.early⟩
  | block =>
    obtain ⟨-, rfl⟩ := Option.ite_none_right_eq_some.1 hs |>.imp_right Option.some.inj
    exact ⟨h.id, h.stored, h.unset, h.held, h.found, h.early⟩
  | signal i token =>
    obtain ⟨-, rfl⟩ := Option.ite_none_right_eq_some.1 hs |>.imp_right Option.some.inj
    exact ⟨h.id, h.stored, h.unset, h.move (by simp), h.found, h.early⟩
  | source i => exact h.source hs

/-- **A scheduled task knows its scheduler** in a run, if and only if no `prs_sched_ready` for it came before
`prs_sched_add_task` has stored its `sched_id`. -/
theorem ready_finds (h : (sys ι).Reachable s) : (∀ x ∈ s.found, x = s.id) ↔ s.early = false := by
  have hI : Inv s := by
    refine h.inv ?_ ?_
    · rintro _ ⟨n, hn, rfl⟩
      exact inv_init hn
    · intro s a s' hI hs
      exact hI.step hs
  refine ⟨fun hall => ?_, hI.found⟩
  rw [← Bool.not_eq_true]
  intro he
  exact hI.id (hall 0 (hI.early he)).symm

/-- The task is added, runs, blocks and is unblocked. -/
theorem ready_finds_late : ∃ s : St (Fin 1), (sys (Fin 1)).Reachable s ∧ s.found = [5, 5] ∧ s.early = false ∧
    ∀ x ∈ s.found, x = s.id := by
  obtain ⟨s, hs, hf, he⟩ := System.exists_of_check (sys (Fin 1)) (fun _ _ => True)
    (fun s => s.found = [5, 5] ∧ s.early = false)
    (.init 5) ⟨5, by decide, rfl⟩
    [.adder, .adder, .adder, .run, .block, .signal 0 3, .source 0, .source 0, .source 0, .source 0]
      (by decide +kernel)
  exact ⟨s, hs, hf, he, (ready_finds hs).2 he⟩

/-- **A scheduled task does not know its scheduler.** The task runs, blocks and is unblocked before its
`sched_id` is stored. -/
theorem ready_early : ∃ s : St (Fin 1), (sys (Fin 1)).Reachable s ∧ s.id = 5 ∧ s.found = [0] ∧
    s.adder = .store := by
  exact System.exists_of_check (sys (Fin 1)) (fun _ _ => True)
    (fun s => s.id = 5 ∧ s.found = [0] ∧ s.adder = .store)
    (.init 5) ⟨5, by decide, rfl⟩ [.adder, .adder, .run, .block, .signal 0 3, .source 0, .source 0]
      (by decide +kernel)

end Prs.AddTask
