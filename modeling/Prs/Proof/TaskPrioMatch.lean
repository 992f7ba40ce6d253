import Prs.Model.TaskPrio
import Prs.Proof.SwprioOrder

/-!
# The ready queues and the priorities of their tasks

`prs_task_set_prio` is meant for the current task, which is in no queue, but it stores the priority of any
other task before it reports the error (`queues_mismatch`).

* `queues_match`: this, and a priority out of range, is all that can go wrong. When every call is made by the
  task itself with a priority below `PRS_MAX_TASK_PRIO`, or changes nothing, the queues match the priorities
  in every run.
-/

namespace Prs.TaskPrio

open Function

variable {τ : Type} {s s' : St τ} {t : τ}

/-- A task calls `prs_task_set_prio` for itself with a priority in range, or the call sets the priority that
is set. -/
def St.Own (s : St τ) : Act τ → Prop
  | .setPrio own t prio => own = true ∧ prio < 32 ∨ prio = s.prio t
  | .sched _ => True

instance (s : St τ) (a : Act τ) : Decidable (s.Own a) := by
  unfold St.Own
  split <;> infer_instance

/-- The tasks of the ready queues have their priorities, those of all scheduled tasks are in range, and no
call that ended in its error branch has changed its task. -/
structure St.Matched (s : St τ) : Prop where
  queued : ∀ p : Swprio.Prio, ∀ t ∈ s.tasks.sched.readyq p, s.prio t = p
  range : ∀ t, s.tasks.userdata t = true → s.prio t < 32
  unharmed : s.harmed = false

structure Inv (s : St τ) : Prop where
  tasks : Swprio.Inv s.view
  current : Swprio.Current s.view
  range : ∀ t, s.tasks.userdata t = true → s.prio t < 32
  unharmed : s.harmed = false

theorem inv_init {prio : τ → ℕ} : Inv (St.init prio) where
  tasks := Swprio.inv_init
  current := Swprio.current_init
  range := fun t ht => by cases ht
  unharmed := rfl

theorem Inv.matched (h : Inv s) : s.Matched := by
  refine ⟨fun p t ht => ?_, h.range, h.unharmed⟩
  obtain ⟨hm, hp⟩ := h.tasks.mem_of_readyq (show t ∈ s.view.sched.readyq p from ht)
  have hlt := h.range t (h.tasks.added t hm)
  rw [← hp]
  exact (Nat.mod_eq_of_lt hlt).symm

variable [DecidableEq τ]

/-- A call of the scheduler. -/
theorem Inv.sched (h : Inv s) {a : Swprio.Act τ} (hs : s.step (.sched a) = some s') : Inv s' := by
  obtain ⟨hin, hs⟩ := Option.ite_none_right_eq_some.1 hs
  obtain ⟨r, hr, rfl⟩ := Option.map_eq_some_iff.1 hs
  have ha : ∀ p, a ≠ .setPrio p := by
    rintro p rfl
    exact hin
  obtain ⟨hI, hC⟩ := h.tasks.step h.current hr
  obtain ⟨hprio, hdata⟩ := Swprio.step_kept h.tasks h.current ha hr
  -- the call has left the priorities, so that the queues are seen as it left them
  have hview : ({ s with tasks := r } : St τ).view = r := by
    unfold St.view
    rw [← show r.prio = fun t => Fin.ofNat 32 (s.prio t) from hprio]
  refine ⟨?_, ?_, fun t ht => ?_, h.unharmed⟩
  · rw [hview]
    exact hI
  · rw [hview]
    exact hC
  · rcases hdata t ht with ht | rfl
    · exact h.range t ht
    · exact hin

theorem view_setPrio (s : St τ) (own : Bool) (t : τ) (prio : ℕ) :
    (s.setPrio own t prio).view = { s.view with prio := update s.view.prio t (Fin.ofNat 32 prio) } := by
  have heq : (fun u => Fin.ofNat 32 (update s.prio t prio u)) =
      update (fun u => Fin.ofNat 32 (s.prio u)) t (Fin.ofNat 32 prio) := by
    funext u
    by_cases hut : u = t
    · rw [hut, update_self, update_self]
    · rw [update_of_ne hut, update_of_ne hut]
  simp only [St.view, St.setPrio, heq]

/-- A task changes its own priority. It is in no queue. -/
theorem Inv.setPrio_own (h : Inv s) (hc : s.tasks.current = some t) (hl : s.tasks.leaving = false) {prio : ℕ}
    (hp : prio < 32) : Inv (s.setPrio true t prio) := by
  have hn := (h.current.stays t hc hl).1
  refine ⟨?_, ?_, fun u hu => ?_, ?_⟩
  · rw [view_setPrio]
    exact h.tasks.setPrio hn
  · rw [view_setPrio]
    exact ⟨h.current.running, h.current.added, h.current.stays⟩
  · show update s.prio t prio u < 32
    rw [update_apply]
    split
    · exact hp
    · exact h.range u hu
  · show (s.harmed || (!true && _)) = false
    rw [h.unharmed]
    rfl

/-- A call that sets the priority that is set changes nothing. -/
theorem setPrio_self (s : St τ) (own : Bool) (t : τ) : s.setPrio own t (s.prio t) = s := by
  unfold St.setPrio
  rw [update_eq_self, decide_eq_false (not_not.2 rfl), Bool.and_false, Bool.or_false]

theorem Inv.step (h : Inv s) {a : Act τ} (ha : s.Own a) (hs : s.step a = some s') : Inv s' := by
  cases a with
  | sched a => exact h.sched hs
  | setPrio own t prio =>
    obtain ⟨hcall, rfl⟩ := Option.ite_none_right_eq_some.1 hs |>.imp_right Option.some.inj
    rcases ha with ⟨rfl, hp⟩ | rfl
    · obtain ⟨hc, hl⟩ := hcall rfl
      exact h.setPrio_own hc hl hp
    · rw [setPrio_self]
      exact h

/-- **The ready queues match the priorities** in every run in which each call of `prs_task_set_prio` is made
by the task itself with a priority below `PRS_MAX_TASK_PRIO`, or sets the priority that the task has. -/
theorem queues_match (h : (sys τ).Reach St.Own s) : s.Matched := by
  apply Inv.matched
  refine h.inv ?_ ?_
  · rintro _ ⟨prio, rfl⟩
    exact inv_init
  · intro s a s' hI ha hs
    exact hI.step ha hs

/-- Task 0 runs, changes its priority from 3 to 7 and is preempted by task 1. -/
theorem queues_match_preempted : ∃ s, (sys (Fin 2)).Reach St.Own s ∧ s.tasks.sched.readyq 7 = [0] ∧
    s.tasks.current = some 1 ∧ s.Matched := by
  obtain ⟨s, hs, hq, hc⟩ := System.exists_of_check (sys (Fin 2)) St.Own
    (fun s => s.tasks.sched.readyq 7 = [0] ∧ s.tasks.current = some 1) (.init fun _ => 3) ⟨fun _ => 3, rfl⟩
    [.sched (.add 0), .sched .getNext, .setPrio true 0 7, .sched (.add 1), .sched .getNext] (by decide +kernel)
  exact ⟨s, hs, hq, hc, queues_match hs⟩

/-- **A task is in the queue of another priority.** Task 0 waits with priority 3 when another task sets its
priority to 7, and gets the error. Task 0 is removed, and when it is retired it is looked for in the queue of
7: it is still found in the other one, and is run. -/
theorem queues_mismatch :
    (∃ s, (sys (Fin 1)).Reachable s ∧ s.tasks.sched.readyq 3 = [0] ∧ s.prio 0 = 7 ∧ s.harmed = true) ∧
      ∃ s, (sys (Fin 1)).Reachable s ∧ s.tasks.current = some 0 ∧ s.tasks.userdata 0 = false := by
  refine ⟨?_, ?_⟩
  · exact System.exists_of_check (sys (Fin 1)) (fun _ _ => True)
      (fun s => s.tasks.sched.readyq 3 = [0] ∧ s.prio 0 = 7 ∧ s.harmed = true) (.init fun _ => 3)
        ⟨fun _ => 3, rfl⟩
      [.sched (.add 0), .setPrio false 0 7] (by decide +kernel)
  · exact System.exists_of_check (sys (Fin 1)) (fun _ _ => True)
      (fun s => s.tasks.current = some 0 ∧ s.tasks.userdata 0 = false) (.init fun _ => 3) ⟨fun _ => 3, rfl⟩
      [.sched (.add 0), .setPrio false 0 7, .sched (.remove 0), .sched .getNext] (by decide +kernel)

end Prs.TaskPrio
