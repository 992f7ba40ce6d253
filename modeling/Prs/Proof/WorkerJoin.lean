import Prs.Model.WorkerStop

/-!
# Stopping waits for the worker, or not

`prs_worker_stop` joins the thread of the worker only when `prs_worker_interrupt` has returned `PRS_OK`. It
does not when the worker was not interruptible, or had an interrupt pending: `prs_worker_stop` then returns
with the worker still executing (`stop_returns_early`).

* `stop_joins`: when the worker is found idle, or interruptible with nothing pending, and its thread can be
  joined, it has left `prs_worker_entry` when `prs_worker_stop` returns; and all workers have when
  `prs_sched_stop` returns.
-/

namespace Prs.WorkerStop

open Function
open Prs.Worker (Result Post)

variable {κ ι : Type} [DecidableEq κ] [DecidableEq ι] {s s' : St κ ι} {k : κ}

/-- A request to interrupt worker `k` is not refused, or there is nothing to wait for. -/
def St.caught (s : St κ ι) (k : κ) : Bool :=
  (s.worker k).flags.idle || ((s.worker k).flags.interruptible && !(s.worker k).flags.pending) || s.exited k

/-- When the thread in `prs_worker_stop` comes to the flags of the worker, it finds the worker idle or
interruptible with nothing pending; when it joins, the thread of the worker is one that can be joined. Or the
worker has left `prs_worker_entry`. -/
def St.meets (s : St κ ι) : Act κ ι → Bool
  | .stopper =>
    match s.stopper with
    | .post k _ =>
      match (s.worker k).post none with
      | .orPending _ => s.caught k
      | .andIdle _ => s.caught k
      | _ => true
    | .join k _ => !s.fromCurrent k || s.exited k
    | _ => true
  | _ => true

/-! ## A worker that has left `prs_worker_entry` -/

theorem poster_pc (w : Worker.St ι) (i : ι) : (w.poster i).pc = w.pc := by
  unfold Worker.St.poster
  split <;> rfl

/-- A worker that has left stays so. -/
theorem exited_step {w w' : Worker.St ι} {a : Worker.Act ι} (h : w.pc = .exited) (hs : w.step a = some w') :
    w'.pc = .exited := by
  cases a with
  | post i int =>
    obtain ⟨-, rfl⟩ := Option.ite_none_right_eq_some.1 hs |>.imp_right Option.some.inj
    exact h
  | stop i =>
    obtain ⟨-, rfl⟩ := Option.ite_none_right_eq_some.1 hs |>.imp_right Option.some.inj
    exact h
  | poster i =>
    obtain ⟨-, rfl⟩ := Option.ite_none_left_eq_some.1 hs |>.imp_right Option.some.inj
    rw [poster_pc]
    exact h
  | worker =>
    simp only [Worker.St.step, Worker.St.worker, h] at hs
    cases hs
  | getNext next =>
    simp only [Worker.St.step, h] at hs
    cases hs
  | interrupt =>
    obtain ⟨-, hs⟩ := Option.ite_none_right_eq_some.1 hs
    rw [if_neg (by simp [h])] at hs
    rw [← Option.some.inj hs]
    exact h
  | _ =>
    obtain ⟨hg, -⟩ := Option.ite_none_right_eq_some.1 hs
    simp [h] at hg

omit [DecidableEq κ] [DecidableEq ι] in
/-- The worker is refused an interrupt only when it was not caught. -/
theorem exited_of_refused {rest : List κ} (hk : s.stopper = .post k rest) (hm : s.meets .stopper = true)
    {r : Result} (hr : ((s.worker k).post none).result (s.worker k).flags = some r) (hne : r ≠ .ok) :
    s.exited k = true := by
  have hnot : ∀ int, s.caught k = true → (if (s.worker k).flags.idle then none
      else Post.notIdleResult int (s.worker k).flags) = some r → s.exited k = true := by
    intro int hc hr
    simp only [St.caught, Bool.or_eq_true, Bool.and_eq_true, Bool.not_eq_true'] at hc
    obtain ⟨hidle, hr⟩ := Option.ite_none_left_eq_some.1 hr
    rcases hc with (hc | ⟨hint, hpend⟩) | hc
    · exact absurd hc hidle
    · unfold Post.notIdleResult at hr
      simp only [hint, hpend] at hr
      cases int with
      | true => cases hr
      | false => exact absurd (Option.some.inj hr).symm hne
    · exact hc
  simp only [St.meets, hk] at hm
  cases hp : (s.worker k).post none with
  | done =>
    rw [hp] at hr
    cases hr
  | orStop =>
    rw [hp] at hr
    cases hr
  | orPending int =>
    rw [hp] at hr hm
    exact hnot int hm hr
  | andIdle int =>
    rw [hp] at hr hm
    exact hnot int hm hr
  | resume =>
    rw [hp] at hr
    exact absurd (Option.some.inj hr).symm hne
  | interrupt =>
    rw [hp] at hr
    exact absurd (Option.some.inj hr).symm hne

/-! ## The invariant -/

/-- The workers that are still to be stopped. -/
def St.left (s : St κ ι) : List κ :=
  match s.stopper with
  | .none => s.workers
  | .post k rest => k :: rest
  | .join k rest => k :: rest
  | .returned => []

structure Inv (s : St κ ι) : Prop where
  exited : ∀ k ∈ s.stopped, s.exited k = true
  all : ∀ k ∈ s.workers, k ∈ s.stopped ∨ k ∈ s.left

omit [DecidableEq κ] [DecidableEq ι] in
/-- Only the workers change, and those that have left stay so. -/
theorem Inv.workers (h : Inv s) {worker : κ → Worker.St (Option ι)}
    (hw : ∀ k, (s.worker k).pc = .exited → (worker k).pc = .exited) : Inv { s with worker := worker } := by
  refine ⟨fun k hk => ?_, h.all⟩
  have := h.exited k hk
  unfold St.exited at this ⊢
  exact decide_eq_true (hw k (of_decide_eq_true this))

omit [DecidableEq ι] in
theorem update_pc {w : Worker.St (Option ι)} (hw : (s.worker k).pc = .exited → w.pc = .exited) (k' : κ)
    (h : (s.worker k').pc = .exited) : (update s.worker k w k').pc = .exited := by
  by_cases hk : k' = k
  · subst hk
    rw [update_self]
    exact hw h
  · rw [update_of_ne hk]
    exact h

/-- The loop goes on with the workers that are left. -/
theorem Inv.next (h : Inv s) {rest : List κ} (hr : ∀ k ∈ s.workers, k ∈ s.stopped ∨ k ∈ rest) :
    Inv (s.next rest) := by
  cases rest with
  | nil => exact ⟨h.exited, fun k hk => hr k hk⟩
  | cons k rest =>
    have hw : Inv { s with
        worker := update s.worker k { s.worker k with post := update (s.worker k).post none .orStop } } := by
      refine h.workers (update_pc ?_)
      exact fun hpc => hpc
    exact ⟨hw.exited, fun k' hk' => hr k' hk'⟩

/-- `prs_worker_stop` returns for a worker that has left. -/
theorem Inv.return (h : Inv s) {rest : List κ} (hleft : s.left = k :: rest) (hk : s.exited k = true) :
    Inv (s.return k rest) := by
  have hs : Inv { s with stopped := k :: s.stopped } := by
    refine ⟨fun k' hk' => ?_, fun k' hk' => ?_⟩
    · rcases List.mem_cons.1 hk' with rfl | hk'
      · exact hk
      · exact h.exited k' hk'
    · exact (h.all k' hk').imp_left (List.mem_cons_of_mem k)
  refine hs.next fun k' hk' => ?_
  rcases h.all k' hk' with hm | hm
  · exact .inl (List.mem_cons_of_mem k hm)
  · rw [hleft] at hm
    rcases List.mem_cons.1 hm with rfl | hm
    · exact .inl List.mem_cons_self
    · exact .inr hm

theorem Inv.stopper (h : Inv s) (hm : s.meets .stopper = true) (hs : s.stopStep = some s') : Inv s' := by
  cases hst : s.stopper with
  | none =>
    simp only [St.stopStep, hst] at hs
    cases hs
  | returned =>
    simp only [St.stopStep, hst] at hs
    cases hs
  | join k rest =>
    simp only [St.stopStep, hst] at hs
    obtain ⟨hk, rfl⟩ := Option.ite_none_right_eq_some.1 hs |>.imp_right Option.some.inj
    refine h.return (by simp only [St.left, hst]) ?_
    simp only [St.meets, hst, Bool.or_eq_true, Bool.not_eq_true'] at hm
    rcases hk with hf | he
    · rcases hm with hm | hm
      · rw [hf] at hm
        cases hm
      · exact hm
    · exact he
  | post k rest =>
    have hw : Inv { s with worker := update s.worker k ((s.worker k).poster none) } := by
      refine h.workers (update_pc fun hpc => ?_)
      rw [poster_pc]
      exact hpc
    -- the worker has left after the step when it had before
    have hkeep : s.exited k = true →
        ({ s with worker := update s.worker k ((s.worker k).poster none) } : St κ ι).exited k = true := by
      intro he
      unfold St.exited at he ⊢
      simp only [update_self, poster_pc]
      exact he
    have hleft : ({ s with worker := update s.worker k ((s.worker k).poster none) } : St κ ι).left =
      k :: rest := by
      simp only [St.left, hst]
    simp only [St.stopStep, hst] at hs
    split at hs
    · rw [← Option.some.inj hs, ← hst]
      exact hw
    · split at hs
      · rename_i hx
        rw [← Option.some.inj hs]
        exact hw.return hleft (hkeep (decide_eq_true hx.2))
      · rw [← Option.some.inj hs]
        refine ⟨hw.exited, fun k' hk' => ?_⟩
        have := hw.all k' hk'
        rw [hleft] at this
        exact this
    · rename_i r hr
      rw [← Option.some.inj hs]
      refine hw.return hleft (hkeep (exited_of_refused hst hm hr ?_))
      assumption

theorem Inv.step (h : Inv s) {a : Act κ ι} (hm : s.meets a = true) (hs : s.step a = some s') : Inv s' := by
  cases a with
  | worker k a =>
    obtain ⟨w, hw, rfl⟩ := Option.map_eq_some_iff.1 hs
    exact h.workers (update_pc fun hpc => exited_step hpc hw)
  | stop =>
    obtain ⟨hst, rfl⟩ := Option.ite_none_right_eq_some.1 hs |>.imp_right Option.some.inj
    exact h.next fun k hk => .inr hk
  | stopper => exact h.stopper hm hs

/-- **Stopping waits for the workers** in every run in which the thread in `prs_worker_stop` finds the worker
idle, or interruptible with nothing pending, and can join its thread, or the worker has left: a worker for
which `prs_worker_stop` has returned has left `prs_worker_entry`, and so have all workers of the scheduler
when `prs_sched_stop` has returned. -/
theorem stop_joins (h : (sys κ ι).Reach (fun s a => s.meets a = true) s) :
    (∀ k ∈ s.stopped, (s.worker k).pc = .exited) ∧
      (s.stopper = .returned → ∀ k ∈ s.workers, (s.worker k).pc = .exited) := by
  have hI : Inv s := by
    refine h.inv ?_ ?_
    · rintro _ ⟨fromCurrent, workers, rfl⟩
      exact ⟨fun k hk => (by cases hk), fun k hk => .inr hk⟩
    · intro s a s' hI hm hs
      exact hI.step hm hs
  refine ⟨fun k hk => of_decide_eq_true (hI.exited k hk), fun hst k hk => ?_⟩
  rcases hI.all k hk with hm | hm
  · exact of_decide_eq_true (hI.exited k hm)
  · simp only [St.left, hst] at hm
    cases hm

/-- Two workers are stopped, of which one is idle and one is running a task. -/
theorem stop_joins_two : ∃ s : St (Fin 2) (Fin 1), (sys (Fin 2) (Fin 1)).Reach (fun s a => s.meets a = true) s ∧
    s.stopper = .returned ∧ s.workers = [0, 1] ∧ (s.worker 0).pc = .exited ∧ (s.worker 1).pc = .exited := by
  obtain ⟨s, hs, hst, hw⟩ := System.exists_of_check (sys (Fin 2) (Fin 1)) (fun s a => s.meets a = true)
    (fun s => s.stopper = .returned ∧ s.workers = [0, 1]) (.init (fun _ => false) [0, 1]) ⟨_, _, rfl⟩
    ([.worker 0 .worker, .worker 0 .worker, .worker 0 (.getNext .idle), .worker 0 .worker,
      .worker 1 .worker, .worker 1 .worker, .worker 1 (.getNext .fresh), .worker 1 .worker, .worker 1 .worker,
      .stop, .stopper, .stopper, .stopper, .stopper, .worker 0 .worker, .worker 0 .worker, .worker 0 .worker,
      .worker 0 .worker, .stopper, .stopper, .stopper, .stopper, .worker 1 .interrupt, .worker 1 .worker,
      .worker 1 .worker, .worker 1 .worker, .worker 1 .worker, .stopper]) (by decide +kernel)
  have hjoin := (stop_joins hs).2 hst
  rw [hw] at hjoin
  exact ⟨s, hs, hst, hw, hjoin 0 (by simp), hjoin 1 (by simp)⟩

/-- **`prs_worker_stop` returns early.** The worker runs a task with interrupts disabled when it is stopped:
the request is refused, and `prs_sched_stop` returns with the worker in the code of the task. -/
theorem stop_returns_early : ∃ s : St (Fin 1) (Fin 1), (sys (Fin 1) (Fin 1)).Reachable s ∧ s.stopper = .returned ∧
    s.workers = [0] ∧ s.stopped = [0] ∧ (s.worker 0).pc = .run := by
  obtain ⟨s, hs, hst⟩ := System.exists_of_check (sys (Fin 1) (Fin 1)) (fun _ _ => True)
    (fun s => s.stopper = .returned ∧ s.workers = [0] ∧ s.stopped = [0] ∧ (s.worker 0).pc = .run)
    (.init (fun _ => false) [0]) ⟨_, _, rfl⟩
    [.worker 0 .worker, .worker 0 .worker, .worker 0 (.getNext .fresh), .worker 0 .worker, .worker 0 .worker,
      .worker 0 .disable, .stop, .stopper, .stopper] (by decide +kernel)
  exact ⟨s, hs, hst⟩

end Prs.WorkerStop
