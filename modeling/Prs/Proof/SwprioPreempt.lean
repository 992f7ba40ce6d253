import Prs.Proof.SwprioCover

/-!
# No preemption is lost

The worker of this system is the one of `Prs.Model.Worker`, and it is only interrupted, so what holds of that
one holds here (`step_worker`). With no call going on and nothing on its way to the worker, what covers a task
can only be the worker itself.

* `no_lost_preemption`: once the calls have finished and no interrupt or resume is on its way, the worker is
  not asleep with a task queued, and does not run a task in interruptible mode with a more urgent one queued.
-/

namespace Prs.SwprioWorker

open Function Swprio Worker

variable {ι τ : Type} {s s' : St ι τ} {a : Act ι τ} {t : τ}

/-! ## The worker and the callers -/

/-- The search leaves the callers alone, and the worker unless it has found nothing. -/
theorem scan_frame [DecidableEq ι] [DecidableEq τ] (hs : s.stepScan = some s') :
    s'.ready = s.ready ∧ (s'.worker = s.worker ∨ s.worker.step (.getNext .idle) = some s'.worker) := by
  have hidle : s.idle = some s' →
      s'.ready = s.ready ∧ (s'.worker = s.worker ∨ s.worker.step (.getNext .idle) = some s'.worker) := by
    intro hs
    obtain ⟨w, hw, rfl⟩ := Option.map_eq_some_iff.1 hs
    exact ⟨rfl, .inr hw⟩
  unfold St.stepScan at hs
  split at hs
  case h_3 =>
    split at hs
    case h_1 => rw [← Option.some.inj hs]; exact ⟨rfl, .inl rfl⟩
    case h_2 => split at hs <;> rw [← Option.some.inj hs] <;> exact ⟨rfl, .inl rfl⟩
  case h_5 => split at hs <;> rw [← Option.some.inj hs] <;> exact ⟨rfl, .inl rfl⟩
  case h_7 =>
    split at hs
    case h_1 =>
      split at hs
      case isTrue => rw [← Option.some.inj hs]; exact ⟨rfl, .inl rfl⟩
      case isFalse => exact hidle hs
    case h_2 => exact hidle hs
  case h_8 =>
    split at hs
    case h_1 =>
      split at hs
      case isTrue => split at hs <;> rw [← Option.some.inj hs] <;> exact ⟨rfl, .inl rfl⟩
      case isFalse => rw [← Option.some.inj hs]; exact ⟨rfl, .inl rfl⟩
    case h_2 => rw [← Option.some.inj hs]; exact ⟨rfl, .inl rfl⟩
  case h_9 stage _ =>
    rw [← Option.some.inj hs]
    cases stage <;> exact ⟨rfl, .inl rfl⟩
  case h_13 => cases hs
  -- the other places have one way on
  all_goals
    rw [← Option.some.inj hs]
    exact ⟨rfl, .inl rfl⟩

/-- What a step does to the worker: nothing, or a step of `Prs.Model.Worker` in which nobody calls
`prs_worker_signal`. -/
theorem step_worker [DecidableEq ι] [DecidableEq τ] (hs : s.step a = some s') :
    s'.worker = s.worker ∨ ∃ a' : Worker.Act ι, a'.loud = true ∧ s.worker.step a' = some s'.worker := by
  have hlift : ∀ a' : Worker.Act ι, a'.loud = true → s.lift a' = some s' →
      s'.worker = s.worker ∨ ∃ a' : Worker.Act ι, a'.loud = true ∧ s.worker.step a' = some s'.worker := by
    intro a' ha hl
    obtain ⟨w, hw, rfl⟩ := Option.map_eq_some_iff.1 hl
    exact .inr ⟨a', ha, hw⟩
  cases a with
  | ready i t =>
    obtain ⟨-, rfl⟩ := Option.ite_none_right_eq_some.1 hs |>.imp_right Option.some.inj
    exact .inl rfl
  | caller i =>
    simp only [St.step, St.stepCaller] at hs
    split at hs
    case h_1 => cases hs
    case h_2 => rw [← Option.some.inj hs]; exact .inl rfl
    case h_3 => rw [← Option.some.inj hs]; exact .inl rfl
    case h_4 =>
      split at hs
      case isTrue =>
        obtain ⟨s₁, hl, rfl⟩ := Option.map_eq_some_iff.1 hs
        obtain ⟨w, hw, rfl⟩ := Option.map_eq_some_iff.1 hl
        exact .inr ⟨.post i true, rfl, hw⟩
      case isFalse => rw [← Option.some.inj hs]; exact .inl rfl
    case h_5 =>
      obtain ⟨s₁, hl, rfl⟩ := Option.map_eq_some_iff.1 hs
      obtain ⟨w, hw, rfl⟩ := Option.map_eq_some_iff.1 hl
      exact .inr ⟨.poster i, rfl, hw⟩
  | getNext =>
    simp only [St.step] at hs
    split at hs
    case h_1 => exact (scan_frame hs).2.imp_right fun hw => ⟨.getNext .idle, rfl, hw⟩
    case h_2 => cases hs
  | switch context =>
    simp only [St.step, St.stepSwitch] at hs
    split at hs
    case h_1 =>
      obtain ⟨w, hw, rfl⟩ := Option.map_eq_some_iff.1 hs
      exact .inr ⟨_, rfl, hw⟩
    case h_2 => cases hs
  | block =>
    simp only [St.step] at hs
    split at hs
    case h_1 =>
      obtain ⟨-, rfl⟩ := Option.ite_none_right_eq_some.1 hs |>.imp_right Option.some.inj
      exact .inl rfl
    case h_2 => cases hs
  | unblockSelf =>
    simp only [St.step] at hs
    split at hs
    case h_1 =>
      obtain ⟨-, rfl⟩ := Option.ite_none_right_eq_some.1 hs |>.imp_right Option.some.inj
      exact .inl rfl
    case h_2 => cases hs
  | worker => exact hlift _ rfl hs
  | disable => exact hlift _ rfl hs
  | enable => exact hlift _ rfl hs
  | schedule => exact hlift _ rfl hs
  | interrupt => exact hlift _ rfl hs

/-- A thread is in `prs_worker_post` only for a call that has come to that. -/
def Called (s : St ι τ) : Prop := ∀ i, s.worker.post i ≠ .done → ∃ t, s.ready i = .post t

/-- One caller moves. -/
theorem Called.caller (h : Called s) {i : ι} (hr : ∀ j, j ≠ i → s'.ready j = s.ready j)
    (hp : ∀ j, j ≠ i → s'.worker.post j = s.worker.post j)
    (hi : s'.worker.post i ≠ .done → ∃ t, s'.ready i = .post t) : Called s' := by
  intro j hj
  by_cases hji : j = i
  · subst hji
    exact hi hj
  · rw [hp j hji] at hj
    rw [hr j hji]
    exact h j hj

/-- A caller that is not in `prs_worker_post` moves, and does not come to it. -/
theorem Called.before [DecidableEq ι] (h : Called s) {i : ι} (hi : ∀ t, s.ready i ≠ .post t) {r : Ready τ}
    {sched : Sched τ} {state : τ → TaskState} : Called { s with sched, state, ready := update s.ready i r } := by
  refine h.caller (fun j hj => update_of_ne hj _ _) (fun _ _ => rfl) fun hp => ?_
  obtain ⟨t, ht⟩ := h i hp
  exact absurd ht (hi t)

theorem Called.frame (h : Called s) (hr : s'.ready = s.ready) (hp : s'.worker.post = s.worker.post) :
    Called s' := by
  intro i hi
  rw [hp] at hi
  rw [hr]
  exact h i hi

theorem Called.stepCaller [DecidableEq ι] (h : Called s) {i : ι} (hs : s.stepCaller i = some s') : Called s' := by
  unfold St.stepCaller at hs
  split at hs
  case h_1 => cases hs
  case h_2 t hi =>
    rw [← Option.some.inj hs]
    exact h.before (by simp [hi])
  case h_3 t hi =>
    rw [← Option.some.inj hs]
    exact h.before (by simp [hi])
  case h_4 t hi =>
    split at hs
    case isTrue =>
      obtain ⟨s₁, hl, rfl⟩ := Option.map_eq_some_iff.1 hs
      obtain ⟨w, hw, rfl⟩ := Option.map_eq_some_iff.1 hl
      obtain ⟨-, rfl⟩ := Option.ite_none_right_eq_some.1 hw |>.imp_right Option.some.inj
      exact h.caller (fun j hj => update_of_ne hj _ _) (fun j hj => update_of_ne hj _ _) fun _ =>
        ⟨t, update_self _ _ _⟩
    case isFalse =>
      rw [← Option.some.inj hs]
      exact h.before (by simp [hi])
  case h_5 t hi =>
    obtain ⟨s₁, hl, rfl⟩ := Option.map_eq_some_iff.1 hs
    obtain ⟨w, hw, rfl⟩ := Option.map_eq_some_iff.1 hl
    obtain ⟨-, rfl⟩ := Option.ite_none_left_eq_some.1 hw |>.imp_right Option.some.inj
    refine h.caller (fun j hj => update_of_ne hj _ _) (fun j hj => ?_) fun hp => ⟨t, ?_⟩
    · rw [(poster_frame s.worker i).2.2]
      exact update_of_ne hj _ _
    · rw [if_neg hp]
      exact update_self _ _ _

/-- A step of the worker leaves the posters alone. -/
theorem Called.worker [DecidableEq ι] (h : Called s) {a : Worker.Act ι} {w : Worker.St ι}
    (hr : s'.ready = s.ready) (ha : a.own = true ∨ ∃ next, a = .getNext next) (hw : s.worker.step a = some w)
    (hsw : s'.worker = w) : Called s' := by
  refine h.frame hr ?_
  rw [hsw]
  rcases post_of_step hw with hp | ⟨i, b, rfl, -⟩ | ⟨i, rfl, -⟩ | ⟨i, rfl, -⟩
  · exact hp
  all_goals
    rcases ha with ha | ⟨next, ha⟩
    · cases ha
    · cases ha

theorem Called.step [DecidableEq ι] [DecidableEq τ] (h : Called s) (hs : s.step a = some s') : Called s' := by
  have hlift : ∀ a' : Worker.Act ι, a'.own = true → s.lift a' = some s' → Called s' := by
    intro a' ha hl
    obtain ⟨w, hw, rfl⟩ := Option.map_eq_some_iff.1 hl
    exact h.worker rfl (.inl ha) hw rfl
  cases a with
  | ready i t =>
    obtain ⟨hi, rfl⟩ := Option.ite_none_right_eq_some.1 hs |>.imp_right Option.some.inj
    exact h.before (by simp [hi.1])
  | caller i => exact h.stepCaller hs
  | getNext =>
    simp only [St.step] at hs
    split at hs
    case h_1 =>
      obtain ⟨hr, hw | hw⟩ := scan_frame hs
      · exact h.frame hr (by rw [hw])
      · exact h.worker hr (.inr ⟨_, rfl⟩) hw rfl
    case h_2 => cases hs
  | switch context =>
    obtain ⟨_, _, _, _, _, _, rfl⟩ := switch_cases hs
    exact h.frame rfl rfl
  | block =>
    simp only [St.step] at hs
    split at hs
    case h_1 =>
      obtain ⟨-, rfl⟩ := Option.ite_none_right_eq_some.1 hs |>.imp_right Option.some.inj
      exact h.frame rfl rfl
    case h_2 => cases hs
  | unblockSelf =>
    simp only [St.step] at hs
    split at hs
    case h_1 =>
      obtain ⟨-, rfl⟩ := Option.ite_none_right_eq_some.1 hs |>.imp_right Option.some.inj
      exact h.frame rfl rfl
    case h_2 => cases hs
  | worker => exact hlift _ rfl hs
  | disable => exact hlift _ rfl hs
  | enable => exact hlift _ rfl hs
  | schedule => exact hlift _ rfl hs
  | interrupt => exact hlift _ rfl hs

theorem sound_of_reachable [Fintype ι] [DecidableEq ι] [DecidableEq τ] (h : (sys ι τ).Reachable s) :
    Sane s.worker ∧ Sound s ∧ Called s := by
  refine h.inv (I := fun s => Sane s.worker ∧ Sound s ∧ Called s) ?_ ?_
  · rintro s ⟨prio, rfl⟩
    exact ⟨sane_init, sound_init prio, fun i hi => absurd rfl hi⟩
  · rintro s a s' ⟨hw, hI, hc⟩ hs
    refine ⟨?_, hI.step hw hs, hc.step hs⟩
    rcases step_worker hs with he | ⟨a', ha, hs'⟩
    · rw [he]
      exact hw
    · exact hw.step ha hs'

/-! ## The result -/

/-- No call of `prs_sched_swprio_ready` is going on, and no thread interrupt or resume is on its way. -/
structure Quiet (s : St ι τ) : Prop where
  ready : ∀ i, s.ready i = .idle
  signal : s.worker.signal = false
  resumes : s.worker.resumes = 0

theorem Quiet.post (h : Quiet s) (hc : Called s) (i : ι) : s.worker.post i = .done := by
  by_contra hi
  obtain ⟨t, ht⟩ := hc i hi
  rw [h.ready i] at ht
  cases ht

theorem Quiet.not_owed (h : Quiet s) (t : τ) : ¬s.Owed t := by
  rintro ⟨i, hi⟩
  unfold St.Owes at hi
  rw [h.ready i] at hi
  simp at hi

/-- The idle flag is the only thing left that can be there for a worker that sleeps. -/
theorem Quiet.idle [Fintype ι] (h : Quiet s) (hw : Sane s.worker) (hc : Called s)
    (hsp : s.worker.pc.suspended = true) :
    s.worker.flags.idle = true := by
  have hr := hw.handshake.right
  have hz : s.worker.resumers = 0 := by
    refine Finset.sum_eq_zero fun i _ => ?_
    rw [h.post hc i]
    rfl
  rw [hz, h.resumes, hsp, Bool.toNat_true] at hr
  exact Bool.toNat_eq_one.1 (by omega)

theorem Quiet.asleep [Fintype ι] (h : Quiet s) (hw : Sane s.worker) (hI : Sound s) (hc : Called s)
    (hsp : s.worker.pc.suspended = true) (t : τ) : ¬s.Queued t := by
  intro ht
  obtain ⟨c, hpc⟩ : ∃ c, s.worker.pc = .suspend c := by
    cases hpc : s.worker.pc with
    | suspend c => exact ⟨c, rfl⟩
    | entry | top | getNext | idle | prologue | run | handler | leaving | exited =>
      rw [hpc] at hsp
      cases hsp
  -- nothing of what covers a task is there
  rcases hI.covered t ht with ho | ⟨-, i, hi⟩ | ⟨-, hid⟩ | ⟨c, hcur, -⟩ | ha
  · exact h.not_owed t ho
  · rw [h.post hc i] at hi
    cases hi
  · have := hid hsp
    rw [h.idle hw hc hsp] at this
    cases this
  · have hn : s.current = none := hI.between (by unfold St.Between; rw [hpc]; trivial)
    rw [hn] at hcur
    cases hcur
  · unfold St.Ahead at ha
    rw [hpc] at ha
    cases ha

theorem Quiet.runs [Fintype ι] (h : Quiet s) (hw : Sane s.worker) (hI : Sound s) (hc : Called s)
    (hpc : s.worker.pc = .run) (hint : s.worker.flags.interruptible = true) (ht : s.Queued t) :
    s.Outranked t := by
  rcases hI.covered t ht with ho | ⟨hsp, -⟩ | ⟨hpe, -⟩ | ho | ha
  · exact absurd ho (h.not_owed t)
  · rw [hpc] at hsp
    cases hsp
  · -- a pending flag would have an interrupt with it
    obtain ⟨b, hb⟩ := hw.due
    rcases hb.due hint hpe rfl with ⟨j, hj⟩ | ⟨-, hsig | hpc'⟩
    · rw [show s.worker.post j = .done from h.post hc j] at hj
      cases hj
    · rw [show s.worker.signal = false from h.signal] at hsig
      cases hsig
    · rw [show s.worker.pc = .run from hpc] at hpc'
      cases hpc'
  · exact ho
  · unfold St.Ahead at ha
    rw [hpc] at ha
    cases ha

/-- **No preemption is lost.** Once every call of `prs_sched_swprio_ready` has finished, and no thread
interrupt or resume is on its way, the worker is not suspended with a task in a ready queue, and does not run
a task in interruptible mode with a more urgent one in a ready queue. -/
theorem no_lost_preemption [Fintype ι] [DecidableEq ι] [DecidableEq τ] (h : (sys ι τ).Reachable s)
    (hready : ∀ i, s.ready i = .idle) (hsignal : s.worker.signal = false) (hresumes : s.worker.resumes = 0) :
    ¬(s.worker.pc.suspended = true ∧ ∃ p, s.sched.readyq p ≠ []) ∧
    ¬(s.worker.pc = .run ∧ s.worker.flags.interruptible = true ∧
      ∃ q, s.current = some q ∧ ∃ p, ∃ t ∈ s.sched.readyq p, s.prio t < s.prio q) := by
  obtain ⟨hw, hI, hc⟩ := sound_of_reachable h
  have hq : Quiet s := ⟨hready, hsignal, hresumes⟩
  have hqueued : ∀ p, ∀ t ∈ s.sched.readyq p, s.Queued t := by
    intro p t ht
    unfold St.Queued
    rw [hI.placed p t ht]
    exact ht
  constructor
  · rintro ⟨hsp, p, hne⟩
    obtain ⟨t, ht⟩ := List.exists_mem_of_ne_nil _ hne
    exact hq.asleep hw hI hc hsp t (hqueued p t ht)
  · rintro ⟨hpc, hint, q, hcur, p, t, ht, hlt⟩
    obtain ⟨c, hc, hle⟩ := hq.runs hw hI hc hpc hint (hqueued p t ht)
    obtain rfl : q = c := Option.some.inj (hcur.symm.trans hc)
    exact absurd hlt (not_lt.2 hle)

/-- Task 1 preempts task 0, which is less urgent and waits in its queue from then on. -/
theorem no_lost_preemption_two : ∃ s : St (Fin 2) (Fin 2), (sys (Fin 2) (Fin 2)).Reachable s ∧
    ((∀ i, s.ready i = .idle) ∧ s.worker.signal = false ∧ s.worker.resumes = 0 ∧ s.worker.pc = .run ∧
      s.worker.flags.interruptible = true ∧ s.current = some 1 ∧ s.sched.readyq 2 = [0]) ∧
    ¬(s.worker.pc.suspended = true ∧ ∃ p, s.sched.readyq p ≠ []) ∧
    ¬(s.worker.pc = .run ∧ s.worker.flags.interruptible = true ∧
      ∃ q, s.current = some q ∧ ∃ p, ∃ t ∈ s.sched.readyq p, s.prio t < s.prio q) := by
  obtain ⟨s, hs, hP⟩ := System.exists_of_check (sys (Fin 2) (Fin 2)) (fun _ _ => True)
    (fun s => (∀ i, s.ready i = .idle) ∧ s.worker.signal = false ∧ s.worker.resumes = 0 ∧ s.worker.pc = .run ∧
      s.worker.flags.interruptible = true ∧ s.current = some 1 ∧ s.sched.readyq 2 = [0])
    (.init fun t => if t = 0 then 2 else 1) ⟨_, rfl⟩
    (List.flatten [.ready 0 0 :: .caller 0 :: .caller 0 :: .worker :: .worker :: List.replicate 7 .getNext,
      [.switch none, .caller 0, .worker, .worker], .ready 1 1 :: List.replicate 5 (.caller 1),
      [.interrupt, .worker, .worker], List.replicate 10 .getNext, [.switch none, .worker, .worker]])
    (by decide +kernel)
  exact ⟨s, hs, hP, no_lost_preemption hs hP.1 hP.2.1 hP.2.2.1⟩

end Prs.SwprioWorker
