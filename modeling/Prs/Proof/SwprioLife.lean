import Prs.Proof.SwprioMoves

/-!
# No wake-up of a retired task

`prs_task_unblock` changes the state of a task and then pushes it on its ready queue. Between the two the task
is in no queue: a `prs_sched_swprio_get_next` that retires it there does not see that it will be pushed
(`Apart` says that the push does not come after the look at the queue).

* `Ok`: what holds of the view of every task between steps.
* `retired_not_woken`: in every run in which no such push comes after that look, `prs_sched_swprio_ready` runs
  only for tasks that have their userdata, and no ready queue has a task that was retired.
* `retired_woken`: without that, a task is pushed after its userdata was freed.
-/

namespace Prs.SwprioSteps

open Function Swprio

/-- **A task between steps.** -/
structure Ok (v : View) : Prop where
  once : v.waking + v.queued ≤ 1
  alive : 0 < v.waking + v.queued → v.userdata = true ∧ v.freed = false
  blocked : v.state = .blocked → v.waking + v.queued = 0 ∧ v.userdata = true ∧ v.freed = false
  running : v.state = .running → v.waking + v.queued = 0 ∨ ∃ stage, v.role = .preempt stage ∧ stage ≠ .push
  absent : v.userdata = false → v.state = .stopped ∨ v.state = .zombie
  freed : v.freed = true → v.state = .zombie ∧ v.userdata = false ∧ v.removeq = 0
  remove : v.removing + v.removeq ≤ 1
  removing : 0 < v.removing →
    v.removed = true ∧ v.userdata = true ∧ v.freed = false ∧ ∀ stage, v.role ≠ .retire stage
  removeq : 0 < v.removeq → v.removed = true ∧ v.freed = false ∧ (v.userdata = true ∨ v.role = .retire .unlink)
  current : v.current = true → v.userdata = true ∧ v.freed = false ∧ ∀ stage, v.role ≠ .retire stage
  stays : v.stays = true → v.current = true ∧ v.waking + v.queued = 0 ∧ v.state ≠ .blocked ∧ v.role = .none
  retire : ∀ stage, v.role = .retire stage → (stage ≠ .inspect → v.waking = 0) ∧ v.freed = false ∧
    v.removeq = (if stage = .free then 0 else 1) ∧ (stage.dropped = true → v.queued = 0) ∧
    (stage.zombie = true → v.state = .zombie) ∧ v.userdata = !stage.forgotten
  found : v.role = .found → 0 < v.queued
  preempt : ∀ stage, v.role = .preempt stage → v.current = true ∧ v.state ≠ .blocked ∧
    (stage = .push → v.waking + v.queued = 0)
  chosen : v.role = .chosen → v.waking + v.queued = 0 ∧ v.userdata = true ∧ v.freed = false ∧ v.state ≠ .blocked

theorem ok_init : Ok .init := by
  constructor <;> simp [View.init]

variable {strict : Prop} {v v' : View} {stage : Stage}

theorem not_retire_of {r : Role} (hr : r = .none ∨ r = .found) (stage : Stage) : r ≠ .retire stage := by
  rintro rfl
  obtain hr | hr := hr <;> cases hr

theorem not_preempt_of {r : Role} (hr : r = .none ∨ r = .found) (stage : Preempt) : r ≠ .preempt stage := by
  rintro rfl
  obtain hr | hr := hr <;> cases hr

/-- Before a task is a zombie it is neither forgotten nor about to be freed. -/
theorem Stage.early (hz : stage.zombie = false) : stage.forgotten = false ∧ stage ≠ .free := by
  cases stage <;> first | exact ⟨rfl, by decide⟩ | cases hz

namespace Ok

section Facts

/-- A task that has its userdata is not freed. -/
theorem not_freed (h : Ok v) (hd : v.userdata = true) : v.freed ≠ true := by
  intro hf
  have hn := (h.freed hf).2.1
  rw [hd] at hn
  cases hn

/-- A task without userdata is in no ready queue, and is not about to be. -/
theorem idle_of_absent (h : Ok v) (hd : v.userdata ≠ true) : v.waking + v.queued = 0 := by
  by_contra hne
  exact hd (h.alive (Nat.pos_of_ne_zero hne)).1

/-- A task that is about to be in a ready queue, or is there, is not blocked. -/
theorem not_blocked (h : Ok v) (hq : 0 < v.waking + v.queued) : v.state ≠ .blocked := by
  intro hb
  have hz := (h.blocked hb).1
  omega

/-- A running task that is not preempted is in no ready queue. -/
theorem idle_of_running (h : Ok v) (hs : v.state = .running) (hr : ∀ stage, v.role ≠ .preempt stage) :
    v.waking + v.queued = 0 := by
  obtain hz | ⟨stage, hst, -⟩ := h.running hs
  · exact hz
  · exact absurd hst (hr stage)

/-- A running task has its userdata. -/
theorem userdata_of_running (h : Ok v) (hs : v.state = .running) : v.userdata = true := by
  by_contra hd
  obtain hst | hst := h.absent (eq_false_of_ne_true hd) <;> rw [hs] at hst <;> cases hst

/-- A task on `removeq` that is not being retired has its userdata. -/
theorem userdata_of_removeq (h : Ok v) (hq : 0 < v.removeq) (hr : ∀ stage, v.role ≠ .retire stage) :
    v.userdata = true := by
  obtain ⟨-, -, hd | hst⟩ := h.removeq hq
  · exact hd
  · exact absurd hst (hr .unlink)

/-- A task that is being retired is a zombie once its userdata is gone. -/
theorem zombie_of_absent (h : Ok v) (hd : v.userdata ≠ true) (hr : v.role = .retire stage) :
    v.state = .zombie := by
  obtain ⟨-, -, -, -, hz, hu⟩ := h.retire stage hr
  cases stage with
  | unlink => exact hz rfl
  | free => exact hz rfl
  | _ => exact absurd hu hd

/-- A task that is being retired is not the current one, and is not being removed. -/
theorem retiring (h : Ok v) (hr : v.role = .retire stage) :
    v.current ≠ true ∧ v.stays ≠ true ∧ v.removing = 0 := by
  have hc : v.current ≠ true := fun hc => (h.current hc).2.2 stage hr
  refine ⟨hc, fun hs => hc (h.stays hs).1, ?_⟩
  by_contra hne
  exact (h.removing (Nat.pos_of_ne_zero hne)).2.2.2 stage hr

end Facts

section Task

/-- The task is stopped and without userdata, so that it is in no place. -/
theorem add (h : Ok v) (hd : v.userdata = false) (hs : v.state = .stopped) :
    Ok { v with state := .ready, userdata := true, queued := v.queued + 1 } := by
  have hn := ne_true_of_eq_false hd
  have hz : v.state ≠ .zombie := by rw [hs]; decide
  have hidle := h.idle_of_absent hn
  have hf : v.freed ≠ true := fun hf => hz (h.freed hf).1
  exact { h with
    once := by dsimp only; omega
    alive := fun _ => ⟨rfl, eq_false_of_ne_true hf⟩
    blocked := nofun
    running := nofun
    absent := nofun
    freed := fun hf' => absurd hf' hf
    removing := fun hr => absurd (h.removing hr).2.1 hn
    removeq := fun hq => ⟨(h.removeq hq).1, (h.removeq hq).2.1, .inl rfl⟩
    current := fun hc => absurd (h.current hc).1 hn
    stays := fun hst => absurd (h.current (h.stays hst).1).1 hn
    retire := fun stage hr => absurd (h.zombie_of_absent hn hr) hz
    found := fun _ => Nat.succ_pos _
    preempt := fun stage hr => absurd (h.current (h.preempt stage hr).1).1 hn
    chosen := fun hr => absurd (h.chosen hr).2.1 hn }

/-- The task is in no ready queue when it blocks. -/
theorem block (h : Ok v) (hs : v.stays = true) : Ok { v with state := .blocked, stays := false } := by
  obtain ⟨hc, hidle, -, hr⟩ := h.stays hs
  obtain ⟨hd, hf, -⟩ := h.current hc
  exact { h with
    blocked := fun _ => ⟨hidle, hd, hf⟩
    running := nofun
    absent := fun hn => absurd hn (ne_false_of_eq_true hd)
    freed := fun hf' => absurd hf' (h.not_freed hd)
    stays := nofun
    retire := fun stage hst => nomatch hr.symm.trans hst
    preempt := fun stage hst => nomatch hr.symm.trans hst
    chosen := fun hst => nomatch hr.symm.trans hst }

/-- The task is in no ready queue before, and is not blocked after. -/
theorem yield (h : Ok v) (hs : v.stays = true) :
    Ok { v with state := .ready, queued := v.queued + 1, stays := false } := by
  obtain ⟨hc, hidle, -, hr⟩ := h.stays hs
  obtain ⟨hd, hf, -⟩ := h.current hc
  exact { h with
    once := by dsimp only; omega
    alive := fun _ => ⟨hd, hf⟩
    blocked := nofun
    running := nofun
    absent := fun hn => absurd hn (ne_false_of_eq_true hd)
    freed := fun hf' => absurd hf' (h.not_freed hd)
    stays := nofun
    retire := fun stage hst => nomatch hr.symm.trans hst
    found := fun _ => Nat.succ_pos _
    preempt := fun stage hst => nomatch hr.symm.trans hst
    chosen := fun hst => nomatch hr.symm.trans hst }

/-- The task unblocks itself before anybody has pushed it. -/
theorem unblockSelf (h : Ok v) (hb : v.state = .blocked) (hc : v.current = true) (hr : v.role = .none) :
    Ok { v with state := .running, stays := true } := by
  obtain ⟨hidle, hd, -⟩ := h.blocked hb
  exact { h with
    blocked := nofun
    running := fun _ => .inl hidle
    absent := fun hn => absurd hn (ne_false_of_eq_true hd)
    freed := fun hf' => absurd hf' (h.not_freed hd)
    stays := fun _ => ⟨hc, hidle, nofun, hr⟩
    retire := fun stage hst => nomatch hr.symm.trans hst
    preempt := fun stage hst => nomatch hr.symm.trans hst
    chosen := fun hst => nomatch hr.symm.trans hst }

theorem rest (h : Ok v) : Ok { v with stays := false } := { h with stays := nofun }

/-- The worker returns without the task, or with another one. -/
theorem leave (h : Ok v) (hr : v.role = .none ∨ v.role = .found) :
    Ok { v with current := false, stays := false, role := .none, choosing := false } :=
  { h with
    running := fun hs => .inl (h.idle_of_running hs (not_preempt_of hr))
    removing := fun hq => ⟨(h.removing hq).1, (h.removing hq).2.1, (h.removing hq).2.2.1, nofun⟩
    removeq := fun hq => ⟨(h.removeq hq).1, (h.removeq hq).2.1,
      .inl (h.userdata_of_removeq hq (not_retire_of hr))⟩
    current := nofun
    stays := nofun
    retire := nofun
    found := nofun
    preempt := nofun
    chosen := nofun }

/-- The worker returns with the task that was current. -/
theorem stay (h : Ok v) (hs : v.state = .running) (hr : v.role = .none ∨ v.role = .found) :
    Ok { v with current := true, stays := true, role := .none, choosing := false } := by
  have hidle := h.idle_of_running hs (not_preempt_of hr)
  have hd := h.userdata_of_running hs
  have hf := eq_false_of_ne_true (h.not_freed hd)
  have hb : v.state ≠ .blocked := by rw [hs]; decide
  exact { h with
    running := fun _ => .inl hidle
    removing := fun hq => ⟨(h.removing hq).1, hd, hf, nofun⟩
    removeq := fun hq => ⟨(h.removeq hq).1, hf, .inl hd⟩
    current := fun _ => ⟨hd, hf, nofun⟩
    stays := fun _ => ⟨rfl, hidle, hb, rfl⟩
    retire := nofun
    found := nofun
    preempt := nofun
    chosen := nofun }

end Task

section Retire

/-- The worker starts to retire the task, which is not the current one. -/
theorem retireInspect (h : Ok v) (hr : v.role = .none) (hq : 0 < v.removeq) (hc : v.current = false)
    (hs : v.stays = false) :
    Ok { v with role := .retire .inspect } := by
  have hd := h.userdata_of_removeq hq (not_retire_of (.inl hr))
  obtain ⟨hrem, hf, -⟩ := h.removeq hq
  have hle := h.remove
  exact { h with
    running := fun hst => .inl (h.idle_of_running hst (not_preempt_of (.inl hr)))
    removing := fun hp => by dsimp only at hp; omega
    removeq := fun _ => ⟨hrem, hf, .inl hd⟩
    current := fun hc' => absurd hc' (ne_true_of_eq_false hc)
    stays := fun hs' => absurd hs' (ne_true_of_eq_false hs)
    retire := fun stage hst => by
      obtain rfl := Role.retire.inj hst
      refine ⟨fun hn => absurd rfl hn, hf, ?_, nofun, nofun, hd⟩
      dsimp only
      rw [if_neg (by decide)]
      omega
    found := nofun
    preempt := nofun
    chosen := nofun }

/-- The retirement goes on, until the task is a zombie. No `prs_task_unblock` is between its two steps when the
look at the ready queue is over. -/
theorem retireNext (h : Ok v) {stage next : Stage} (hr : v.role = .retire stage) (hz : stage.zombie = false)
    (hz' : next.zombie = false) (hd : next.dropped = true → stage.dropped = true ∨ v.queued = 0)
    (hi : stage = .inspect → v.waking = 0) : Ok { v with role := .retire next } := by
  obtain ⟨hwait, hf, hq, hdrop, -, hu⟩ := h.retire stage hr
  obtain ⟨hc, hs, hrem⟩ := h.retiring hr
  have hw : v.waking = 0 := by
    by_cases hst : stage = .inspect
    · exact hi hst
    · exact hwait hst
  obtain ⟨hforgot, hfree⟩ := Stage.early hz
  obtain ⟨hforgot', hfree'⟩ := Stage.early hz'
  rw [if_neg hfree] at hq
  rw [hforgot] at hu
  exact { h with
    running := fun hst => .inl (h.idle_of_running hst fun _ hst' => nomatch hr.symm.trans hst')
    removing := fun hp => absurd hrem (Nat.ne_of_gt hp)
    removeq := fun hq' => ⟨(h.removeq hq').1, hf, .inl hu⟩
    current := fun hc' => absurd hc' hc
    stays := fun hs' => absurd hs' hs
    retire := fun stage' hst => by
      obtain rfl := Role.retire.inj hst
      refine ⟨fun _ => hw, hf, hq.trans (if_neg hfree').symm, fun hn => (hd hn).elim hdrop id, ?_, ?_⟩
      · rw [hz']
        exact nofun
      · rw [hforgot']
        exact hu
    found := nofun
    preempt := nofun
    chosen := nofun }

/-- The task was in its ready queue once, and is in none after. -/
theorem retireDequeue (h : Ok v) (hr : v.role = .retire .dequeue) :
    Ok { v with queued := v.queued - 1, role := .retire .check } := by
  obtain ⟨hwait, hf, hq, -, -, hu⟩ := h.retire .dequeue hr
  obtain ⟨hc, hs, hrem⟩ := h.retiring hr
  have hw := hwait nofun
  -- it was in its queue at most once
  have hle := h.once
  have hidle : v.waking + (v.queued - 1) = 0 := by omega
  exact { h with
    once := by dsimp only; omega
    alive := fun hp => absurd hidle (Nat.ne_of_gt hp)
    blocked := fun hb => ⟨hidle, (h.blocked hb).2⟩
    running := fun _ => .inl hidle
    removing := fun hp => absurd hrem (Nat.ne_of_gt hp)
    removeq := fun hq' => ⟨(h.removeq hq').1, hf, .inl hu⟩
    current := fun hc' => absurd hc' hc
    stays := fun hs' => absurd hs' hs
    retire := fun stage hst => by
      obtain rfl := Role.retire.inj hst
      exact ⟨fun _ => hw, hf, hq, fun _ => by dsimp only; omega, nofun, hu⟩
    found := nofun
    preempt := nofun
    chosen := nofun }

/-- The task becomes a zombie. -/
theorem retireStore (h : Ok v) (hr : v.role = .retire .store) :
    Ok { v with state := .zombie, role := .retire .forget } := by
  obtain ⟨hwait, hf, hq, hdrop, -, hu⟩ := h.retire .store hr
  obtain ⟨hc, hs, hrem⟩ := h.retiring hr
  exact { h with
    blocked := nofun
    running := nofun
    absent := fun _ => .inr rfl
    freed := fun hf' => absurd hf' (ne_true_of_eq_false hf)
    removing := fun hp => absurd hrem (Nat.ne_of_gt hp)
    removeq := fun hq' => ⟨(h.removeq hq').1, hf, .inl hu⟩
    current := fun hc' => absurd hc' hc
    stays := fun hs' => absurd hs' hs
    retire := fun stage hst => by
      obtain rfl := Role.retire.inj hst
      exact ⟨fun _ => hwait nofun, hf, hq, fun _ => hdrop rfl, fun _ => rfl, hu⟩
    found := nofun
    preempt := nofun
    chosen := nofun }

/-- The userdata is freed while the task is in no ready queue and is not about to be in one. -/
theorem retireForget (h : Ok v) (hr : v.role = .retire .forget) :
    Ok { v with userdata := false, role := .retire .unlink } := by
  obtain ⟨hwait, hf, hq, hdrop, hz, -⟩ := h.retire .forget hr
  obtain ⟨hc, hs, hrem⟩ := h.retiring hr
  have hw := hwait nofun
  have hidle : v.waking + v.queued = 0 := by
    rw [hw, hdrop rfl]
  have hb : v.state ≠ .blocked := by rw [hz rfl]; decide
  exact { h with
    alive := fun hp => absurd hidle (Nat.ne_of_gt hp)
    blocked := fun hb' => absurd hb' hb
    running := fun _ => .inl hidle
    absent := fun _ => .inr (hz rfl)
    freed := fun hf' => absurd hf' (ne_true_of_eq_false hf)
    removing := fun hp => absurd hrem (Nat.ne_of_gt hp)
    removeq := fun hq' => ⟨(h.removeq hq').1, hf, .inr rfl⟩
    current := fun hc' => absurd hc' hc
    stays := fun hs' => absurd hs' hs
    retire := fun stage hst => by
      obtain rfl := Role.retire.inj hst
      exact ⟨fun _ => hw, hf, hq, fun _ => hdrop rfl, fun _ => hz rfl, rfl⟩
    found := nofun
    preempt := nofun
    chosen := nofun }

/-- The task is taken out of `removeq`, where it is once. -/
theorem retireUnlink (h : Ok v) (hr : v.role = .retire .unlink) :
    Ok { v with removeq := v.removeq - 1, role := .retire .free } := by
  obtain ⟨hwait, hf, hq, hdrop, hz, hu⟩ := h.retire .unlink hr
  obtain ⟨hc, hs, hrem⟩ := h.retiring hr
  have hw := hwait nofun
  rw [if_neg (by decide)] at hq
  have hidle : v.waking + v.queued = 0 := by
    rw [hw, hdrop rfl]
  have hout : v.removeq - 1 = 0 := by omega
  exact { h with
    running := fun _ => .inl hidle
    freed := fun hf' => absurd hf' (ne_true_of_eq_false hf)
    remove := by dsimp only; omega
    removing := fun hp => absurd hrem (Nat.ne_of_gt hp)
    removeq := fun hq' => absurd hout (Nat.ne_of_gt hq')
    current := fun hc' => absurd hc' hc
    stays := fun hs' => absurd hs' hs
    retire := fun stage hst => by
      obtain rfl := Role.retire.inj hst
      exact ⟨fun _ => hw, hf, hout, fun _ => hdrop rfl, fun _ => hz rfl, hu⟩
    found := nofun
    preempt := nofun
    chosen := nofun }

/-- The task is freed as a zombie without userdata. -/
theorem retireFree (h : Ok v) (hr : v.role = .retire .free) : Ok { v with freed := true, role := .none } := by
  obtain ⟨hwait, -, hq, hdrop, hz, hu⟩ := h.retire .free hr
  obtain ⟨hc, hs, hrem⟩ := h.retiring hr
  have hw := hwait nofun
  rw [if_pos rfl] at hq
  have hidle : v.waking + v.queued = 0 := by
    rw [hw, hdrop rfl]
  have hb : v.state ≠ .blocked := by rw [hz rfl]; decide
  exact { h with
    alive := fun hp => absurd hidle (Nat.ne_of_gt hp)
    blocked := fun hb' => absurd hb' hb
    running := fun _ => .inl hidle
    freed := fun _ => ⟨hz rfl, hu, hq⟩
    removing := fun hp => absurd hrem (Nat.ne_of_gt hp)
    removeq := fun hq' => absurd hq (Nat.ne_of_gt hq')
    current := fun hc' => absurd hc' hc
    stays := fun hs' => absurd hs' hs
    retire := nofun
    found := nofun
    preempt := nofun
    chosen := nofun }

end Retire

section Choose

theorem find (h : Ok v) (hr : v.role = .none) (hq : 0 < v.queued) : Ok { v with role := .found } := by
  have hidle : v.waking + v.queued ≠ 0 := by omega
  exact { h with
    running := fun hs => absurd (h.idle_of_running hs (not_preempt_of (.inl hr))) hidle
    removing := fun hp => ⟨(h.removing hp).1, (h.removing hp).2.1, (h.removing hp).2.2.1, nofun⟩
    removeq := fun hq' => ⟨(h.removeq hq').1, (h.removeq hq').2.1,
      .inl (h.userdata_of_removeq hq' (not_retire_of (.inl hr)))⟩
    current := fun hc => ⟨(h.current hc).1, (h.current hc).2.1, nofun⟩
    stays := fun hs => absurd (h.stays hs).2.1 hidle
    retire := nofun
    found := fun _ => hq
    preempt := nofun
    chosen := nofun }

/-- The current task is running, so that it is in no ready queue before it is preempted. -/
theorem preemptStart (h : Ok v) (hr : v.role = .none) (hc : v.current = true) (hs : v.state = .running)
    (hst : v.stays = false) :
    Ok { v with role := .preempt .push } := by
  have hidle := h.idle_of_running hs (not_preempt_of (.inl hr))
  have hb : v.state ≠ .blocked := by rw [hs]; decide
  obtain ⟨hd, hf, -⟩ := h.current hc
  exact { h with
    running := fun _ => .inl hidle
    removing := fun hp => ⟨(h.removing hp).1, hd, hf, nofun⟩
    removeq := fun hq => ⟨(h.removeq hq).1, hf, .inl hd⟩
    current := fun _ => ⟨hd, hf, nofun⟩
    stays := fun hst' => absurd hst' (ne_true_of_eq_false hst)
    retire := nofun
    found := nofun
    preempt := fun _ _ => ⟨hc, hb, fun _ => hidle⟩
    chosen := nofun }

theorem preemptPush (h : Ok v) (hr : v.role = .preempt .push) :
    Ok { v with queued := v.queued + 1, role := .preempt .mask } := by
  obtain ⟨hc, hb, hpush⟩ := h.preempt .push hr
  have hidle := hpush rfl
  obtain ⟨hd, hf, -⟩ := h.current hc
  exact { h with
    once := by dsimp only; omega
    alive := fun _ => ⟨hd, hf⟩
    blocked := fun hb' => absurd hb' hb
    running := fun _ => .inr ⟨.mask, rfl, nofun⟩
    removing := fun hp => ⟨(h.removing hp).1, hd, hf, nofun⟩
    removeq := fun hq => ⟨(h.removeq hq).1, hf, .inl hd⟩
    current := fun _ => ⟨hd, hf, nofun⟩
    stays := fun hs => nomatch hr.symm.trans (h.stays hs).2.2.2
    retire := nofun
    found := nofun
    preempt := fun stage hst => ⟨hc, hb, by
      obtain rfl := Role.preempt.inj hst
      exact nofun⟩
    chosen := nofun }

theorem preemptNext (h : Ok v) {stage next : Preempt} (hr : v.role = .preempt stage) (hn : next ≠ .push) :
    Ok { v with role := .preempt next } := by
  obtain ⟨hc, hb, -⟩ := h.preempt stage hr
  obtain ⟨hd, hf, -⟩ := h.current hc
  exact { h with
    running := fun _ => .inr ⟨next, rfl, hn⟩
    removing := fun hp => ⟨(h.removing hp).1, hd, hf, nofun⟩
    removeq := fun hq => ⟨(h.removeq hq).1, hf, .inl hd⟩
    current := fun _ => ⟨hd, hf, nofun⟩
    stays := fun hs => nomatch hr.symm.trans (h.stays hs).2.2.2
    retire := nofun
    found := nofun
    preempt := fun stage' hst => ⟨hc, hb, fun hp => absurd ((Role.preempt.inj hst).trans hp) hn⟩
    chosen := nofun }

theorem preemptStore (h : Ok v) (hr : v.role = .preempt .store) :
    Ok { v with state := .ready, role := .none } := by
  obtain ⟨hc, -, -⟩ := h.preempt .store hr
  obtain ⟨hd, hf, -⟩ := h.current hc
  exact { h with
    blocked := nofun
    running := nofun
    absent := fun hn => absurd hn (ne_false_of_eq_true hd)
    freed := fun hf' => absurd hf' (h.not_freed hd)
    removing := fun hp => ⟨(h.removing hp).1, hd, hf, nofun⟩
    removeq := fun hq => ⟨(h.removeq hq).1, hf, .inl hd⟩
    current := fun _ => ⟨hd, hf, nofun⟩
    stays := fun hs => nomatch hr.symm.trans (h.stays hs).2.2.2
    retire := nofun
    found := nofun
    preempt := nofun
    chosen := nofun }

/-- The task was in its ready queue once, and is in none after. -/
theorem take (h : Ok v) (hr : v.role = .found) : Ok { v with queued := v.queued - 1, role := .chosen } := by
  have hq := h.found hr
  have hle := h.once
  have hpos : 0 < v.waking + v.queued := by omega
  have hidle : v.waking + (v.queued - 1) = 0 := by omega
  obtain ⟨hd, hf⟩ := h.alive hpos
  exact { h with
    once := by dsimp only; omega
    alive := fun _ => ⟨hd, hf⟩
    blocked := fun _ => ⟨hidle, hd, hf⟩
    running := fun _ => .inl hidle
    removing := fun hp => ⟨(h.removing hp).1, hd, hf, nofun⟩
    removeq := fun hq => ⟨(h.removeq hq).1, hf, .inl hd⟩
    current := fun _ => ⟨hd, hf, nofun⟩
    stays := fun hs => nomatch hr.symm.trans (h.stays hs).2.2.2
    retire := nofun
    found := nofun
    preempt := nofun
    chosen := fun _ => ⟨hidle, hd, hf, h.not_blocked hpos⟩ }

theorem run (h : Ok v) (hr : v.role = .chosen) :
    Ok { v with state := .running, current := true, stays := true, role := .none, choosing := false } := by
  obtain ⟨hidle, hd, hf, -⟩ := h.chosen hr
  exact { h with
    blocked := nofun
    running := fun _ => .inl hidle
    absent := fun hn => absurd hn (ne_false_of_eq_true hd)
    freed := fun hf' => absurd hf' (h.not_freed hd)
    removing := fun hp => ⟨(h.removing hp).1, hd, hf, nofun⟩
    removeq := fun hq => ⟨(h.removeq hq).1, hf, .inl hd⟩
    current := fun _ => ⟨hd, hf, nofun⟩
    stays := fun _ => ⟨rfl, hidle, nofun, rfl⟩
    retire := nofun
    found := nofun
    preempt := nofun
    chosen := nofun }

end Choose

section Callers

/-- A blocked task is in no ready queue, and the loop over `removeq` has not looked at its queue. -/
theorem wake (h : Ok v) (hb : v.state = .blocked) (hr : ∀ stage, v.role = .retire stage → stage = .inspect) :
    Ok { v with state := .ready, waking := v.waking + 1 } := by
  obtain ⟨hidle, hd, hf⟩ := h.blocked hb
  exact { h with
    once := by dsimp only; omega
    alive := fun _ => ⟨hd, hf⟩
    blocked := nofun
    running := nofun
    absent := fun hn => absurd hn (ne_false_of_eq_true hd)
    freed := fun hf' => absurd hf' (h.not_freed hd)
    stays := fun hs => absurd hb (h.stays hs).2.2.1
    retire := fun stage hst => by
      obtain ⟨-, hf', hq, -, -, hu⟩ := h.retire stage hst
      obtain rfl := hr stage hst
      exact ⟨fun hn => absurd rfl hn, hf', hq, nofun, nofun, hu⟩
    preempt := fun stage hst => absurd hb (h.preempt stage hst).2.1
    chosen := fun hst => absurd hb (h.chosen hst).2.2.2 }

/-- The push comes before the look at the queue. -/
theorem wakePush (h : Ok v) (hw : 0 < v.waking) :
    Ok { v with waking := v.waking - 1, queued := v.queued + 1 } := by
  have hsum : v.waking - 1 + (v.queued + 1) = v.waking + v.queued := by omega
  exact { h with
    once := by dsimp only; rw [hsum]; exact h.once
    alive := by dsimp only; rw [hsum]; exact h.alive
    blocked := by dsimp only; rw [hsum]; exact h.blocked
    running := by dsimp only; rw [hsum]; exact h.running
    stays := by dsimp only; rw [hsum]; exact h.stays
    retire := fun stage hst => by
      obtain ⟨hwait, hf, hq, -, -, hu⟩ := h.retire stage hst
      obtain rfl : stage = .inspect := by
        by_contra hne
        exact absurd (hwait hne) (Nat.ne_of_gt hw)
      exact ⟨fun hn => absurd rfl hn, hf, hq, nofun, nofun, hu⟩
    found := fun _ => Nat.succ_pos _
    preempt := by dsimp only; rw [hsum]; exact h.preempt
    chosen := by dsimp only; rw [hsum]; exact h.chosen }

/-- The task is removed for the first time. -/
theorem removeStart (h : Ok v) (hd : v.userdata = true) (hr : v.removed = false) :
    Ok { v with removed := true, removing := v.removing + 1 } := by
  have hn := ne_true_of_eq_false hr
  have hrem : v.removing = 0 := by
    by_contra hne
    exact hn (h.removing (Nat.pos_of_ne_zero hne)).1
  have hq : v.removeq = 0 := by
    by_contra hne
    exact hn (h.removeq (Nat.pos_of_ne_zero hne)).1
  have hret : ∀ stage, v.role ≠ .retire stage := by
    -- it would be on `removeq`, or without its userdata
    intro stage hst
    obtain ⟨-, -, hq', -, -, hu⟩ := h.retire stage hst
    rw [hq] at hq'
    by_cases hfree : stage = .free
    · rw [hfree] at hu
      exact ne_false_of_eq_true hd hu
    · rw [if_neg hfree] at hq'
      cases hq'
  exact { h with
    remove := by dsimp only; omega
    removing := fun _ => ⟨rfl, hd, eq_false_of_ne_true (h.not_freed hd), hret⟩
    removeq := fun hp => absurd hq (Nat.ne_of_gt hp) }

theorem removeEnd (h : Ok v) : Ok { v with removing := v.removing - 1 } := by
  have hle := h.remove
  exact { h with
    remove := by dsimp only; omega
    removing := fun hp => h.removing (by dsimp only at hp; omega) }

theorem removeStore (h : Ok v) (hr : 0 < v.removing) :
    Ok { v with state := .stopped, stopped := true, pushing := v.pushing + 1 } := by
  obtain ⟨-, hd, -, hret⟩ := h.removing hr
  exact { h with
    blocked := nofun
    running := nofun
    absent := fun _ => .inl rfl
    freed := fun hf => absurd hf (h.not_freed hd)
    stays := fun hs => ⟨(h.stays hs).1, (h.stays hs).2.1, nofun, (h.stays hs).2.2.2⟩
    retire := fun stage hst => absurd hst (hret stage)
    preempt := fun stage hst => ⟨(h.preempt stage hst).1, nofun, (h.preempt stage hst).2.2⟩
    chosen := fun hst => ⟨(h.chosen hst).1, hd, (h.chosen hst).2.2.1, nofun⟩ }

/-- The removal ends, and the task is on `removeq` once. -/
theorem removePush (h : Ok v) (hr : 0 < v.removing) :
    Ok { v with
      removing := v.removing - 1, pushing := v.pushing - 1, removeq := v.removeq + 1, pushed := true } := by
  obtain ⟨hrem, hd, hf, hret⟩ := h.removing hr
  have hle := h.remove
  exact { h with
    freed := fun hf' => absurd hf' (h.not_freed hd)
    remove := by dsimp only; omega
    removing := fun _ => ⟨hrem, hd, hf, hret⟩
    removeq := fun _ => ⟨hrem, hf, .inl hd⟩
    retire := fun stage hst => absurd hst (hret stage) }

end Callers

end Ok

/-- **The moves keep it.** -/
theorem Ok.move (h : Ok v) (hm : Move strict v v') : Ok v' := by
  cases hm with
  | same => exact h
  | add hd hs => exact h.add hd hs
  | block hs _ => exact h.block hs
  | yield hs _ => exact h.yield hs
  | unblockSelf hb hc hr _ => exact h.unblockSelf hb hc hr
  | rest => exact h.rest
  | leave hr => exact h.leave hr
  | stay _ hs hr => exact h.stay hs hr
  | retireInspect hr _ hq hc hs => exact h.retireInspect hr hq hc hs
  | retireNext hr hz hz' hd hw _ => exact h.retireNext hr hz hz' hd hw
  | retireDequeue hr => exact h.retireDequeue hr
  | retireStore hr => exact h.retireStore hr
  | retireForget hr => exact h.retireForget hr
  | retireUnlink hr => exact h.retireUnlink hr
  | retireFree hr => exact h.retireFree hr
  | choose _ _ =>
    exact ⟨h.once, h.alive, h.blocked, h.running, h.absent, h.freed, h.remove, h.removing, h.removeq,
      h.current, h.stays, h.retire, h.found, h.preempt, h.chosen⟩
  | find hr _ hq => exact h.find hr hq
  | preemptStart hr _ hc hs hst => exact h.preemptStart hr hc hs hst
  | preemptPush hr => exact h.preemptPush hr
  | preemptNext hr _ hn => exact h.preemptNext hr hn
  | preemptStore hr => exact h.preemptStore hr
  | take hr _ => exact h.take hr
  | run hr => exact h.run hr
  | wake hb hr => exact h.wake hb hr
  | wakePush hw => exact h.wakePush hw
  | removeStart hd hr => exact h.removeStart hd hr
  | removeEnd _ => exact h.removeEnd
  | removeStore hp _ => exact h.removeStore (by omega)
  | removePush hr _ => exact h.removePush hr

/-! ## The result -/

variable {ι τ : Type} [Fintype ι] [DecidableEq ι] [DecidableEq τ] {s : St ι τ}

/-- **No wake-up of a retired task** in every run in which no `prs_task_unblock` of a task pushes it after
`prs_sched_swprio_get_next` has looked whether it is in its ready queue, to retire it: when
`prs_sched_swprio_ready` reads `sched_userdata` or pushes the node, the task has its userdata and the block is
not freed, and no ready queue has a task whose userdata is gone. -/
theorem retired_not_woken (h : (sys ι τ).Reach St.Apart s) :
    (∀ j t, s.pc j = .unblockUserdata t ∨ s.pc j = .unblockPush t → s.userdata t = true ∧ s.freed t = false) ∧
    (∀ t, s.current = some t → s.userdata t = true ∧ s.freed t = false) ∧
    ∀ t, s.userdata t = false ∨ s.freed t = true → ∀ p, t ∉ s.sched.readyq p := by
  obtain ⟨hshape, hok⟩ := view_inv False (fun _ _ ha => ha) (fun _ _ _ => False.elim) ok_init
    (fun _ _ hv hm => hv.move hm) h
  refine ⟨fun j t hpc => ?_, fun t ht => ?_, fun t ht p hm => ?_⟩
  · have hw : 0 < (s.view t).waking := pos_of_mem (j := j) (by
      rcases hpc with hpc | hpc <;> rw [hpc] <;> exact List.mem_singleton_self t)
    exact (hok t).alive (by omega)
  · obtain ⟨hd, hf, -⟩ := (hok t).current (decide_eq_true ht)
    exact ⟨hd, hf⟩
  · have hq : 0 < (s.view t).queued := queued_pos (hshape.own p t hm ▸ hm)
    obtain ⟨hd, hf⟩ := (hok t).alive (by omega)
    rcases ht with hn | hn
    · rw [show s.userdata t = true from hd] at hn
      cases hn
    · rw [show s.freed t = false from hf] at hn
      cases hn

/-- Task 0 is added, runs and blocks, and the worker has nothing to run. -/
def blockedRun : List (Act (Fin 2) (Fin 1)) :=
  .add 0 :: .getNext :: List.replicate 7 .worker ++ .block :: .getNext :: List.replicate 7 .worker

/-- The task is unblocked and removed, and pushed when the worker has taken it up and has not looked for it
yet. Then it is retired. -/
theorem retired_not_woken_pushed : ∃ s, (sys (Fin 2) (Fin 1)).Reach St.Apart s ∧ s.freed 0 = true ∧
    ∀ p, (0 : Fin 1) ∉ s.sched.readyq p := by
  obtain ⟨s, hs, hf⟩ := System.exists_of_check (sys (Fin 2) (Fin 1)) St.Apart (fun s => s.freed 0 = true)
    (.init fun _ => 3) ⟨fun _ => 3, rfl⟩
    (List.flatten [blockedRun, [.unblock 0 0, .step 0], .remove 1 0 :: List.replicate 4 (.step 1),
      [.getNext, .worker], List.replicate 3 (.step 0), List.replicate 10 .worker]) (by decide +kernel)
  exact ⟨s, hs, hf, (retired_not_woken hs).2.2 0 (.inr hf)⟩

/-- **A retired task is woken.** It is removed and retired when `prs_task_unblock` has changed its state and
has not pushed it: `prs_sched_swprio_ready` finds no userdata, and the node of the freed block comes into the
ready queue. -/
theorem retired_woken :
    (∃ s, (sys (Fin 2) (Fin 1)).Reachable s ∧ s.pc 0 = .unblockUserdata 0 ∧ s.userdata 0 = false ∧
      s.freed 0 = true) ∧
    ∃ s, (sys (Fin 2) (Fin 1)).Reachable s ∧ s.freed 0 = true ∧ 0 ∈ s.sched.readyq 3 := by
  constructor
  · exact System.exists_of_check (sys (Fin 2) (Fin 1)) (fun _ _ => True)
      (fun s => s.pc 0 = .unblockUserdata 0 ∧ s.userdata 0 = false ∧ s.freed 0 = true) (.init fun _ => 3)
      ⟨fun _ => 3, rfl⟩
      (List.flatten [blockedRun, [.unblock 0 0, .step 0], .remove 1 0 :: List.replicate 4 (.step 1),
        .getNext :: List.replicate 7 .worker]) (by decide +kernel)
  · exact System.exists_of_check (sys (Fin 2) (Fin 1)) (fun _ _ => True)
      (fun s => s.freed 0 = true ∧ 0 ∈ s.sched.readyq 3) (.init fun _ => 3) ⟨fun _ => 3, rfl⟩
      (List.flatten [blockedRun, [.unblock 0 0, .step 0], .remove 1 0 :: List.replicate 4 (.step 1),
        .getNext :: List.replicate 7 .worker, [.step 0, .step 0]]) (by decide +kernel)

end Prs.SwprioSteps
