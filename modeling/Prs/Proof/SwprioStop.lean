import Prs.Proof.SwprioLife

/-!
# A removed task does not start running

`prs_sched_swprio_remove` stores `PRS_TASK_STATE_STOPPED` and then pushes the task on `removeq`;
`prs_sched_swprio_get_next` looks at `removeq` first and then takes a task from the ready queues. A task that
is stopped after the one and before the other is taken all the same (`Exclusive` says that this does not
happen to the task taken).

* `Held`: what holds of the view of every task between steps, besides `Ok`.
* `stopped_not_run`: in every run in which the two windows do not overlap for a task, no task that was stopped
  is running again, and every `prs_task_change_state` of `get_next` finds the state that it expects.
* `stopped_run`: without that, a ready task is stopped and then set running.
-/

namespace Prs.SwprioSteps

open Function Swprio

/-- **A task that `prs_sched_swprio_remove` may have stopped.** -/
structure Held (v : View) : Prop where
  stopped : v.stopped = true → v.state = .stopped ∨ v.state = .zombie
  accounted : v.stopped = true → 0 < v.pushing ∨ 0 < v.removeq ∨ (∃ stage, v.role = .retire stage) ∨
    v.freed = true
  window : v.choosing = true → v.seen = true → v.pushing = 0 ∧ v.removeq = 0
  queued : 0 < v.queued → v.state = .ready ∨ v.stopped = true ∨ ∃ stage, v.role = .preempt stage
  waking : 0 < v.waking → v.state = .ready ∨ v.stopped = true
  preempt : ∀ stage, v.role = .preempt stage → v.state = .running
  chosen : v.role = .chosen → v.state = .ready
  zombie : v.state = .zombie → v.freed = true ∨ ∃ stage, v.role = .retire stage ∧ stage.zombie = true
  pushed : 0 < v.removeq ∨ 0 < v.pushing → v.stopped = true
  fewer : v.pushing ≤ v.removing
  done : v.pushed = true → v.removed = true ∧ v.removing = 0
  seen : v.seen = true → v.pushed = true
  busy : v.role = .found ∨ v.role = .chosen ∨ (∃ stage, v.role = .preempt stage) → v.choosing = true

theorem held_init : Held .init := by
  constructor <;> simp [View.init]

variable {v v' : View} {r : Role}

/-- A task that the worker leaves alone, or retires, is not one that it has found or is preempting. -/
theorem not_busy (hr : r = .none ∨ ∃ stage, r = .retire stage) :
    ¬ (r = .found ∨ r = .chosen ∨ ∃ stage, r = .preempt stage) := by
  rintro (rfl | rfl | ⟨stage, rfl⟩) <;> obtain hr | ⟨_, hr⟩ := hr <;> cases hr

namespace Held

section Facts

/-- A task that is not in one of the two last states was not stopped. -/
theorem not_stopped (h : Held v) (hs : v.state ≠ .stopped) (hz : v.state ≠ .zombie) : v.stopped ≠ true :=
  fun hst => (h.stopped hst).elim hs hz

theorem not_stopped_of_running (h : Held v) (hs : v.state = .running) : v.stopped ≠ true := by
  apply h.not_stopped <;> rw [hs] <;> decide

theorem not_stopped_of_ready (h : Held v) (hs : v.state = .ready) : v.stopped ≠ true := by
  apply h.not_stopped <;> rw [hs] <;> decide

theorem not_stopped_of_blocked (h : Held v) (hs : v.state = .blocked) : v.stopped ≠ true := by
  apply h.not_stopped <;> rw [hs] <;> decide

/-- Another role accounts for a stopped task as the old one did, unless that was its retirement. -/
theorem accounted_of (h : Held v) (hr : ∀ stage, v.role ≠ .retire stage) (hs : v.stopped = true) :
    0 < v.pushing ∨ 0 < v.removeq ∨ (∃ stage, r = .retire stage) ∨ v.freed = true := by
  obtain hp | hq | ⟨stage, hst⟩ | hf := h.accounted hs
  · exact .inl hp
  · exact .inr (.inl hq)
  · exact absurd hst (hr stage)
  · exact .inr (.inr (.inr hf))

/-- With another role a task stays queued for the same reason, unless it was being preempted. -/
theorem queued_of (h : Held v) (hr : ∀ stage, v.role ≠ .preempt stage) (hq : 0 < v.queued) :
    v.state = .ready ∨ v.stopped = true ∨ ∃ stage, r = .preempt stage := by
  obtain hst | hst | ⟨stage, hst⟩ := h.queued hq
  · exact .inl hst
  · exact .inr (.inl hst)
  · exact absurd hst (hr stage)

/-- With another role a zombie is one for the same reason, unless it was being retired. -/
theorem zombie_of (h : Held v) (hr : ∀ stage, v.role = .retire stage → stage.zombie = false)
    (hz : v.state = .zombie) :
    v.freed = true ∨ ∃ stage, r = .retire stage ∧ stage.zombie = true := by
  obtain hf | ⟨stage, hst, hst'⟩ := h.zombie hz
  · exact .inl hf
  · rw [hr stage hst] at hst'
    cases hst'

/-- The task that `get_next` has found is ready, unless it was stopped too late to be seen. -/
theorem ready_of_found (h : Held v) (ho : Ok v) (hr : v.role = .found) (hl : v.stopped = true → v.seen = true) :
    v.state = .ready := by
  have hq := ho.found hr
  obtain hst | hst | ⟨stage, hst⟩ := h.queued hq
  · exact hst
  · -- nothing is on its way to `removeq`, and the task is not retired
    obtain ⟨hp, hrem⟩ := h.window (h.busy (.inl hr)) (hl hst)
    obtain hp' | hrem' | ⟨stage, hst'⟩ | hf := h.accounted hst
    · omega
    · omega
    · exact absurd hst' (not_retire_of (.inr hr) stage)
    · exact absurd hf (ne_true_of_eq_false (ho.alive (by omega)).2)
  · exact absurd hst (not_preempt_of (.inr hr) stage)

end Facts

section Task

/-- A task without userdata that is `STOPPED` was not stopped by a removal: it would be about to be on
`removeq`, and have its userdata until it is a zombie. -/
theorem add (h : Held v) (ho : Ok v) (hd : v.userdata = false) (hs : v.state = .stopped) :
    Held { v with state := .ready, userdata := true, queued := v.queued + 1 } := by
  have hn := ne_true_of_eq_false hd
  have hz : v.state ≠ .zombie := by rw [hs]; decide
  have hret : ∀ stage, v.role ≠ .retire stage := fun stage hst => hz (ho.zombie_of_absent hn hst)
  have hst : v.stopped ≠ true := by
    intro hst
    obtain hp | hq | ⟨stage, hr⟩ | hf := h.accounted hst
    · have hle := h.fewer
      exact hn (ho.removing (by omega)).2.1
    · exact hn (ho.userdata_of_removeq hq hret)
    · exact hret stage hr
    · exact hz (ho.freed hf).1
  exact { h with
    stopped := fun hst' => absurd hst' hst
    queued := fun _ => .inl rfl
    waking := fun _ => .inl rfl
    preempt := fun stage hr => nomatch hs.symm.trans (h.preempt stage hr)
    chosen := fun _ => rfl
    zombie := nofun }

/-- A task that blocks is running, so that it was not stopped, and is in no ready queue. -/
theorem block (h : Held v) (ho : Ok v) (hs : v.stays = true) (hr : v.state = .running) :
    Held { v with state := .blocked, stays := false } := by
  obtain ⟨-, hidle, -, hrole⟩ := ho.stays hs
  exact { h with
    stopped := fun hst => absurd hst (h.not_stopped_of_running hr)
    queued := fun hq => by dsimp only at hq; omega
    waking := fun hw => by dsimp only at hw; omega
    preempt := fun stage hst => nomatch hrole.symm.trans hst
    chosen := fun hst => nomatch hrole.symm.trans hst
    zombie := nofun }

/-- A task that yields is running, so that it was not stopped. -/
theorem yield (h : Held v) (ho : Ok v) (hs : v.stays = true) (hr : v.state = .running) :
    Held { v with state := .ready, queued := v.queued + 1, stays := false } := by
  obtain ⟨-, -, -, hrole⟩ := ho.stays hs
  exact { h with
    stopped := fun hst => absurd hst (h.not_stopped_of_running hr)
    queued := fun _ => .inl rfl
    waking := fun _ => .inl rfl
    preempt := fun stage hst => nomatch hrole.symm.trans hst
    chosen := fun _ => rfl
    zombie := nofun }

theorem unblockSelf (h : Held v) (ho : Ok v) (hb : v.state = .blocked) (hr : v.role = .none) :
    Held { v with state := .running, stays := true } := by
  obtain ⟨hidle, -⟩ := ho.blocked hb
  exact { h with
    stopped := fun hst => absurd hst (h.not_stopped_of_blocked hb)
    queued := fun hq => by dsimp only at hq; omega
    waking := fun hw => by dsimp only at hw; omega
    preempt := fun _ _ => rfl
    chosen := fun hst => nomatch hr.symm.trans hst
    zombie := nofun }

/-- The worker returns without the task, or with another one. -/
theorem leave (h : Held v) (hr : v.role = .none ∨ v.role = .found) :
    Held { v with current := false, stays := false, role := .none, choosing := false } :=
  { h with
    accounted := h.accounted_of (not_retire_of hr)
    window := nofun
    queued := h.queued_of (not_preempt_of hr)
    preempt := nofun
    chosen := nofun
    zombie := h.zombie_of fun stage hst => absurd hst (not_retire_of hr stage)
    busy := fun hb => absurd hb (not_busy (.inl rfl)) }

theorem stay (h : Held v) (hr : v.role = .none ∨ v.role = .found) :
    Held { v with current := true, stays := true, role := .none, choosing := false } :=
  { h with
    accounted := h.accounted_of (not_retire_of hr)
    window := nofun
    queued := h.queued_of (not_preempt_of hr)
    preempt := nofun
    chosen := nofun
    zombie := h.zombie_of fun stage hst => absurd hst (not_retire_of hr stage)
    busy := fun hb => absurd hb (not_busy (.inl rfl)) }

end Task

section Retire

theorem retireInspect (h : Held v) (hr : v.role = .none) : Held { v with role := .retire .inspect } :=
  { h with
    accounted := fun _ => .inr (.inr (.inl ⟨.inspect, rfl⟩))
    queued := h.queued_of (not_preempt_of (.inl hr))
    preempt := nofun
    chosen := nofun
    zombie := h.zombie_of fun stage hst => absurd hst (not_retire_of (.inl hr) stage)
    busy := fun hb => absurd hb (not_busy (.inr ⟨.inspect, rfl⟩)) }

/-- The loop goes on with a task that is not a zombie yet. -/
theorem retireNext (h : Held v) {stage next : Stage} (hr : v.role = .retire stage) (hz : stage.zombie = false) :
    Held { v with role := .retire next } :=
  { h with
    accounted := fun _ => .inr (.inr (.inl ⟨next, rfl⟩))
    queued := h.queued_of fun _ hst => nomatch hr.symm.trans hst
    preempt := nofun
    chosen := nofun
    zombie := h.zombie_of fun _ hst => Role.retire.inj (hr.symm.trans hst) ▸ hz
    busy := fun hb => absurd hb (not_busy (.inr ⟨next, rfl⟩)) }

/-- The task is taken out of its ready queue. -/
theorem retireDequeue (h : Held v) (hr : v.role = .retire .dequeue) :
    Held { v with queued := v.queued - 1, role := .retire .check } := by
  have hnext : Held { v with role := .retire .check } := h.retireNext hr rfl
  exact { hnext with
    queued := fun hq => hnext.queued (by dsimp only at hq; dsimp only; omega) }

/-- The task becomes a zombie when it is out of its ready queue and no `prs_task_unblock` is about to push it. -/
theorem retireStore (h : Held v) (ho : Ok v) (hr : v.role = .retire .store) :
    Held { v with state := .zombie, role := .retire .forget } := by
  obtain ⟨hw, -, -, hdrop, -⟩ := ho.retire .store hr
  exact { h with
    stopped := fun _ => .inr rfl
    accounted := fun _ => .inr (.inr (.inl ⟨.forget, rfl⟩))
    queued := fun hq => absurd (hdrop rfl) (Nat.ne_of_gt hq)
    waking := fun hp => absurd (hw nofun) (Nat.ne_of_gt hp)
    preempt := nofun
    chosen := nofun
    zombie := fun _ => .inr ⟨.forget, rfl, rfl⟩
    busy := fun hb => absurd hb (not_busy (.inr ⟨.forget, rfl⟩)) }

theorem retireForget (h : Held v) (hr : v.role = .retire .forget) :
    Held { v with userdata := false, role := .retire .unlink } :=
  { h with
    accounted := fun _ => .inr (.inr (.inl ⟨.unlink, rfl⟩))
    queued := h.queued_of fun _ hst => nomatch hr.symm.trans hst
    preempt := nofun
    chosen := nofun
    zombie := fun _ => .inr ⟨.unlink, rfl, rfl⟩
    busy := fun hb => absurd hb (not_busy (.inr ⟨.unlink, rfl⟩)) }

theorem retireUnlink (h : Held v) (hr : v.role = .retire .unlink) :
    Held { v with removeq := v.removeq - 1, role := .retire .free } :=
  { h with
    accounted := fun _ => .inr (.inr (.inl ⟨.free, rfl⟩))
    window := fun hc hs => ⟨(h.window hc hs).1, by dsimp only; rw [(h.window hc hs).2]⟩
    queued := h.queued_of fun _ hst => nomatch hr.symm.trans hst
    preempt := nofun
    chosen := nofun
    zombie := fun _ => .inr ⟨.free, rfl, rfl⟩
    pushed := fun hp => h.pushed (hp.imp_left fun hq => Nat.lt_of_lt_of_le hq (Nat.sub_le _ _))
    busy := fun hb => absurd hb (not_busy (.inr ⟨.free, rfl⟩)) }

/-- The task is freed as a zombie, and nothing else can happen to it. -/
theorem retireFree (h : Held v) (hr : v.role = .retire .free) : Held { v with freed := true, role := .none } :=
  { h with
    accounted := fun _ => .inr (.inr (.inr rfl))
    queued := h.queued_of fun _ hst => nomatch hr.symm.trans hst
    preempt := nofun
    chosen := nofun
    zombie := fun _ => .inl rfl
    busy := fun hb => absurd hb (not_busy (.inl rfl)) }

end Retire

section Choose

/-- What was pushed before the end of the loop over `removeq` was seen there. -/
theorem choose (h : Held v) (hq : v.removeq = 0) : Held { v with choosing := true, seen := v.pushed } :=
  { h with
    window := fun _ hp => ⟨Nat.le_zero.1 ((h.done hp).2 ▸ h.fewer), hq⟩
    seen := id
    busy := fun _ => rfl }

/-- The task is found after the loop over `removeq`. -/
theorem find (h : Held v) (hr : v.role = .none) (hc : v.choosing = true) : Held { v with role := .found } :=
  { h with
    accounted := h.accounted_of (not_retire_of (.inl hr))
    queued := h.queued_of (not_preempt_of (.inl hr))
    preempt := nofun
    chosen := nofun
    zombie := h.zombie_of fun stage hst => absurd hst (not_retire_of (.inl hr) stage)
    busy := fun _ => hc }

/-- The current task is being preempted: it is running. -/
theorem preempting (h : Held v) (hn : v.choosing = true) (hs : v.state = .running) (stage : Preempt) :
    Held { v with role := .preempt stage } :=
  { h with
    accounted := fun hst => absurd hst (h.not_stopped_of_running hs)
    queued := fun _ => .inr (.inr ⟨stage, rfl⟩)
    preempt := fun _ _ => hs
    chosen := nofun
    zombie := fun hz => nomatch hs.symm.trans hz
    busy := fun _ => hn }

theorem preemptNext (h : Held v) {stage next : Preempt} (hr : v.role = .preempt stage) :
    Held { v with role := .preempt next } :=
  h.preempting (h.busy (.inr (.inr ⟨stage, hr⟩))) (h.preempt stage hr) next

theorem preemptPush (h : Held v) (hr : v.role = .preempt .push) :
    Held { v with queued := v.queued + 1, role := .preempt .mask } := by
  have hnext : Held { v with role := .preempt .mask } := h.preemptNext hr
  exact { hnext with queued := fun _ => .inr (.inr ⟨.mask, rfl⟩) }

/-- The preempted task is ready: it was running until here, so that it was not stopped. -/
theorem preemptStore (h : Held v) (hr : v.role = .preempt .store) :
    Held { v with state := .ready, role := .none } := by
  have hst := h.not_stopped_of_running (h.preempt .store hr)
  exact { h with
    stopped := fun hst' => absurd hst' hst
    accounted := fun hst' => absurd hst' hst
    queued := fun _ => .inl rfl
    waking := fun _ => .inl rfl
    preempt := nofun
    chosen := nofun
    zombie := nofun
    busy := fun hb => absurd hb (not_busy (.inl rfl)) }

/-- The task is taken while it is ready, as it was not stopped too late to be seen. -/
theorem take (h : Held v) (ho : Ok v) (hr : v.role = .found) (hl : v.stopped = true → v.seen = true) :
    Held { v with queued := v.queued - 1, role := .chosen } := by
  have hready := h.ready_of_found ho hr hl
  exact { h with
    accounted := fun hst => absurd hst (h.not_stopped_of_ready hready)
    queued := fun _ => .inl hready
    preempt := nofun
    chosen := fun _ => hready
    zombie := fun hz => nomatch hready.symm.trans hz
    busy := fun _ => h.busy (.inl hr) }

/-- The task that was taken is ready until it is running. -/
theorem run (h : Held v) (ho : Ok v) (hr : v.role = .chosen) :
    Held { v with state := .running, current := true, stays := true, role := .none, choosing := false } := by
  have hst := h.not_stopped_of_ready (h.chosen hr)
  obtain ⟨hidle, -⟩ := ho.chosen hr
  exact { h with
    stopped := fun hst' => absurd hst' hst
    accounted := fun hst' => absurd hst' hst
    window := nofun
    queued := fun hq => by dsimp only at hq; omega
    waking := fun hw => by dsimp only at hw; omega
    preempt := nofun
    chosen := nofun
    zombie := nofun
    busy := fun hb => absurd hb (not_busy (.inl rfl)) }

end Choose

section Callers

/-- A blocked task was not stopped. -/
theorem wake (h : Held v) (hb : v.state = .blocked) : Held { v with state := .ready, waking := v.waking + 1 } :=
  { h with
    stopped := fun hst => absurd hst (h.not_stopped_of_blocked hb)
    queued := fun _ => .inl rfl
    waking := fun _ => .inl rfl
    preempt := fun stage hr => nomatch hb.symm.trans (h.preempt stage hr)
    chosen := fun _ => rfl
    zombie := nofun }

theorem wakePush (h : Held v) (hw : 0 < v.waking) :
    Held { v with waking := v.waking - 1, queued := v.queued + 1 } :=
  { h with
    queued := fun _ => (h.waking hw).imp_right .inl
    waking := fun _ => h.waking hw }

/-- A task that is being removed was not seen on `removeq`. -/
theorem not_seen (h : Held v) (hp : 0 < v.removing) : v.seen ≠ true :=
  fun hs => Nat.ne_of_gt hp (h.done (h.seen hs)).2

theorem removeStart (h : Held v) (hr : v.removed = false) :
    Held { v with removed := true, removing := v.removing + 1 } :=
  { h with
    fewer := Nat.le_succ_of_le h.fewer
    done := fun hp => absurd (h.done hp).1 (ne_true_of_eq_false hr) }

theorem removeEnd (h : Held v) (hp : v.pushing < v.removing) : Held { v with removing := v.removing - 1 } :=
  { h with
    fewer := Nat.le_sub_one_of_lt hp
    done := fun hd => ⟨(h.done hd).1, by dsimp only; rw [(h.done hd).2]⟩ }

/-- The task is stopped while the worker does not change its state. -/
theorem removeStore (h : Held v) (hp : v.pushing < v.removing)
    (hc : v.role ≠ .chosen ∧ ∀ stage, v.role ≠ .preempt stage) :
    Held { v with state := .stopped, stopped := true, pushing := v.pushing + 1 } :=
  { h with
    stopped := fun _ => .inl rfl
    accounted := fun _ => .inl (Nat.succ_pos _)
    window := fun _ hs => absurd hs (h.not_seen (Nat.zero_lt_of_lt hp))
    queued := fun _ => .inr (.inl rfl)
    waking := fun _ => .inr rfl
    preempt := fun stage hr => absurd hr (hc.2 stage)
    chosen := fun hr => absurd hr hc.1
    zombie := nofun
    pushed := fun _ => rfl
    fewer := hp }

/-- The removal ends: the task is on `removeq`, and there is no other removal of it. -/
theorem removePush (h : Held v) (ho : Ok v) (hp : 0 < v.pushing) :
    Held { v with
      removing := v.removing - 1, pushing := v.pushing - 1, removeq := v.removeq + 1, pushed := true } := by
  have hrem : 0 < v.removing := Nat.lt_of_lt_of_le hp h.fewer
  have hone := ho.remove
  exact { h with
    accounted := fun _ => .inr (.inl (Nat.succ_pos _))
    window := fun _ hs => absurd hs (h.not_seen hrem)
    pushed := fun _ => h.pushed (.inr hp)
    fewer := Nat.sub_le_sub_right h.fewer 1
    done := fun _ => ⟨(ho.removing hrem).1, by dsimp only; omega⟩
    seen := fun _ => rfl }

end Callers

end Held

/-- **The moves keep it** when the windows do not overlap. -/
theorem Held.move (h : Held v) (ho : Ok v) (hm : Move True v v') : Held v' := by
  cases hm with
  | same => exact h
  | add hd hs => exact h.add ho hd hs
  | block hs hr => exact h.block ho hs (hr trivial)
  | yield hs hr => exact h.yield ho hs (hr trivial)
  | unblockSelf hb _ hr _ => exact h.unblockSelf ho hb hr
  | rest =>
    exact ⟨h.stopped, h.accounted, h.window, h.queued, h.waking, h.preempt, h.chosen, h.zombie, h.pushed,
      h.fewer, h.done, h.seen, h.busy⟩
  | leave hr => exact h.leave hr
  | stay _ _ hr => exact h.stay hr
  | retireInspect hr _ _ _ _ => exact h.retireInspect hr
  | retireNext hr hz _ _ _ _ => exact h.retireNext hr hz
  | retireDequeue hr => exact h.retireDequeue hr
  | retireStore hr => exact h.retireStore ho hr
  | retireForget hr => exact h.retireForget hr
  | retireUnlink hr => exact h.retireUnlink hr
  | retireFree hr => exact h.retireFree hr
  | choose _ hq => exact h.choose hq
  | find hr hc _ => exact h.find hr hc
  | preemptStart _ hn _ hs _ => exact h.preempting hn hs .push
  | preemptPush hr => exact h.preemptPush hr
  | preemptNext hr _ _ => exact h.preemptNext hr
  | preemptStore hr => exact h.preemptStore hr
  | take hr hl => exact h.take ho hr (hl trivial)
  | run hr => exact h.run ho hr
  | wake hb _ => exact h.wake hb
  | wakePush hw => exact h.wakePush hw
  | removeStart _ hr => exact h.removeStart hr
  | removeEnd hp => exact h.removeEnd hp
  | removeStore hp hc => exact h.removeStore hp (hc trivial)
  | removePush _ hp => exact h.removePush ho hp

/-- What the calls of `prs_task_change_state` in `prs_sched_swprio_get_next` find. -/
theorem Held.expected (h : Held v) (ho : Ok v) :
    (v.role = .retire .load → v.state = .stopped) ∧ (v.role = .preempt .load → v.state = .running) ∧
      (v.role = .chosen → v.state = .ready) := by
  refine ⟨fun hr => ?_, h.preempt .load, h.chosen⟩
  obtain ⟨-, hf, hq, -⟩ := ho.retire .load hr
  have hst : v.stopped = true := h.pushed (.inl (by rw [hq]; decide))
  refine (h.stopped hst).resolve_right fun hz => ?_
  rcases h.zombie hz with hfr | ⟨stage, hr', hz'⟩
  · rw [hf] at hfr
    cases hfr
  · rw [hr] at hr'
    obtain rfl := Role.retire.inj hr'
    cases hz'

/-! ## The result -/

variable {ι τ : Type} [Fintype ι] [DecidableEq ι] [DecidableEq τ] {s s' : St ι τ}

omit [Fintype ι] [DecidableEq ι] [DecidableEq τ] in
theorem mismatch_expect {t : τ} {x : TaskState} {w : Work τ} (h : (s.expect t x w).mismatch = true) :
    s.mismatch = true ∨ s.state t ≠ x := by
  rw [St.expect, Bool.or_eq_true, decide_eq_true_eq] at h
  exact h

/-- A `prs_task_change_state` of `prs_sched_swprio_get_next` is about to find another state than it expects. -/
def St.Unexpected (s : St ι τ) (t : τ) : Prop :=
  ((s.view t).role = .retire .load ∧ s.state t ≠ .stopped) ∨
    ((s.view t).role = .preempt .load ∧ s.state t ≠ .running) ∨
    ((s.view t).role = .chosen ∧ s.state t ≠ .ready)

omit [DecidableEq ι] in
/-- A mismatch of the worker is an unexpected state before its step. -/
theorem mismatch_of_worker (hs : s.stepWorker = some s') (h : s'.mismatch = true) :
    s.mismatch = true ∨ ∃ t, s.Unexpected t := by
  unfold St.stepWorker at hs
  split at hs <;> rename_i hwk
  case h_1 => cases hs
  case h_3 t stage =>
    rw [← Option.some.inj hs] at h
    cases stage <;> try exact .inl h
    refine (mismatch_expect h).imp_right fun hne => ⟨t, .inl ⟨?_, hne⟩⟩
    simp only [St.view, hwk]
    exact role_retire_self _
  case h_11 c p t stage =>
    rw [← Option.some.inj hs] at h
    cases stage <;> try exact .inl h
    refine (mismatch_expect h).imp_right fun hne => ⟨c, .inr (.inl ⟨?_, hne⟩)⟩
    simp only [St.view, hwk]
    exact role_preempt_self
  case h_13 t =>
    rw [← Option.some.inj hs] at h
    refine (mismatch_expect h).imp_right fun hne => ⟨t, .inr (.inr ⟨?_, hne⟩)⟩
    simp only [St.view, hwk]
    exact if_pos rfl
  all_goals
    refine .inl ?_
    repeat' split at hs
    all_goals
      rw [← Option.some.inj hs] at h
      exact h

/-- Only the worker makes mismatches. -/
theorem mismatch_of_step {a : Act ι τ} (hs : s.step a = some s') (h : s'.mismatch = true) :
    s.mismatch = true ∨ ∃ t, s.Unexpected t := by
  cases a with
  | worker => exact mismatch_of_worker hs h
  | step j =>
    simp only [St.step, St.stepCaller] at hs
    refine .inl ?_
    repeat' split at hs
    all_goals first | (rw [← Option.some.inj hs] at h; exact h) | cases hs
  | _ =>
    simp only [St.step] at hs
    refine .inl ?_
    repeat' split at hs
    all_goals first | (rw [← Option.some.inj hs] at h; exact h) | cases hs

/-- The windows are apart. -/
def St.Ordered (s : St ι τ) (a : Act ι τ) : Prop := s.Apart a ∧ s.Exclusive a

instance (s : St ι τ) (a : Act ι τ) : Decidable (s.Ordered a) := inferInstanceAs (Decidable (_ ∧ _))

/-- What holds of all views in these runs. -/
theorem views_of_reach (h : (sys ι τ).Reach St.Ordered s) (t : τ) : Ok (s.view t) ∧ Held (s.view t) :=
  (view_inv True (fun _ _ ha => ha.1) (fun _ _ ha _ => ha.2) (P := fun v => Ok v ∧ Held v) ⟨ok_init, held_init⟩
    (fun _ _ hv hm => ⟨hv.1.move hm, hv.2.move hv.1 hm⟩) h).2 t

/-- **A removed task does not start running** in every run in which the task that `prs_sched_swprio_get_next`
takes from its ready queue was not stopped since the loop over `removeq` ended, and not stopped before that
with the push on `removeq` still to come; no task is stopped while `get_next` changes its state; a task does
not block or yield after it was stopped; and no task is pushed after `get_next` has looked for it to retire
it. A task that was stopped is then never running, and every `prs_task_change_state` of `get_next` finds the
state that it expects. -/
theorem stopped_not_run (h : (sys ι τ).Reach St.Ordered s) :
    (∀ t ∈ s.stopped, s.state t ≠ .running) ∧ s.mismatch = false := by
  refine ⟨fun t ht hr => ?_, ?_⟩
  · rcases (views_of_reach h t).2.stopped (decide_eq_true ht) with hst | hst
    · rw [show s.state t = .stopped from hst] at hr
      cases hr
    · rw [show s.state t = .zombie from hst] at hr
      cases hr
  · induction h with
    | init h =>
      obtain ⟨prio, rfl⟩ := h
      rfl
    | step hprev _ hs ih =>
      rw [← Bool.not_eq_true]
      intro hm
      rcases mismatch_of_step hs hm with hm | ⟨t, hm⟩
      · rw [ih] at hm
        cases hm
      · obtain ⟨ho, hh⟩ := views_of_reach hprev t
        obtain ⟨h1, h2, h3⟩ := hh.expected ho
        rcases hm with ⟨hr, hne⟩ | ⟨hr, hne⟩ | ⟨hr, hne⟩
        · exact hne (h1 hr)
        · exact hne (h2 hr)
        · exact hne (h3 hr)

/-- Tasks 0 and 1 are added. Task 1 is stopped while the worker takes task 0, and retired the next time. -/
theorem stopped_not_run_early : ∃ s, (sys (Fin 1) (Fin 2)).Reach St.Ordered s ∧ s.stopped = [1] ∧
    s.state 0 = .running ∧ s.state 1 = .zombie ∧ s.mismatch = false := by
  obtain ⟨s, hs, hst, hr, hz⟩ := System.exists_of_check (sys (Fin 1) (Fin 2)) St.Ordered
    (fun s => s.stopped = [1] ∧ s.state 0 = .running ∧ s.state 1 = .zombie) (.init fun _ => 3) ⟨fun _ => 3, rfl⟩
    (List.flatten [.add 0 :: .add 1 :: .getNext :: List.replicate 3 .worker,
      .remove 0 1 :: List.replicate 4 (.step 0),
      List.replicate 4 .worker, .getNext :: List.replicate 11 .worker])
    (by decide +kernel)
  exact ⟨s, hs, hst, hr, hz, (stopped_not_run hs).2⟩

/-- **A removed task starts running.** `prs_sched_swprio_get_next` has found `removeq` empty and the task at
the head of its queue when the task, which is ready, is stopped. -/
theorem stopped_run : ∃ s, (sys (Fin 1) (Fin 1)).Reachable s ∧ s.stopped = [0] ∧ s.state 0 = .running ∧
    s.mismatch = true := by
  obtain ⟨s, hs, hst, hr, hm⟩ := System.exists_of_check (sys (Fin 1) (Fin 1)) (fun _ _ => True)
    (fun s => s.stopped = [0] ∧ s.state 0 = .running ∧ s.mismatch = true) (.init fun _ => 3) ⟨fun _ => 3, rfl⟩
    (List.flatten [.add 0 :: .getNext :: List.replicate 3 .worker, .remove 0 0 :: List.replicate 3 (.step 0),
      List.replicate 4 .worker]) (by decide +kernel)
  exact ⟨s, hs, hst, hr, hm⟩

end Prs.SwprioSteps
