import Prs.Model.Contexts
import Prs.Proof.SwprioOrder

/-!
# A worker and the contexts of retired tasks

`prs_sched_swprio_get_next` does not retire the task that it is called with, because the worker executes on
its context. But a worker that has found nothing to run tries again with no current task, and is then still on
the context of the last one. If that task has been removed in the meantime, it is retired under the worker
(`retired_beneath`).

* `contexts_safe`: this is the only way. In every run in which no task is removed while the worker tries again
  on its context, or goes on to try again when it has been, no task is retired under the worker and no context
  of a retired task is saved to.
-/

namespace Prs.Contexts

open Function
open Prs.Worker (Flags Caller)

variable {τ : Type} {s s' : St τ} {t : τ}

/-- The worker has called `prs_sched_swprio_get_next` for the task whose context it executes on, and has none
to run. -/
def St.retries (s : St τ) : Bool :=
  match s.pc with
  | .top _ _ prevContext => prevContext.isSome
  | .scan _ _ => s.tasks.current.isNone
  | .retire _ _ _ => s.tasks.current.isNone
  | .idle _ _ => true
  | .suspend _ _ => true
  | _ => false

/-- `prs_sched_swprio_get_next` is about to choose the next task. -/
def St.chooses (s : St τ) : Bool :=
  match s.pc with
  | .select _ _ => true
  | _ => false

/-- No task is removed while the worker tries again on its context, and the worker does not come to try again
on the context of a task that was removed: it does not find all ready queues empty then. -/
def St.Parted (s : St τ) : Act τ → Prop
  | .remove t => s.retries = true → s.ctx ≠ .task t
  | .worker => s.chooses = true → ∀ t ∈ s.tasks.sched.removeq, s.ctx = .task t → ∃ p, s.tasks.sched.readyq p ≠ []
  | _ => True

instance [DecidableEq τ] (s : St τ) (a : Act τ) : Decidable (s.Parted a) := by
  unfold St.Parted
  split <;> infer_instance

/-- No task is retired while the worker executes on its context, and no context of a retired task is saved to. -/
def St.Safe (s : St τ) : Prop :=
  (∀ caller prevContext t, s.pc = .retire caller prevContext t → s.ctx ≠ .task t) ∧
    ∀ caller t next, s.pc = .swap caller (some (.task t)) next → t ∉ s.retired

/-! ## The invariant -/

/-- The context that a call of `prs_worker_schedule_internal` executes on, once it has a current task to look
at. -/
def Frame (ctx : Ctx τ) (caller : Caller) (prevContext : Option τ) : Prop :=
  caller = .entry ∧ ctx = .exit ∧ prevContext = none ∨ caller ≠ .entry ∧ ∃ t, ctx = .task t ∧ prevContext = some t

/-- The current task, when there is one, is the one whose context the worker executes on. -/
def Own (ctx : Ctx τ) (current : Option τ) : Prop := ∀ t, current = some t → ctx = .task t

/-- Where the worker is, its context and the current task. -/
def Shape (ctx : Ctx τ) (current : Option τ) (stop : Bool) : Pc τ → Prop
  | .entry => ctx = .exit ∧ (stop = false → current = none)
  | .top caller _ prevContext =>
    caller = .entry ∧ ctx = .exit ∧ prevContext = none ∧ current = none ∨
      caller ≠ .entry ∧ ∃ t, ctx = .task t ∧
        (current = some t ∧ prevContext = none ∨ current = none ∧ prevContext = some t)
  | .scan caller prevContext => Frame ctx caller prevContext ∧ Own ctx current
  | .retire caller prevContext t => Frame ctx caller prevContext ∧ Own ctx current ∧ ctx ≠ .task t
  | .select caller prevContext => Frame ctx caller prevContext ∧ Own ctx current
  | .idle caller prevContext => Frame ctx caller prevContext ∧ current = none
  | .suspend caller prevContext => Frame ctx caller prevContext ∧ current = none
  | .swap caller save next => current = some next ∧
    (caller = .entry ∧ ctx = .exit ∧ save = some .exit ∨
      caller ≠ .entry ∧ ∃ t, ctx = .task t ∧ save = some (.task t))
  | .prologue => ∃ t, ctx = .task t ∧ current = some t
  | .run => ∃ t, ctx = .task t ∧ current = some t
  | .handler => ∃ t, ctx = .task t ∧ current = some t
  | .exited => True

/-- The flags of the worker and its semaphore. -/
structure Flagged (flags : Flags) (resumes : ℕ) (current : Option τ) (pc : Pc τ) : Prop where
  quiet : pc ≠ .run → pc ≠ .handler → flags.interruptible = false
  idle : flags.idle = true → ∃ caller prevContext, pc = .suspend caller prevContext
  resumed : resumes = 0 ∨ resumes = 1 ∧ flags.idle = false ∧ ∃ caller prevContext,
    pc = .suspend caller prevContext
  woken : ∀ caller prevContext, pc = .suspend caller prevContext → flags.pending = true
  again : ∀ caller prevContext, pc = .top caller true prevContext → current = none →
    flags.pending = true ∨ flags.stop = true

structure Inv (s : St τ) : Prop where
  tasks : Swprio.Inv s.tasks
  current : Swprio.Current s.tasks
  retired : ∀ t ∈ s.retired, s.tasks.userdata t = false ∧ s.tasks.state t = .zombie
  here : ∀ t, s.ctx = .task t → s.tasks.userdata t = true
  shape : Shape s.ctx s.tasks.current s.flags.stop s.pc
  flagged : Flagged s.flags s.resumes s.tasks.current s.pc
  retry : s.retries = true → ∀ t, s.ctx = .task t → t ∉ s.tasks.sched.removeq
  chosen : ∀ caller prevContext, s.pc = .select caller prevContext →
    ∀ u, s.tasks.state u = .running → s.tasks.current = some u
  saved : ∀ t caller, s.saved t = some caller → caller ≠ .entry

theorem inv_init [DecidableEq τ] {prio : τ → Swprio.Prio} : Inv (St.init prio) where
  tasks := Swprio.inv_init
  current := Swprio.current_init
  retired := nofun
  here := nofun
  shape := ⟨rfl, fun _ => rfl⟩
  flagged := ⟨fun _ _ => rfl, nofun, .inl rfl, nofun, nofun⟩
  retry := nofun
  chosen := nofun
  saved := nofun

theorem Inv.safe (h : Inv s) : s.Safe := by
  refine ⟨fun caller prevContext t hpc => ?_, fun caller t next hpc ht => ?_⟩
  · have hs := h.shape
    rw [hpc] at hs
    exact hs.2.2
  · have hs := h.shape
    rw [hpc] at hs
    rcases hs.2 with ⟨-, -, hsave⟩ | ⟨-, u, hctx, hsave⟩
    · cases hsave
    · obtain rfl : t = u := by
        injection hsave with hsave
        injection hsave
      have := h.here t hctx
      rw [(h.retired t ht).1] at this
      cases this

/-! ## Calls that change the tasks -/

/-- What a call other than `get_next` leaves alone. -/
structure Kept (a b : Swprio.St τ) : Prop where
  current : b.current = a.current
  userdata : ∀ t, a.userdata t = true → b.userdata t = true
  zombie : ∀ t, a.userdata t = false ∧ a.state t = .zombie → b.userdata t = false ∧ b.state t = .zombie
  running : ∀ t, b.state t = .running → a.state t = .running ∨ a.current = some t

theorem Kept.refl (a : Swprio.St τ) : Kept a a := ⟨rfl, fun _ h => h, fun _ h => h, fun _ h => .inl h⟩

theorem Inv.kept (h : Inv s) {tasks : Swprio.St τ} (hk : Kept s.tasks tasks) (hI : Swprio.Inv tasks)
    (hC : Swprio.Current tasks)
    (hr : s.retries = true → ∀ t, s.ctx = .task t → t ∉ tasks.sched.removeq) : Inv { s with tasks := tasks } := by
  have hret : ({ s with tasks := tasks } : St τ).retries = s.retries := by
    unfold St.retries
    simp only [hk.current]
  constructor
  case tasks => exact hI
  case current => exact hC
  case retired => exact fun t ht => hk.zombie t (h.retired t ht)
  case here => exact fun t ht => hk.userdata t (h.here t ht)
  case shape =>
    have := h.shape
    rw [← hk.current] at this
    exact this
  case flagged =>
    have := h.flagged
    rw [← hk.current] at this
    exact this
  case retry =>
    rw [hret]
    exact hr
  case chosen =>
    intro caller prevContext hpc u hu
    rw [hk.current]
    rcases hk.running u hu with hu | hu
    · exact h.chosen caller prevContext hpc u hu
    · exact hu
  case saved => exact h.saved

/-! ## Calls that post to the worker -/

theorem flagged_post {current : Option τ} (h : Flagged s.flags s.resumes current s.pc) (interrupt : Bool) :
    Flagged (s.post interrupt).flags (s.post interrupt).resumes current s.pc := by
  unfold St.post
  split
  · rename_i hi
    have hr : s.resumes = 0 := by
      rcases h.resumed with hr | ⟨-, hn, -⟩
      · exact hr
      · rw [hi] at hn
        cases hn
    refine ⟨h.quiet, nofun, .inr ⟨?_, rfl, h.idle hi⟩, fun _ _ _ => rfl, fun _ _ _ _ => .inl rfl⟩
    show s.resumes + 1 = 1
    rw [hr]
  · exact ⟨h.quiet, h.idle, h.resumed, fun _ _ _ => rfl, fun _ _ _ _ => .inl rfl⟩

theorem Inv.post (h : Inv s) (interrupt : Bool) : Inv (s.post interrupt) := by
  have hf := flagged_post h.flagged interrupt
  unfold St.post at hf ⊢
  split
  · rename_i hi
    rw [if_pos hi] at hf
    exact ⟨h.tasks, h.current, h.retired, h.here, h.shape, hf, h.retry, h.chosen, h.saved⟩
  · rename_i hi
    rw [if_neg hi] at hf
    exact ⟨h.tasks, h.current, h.retired, h.here, h.shape, hf, h.retry, h.chosen, h.saved⟩

theorem Inv.preempt (h : Inv s) (t : τ) : Inv (s.preempt t) := by
  unfold St.preempt
  split
  · exact h.post true
  · split
    · exact h.post true
    · exact h

theorem shape_stop {ctx : Ctx τ} {current : Option τ} {stop : Bool} {pc : Pc τ} (h : Shape ctx current stop pc) :
    Shape ctx current true pc := by
  cases pc with
  | entry => exact ⟨h.1, fun hf => absurd hf.symm Bool.false_ne_true⟩
  | _ => exact h

theorem Inv.stop (h : Inv s) : Inv { s with flags := { s.flags with stop := true } } := by
  refine ⟨h.tasks, h.current, h.retired, h.here, shape_stop h.shape, ?_, h.retry, h.chosen, h.saved⟩
  exact ⟨h.flagged.quiet, h.flagged.idle, h.flagged.resumed, h.flagged.woken, fun _ _ _ _ => .inr rfl⟩

/-! ## The worker -/

/-- A step of the worker that changes only where it is, and its flags. -/
theorem Inv.goto (h : Inv s) (pc : Pc τ) {flags : Flags} {resumes : ℕ} {signal : Bool}
    (hs : Shape s.ctx s.tasks.current flags.stop pc) (hf : Flagged flags resumes s.tasks.current pc)
    (hr : ({ s with pc := pc } : St τ).retries = true → ∀ t, s.ctx = .task t → t ∉ s.tasks.sched.removeq)
    (hc : ∀ caller prevContext, pc = .select caller prevContext →
      ∀ u, s.tasks.state u = .running → s.tasks.current = some u) :
    Inv { s with flags := flags, resumes := resumes, signal := signal, pc := pc } :=
  ⟨h.tasks, h.current, h.retired, h.here, hs, hf, hr, hc, h.saved⟩

/-- The flags at a place where the worker is neither interruptible nor idle. -/
def Quiet (flags : Flags) (resumes : ℕ) : Prop := flags.interruptible = false ∧ flags.idle = false ∧ resumes = 0

theorem Flagged.notIdle {flags : Flags} {resumes : ℕ} {current : Option τ} {pc : Pc τ}
    (h : Flagged flags resumes current pc) (hpc : ∀ caller prevContext, pc ≠ .suspend caller prevContext) :
    flags.idle = false ∧ resumes = 0 := by
  refine ⟨?_, ?_⟩
  · rw [← Bool.not_eq_true]
    intro hidle
    obtain ⟨caller, prevContext, he⟩ := h.idle hidle
    exact hpc caller prevContext he
  · rcases h.resumed with hr | ⟨-, -, caller, prevContext, he⟩
    · exact hr
    · exact absurd he (hpc caller prevContext)

theorem flagged_quiet {flags : Flags} {resumes : ℕ} {current : Option τ} {pc : Pc τ} (hq : Quiet flags resumes)
    (hpc : ∀ caller prevContext, pc ≠ .suspend caller prevContext)
    (hag : ∀ caller prevContext, pc = .top caller true prevContext → current = none →
      flags.pending = true ∨ flags.stop = true) : Flagged flags resumes current pc := by
  refine ⟨fun _ _ => hq.1, fun hi => ?_, .inl hq.2.2, fun caller prevContext he =>
    absurd he (hpc caller prevContext), hag⟩
  rw [hq.2.1] at hi
  cases hi

/-- The worker goes to its exit context. -/
theorem Inv.leave (h : Inv s) {flags : Flags} (hq : Quiet flags s.resumes)
    (hc : flags.stop = false → s.tasks.current = none) : Inv ({ s with flags := flags } : St τ).leave :=
  ⟨h.tasks, h.current, h.retired, nofun, ⟨rfl, hc⟩, flagged_quiet hq nofun nofun, nofun, nofun, h.saved⟩

theorem shape_back {ctx : Ctx τ} {current : Option τ} {stop : Bool} {caller : Caller} (hc : caller ≠ .entry)
    (h : ∃ t, ctx = .task t ∧ current = some t) : Shape ctx current stop (back caller) := by
  cases caller with
  | entry => exact absurd rfl hc
  | prologue => exact h
  | task => exact h

theorem back_ne (caller : Caller) :
    (∀ c p, (back caller : Pc τ) ≠ .suspend c p) ∧ (∀ c b p, (back caller : Pc τ) ≠ .top c b p) ∧
      (∀ c p, (back caller : Pc τ) ≠ .select c p) ∧ (∀ c p, (back caller : Pc τ) ≠ .scan c p) ∧
      ∀ c p t, (back caller : Pc τ) ≠ .retire c p t := by
  cases caller <;> exact ⟨nofun, nofun, nofun, nofun, nofun⟩

theorem retries_back (caller : Caller) (s : St τ) : ({ s with pc := back caller } : St τ).retries = false := by
  cases caller <;> rfl

/-- A call of `prs_worker_schedule_internal` by a task ends. -/
theorem Inv.back (h : Inv s) {caller : Caller} (hc : caller ≠ .entry) {flags : Flags} (hq : Quiet flags s.resumes)
    (hown : ∃ t, s.ctx = .task t ∧ s.tasks.current = some t) :
    Inv { s with flags := flags, pc := back caller } := by
  obtain ⟨hb1, hb2, hb3, -⟩ := back_ne (τ := τ) caller
  refine h.goto (Contexts.back caller) (shape_back hc hown) ?_ ?_ fun c p hp => absurd hp (hb3 c p)
  · exact flagged_quiet hq hb1 fun c p hp => absurd hp (hb2 c true p)
  · rw [retries_back]
    nofun

/-- The worker tries again. -/
theorem Inv.again (h : Inv s) {caller : Caller} {prevContext : Option τ} (hframe : Frame s.ctx caller prevContext)
    (hcur : s.tasks.current = none) (hret : s.retries = true) {resumes : ℕ} (hq : Quiet s.flags resumes)
    (hag : s.flags.pending = true ∨ s.flags.stop = true) :
    Inv { s with resumes := resumes, pc := .top caller true prevContext } := by
  refine h.goto (.top caller true prevContext) ?_ (flagged_quiet hq nofun fun _ _ _ _ => hag)
    (fun _ => h.retry hret) nofun
  rcases hframe with ⟨hce, hctx, hprev⟩ | ⟨hce, t, hctx, hprev⟩
  · exact .inl ⟨hce, hctx, hprev, hcur⟩
  · exact .inr ⟨hce, t, hctx, .inr ⟨hcur, hprev⟩⟩

/-- The task whose context the worker is on starts a call of `prs_worker_schedule_internal`. -/
theorem Inv.call (h : Inv s) (hown : ∃ t, s.ctx = .task t ∧ s.tasks.current = some t) (caller : Caller)
    (hc : caller ≠ .entry) (check : Bool) {flags : Flags} (hq : Quiet flags s.resumes) :
    Inv { s with flags := flags, pc := .top caller check none } := by
  obtain ⟨t, hctx, hcur⟩ := hown
  refine h.goto (.top caller check none) (.inr ⟨hc, t, hctx, .inl ⟨hcur, rfl⟩⟩)
    (flagged_quiet hq nofun fun _ _ _ hn => ?_)
    nofun nofun
  rw [hcur] at hn
  cases hn

/-- The current task is still to be removed when the worker leaves it. -/
theorem current_none {a : Swprio.St τ} (h : Swprio.Current a) (hc : a.current = some t)
    (ht : t ∈ a.sched.removeq) :
    Swprio.Current { a with current := none, leaving := false } := by
  refine ⟨fun u hu hr => ?_, nofun, nofun⟩
  have := h.running u hu hr
  rw [hc] at this
  exact absurd (Option.some.inj this ▸ ht) hu

/-! ## Steps -/

variable [DecidableEq τ]

/-- The state of a task with `sched_userdata` changes. -/
theorem kept_setState {a b : Swprio.St τ} {x : Swprio.TaskState} (hc : b.current = a.current)
    (hd : b.userdata = a.userdata) (hs : b.state = update a.state t x) (ht : a.userdata t = true)
    (hx : x = .running → a.current = some t) : Kept a b := by
  refine ⟨hc, fun u hu => by rw [hd]; exact hu, fun u hu => ?_, fun u hu => ?_⟩
  · have hut : u ≠ t := by
      rintro rfl
      rw [ht] at hu
      exact Bool.false_ne_true hu.1.symm
    rw [hd, hs, update_of_ne hut]
    exact hu
  · rw [hs] at hu
    by_cases hut : u = t
    · subst hut
      rw [update_self] at hu
      exact .inr (hx hu)
    · rw [update_of_ne hut] at hu
      exact .inl hu

theorem kept_add {a b : Swprio.St τ} (hs : a.step (.add t) = some b) : Kept a b := by
  obtain ⟨⟨hd, hst⟩, rfl⟩ := Option.ite_none_right_eq_some.1 hs |>.imp_right Option.some.inj
  refine ⟨rfl, fun u hu => ?_, fun u hu => ?_, fun u hu => ?_⟩
  all_goals simp only [Swprio.St.ready, Swprio.St.setState] at *
  · by_cases hut : u = t
    · subst hut
      exact update_self ..
    · rw [update_of_ne hut]
      exact hu
  · have hut : u ≠ t := by
      rintro rfl
      rw [hst] at hu
      cases hu.2
    rw [update_of_ne hut, update_of_ne hut]
    exact hu
  · by_cases hut : u = t
    · subst hut
      rw [update_self] at hu
      cases hu
    · rw [update_of_ne hut] at hu
      exact .inl hu

theorem kept_unblock {a b : Swprio.St τ} (hI : Swprio.Inv a) {remote : Bool}
    (hs : a.step (.unblock t remote) = some b) : Kept a b := by
  simp only [Swprio.St.step] at hs
  split at hs
  · rename_i hb
    have hd := (hI.busy t (.inr hb)).2
    split at hs
    · rename_i hr
      rw [← Option.some.inj hs]
      exact kept_setState rfl rfl rfl hd fun _ => hr.2
    · rw [← Option.some.inj hs]
      exact kept_setState rfl rfl rfl hd fun hx => by cases hx
  · rw [← Option.some.inj hs]
    exact Kept.refl a

theorem kept_remove {a b : Swprio.St τ} (hs : a.step (.remove t) = some b) : Kept a b := by
  obtain ⟨⟨hd, -⟩, hs⟩ := Option.ite_none_right_eq_some.1 hs
  split at hs
  · rw [← Option.some.inj hs]
    exact kept_setState rfl rfl rfl hd fun hx => by cases hx
  · rw [← Option.some.inj hs]
    exact Kept.refl a

theorem kept_block {a b : Swprio.St τ} (hC : Swprio.Current a) (hs : a.step .block = some b) : Kept a b := by
  simp only [Swprio.St.step] at hs
  split at hs
  · rename_i t hc
    split at hs
    · rw [← Option.some.inj hs]
      exact kept_setState rfl rfl rfl (hC.added t hc) fun hx => by cases hx
    · cases hs
  · cases hs

theorem kept_yield {a b : Swprio.St τ} (hC : Swprio.Current a) (hs : a.step .yield = some b) : Kept a b := by
  simp only [Swprio.St.step] at hs
  split at hs
  · rename_i t hc
    split at hs
    · rw [← Option.some.inj hs]
      refine kept_setState rfl rfl ?_ (hC.added t hc) (fun hx => by cases hx) (x := .ready)
      simp only [Swprio.St.ready, Swprio.St.setState, update_idem]
    · cases hs
  · cases hs

theorem Inv.evict (h : Inv s) (t : τ) (running : Bool) : Inv (s.evict t running) := by
  unfold St.evict
  split
  · exact h.post true
  · exact h

theorem Inv.top (h : Inv s) {caller : Caller} {check : Bool} {prevContext : Option τ}
    (hpc : s.pc = .top caller check prevContext) (hs : s.worker = some s') : Inv s' := by
  have hsh := h.shape
  have hfl := h.flagged
  rw [hpc] at hsh hfl
  have hq : Quiet s.flags s.resumes := ⟨hfl.quiet nofun nofun, hfl.notIdle nofun⟩
  -- where the worker goes on to look for a task
  have hgo : ∀ flags : Flags, Quiet flags s.resumes →
      Inv { s with flags := flags, pc := .scan caller (s.tasks.current.or prevContext) } := by
    intro flags hq
    refine h.goto (.scan caller (s.tasks.current.or prevContext)) ?_ (flagged_quiet hq nofun nofun) ?_ nofun
    · rcases hsh with ⟨rfl, hctx, rfl, hcur⟩ | ⟨hce, t, hctx, ⟨hcur, rfl⟩ | ⟨hcur, rfl⟩⟩
      · refine ⟨.inl ⟨rfl, hctx, by rw [hcur]; rfl⟩, fun t ht => ?_⟩
        rw [hcur] at ht
        cases ht
      · refine ⟨.inr ⟨hce, t, hctx, by rw [hcur]; rfl⟩, fun u hu => ?_⟩
        rw [hcur] at hu
        rw [hctx, Option.some.inj hu]
      · refine ⟨.inr ⟨hce, t, hctx, by rw [hcur]; rfl⟩, fun u hu => ?_⟩
        rw [hcur] at hu
        cases hu
    · intro hr t ht
      rcases hsh with ⟨-, hctx, -, -⟩ | ⟨hce, u, hctx, ⟨hcur, -⟩ | ⟨hcur, rfl⟩⟩
      · rw [hctx] at ht
        cases ht
      · simp only [St.retries, hcur, Option.isNone_some] at hr
        cases hr
      · exact h.retry (by simp only [St.retries, hpc, Option.isSome_some]) t ht
  unfold St.worker at hs
  rw [hpc] at hs
  cases check with
  | false =>
    rw [← Option.some.inj hs]
    exact hgo s.flags hq
  | true =>
    simp only [if_true] at hs
    split at hs
    · rename_i hstop
      rw [← Option.some.inj hs]
      exact h.leave hq fun hno => absurd (hno.symm.trans hstop) nofun
    · rename_i hstop
      split at hs
      · rw [← Option.some.inj hs]
        exact hgo { s.flags with pending := false } hq
      · rename_i hpend
        rw [← Option.some.inj hs]
        -- a worker that tries again has an interrupt pending, or is to stop
        have hcur : s.tasks.current ≠ none := by
          intro hcur
          rcases hfl.again caller prevContext rfl hcur with hp | hp
          · exact hpend hp
          · exact hstop hp
        have hown : caller ≠ .entry ∧ ∃ t, s.ctx = .task t ∧ s.tasks.current = some t := by
          rcases hsh with ⟨-, -, -, hn⟩ | ⟨hce, t, hctx, ⟨hcur', -⟩ | ⟨hn, -⟩⟩
          · exact absurd hn hcur
          · exact ⟨hce, t, hctx, hcur'⟩
          · exact absurd hn hcur
        exact h.back hown.1 hq hown.2

theorem Inv.scan (h : Inv s) {caller : Caller} {prevContext : Option τ} (hpc : s.pc = .scan caller prevContext)
    (hs : s.worker = some s') : Inv s' := by
  have hsh := h.shape
  have hfl := h.flagged
  rw [hpc] at hsh hfl
  have hq : Quiet s.flags s.resumes := ⟨hfl.quiet nofun nofun, hfl.notIdle nofun⟩
  unfold St.worker at hs
  rw [hpc] at hs
  simp only at hs
  split at hs
  · rename_i hnil
    rw [← Option.some.inj hs]
    exact h.goto (.select caller prevContext) hsh (flagged_quiet hq nofun nofun) nofun
      fun _ _ _ => h.current.running_of_nil hnil
  · rename_i t ts hts
    have ht : t ∈ s.tasks.sched.removeq := by
      rw [hts]
      exact List.mem_cons_self
    split at hs
    · rename_i hcur
      rw [← Option.some.inj hs]
      refine ⟨h.tasks.frame, current_none h.current hcur ht, h.retired, nofun, ⟨rfl, fun _ => rfl⟩, ?_, nofun,
        nofun, h.saved⟩
      exact flagged_quiet hq nofun nofun
    · rename_i hcur
      rw [← Option.some.inj hs]
      have hctx : s.ctx ≠ .task t := by
        intro hctx
        cases hc : s.tasks.current with
        | none => exact h.retry (by simp only [St.retries, hpc, hc, Option.isNone_none]) t hctx ht
        | some u =>
          have hu := hsh.2 u hc
          rw [hctx] at hu
          injection hu with hu
          exact hcur (hu ▸ hc)
      refine h.goto (.retire caller prevContext t) ⟨hsh.1, hsh.2, hctx⟩ (flagged_quiet hq nofun nofun)
        (fun hr => ?_) nofun
      refine h.retry ?_
      simp only [St.retries, hpc]
      exact hr

theorem Inv.retire (h : Inv s) {caller : Caller} {prevContext : Option τ}
    (hpc : s.pc = .retire caller prevContext t) :
    Inv { s with tasks := s.tasks.retire t, retired := t :: s.retired, pc := .scan caller prevContext } := by
  have hsh := h.shape
  have hfl := h.flagged
  rw [hpc] at hsh hfl
  obtain ⟨hframe, hown, hctx⟩ := hsh
  have hq : Quiet s.flags s.resumes := ⟨hfl.quiet nofun nofun, hfl.notIdle nofun⟩
  have hf : Flagged s.flags s.resumes s.tasks.current (.scan caller prevContext) := flagged_quiet hq nofun nofun
  have hcur : s.tasks.current ≠ some t := fun hc => hctx (hown t hc)
  constructor
  case tasks => exact h.tasks.retire
  case current => exact h.current.retire h.tasks hcur
  case retired =>
    intro u hu
    simp only [Swprio.St.retire]
    by_cases hut : u = t
    · rw [hut, update_self, update_self]
      exact ⟨rfl, rfl⟩
    · rw [update_of_ne hut, update_of_ne hut]
      exact h.retired u (List.mem_of_ne_of_mem hut hu)
  case here =>
    intro u hu
    have hut : u ≠ t := by
      rintro rfl
      exact hctx hu
    simp only [Swprio.St.retire, update_of_ne hut]
    exact h.here u hu
  case shape => exact ⟨hframe, hown⟩
  case flagged => exact hf
  case retry =>
    intro hr u hu hm
    refine h.retry ?_ u hu (List.mem_of_mem_erase hm)
    simp only [St.retries, hpc]
    exact hr
  case chosen => exact fun c p hp => by cases hp
  case saved => exact h.saved

section Select

variable {caller : Caller} {prevContext : Option τ} {o : Option τ} {tasks : Swprio.St τ}

/-- The choice of `prs_sched_swprio_get_next` retires no task. -/
theorem Inv.chose (h : Inv s) (hsel : Swprio.Selected s.tasks.searched (o, tasks)) {pc : Pc τ}
    (hs : Shape s.ctx o s.flags.stop pc) (hf : Flagged s.flags s.resumes o pc)
    (hr : ({ s with pc := pc } : St τ).retries = true → ∀ t, s.ctx = .task t → t ∉ s.tasks.sched.removeq)
    (hpc : (∀ c p, pc ≠ .scan c p) ∧ (∀ c p t, pc ≠ .retire c p t) ∧ ∀ c p, pc ≠ .select c p) :
    Inv { s with tasks := { tasks with current := o, leaving := false }, pc := pc } := by
  constructor
  case tasks => exact hsel.inv.frame
  case current => exact hsel.current
  case retired =>
    intro t ht
    obtain ⟨hd, hz⟩ := h.retired t ht
    have hu : tasks.userdata = s.tasks.userdata := hsel.userdata
    simp only [hu]
    exact ⟨hd, (hsel.others t hd).trans hz⟩
  case here =>
    intro t ht
    have hu : tasks.userdata = s.tasks.userdata := hsel.userdata
    simp only [hu]
    exact h.here t ht
  case shape => exact hs
  case flagged => exact hf
  case retry =>
    have hremq : tasks.sched.removeq = s.tasks.sched.removeq := hsel.removeq.trans h.tasks.found.removeq
    simp only [hremq]
    intro hret
    refine hr ?_
    unfold St.retries at hret ⊢
    cases pc with
    | scan c p => exact absurd rfl (hpc.1 c p)
    | retire c p t => exact absurd rfl (hpc.2.1 c p t)
    | _ => exact hret
  case chosen => exact fun c p he => absurd he (hpc.2.2 c p)
  case saved => exact h.saved

/-- There is a task to run. -/
theorem Inv.chose_some (h : Inv s) (hpc : s.pc = .select caller prevContext) {next : τ}
    (hsel : Swprio.Selected s.tasks.searched (some next, tasks)) :
    Inv { s with
      tasks := { tasks with current := some next, leaving := false }
      pc := if s.tasks.current = some next then Contexts.back caller
        else .swap caller (saveContext caller prevContext) next } := by
  have hsh := h.shape
  have hfl := h.flagged
  rw [hpc] at hsh hfl
  obtain ⟨hframe, hown⟩ := hsh
  have hq : Quiet s.flags s.resumes := ⟨hfl.quiet nofun nofun, hfl.notIdle nofun⟩
  split
  · rename_i hcur
    have hctx := hown next hcur
    have hce : caller ≠ .entry := by
      rcases hframe with ⟨-, hexit, -⟩ | ⟨hce, -⟩
      · rw [hctx] at hexit
        cases hexit
      · exact hce
    obtain ⟨hb1, hb2, hb3, hb4, hb5⟩ := back_ne (τ := τ) caller
    refine h.chose hsel (shape_back hce ⟨next, hctx, rfl⟩)
      (flagged_quiet hq hb1 fun c p hp => absurd hp (hb2 c true p)) ?_
      ⟨hb4, hb5, hb3⟩
    rw [retries_back]
    nofun
  · refine h.chose hsel ⟨rfl, ?_⟩ (flagged_quiet hq nofun nofun) nofun ⟨nofun, nofun, nofun⟩
    rcases hframe with ⟨rfl, hctx, rfl⟩ | ⟨hce, t, hctx, rfl⟩
    · exact .inl ⟨rfl, hctx, rfl⟩
    · exact .inr ⟨hce, t, hctx, rfl⟩

/-- There is no task to run, so all ready queues are empty. -/
theorem Inv.chose_none (h : Inv s) (hpc : s.pc = .select caller prevContext) (hp : s.Parted .worker)
    (hsel : Swprio.Selected s.tasks.searched (none, tasks)) :
    Inv { s with tasks := { tasks with current := none, leaving := false }, pc := .idle caller prevContext } := by
  have hsh := h.shape
  have hfl := h.flagged
  rw [hpc] at hsh hfl
  have hq : Quiet s.flags s.resumes := ⟨hfl.quiet nofun nofun, hfl.notIdle nofun⟩
  refine h.chose hsel ⟨hsh.1, rfl⟩ (flagged_quiet hq nofun nofun) (fun _ t ht hm => ?_) ⟨nofun, nofun, nofun⟩
  have harr : s.tasks.arrivals = [] := ((Swprio.serve_eq_none _).1 (congrArg Prod.fst hsel.order).symm).2
  obtain ⟨p, hne⟩ := hp (by simp only [St.chooses, hpc]) t hm ht
  rw [h.tasks.queue, harr] at hne
  exact hne rfl

theorem Inv.select (h : Inv s) (hpc : s.pc = .select caller prevContext) (hp : s.Parted .worker) :
    Inv (s.select caller prevContext) := by
  have hsel := Swprio.choice_spec h.tasks h.current (h.chosen caller prevContext hpc)
  unfold St.select
  simp only
  unfold Swprio.St.searched at hsel
  revert hsel
  generalize ({ s.tasks with sched := (s.tasks.sched.search 32 s.tasks.sched.readyMask).1 } : Swprio.St τ).select
    (s.tasks.sched.search 32 s.tasks.sched.readyMask).2 = r
  intro hsel
  obtain ⟨o, tasks⟩ := r
  cases o with
  | none => exact h.chose_none hpc hp hsel
  | some next => exact h.chose_some hpc hsel

end Select

theorem Inv.idle (h : Inv s) {caller : Caller} {prevContext : Option τ} (hpc : s.pc = .idle caller prevContext)
    (hs : s.worker = some s') : Inv s' := by
  have hsh := h.shape
  have hfl := h.flagged
  rw [hpc] at hsh hfl
  obtain ⟨hframe, hcur⟩ := hsh
  have hq : Quiet s.flags s.resumes := ⟨hfl.quiet nofun nofun, hfl.notIdle nofun⟩
  have hret : s.retries = true := by simp only [St.retries, hpc]
  unfold St.worker at hs
  rw [hpc] at hs
  simp only at hs
  split at hs
  · rw [← Option.some.inj hs]
    refine h.goto (.suspend caller prevContext) ⟨hframe, hcur⟩ ?_ (fun _ => h.retry hret) nofun
    exact ⟨fun _ _ => rfl, fun _ => ⟨caller, prevContext, rfl⟩, .inl hq.2.2, fun _ _ _ => rfl, nofun⟩
  · rename_i hne
    rw [← Option.some.inj hs]
    refine h.again hframe hcur hret hq ?_
    by_contra hno
    rw [not_or, Bool.not_eq_true, Bool.not_eq_true] at hno
    apply hne
    obtain ⟨hi, hid, -⟩ := hq
    generalize s.flags = flags at hi hid hno
    cases flags
    simp only at hi hid hno
    rw [hi, hid, hno.1, hno.2]
    rfl

theorem Inv.suspend (h : Inv s) {caller : Caller} {prevContext : Option τ}
    (hpc : s.pc = .suspend caller prevContext) (hs : s.worker = some s') : Inv s' := by
  have hsh := h.shape
  have hfl := h.flagged
  rw [hpc] at hsh hfl
  have hret : s.retries = true := by simp only [St.retries, hpc]
  unfold St.worker at hs
  rw [hpc] at hs
  obtain ⟨hpos, hs⟩ := Option.ite_none_right_eq_some.1 hs
  rw [← Option.some.inj hs]
  rcases hfl.resumed with hz | ⟨hone, hidle, -⟩
  · omega
  · refine h.again hsh.1 hsh.2 hret ⟨hfl.quiet nofun nofun, hidle, ?_⟩ (.inl (hfl.woken caller prevContext rfl))
    omega

theorem Inv.swap (h : Inv s) {caller : Caller} {save : Option (Ctx τ)} {next : τ}
    (hpc : s.pc = .swap caller save next) (hs : s.worker = some s') : Inv s' := by
  have hsh := h.shape
  have hfl := h.flagged
  rw [hpc] at hsh hfl
  obtain ⟨hcur, hsave⟩ := hsh
  have hq : Quiet s.flags s.resumes := ⟨hfl.quiet nofun nofun, hfl.notIdle nofun⟩
  have hsaved : ∀ t c, s.save caller save t = some c → c ≠ .entry := by
    intro t c hc
    rcases hsave with ⟨-, -, rfl⟩ | ⟨hce, u, -, rfl⟩
    · exact h.saved t c hc
    · simp only [St.save, update_apply] at hc
      split at hc
      · rw [← Option.some.inj hc]
        exact hce
      · exact h.saved t c hc
  unfold St.worker at hs
  rw [hpc] at hs
  rw [← Option.some.inj hs]
  -- the worker is on the context of the next task
  have hnext : Inv { s with ctx := .task next, saved := s.save caller save, pc := .run } := by
    refine ⟨h.tasks, h.current, h.retired, fun t ht => ?_, ⟨next, rfl, hcur⟩, flagged_quiet hq nofun nofun,
      nofun, nofun, hsaved⟩
    injection ht with ht
    rw [← ht]
    exact h.current.added next hcur
  split
  · rename_i c hc
    exact hnext.back (hsaved next c hc) hq ⟨next, rfl, hcur⟩
  · refine hnext.goto (.top .prologue true none) (.inr ⟨nofun, next, rfl, .inl ⟨hcur, rfl⟩⟩)
      (flagged_quiet hq nofun fun _ _ _ hn => ?_) nofun nofun
    rw [hcur] at hn
    cases hn

theorem Inv.worker (h : Inv s) (hp : s.Parted .worker) (hs : s.worker = some s') : Inv s' := by
  have hsh := h.shape
  have hfl := h.flagged
  cases hpc : s.pc with
  | entry =>
    rw [hpc] at hsh hfl
    have hq : Quiet s.flags s.resumes := ⟨hfl.quiet nofun nofun, hfl.notIdle nofun⟩
    unfold St.worker at hs
    rw [hpc] at hs
    rw [← Option.some.inj hs]
    split
    · exact h.goto .exited trivial (flagged_quiet hq nofun nofun) nofun nofun
    · rename_i hstop
      exact h.goto (.top .entry false none) (.inl ⟨rfl, hsh.1, rfl, hsh.2 (Bool.not_eq_true _ |>.mp hstop)⟩)
        (flagged_quiet hq nofun nofun) nofun nofun
  | top caller check prevContext => exact h.top hpc hs
  | scan caller prevContext => exact h.scan hpc hs
  | retire caller prevContext t =>
    unfold St.worker at hs
    rw [hpc] at hs
    rw [← Option.some.inj hs]
    exact h.retire hpc
  | select caller prevContext =>
    unfold St.worker at hs
    rw [hpc] at hs
    rw [← Option.some.inj hs]
    exact h.select hpc hp
  | idle caller prevContext => exact h.idle hpc hs
  | suspend caller prevContext => exact h.suspend hpc hs
  | swap caller save next => exact h.swap hpc hs
  | prologue =>
    rw [hpc] at hsh hfl
    have hq : Quiet s.flags s.resumes := ⟨hfl.quiet nofun nofun, hfl.notIdle nofun⟩
    unfold St.worker at hs
    rw [hpc] at hs
    simp only at hs
    split at hs
    · rw [← Option.some.inj hs]
      exact h.goto .run hsh ⟨fun hn => absurd rfl hn, nofun, .inl hq.2.2, nofun, nofun⟩ nofun nofun
    · rw [← Option.some.inj hs]
      exact h.call hsh .prologue nofun true hq
  | handler =>
    rw [hpc] at hsh hfl
    have hq : Quiet { s.flags with interruptible := false } s.resumes := ⟨rfl, hfl.notIdle nofun⟩
    unfold St.worker at hs
    rw [hpc] at hs
    rw [← Option.some.inj hs]
    simp only
    split
    · exact h.call hsh .prologue nofun true hq
    · exact h.back (show Caller.task ≠ .entry from nofun) hq hsh
  | run =>
    unfold St.worker at hs
    rw [hpc] at hs
    cases hs
  | exited =>
    unfold St.worker at hs
    rw [hpc] at hs
    cases hs

theorem removeq_unblock {a b : Swprio.St τ} {remote : Bool} (hs : a.step (.unblock t remote) = some b) :
    b.sched.removeq = a.sched.removeq := by
  simp only [Swprio.St.step] at hs
  split at hs
  · split at hs
    · rw [← Option.some.inj hs]
      rfl
    · rw [← Option.some.inj hs]
      rfl
  · rw [← Option.some.inj hs]

theorem Inv.unblock (h : Inv s) {remote : Bool} (hs : s.step (.unblock t remote) = some s') : Inv s' := by
  simp only [St.step] at hs
  split at hs
  · cases hs
  · obtain ⟨tasks, ht, rfl⟩ := Option.map_eq_some_iff.1 hs
    obtain ⟨hI, hC⟩ := h.tasks.step h.current ht
    have hk : Inv { s with tasks := tasks } := by
      refine h.kept (kept_unblock h.tasks ht) hI hC ?_
      rw [removeq_unblock ht]
      exact h.retry
    split
    · exact hk.preempt t
    · exact hk

theorem Inv.remove (h : Inv s) (hp : s.Parted (.remove t)) (hs : s.step (.remove t) = some s') : Inv s' := by
  obtain ⟨tasks, ht, rfl⟩ := Option.map_eq_some_iff.1 hs
  obtain ⟨hI, hC⟩ := h.tasks.step h.current ht
  refine Inv.evict (h.kept (kept_remove ht) hI hC fun hr u hu hm => ?_) t _
  have hut : u ≠ t := by
    rintro rfl
    exact hp hr hu
  obtain ⟨-, ht⟩ := Option.ite_none_right_eq_some.1 ht
  split at ht
  · rw [← Option.some.inj ht] at hm
    rcases List.mem_append.1 hm with hm | hm
    · exact h.retry hr u hu hm
    · exact hut (List.mem_singleton.1 hm)
  · rw [← Option.some.inj ht] at hm
    exact h.retry hr u hu hm

/-- What the current task does leaves the queue of the removed tasks as it is. -/
theorem removeq_leaves {a b : Swprio.St τ} (hs : a.step .block = some b ∨ a.step .yield = some b) :
    b.sched.removeq = a.sched.removeq := by
  rcases hs with hs | hs
  all_goals
    simp only [Swprio.St.step] at hs
    split at hs
    · split at hs
      · rw [← Option.some.inj hs]
        rfl
      · cases hs
    · cases hs

theorem Inv.step (h : Inv s) {a : Act τ} (hp : s.Parted a) (hs : s.step a = some s') : Inv s' := by
  cases a with
  | add t =>
    obtain ⟨tasks, ht, rfl⟩ := Option.map_eq_some_iff.1 hs
    obtain ⟨hI, hC⟩ := h.tasks.step h.current ht
    refine Inv.preempt (h.kept (kept_add ht) hI hC ?_) t
    obtain ⟨-, rfl⟩ := Option.ite_none_right_eq_some.1 ht |>.imp_right Option.some.inj
    exact h.retry
  | unblock t remote => exact h.unblock hs
  | remove t => exact h.remove hp hs
  | post interrupt =>
    rw [← Option.some.inj hs]
    exact h.post interrupt
  | stop =>
    rw [← Option.some.inj hs]
    exact h.stop.post true
  | worker => exact h.worker hp hs
  | block =>
    obtain ⟨hcalls, hs⟩ := Option.ite_none_right_eq_some.1 hs
    obtain ⟨tasks, ht, rfl⟩ := Option.map_eq_some_iff.1 hs
    obtain ⟨hI, hC⟩ := h.tasks.step h.current ht
    refine h.kept (kept_block h.current ht) hI hC ?_
    rw [removeq_leaves (.inl ht)]
    exact h.retry
  | yield =>
    obtain ⟨hcalls, hs⟩ := Option.ite_none_right_eq_some.1 hs
    obtain ⟨tasks, ht, rfl⟩ := Option.map_eq_some_iff.1 hs
    obtain ⟨hI, hC⟩ := h.tasks.step h.current ht
    refine h.kept (kept_yield h.current ht) hI hC ?_
    rw [removeq_leaves (.inr ht)]
    exact h.retry
  | schedule =>
    obtain ⟨⟨hpc, hint⟩, rfl⟩ := Option.ite_none_right_eq_some.1 hs |>.imp_right Option.some.inj
    have hsh := h.shape
    have hfl := h.flagged
    rw [hpc] at hsh hfl
    exact h.call hsh .task nofun false ⟨hint, hfl.notIdle nofun⟩
  | disable =>
    obtain ⟨hpc, rfl⟩ := Option.ite_none_right_eq_some.1 hs |>.imp_right Option.some.inj
    have hsh := h.shape
    have hfl := h.flagged
    rw [hpc] at hsh hfl
    have hq : Quiet { s.flags with interruptible := false } s.resumes := ⟨rfl, hfl.notIdle nofun⟩
    have hrun := h.back (show Caller.task ≠ .entry from nofun) hq hsh
    rw [Contexts.back, ← hpc] at hrun
    exact hrun
  | enable =>
    obtain ⟨⟨hpc, hint, -⟩, rfl⟩ := Option.ite_none_right_eq_some.1 hs |>.imp_right Option.some.inj
    have hsh := h.shape
    have hfl := h.flagged
    rw [hpc] at hsh hfl
    exact h.call hsh .prologue nofun true ⟨hint, hfl.notIdle nofun⟩
  | interrupt =>
    obtain ⟨-, hs⟩ := Option.ite_none_right_eq_some.1 hs
    split at hs
    · rename_i hrun
      rw [← Option.some.inj hs]
      have hsh := h.shape
      have hfl := h.flagged
      rw [hrun.1] at hsh hfl
      obtain ⟨hidle, hres⟩ := hfl.notIdle nofun
      refine h.goto .handler hsh ⟨fun _ hn => absurd rfl hn, fun hi => ?_, .inl hres, nofun, nofun⟩ nofun nofun
      rw [hidle] at hi
      cases hi
    · rw [← Option.some.inj hs]
      exact ⟨h.tasks, h.current, h.retired, h.here, h.shape, h.flagged, h.retry, h.chosen, h.saved⟩

/-! ## Runs -/

/-- **A retired task is not under the worker.** In every run in which no task is removed while the worker
tries again on its context, and the worker does not come to try again on the context of a removed task, no
task is retired while the worker executes on its context, and the context that is saved to is not one of a
retired task. -/
theorem contexts_safe (h : (sys τ).Reach St.Parted s) : s.Safe := by
  apply Inv.safe
  refine h.inv ?_ ?_
  · rintro _ ⟨prio, rfl⟩
    exact inv_init
  · intro s a s' hI hp hs
    exact hI.step hp hs

/-- Task 0 blocks, and the worker idles on its context until task 1 is added. Task 0 is removed then, and is
retired when task 1 schedules. -/
theorem contexts_safe_switched : ∃ s, (sys (Fin 2)).Reach St.Parted s ∧ s.pc = .retire .task (some 1) 0 ∧
    s.Safe := by
  obtain ⟨s, hs, hpc⟩ := System.exists_of_check (sys (Fin 2)) St.Parted (fun s => s.pc = .retire .task (some 1) 0)
    (.init fun _ => 3) ⟨fun _ => 3, rfl⟩
    (List.flatten [.add 0 :: List.replicate 9 .worker, [.disable, .block, .schedule], List.replicate 4 .worker,
      .add 1 :: List.replicate 7 .worker, [.disable, .remove 0, .schedule, .worker, .worker]]) (by decide +kernel)
  exact ⟨s, hs, hpc, contexts_safe hs⟩

/-- **A task is retired under the worker.** Task 0 blocks, and the worker idles on its context. It is removed,
and task 1 is added: the worker tries again with no current task, retires task 0 and saves to its context. -/
theorem retired_beneath :
    (∃ s, (sys (Fin 2)).Reachable s ∧ s.pc = .retire .task (some 0) 0 ∧ s.ctx = .task 0) ∧
      ∃ s, (sys (Fin 2)).Reachable s ∧ s.pc = .swap .task (some (.task 0)) 1 ∧ s.retired = [0] := by
  refine ⟨?_, ?_⟩
  · exact System.exists_of_check (sys (Fin 2)) (fun _ _ => True)
      (fun s => s.pc = .retire .task (some 0) 0 ∧ s.ctx = .task 0) (.init fun _ => 3) ⟨fun _ => 3, rfl⟩
      (List.flatten [.add 0 :: List.replicate 9 .worker, [.disable, .block, .schedule], List.replicate 4 .worker,
        [.remove 0, .add 1], List.replicate 3 .worker]) (by decide +kernel)
  · exact System.exists_of_check (sys (Fin 2)) (fun _ _ => True)
      (fun s => s.pc = .swap .task (some (.task 0)) 1 ∧ s.retired = [0]) (.init fun _ => 3) ⟨fun _ => 3, rfl⟩
      (List.flatten [.add 0 :: List.replicate 9 .worker, [.disable, .block, .schedule], List.replicate 4 .worker,
        [.remove 0, .add 1], List.replicate 6 .worker]) (by decide +kernel)

end Prs.Contexts
