import Prs.Lib.Threads
import Prs.Model.SwprioSteps

/-!
# What a step does to a task

A `View` is all that there is about one task: its fields, how often it is in a place, and what the worker is
doing with it. `Move` lists what can happen to a view. Every invariant of the scheduler about single tasks is
then a predicate on views that the moves keep.

* `step_moves`: in a step the view of every task makes a move.
* `view_inv`: a predicate that the moves keep holds of all tasks in every state reached.

The moves depend on what the run promises about the windows in which two workers are in each other's way over
a task: `Apart` for `prs_task_unblock` and its retirement, and, with `strict`, `Exclusive` for
`prs_sched_remove_task` and its choice.
-/

namespace Prs.SwprioSteps

open Function Swprio

/-! ## The view of a task -/

/-- A call of `prs_task_unblock` that has changed the state of a task and has not pushed it. -/
def Pc.waking {τ : Type} : Pc τ → List τ
  | .unblockUserdata t => [t]
  | .unblockPush t => [t]
  | _ => []

/-- A call of `prs_sched_swprio_remove` that has not pushed the task on `removeq`. -/
def Pc.removing {τ : Type} : Pc τ → List τ
  | .removeState t => [t]
  | .removeLoad t => [t]
  | .removeStore t => [t]
  | .removePush t => [t]
  | _ => []

/-- A call that has stored `PRS_TASK_STATE_STOPPED` and has not pushed the task. -/
def Pc.pushing {τ : Type} : Pc τ → List τ
  | .removePush t => [t]
  | _ => []

/-- What the worker is doing with a task. -/
inductive Role
  | none
  | retire (stage : Stage)
  | found
  | preempt (stage : Preempt)
  | chosen
  deriving DecidableEq

variable {ι τ : Type} [Fintype ι] [DecidableEq τ]

def Work.role : Work τ → τ → Role
  | .retire t stage, u => if u = t then .retire stage else .none
  | .set _ t, u => if u = t then .found else .none
  | .found _ t, u => if u = t then .found else .none
  | .preempt c _ t stage, u => if u = c then .preempt stage else if u = t then .found else .none
  | .take _ t, u => if u = t then .found else .none
  | .runLoad t, u => if u = t then .chosen else .none
  | .runStore t, u => if u = t then .chosen else .none
  | _, _ => .none

/-- The worker is between the end of the loop over `removeq` and the return. -/
def Work.choosing : Work τ → Bool
  | .run | .begin | .retire _ _ => false
  | _ => true

/-- All that there is about a task: its fields, how often it is in a place, and what the worker is doing with
it. -/
structure View where
  state : TaskState
  userdata : Bool
  freed : Bool
  waking : ℕ
  queued : ℕ
  removing : ℕ
  pushing : ℕ
  removeq : ℕ
  removed : Bool
  stopped : Bool
  pushed : Bool
  seen : Bool
  current : Bool
  /-- It is the current task and is running on the worker. -/
  stays : Bool
  role : Role
  choosing : Bool

/-- How often a task is in its ready queue. -/
def queued (prio : τ → Prio) (q : Sched τ) (t : τ) : ℕ := (q.readyq (prio t)).count t

def St.view (s : St ι τ) (t : τ) : View where
  state := s.state t
  userdata := s.userdata t
  freed := s.freed t
  waking := tally Pc.waking s.pc t
  queued := queued s.prio s.sched t
  removing := tally Pc.removing s.pc t
  pushing := tally Pc.pushing s.pc t
  removeq := s.sched.removeq.count t
  removed := decide (t ∈ s.removed)
  stopped := decide (t ∈ s.stopped)
  pushed := decide (t ∈ s.pushed)
  seen := decide (t ∈ s.seen)
  current := decide (s.current = some t)
  stays := decide (s.current = some t) && decide (s.worker = .run) && !s.leaving
  role := s.worker.role t
  choosing := s.worker.choosing

/-- The task is out of its ready queue. -/
def Stage.dropped : Stage → Bool
  | .inspect | .dequeue => false
  | _ => true

def Stage.zombie : Stage → Bool
  | .forget | .unlink | .free => true
  | _ => false

def Stage.forgotten : Stage → Bool
  | .unlink | .free => true
  | _ => false

/-- **What can happen to a task.** -/
inductive Move (strict : Prop) (v : View) : View → Prop
  | same : Move strict v v
  | add (hd : v.userdata = false) (hs : v.state = .stopped) :
    Move strict v { v with state := .ready, userdata := true, queued := v.queued + 1 }
  | block (hs : v.stays = true) (hr : strict → v.state = .running) :
    Move strict v { v with state := .blocked, stays := false }
  | yield (hs : v.stays = true) (hr : strict → v.state = .running) :
    Move strict v { v with state := .ready, queued := v.queued + 1, stays := false }
  | unblockSelf (hb : v.state = .blocked) (hc : v.current = true) (hr : v.role = .none)
      (hn : v.choosing = false) :
    Move strict v { v with state := .running, stays := true }
  -- the worker leaves the current task, or comes back
  | rest : Move strict v { v with stays := false }
  | leave (hr : v.role = .none ∨ v.role = .found) :
    Move strict v { v with current := false, stays := false, role := .none, choosing := false }
  | stay (hc : v.current = true) (hs : v.state = .running) (hr : v.role = .none ∨ v.role = .found) :
    Move strict v { v with current := true, stays := true, role := .none, choosing := false }
  -- the loop over `removeq`
  | retireInspect (hr : v.role = .none) (hn : v.choosing = false) (hq : 0 < v.removeq) (hc : v.current = false)
      (hs : v.stays = false) :
    Move strict v { v with role := .retire .inspect }
  | retireNext {stage next : Stage} (hr : v.role = .retire stage) (hz : stage.zombie = false)
      (hz' : next.zombie = false) (hd : next.dropped = true → stage.dropped = true ∨ v.queued = 0)
      (hw : stage = .inspect → v.waking = 0) (hn : next ≠ .inspect) :
    Move strict v { v with role := .retire next }
  | retireDequeue (hr : v.role = .retire .dequeue) :
    Move strict v { v with queued := v.queued - 1, role := .retire .check }
  | retireStore (hr : v.role = .retire .store) :
    Move strict v { v with state := .zombie, role := .retire .forget }
  | retireForget (hr : v.role = .retire .forget) :
    Move strict v { v with userdata := false, role := .retire .unlink }
  | retireUnlink (hr : v.role = .retire .unlink) :
    Move strict v { v with removeq := v.removeq - 1, role := .retire .free }
  | retireFree (hr : v.role = .retire .free) : Move strict v { v with freed := true, role := .none }
  -- the choice of a task
  | choose (hr : v.role = .none) (hq : v.removeq = 0) :
    Move strict v { v with choosing := true, seen := v.pushed }
  | find (hr : v.role = .none) (hc : v.choosing = true) (hq : 0 < v.queued) :
    Move strict v { v with role := .found }
  | preemptStart (hr : v.role = .none) (hn : v.choosing = true) (hc : v.current = true) (hs : v.state = .running)
      (hst : v.stays = false) :
    Move strict v { v with role := .preempt .push }
  | preemptPush (hr : v.role = .preempt .push) :
    Move strict v { v with queued := v.queued + 1, role := .preempt .mask }
  | preemptNext {stage next : Preempt} (hr : v.role = .preempt stage) (hs : stage ≠ .push) (hn : next ≠ .push) :
    Move strict v { v with role := .preempt next }
  | preemptStore (hr : v.role = .preempt .store) : Move strict v { v with state := .ready, role := .none }
  | take (hr : v.role = .found) (hl : strict → v.stopped = true → v.seen = true) :
    Move strict v { v with queued := v.queued - 1, role := .chosen }
  | run (hr : v.role = .chosen) :
    Move strict v { v with state := .running, current := true, stays := true, role := .none, choosing := false }
  -- the callers
  | wake (hb : v.state = .blocked) (hr : ∀ stage, v.role = .retire stage → stage = .inspect) :
    Move strict v { v with state := .ready, waking := v.waking + 1 }
  | wakePush (hw : 0 < v.waking) : Move strict v { v with waking := v.waking - 1, queued := v.queued + 1 }
  | removeStart (hd : v.userdata = true) (hr : v.removed = false) :
    Move strict v { v with removed := true, removing := v.removing + 1 }
  | removeEnd (hp : v.pushing < v.removing) : Move strict v { v with removing := v.removing - 1 }
  | removeStore (hp : v.pushing < v.removing)
      (hc : strict → v.role ≠ .chosen ∧ ∀ stage, v.role ≠ .preempt stage) :
    Move strict v { v with state := .stopped, stopped := true, pushing := v.pushing + 1 }
  | removePush (hr : 0 < v.removing) (hp : 0 < v.pushing) :
    Move strict v { v with
      removing := v.removing - 1, pushing := v.pushing - 1, removeq := v.removeq + 1, pushed := true }

/-! ## The windows -/

/-- The task that the loop over `removeq` is retiring, once it has looked whether the task is in its ready
queue. -/
def Work.retiring : Work τ → Option τ
  | .retire _ .inspect => none
  | .retire t _ => some t
  | _ => none

def St.apartWorker (s : St ι τ) : Bool :=
  match s.worker with
  | .retire t .inspect => decide (∀ j, t ∉ (s.pc j).waking)
  | _ => true

def St.apartCaller (s : St ι τ) (j : ι) : Bool :=
  match s.pc j with
  | .unblockCas t => decide (s.state t ≠ .blocked ∨ s.worker.retiring ≠ some t)
  | _ => true

/-- No `prs_task_unblock` of a task pushes it after `prs_sched_swprio_get_next` has looked whether it is in
its ready queue, to retire it: none has changed the state and has still to push the task at that look, and
none changes the state of the task between the look and the end of the retirement. -/
def St.Apart (s : St ι τ) : Act ι τ → Prop
  | .worker => s.apartWorker = true
  | .step j => s.apartCaller j = true
  | _ => True

/-- The task whose state `prs_sched_swprio_get_next` is changing, to run it or to preempt it. -/
def Work.changing : Work τ → Option τ
  | .preempt c _ _ _ => some c
  | .runLoad t => some t
  | .runStore t => some t
  | _ => none

def St.exclusiveWorker (s : St ι τ) : Bool :=
  match s.worker with
  | .take _ t => decide (t ∈ s.stopped → t ∈ s.seen)
  | _ => true

def St.exclusiveCaller (s : St ι τ) (j : ι) : Bool :=
  match s.pc j with
  | .removeStore t => decide (s.worker.changing ≠ some t)
  | _ => true

def St.currentRuns (s : St ι τ) : Bool := s.current.all fun t => decide (s.state t = .running)

/-- When `prs_sched_swprio_get_next` takes a task from its ready queue, no `prs_sched_remove_task` of that
task has stored `PRS_TASK_STATE_STOPPED` since the end of the loop over `removeq`, or had stored it and not
pushed the task before that; none stores it while `get_next` changes the state of the task; and a task does
not block or yield after it was stopped. -/
def St.Exclusive (s : St ι τ) : Act ι τ → Prop
  | .worker => s.exclusiveWorker = true
  | .step j => s.exclusiveCaller j = true
  | .block => s.currentRuns = true
  | .yield => s.currentRuns = true
  | _ => True

instance (s : St ι τ) (a : Act ι τ) : Decidable (s.Apart a) :=
  match a with
  | .worker => inferInstanceAs (Decidable (_ = true))
  | .step _ => inferInstanceAs (Decidable (_ = true))
  | .add _ => inferInstanceAs (Decidable True)
  | .block => inferInstanceAs (Decidable True)
  | .yield => inferInstanceAs (Decidable True)
  | .unblockSelf => inferInstanceAs (Decidable True)
  | .getNext => inferInstanceAs (Decidable True)
  | .unblock _ _ => inferInstanceAs (Decidable True)
  | .remove _ _ => inferInstanceAs (Decidable True)

instance (s : St ι τ) (a : Act ι τ) : Decidable (s.Exclusive a) :=
  match a with
  | .worker => inferInstanceAs (Decidable (_ = true))
  | .step _ => inferInstanceAs (Decidable (_ = true))
  | .block => inferInstanceAs (Decidable (_ = true))
  | .yield => inferInstanceAs (Decidable (_ = true))
  | .add _ => inferInstanceAs (Decidable True)
  | .unblockSelf => inferInstanceAs (Decidable True)
  | .getNext => inferInstanceAs (Decidable True)
  | .unblock _ _ => inferInstanceAs (Decidable True)
  | .remove _ _ => inferInstanceAs (Decidable True)

/-! ## The shape of a state -/

/-- The queue in which the worker has found a task. -/
def Work.place : Work τ → Option (Prio × τ)
  | .set p t => some (p, t)
  | .found p t => some (p, t)
  | .preempt _ p t _ => some (p, t)
  | .take p t => some (p, t)
  | _ => none

variable {s s' : St ι τ} {t u c : τ} {p : Prio} {j : ι} {w : Work τ} {strict : Prop}

/-- What holds of the queues and the worker, whatever the tasks are. -/
structure Shape (s : St ι τ) : Prop where
  own : ∀ p t, t ∈ s.sched.readyq p → p = s.prio t
  place : ∀ p t, s.worker.place = some (p, t) → p = s.prio t
  above : ∀ c p t stage, s.worker = .preempt c p t stage → p < s.prio c

/-- A step from `s` to `s'`. -/
structure Moves (strict : Prop) (s s' : St ι τ) : Prop where
  view : ∀ u, Move strict (s.view u) (s'.view u)
  shape : Shape s'

omit [Fintype ι] [DecidableEq τ] in
theorem shape_init {prio : τ → Prio} : Shape (St.init prio : St ι τ) where
  own := fun p t ht => by cases ht
  place := fun p t hp => by cases hp
  above := fun c p t stage hp => by cases hp

theorem count_singleton_ne (h : u ≠ t) : [t].count u = 0 :=
  List.count_eq_zero.2 fun hm => h (List.mem_singleton.1 hm)

theorem queued_push (prio : τ → Prio) (q : Sched τ) (t u : τ) :
    queued prio (q.push (prio t) t) u = queued prio q u + [t].count u := by
  simp only [queued, Sched.push]
  by_cases hp : prio u = prio t
  · rw [hp, update_self, List.count_append]
  · have hu : u ≠ t := by
      rintro rfl
      exact hp rfl
    rw [update_of_ne hp, count_singleton_ne hu]
    omega

theorem queued_dequeue (prio : τ → Prio) (q : Sched τ) (t u : τ) :
    queued prio (q.dequeue (prio t) t) u = queued prio q u - [t].count u := by
  simp only [queued, Sched.dequeue]
  by_cases hu : u = t
  · rw [hu, update_self, List.count_erase_self, List.count_singleton_self]
  · rw [count_singleton_ne hu]
    by_cases hp : prio u = prio t
    · rw [hp, update_self, List.count_erase_of_ne hu]
      rfl
    · rw [update_of_ne hp]
      rfl

omit [DecidableEq τ] in
theorem own_push {prio : τ → Prio} {q : Sched τ} (h : ∀ p t, t ∈ q.readyq p → p = prio t) (t : τ) :
    ∀ p u, u ∈ (q.push (prio t) t).readyq p → p = prio u := by
  intro p u hu
  simp only [Sched.push] at hu
  by_cases hp : p = prio t
  · rw [hp, update_self, List.mem_append, List.mem_singleton] at hu
    rcases hu with hu | rfl
    · exact hp.trans (h _ u hu)
    · exact hp
  · rw [update_of_ne hp] at hu
    exact h p u hu

theorem own_dequeue {prio : τ → Prio} {q : Sched τ} (h : ∀ p t, t ∈ q.readyq p → p = prio t) (p' : Prio) (t : τ) :
    ∀ p u, u ∈ (q.dequeue p' t).readyq p → p = prio u := by
  intro p u hu
  simp only [Sched.dequeue] at hu
  by_cases hp : p = p'
  · rw [hp, update_self] at hu
    rw [hp]
    exact h _ u (List.mem_of_mem_erase hu)
  · rw [update_of_ne hp] at hu
    exact h p u hu

theorem queued_pos {q : Sched τ} {prio : τ → Prio} (h : t ∈ q.readyq (prio t)) : 0 < queued prio q t :=
  List.count_pos_iff.2 h

theorem role_eq_retire {stage : Stage} : w.role u = .retire stage ↔ w = .retire u stage := by
  constructor
  · intro h
    cases w <;> simp only [Work.role, reduceCtorEq] at h
    case retire t stage' =>
      split at h
      case isTrue hu => rw [hu, Role.retire.inj h]
      case isFalse => cases h
    all_goals (repeat' split at h) <;> cases h
  · rintro rfl
    simp [Work.role]

theorem inspect_of_retire (h : w.retiring ≠ some t) (stage : Stage) (hr : w.role t = .retire stage) :
    stage = .inspect := by
  rw [role_eq_retire] at hr
  subst hr
  cases stage with
  | inspect => rfl
  | _ => exact absurd rfl h

/-- The worker does not change the state of a task that it is not busy with. -/
theorem role_of_changing (h : w.changing ≠ some t) : w.role t ≠ .chosen ∧ ∀ stage, w.role t ≠ .preempt stage := by
  cases w with
  | preempt c p t' stage' =>
    have hc : t ≠ c := fun hc => h (by rw [hc]; rfl)
    simp only [Work.role, if_neg hc]
    split <;> exact ⟨nofun, nofun⟩
  | runLoad t' | runStore t' =>
    have hc : t ≠ t' := fun hc => h (by rw [hc]; rfl)
    simp only [Work.role, if_neg hc]
    exact ⟨nofun, nofun⟩
  | retire | set | found | take =>
    simp only [Work.role]
    split <;> exact ⟨nofun, nofun⟩
  | _ => exact ⟨nofun, nofun⟩

/-! ## The callers -/

theorem tally_step [DecidableEq ι] (f : Pc τ → List τ) {a : Pc τ} (ha : s.pc j = a) (b : Pc τ) (u : τ) :
    tally f (update s.pc j b) u = tally f s.pc u + (f b).count u - (f a).count u := by
  have := tally_update f s.pc j b u
  rw [ha] at this
  omega

/-- A step of a caller. -/
theorem Moves.caller [DecidableEq ι] (h : Shape s) {state : τ → TaskState} {sched : Sched τ} {a b : Pc τ}
    {removed stopped pushed : List τ} (ha : s.pc j = a)
    (hm : ∀ u, Move strict (s.view u) { s.view u with
      state := state u, queued := queued s.prio sched u, removeq := sched.removeq.count u,
      waking := (s.view u).waking + (Pc.waking b).count u - (Pc.waking a).count u,
      removing := (s.view u).removing + (Pc.removing b).count u - (Pc.removing a).count u,
      pushing := (s.view u).pushing + (Pc.pushing b).count u - (Pc.pushing a).count u,
      removed := decide (u ∈ removed), stopped := decide (u ∈ stopped), pushed := decide (u ∈ pushed) })
    (hown : ∀ p t, t ∈ sched.readyq p → p = s.prio t) :
    Moves strict s { s with state, sched, pc := update s.pc j b, removed, stopped, pushed } := by
  refine ⟨fun u => ?_, hown, h.place, h.above⟩
  have := hm u
  rw [St.view, ← tally_step Pc.waking ha, ← tally_step Pc.removing ha, ← tally_step Pc.pushing ha] at this
  exact this

/-- A caller that changes nothing but where it is, and the mask. -/
theorem Moves.callerGoto [DecidableEq ι] (h : Shape s) {a b : Pc τ} (ha : s.pc j = a)
    (hw : Pc.waking b = Pc.waking a) (hr : Pc.removing b = Pc.removing a) (hp : Pc.pushing b = Pc.pushing a)
    {sched : Sched τ} (hq : sched.readyq = s.sched.readyq) (hrq : sched.removeq = s.sched.removeq) :
    Moves strict s { s with sched, pc := update s.pc j b } := by
  refine Moves.caller h ha (fun u => ?_) (by rw [hq]; exact h.own)
  have hqu : queued s.prio sched u = (s.view u).queued := by
    simp only [queued, hq]
    rfl
  rw [hw, hr, hp, hqu, hrq, Nat.add_sub_cancel, Nat.add_sub_cancel, Nat.add_sub_cancel]
  exact .same

theorem pos_of_mem {f : Pc τ → List τ} (h : t ∈ f (s.pc j)) : 0 < tally f s.pc t :=
  lt_of_lt_of_le (List.count_pos_iff.2 h) (count_le_tally f s.pc j t)

/-- A call that has not stored the state. -/
theorem pushing_lt_removing (hr : t ∈ (s.pc j).removing) (hp : (s.pc j).pushing = []) :
    (s.view t).pushing < (s.view t).removing := by
  refine tally_lt_tally (fun b => ?_) j ?_
  · cases b <;> simp [Pc.pushing, Pc.removing]
  · rw [hp]
    exact List.count_pos_iff.2 hr

theorem Moves.wake [DecidableEq ι] (h : Shape s) (hpc : s.pc j = .unblockCas t) (hb : s.state t = .blocked)
    (hr : s.worker.retiring ≠ some t) :
    Moves strict s { s with state := update s.state t .ready, pc := update s.pc j (.unblockUserdata t) } := by
  refine Moves.caller h hpc (fun u => ?_) h.own
  simp only [Pc.waking, Pc.removing, Pc.pushing, List.count_nil, Nat.add_zero, Nat.sub_zero]
  by_cases hu : u = t
  · subst hu
    rw [update_self, List.count_singleton_self]
    exact .wake hb (inspect_of_retire hr)
  · rw [update_of_ne hu, count_singleton_ne hu]
    exact .same

theorem Moves.wakePush [DecidableEq ι] (h : Shape s) (hpc : s.pc j = .unblockPush t) :
    Moves strict s { s with sched := s.sched.push (s.prio t) t, pc := update s.pc j (.unblockMask t) } := by
  refine Moves.caller h hpc (fun u => ?_) (own_push h.own t)
  simp only [Pc.waking, Pc.removing, Pc.pushing, List.count_nil, Nat.add_zero, Nat.sub_zero, queued_push]
  by_cases hu : u = t
  · subst hu
    rw [List.count_singleton_self]
    exact .wakePush (pos_of_mem (j := j) (by rw [hpc]; exact List.mem_singleton_self u))
  · rw [count_singleton_ne hu]
    exact .same

theorem Moves.removeStart [DecidableEq ι] (h : Shape s) (hpc : s.pc j = .idle) (hd : s.userdata t = true)
    (hr : t ∉ s.removed) :
    Moves strict s { s with pc := update s.pc j (.removeState t), removed := t :: s.removed } := by
  refine Moves.caller h hpc (fun u => ?_) h.own
  simp only [Pc.waking, Pc.removing, Pc.pushing, List.count_nil, Nat.add_zero, Nat.sub_zero]
  by_cases hu : u = t
  · subst hu
    have hmem : decide (u ∈ u :: s.removed) = true := decide_eq_true List.mem_cons_self
    rw [List.count_singleton_self, hmem]
    exact .removeStart hd (decide_eq_false hr)
  · have hmem : decide (u ∈ t :: s.removed) = decide (u ∈ s.removed) := by simp [hu]
    rw [count_singleton_ne hu, hmem]
    exact .same

theorem Moves.removeEnd [DecidableEq ι] (h : Shape s) (hpc : s.pc j = .removeState t) :
    Moves strict s { s with pc := update s.pc j .idle } := by
  refine Moves.caller h hpc (fun u => ?_) h.own
  simp only [Pc.waking, Pc.removing, Pc.pushing, List.count_nil, Nat.add_zero, Nat.sub_zero]
  by_cases hu : u = t
  · subst hu
    rw [List.count_singleton_self]
    exact .removeEnd
      (pushing_lt_removing (j := j) (by rw [hpc]; exact List.mem_singleton_self u) (by rw [hpc]; rfl))
  · rw [count_singleton_ne hu]
    exact .same

theorem Moves.removeStore [DecidableEq ι] (h : Shape s) (hpc : s.pc j = .removeStore t)
    (hc : strict → s.worker.changing ≠ some t) :
    Moves strict s { s with
      state := update s.state t .stopped
      pc := update s.pc j (.removePush t)
      stopped := t :: s.stopped } := by
  refine Moves.caller h hpc (fun u => ?_) h.own
  simp only [Pc.waking, Pc.removing, Pc.pushing, List.count_nil, Nat.add_zero, Nat.sub_zero, Nat.add_sub_cancel]
  by_cases hu : u = t
  · subst hu
    have hmem : decide (u ∈ u :: s.stopped) = true := decide_eq_true List.mem_cons_self
    rw [update_self, List.count_singleton_self, hmem]
    exact .removeStore
      (pushing_lt_removing (j := j) (by rw [hpc]; exact List.mem_singleton_self u) (by rw [hpc]; rfl))
      fun hst => role_of_changing (hc hst)
  · have hmem : decide (u ∈ t :: s.stopped) = decide (u ∈ s.stopped) := by simp [hu]
    rw [update_of_ne hu, count_singleton_ne hu, hmem]
    exact .same

theorem Moves.removePush [DecidableEq ι] (h : Shape s) (hpc : s.pc j = .removePush t) :
    Moves strict s { s with
      sched := { s.sched with removeq := s.sched.removeq ++ [t] }
      pc := update s.pc j .idle
      pushed := t :: s.pushed } := by
  refine Moves.caller h hpc (fun u => ?_) h.own
  simp only [Pc.waking, Pc.removing, Pc.pushing, List.count_nil, Nat.add_zero, Nat.sub_zero, List.count_append]
  by_cases hu : u = t
  · subst hu
    have hmem : decide (u ∈ u :: s.pushed) = true := decide_eq_true List.mem_cons_self
    rw [List.count_singleton_self, hmem]
    exact .removePush (pos_of_mem (j := j) (by rw [hpc]; exact List.mem_singleton_self u))
      (pos_of_mem (j := j) (by rw [hpc]; exact List.mem_singleton_self u))
  · have hmem : decide (u ∈ t :: s.pushed) = decide (u ∈ s.pushed) := by simp [hu]
    rw [count_singleton_ne hu, hmem]
    exact .same

theorem moves_caller [DecidableEq ι] (h : Shape s) (hap : s.apartCaller j = true)
    (hex : strict → s.exclusiveCaller j = true) (hs : s.stepCaller j = some s') : Moves strict s s' := by
  unfold St.apartCaller at hap
  unfold St.exclusiveCaller at hex
  unfold St.stepCaller at hs
  split at hs <;> rename_i hpc <;> simp only [hpc] at hap hex
  case h_1 => cases hs
  case h_2 t =>
    split at hs <;> rename_i hb <;> rw [← Option.some.inj hs]
    · exact .wake h hpc hb ((of_decide_eq_true hap).resolve_left fun hn => hn hb)
    · refine .callerGoto h hpc ?_ ?_ ?_ ?_ ?_ <;> rfl
  case h_3 t => rw [← Option.some.inj hs]; refine .callerGoto h hpc ?_ ?_ ?_ ?_ ?_ <;> rfl
  case h_4 t => rw [← Option.some.inj hs]; exact .wakePush h hpc
  case h_5 t => rw [← Option.some.inj hs]; refine .callerGoto h hpc ?_ ?_ ?_ ?_ ?_ <;> rfl
  case h_6 t =>
    rw [← Option.some.inj hs]
    split
    · exact .removeEnd h hpc
    · refine .callerGoto h hpc ?_ ?_ ?_ ?_ ?_ <;> rfl
  case h_7 t => rw [← Option.some.inj hs]; refine .callerGoto h hpc ?_ ?_ ?_ ?_ ?_ <;> rfl
  case h_8 t =>
    rw [← Option.some.inj hs]
    exact .removeStore h hpc fun hst => of_decide_eq_true (hex hst)
  case h_9 t => rw [← Option.some.inj hs]; exact .removePush h hpc

/-! ## The worker -/

/-- The views after a step of the worker in `prs_sched_swprio_get_next`. -/
theorem view_work (hw : s.worker ≠ .run) (hw' : w ≠ .run) (state : τ → TaskState) (userdata freed : τ → Bool)
    (sched : Sched τ) (mismatch : Bool) (u : τ) :
    ({ s with state, userdata, freed, sched, worker := w, mismatch } : St ι τ).view u =
      { s.view u with
        state := state u, userdata := userdata u, freed := freed u, queued := queued s.prio sched u,
        removeq := sched.removeq.count u, role := w.role u, choosing := w.choosing } := by
  have h1 : decide (s.worker = .run) = false := decide_eq_false hw
  have h2 : decide (w = .run) = false := decide_eq_false hw'
  simp only [St.view, h1, h2, Bool.and_false, Bool.false_and]

/-- A step in `prs_sched_swprio_get_next` that is about task `t`. -/
theorem Moves.work (t : τ) (hw : s.worker ≠ .run) (hw' : w ≠ .run) (hc : w.choosing = s.worker.choosing)
    {state : τ → TaskState} {userdata freed : τ → Bool} {sched : Sched τ} {mismatch : Bool}
    (ht : Move strict (s.view t) { s.view t with
      state := state t, userdata := userdata t, freed := freed t, queued := queued s.prio sched t,
      removeq := sched.removeq.count t, role := w.role t })
    (hu : ∀ u, u ≠ t → state u = s.state u ∧ userdata u = s.userdata u ∧ freed u = s.freed u ∧
      queued s.prio sched u = queued s.prio s.sched u ∧ sched.removeq.count u = s.sched.removeq.count u ∧
      w.role u = s.worker.role u)
    (hown : ∀ p t, t ∈ sched.readyq p → p = s.prio t) (hplace : ∀ p t, w.place = some (p, t) → p = s.prio t)
    (habove : ∀ c p t stage, w = .preempt c p t stage → p < s.prio c) :
    Moves strict s { s with state, userdata, freed, sched, worker := w, mismatch } := by
  refine ⟨fun u => ?_, hown, hplace, habove⟩
  rw [view_work hw hw', hc]
  by_cases hut : u = t
  · rw [hut]
    exact ht
  · obtain ⟨h1, h2, h3, h4, h5, h6⟩ := hu u hut
    rw [h1, h2, h3, h4, h5, h6]
    exact .same

/-- A step that changes nothing but where the worker is. -/
theorem Moves.goto (h : Shape s) (t : τ) (hw : s.worker ≠ .run) (hw' : w ≠ .run)
    (hc : w.choosing = s.worker.choosing) (ht : Move strict (s.view t) { s.view t with role := w.role t })
    (hu : ∀ u, u ≠ t → w.role u = s.worker.role u) (hplace : ∀ p t, w.place = some (p, t) → p = s.prio t)
    (habove : ∀ c p t stage, w = .preempt c p t stage → p < s.prio c) {mismatch : Bool} :
    Moves strict s { s with worker := w, mismatch } :=
  .work t hw hw' hc ht (fun u hut => ⟨rfl, rfl, rfl, rfl, rfl, hu u hut⟩) h.own hplace habove

/-- The worker goes on with the task that it has found, or with none. -/
theorem Moves.keep (h : Shape s) (hw : s.worker ≠ .run) (hw' : w ≠ .run) (hc : w.choosing = s.worker.choosing)
    (hrole : ∀ u, w.role u = s.worker.role u) (hplace : w.place = s.worker.place)
    (habove : ∀ c p t stage, w ≠ .preempt c p t stage) {sched : Sched τ} (hq : sched.readyq = s.sched.readyq)
    (hrq : sched.removeq = s.sched.removeq) {mismatch : Bool} :
    Moves strict s { s with sched, worker := w, mismatch } := by
  refine ⟨fun u => ?_, by rw [hq]; exact h.own, fun p t hp => h.place p t (hplace ▸ hp),
    fun c p t stage hp => absurd hp (habove c p t stage)⟩
  have hqu : queued s.prio sched u = queued s.prio s.sched u := by simp only [queued, hq]
  have hv := view_work hw hw' s.state s.userdata s.freed sched mismatch u
  rw [hqu, hrq, hrole, hc] at hv
  rw [hv]
  exact .same

theorem role_retire_ne {stage : Stage} (h : u ≠ t) : (Work.retire t stage).role u = .none := if_neg h

theorem role_retire_self (stage : Stage) : (Work.retire t stage).role t = .retire stage := if_pos rfl

/-- A stage of the loop over `removeq`. -/
theorem Moves.retireStage {stage next : Stage} (hwk : s.worker = .retire t stage) {state : τ → TaskState}
    {userdata : τ → Bool} {sched : Sched τ} {mismatch : Bool}
    (ht : Move strict (s.view t) { s.view t with
      state := state t, userdata := userdata t, queued := queued s.prio sched t, removeq := sched.removeq.count t,
      role := .retire next })
    (hu : ∀ u, u ≠ t → state u = s.state u ∧ userdata u = s.userdata u ∧
      queued s.prio sched u = queued s.prio s.sched u ∧ sched.removeq.count u = s.sched.removeq.count u)
    (hown : ∀ p t, t ∈ sched.readyq p → p = s.prio t) :
    Moves strict s { s with state, userdata, sched, worker := .retire t next, mismatch } := by
  refine .work t (by rw [hwk]; simp) (by simp) (by rw [hwk]; rfl) ?_ (fun u hut => ?_) hown
    (fun p t hp => (by cases hp))
    (fun c p t stage hp => (by cases hp))
  · rw [role_retire_self]
    exact ht
  · obtain ⟨h1, h2, h3, h4⟩ := hu u hut
    exact ⟨h1, h2, rfl, h3, h4, by rw [hwk, role_retire_ne hut, role_retire_ne hut]⟩

theorem moves_retire (h : Shape s) {stage : Stage} (hwk : s.worker = .retire t stage)
    (hap : s.apartWorker = true) :
    Moves strict s (s.stepRetire t stage) := by
  have hrole : (s.view t).role = .retire stage := by
    simp only [St.view, hwk]
    exact role_retire_self stage
  have hsame : ∀ u, u ≠ t → s.state u = s.state u ∧ s.userdata u = s.userdata u ∧
      queued s.prio s.sched u = queued s.prio s.sched u ∧ s.sched.removeq.count u = s.sched.removeq.count u :=
    fun _ _ => ⟨rfl, rfl, rfl, rfl⟩
  cases stage with
  | inspect =>
    have hwaking : (s.view t).waking = 0 := by
      simp only [St.apartWorker, hwk] at hap
      exact tally_eq_zero (of_decide_eq_true hap)
    refine .retireStage hwk ?_ hsame h.own
    split
    case isTrue => exact .retireNext hrole rfl rfl (fun hd => (by cases hd)) (fun _ => hwaking) nofun
    case isFalse hn =>
      exact .retireNext hrole rfl rfl (fun _ => .inr (List.count_eq_zero.2 hn)) (fun _ => hwaking) nofun
  | dequeue =>
    refine .retireStage hwk ?_ (fun u hu => ⟨rfl, rfl, ?_, rfl⟩) (own_dequeue h.own _ t)
    · rw [queued_dequeue, List.count_singleton_self]
      exact .retireDequeue hrole
    · rw [queued_dequeue, count_singleton_ne hu, Nat.sub_zero]
  | check =>
    refine .retireStage hwk ?_ hsame h.own
    split <;> exact .retireNext hrole rfl rfl (fun _ => .inl rfl) nofun nofun
  | clear => exact .retireStage hwk (.retireNext hrole rfl rfl (fun _ => .inl rfl) nofun nofun) hsame h.own
  | recheck =>
    refine .retireStage hwk ?_ hsame h.own
    split <;> exact .retireNext hrole rfl rfl (fun _ => .inl rfl) nofun nofun
  | set => exact .retireStage hwk (.retireNext hrole rfl rfl (fun _ => .inl rfl) nofun nofun) hsame h.own
  | load => exact .retireStage hwk (.retireNext hrole rfl rfl (fun _ => .inl rfl) nofun nofun) hsame h.own
  | store =>
    refine .retireStage hwk ?_ (fun u hu => ⟨update_of_ne hu _ _, rfl, rfl, rfl⟩) h.own
    rw [update_self]
    exact .retireStore hrole
  | forget =>
    refine .retireStage hwk ?_ (fun u hu => ⟨rfl, update_of_ne hu _ _, rfl, rfl⟩) h.own
    rw [update_self]
    exact .retireForget hrole
  | unlink =>
    refine .retireStage hwk ?_ (fun u hu => ⟨rfl, rfl, rfl, List.count_erase_of_ne hu⟩) h.own
    simp only [List.count_erase_self]
    exact .retireUnlink hrole
  | free =>
    refine .work t (by rw [hwk]; simp) (by simp) (by rw [hwk]; rfl) ?_
      (fun u hu => ⟨rfl, rfl, update_of_ne hu _ _, rfl, rfl, ?_⟩) h.own (fun p t hp => (by cases hp))
      (fun c p t stage hp => (by cases hp))
    · rw [update_self]
      exact .retireFree hrole
    · rw [hwk, role_retire_ne hu]
      rfl

theorem role_preempt_self {stage : Preempt} : (Work.preempt c p t stage).role c = .preempt stage := if_pos rfl

/-- A stage of the preemption of `c`. -/
theorem moves_preempt (h : Shape s) {stage : Preempt} (hwk : s.worker = .preempt c p t stage) :
    Moves strict s (s.stepPreempt c p t stage) := by
  have hw : s.worker ≠ .run := by rw [hwk]; simp
  have hc : ∀ next, (Work.preempt c p t next).choosing = s.worker.choosing := fun next => by rw [hwk]; rfl
  have hrole : (s.view c).role = .preempt stage := by
    simp only [St.view, hwk]
    exact role_preempt_self
  have hplace : ∀ p' t', some (p, t) = some (p', t') → p' = s.prio t' := fun p' t' hp =>
    h.place p' t' (by rw [hwk]; exact hp)
  have hrest : ∀ u, u ≠ c → ∀ next, (Work.preempt c p t next).role u = s.worker.role u := fun u hu next => by
    rw [hwk]
    simp only [Work.role, if_neg hu]
  have habove : ∀ next c' p' t' stage', Work.preempt c p t next = .preempt c' p' t' stage' → p' < s.prio c' :=
    fun next c' p' t' stage' heq => by
      obtain ⟨rfl, rfl, rfl, rfl⟩ := Work.preempt.inj heq
      exact h.above _ _ _ _ hwk
  cases stage with
  | push =>
    refine .work c hw (by simp) (hc _) ?_ (fun u hu => ⟨rfl, rfl, rfl, ?_, rfl, hrest u hu _⟩)
      (own_push h.own c) hplace
      (habove _)
    · rw [queued_push, List.count_singleton_self, role_preempt_self]
      exact .preemptPush hrole
    · rw [queued_push, count_singleton_ne hu]
      rfl
  | mask =>
    refine .work c hw (by simp) (hc _) ?_ (fun u hu => ⟨rfl, rfl, rfl, rfl, rfl, hrest u hu _⟩) h.own hplace
      (habove _)
    rw [role_preempt_self]
    exact .preemptNext hrole (by simp) (by simp)
  | load =>
    refine .goto h c hw (by simp) (hc _) ?_ (fun u hu => hrest u hu _) hplace (habove _)
    rw [role_preempt_self]
    exact .preemptNext hrole (by simp) (by simp)
  | store =>
    have hct : c ≠ t := by
      rintro rfl
      have := h.above _ _ _ _ hwk
      rw [hplace p c rfl] at this
      exact lt_irrefl _ this
    refine .work c hw (by simp) (by rw [hwk]; rfl) ?_
      (fun u hu => ⟨update_of_ne hu _ _, rfl, rfl, rfl, rfl, ?_⟩) h.own
      hplace (fun c p t stage hp => (by cases hp))
    · have hnone : (Work.take p t).role c = .none := if_neg hct
      rw [update_self, hnone]
      exact .preemptStore hrole
    · rw [hwk]
      simp only [Work.role, if_neg hu]

/-- `prs_sched_swprio_get_next` returns `next`: every other task is left. -/
theorem Moves.ret (h : Shape s) {state : τ → TaskState} {next : Option τ} (hrole : ∀ u, next ≠ some u →
      (s.view u).role = .none ∨ (s.view u).role = .found) (hstate : ∀ u, next ≠ some u → state u = s.state u)
    (hnext : ∀ t, next = some t → Move strict (s.view t)
      { s.view t with state := state t, current := true, stays := true, role := .none, choosing := false }) :
    Moves strict s (({ s with state } : St ι τ).ret next) := by
  refine ⟨fun u => ?_, h.own, fun p t hp => (by cases hp), fun c p t stage hp => (by cases hp)⟩
  have hv : (({ s with state } : St ι τ).ret next).view u =
      { s.view u with
        state := state u, current := decide (next = some u), stays := decide (next = some u), role := .none,
        choosing := false } := by
    simp only [St.view, St.ret, decide_true, Bool.and_true, Bool.not_false]
    rfl
  rw [hv]
  by_cases hu : next = some u
  · rw [decide_eq_true hu]
    exact hnext u hu
  · rw [decide_eq_false hu, hstate u hu]
    exact .leave (hrole u hu)

/-- It returns the current task, which is running, or none. -/
theorem Moves.retSame (h : Shape s) {next : Option τ}
    (hrole : ∀ u, (s.view u).role = .none ∨ (s.view u).role = .found) (hnext : ∀ t, next = some t →
      s.current = some t ∧ s.state t = .running) : Moves strict s (s.ret next) := by
  refine .ret h (fun u _ => hrole u) (fun _ _ => rfl) fun t ht => ?_
  obtain ⟨hcur, hrun⟩ := hnext t ht
  exact .stay (decide_eq_true hcur) hrun (hrole t)

/-- A removed task is taken up. -/
theorem Moves.retireInspect (h : Shape s) (hwk : s.worker = .begin) {ts : List τ} (hq : s.sched.removeq = t :: ts)
    (hcur : s.current ≠ some t) : Moves strict s (s.goto (.retire t .inspect)) := by
  have hrole : (s.view t).role = .none := by simp only [St.view, hwk]; rfl
  have hchoosing : (s.view t).choosing = false := by simp only [St.view, hwk]; rfl
  have hrq : 0 < (s.view t).removeq := List.count_pos_iff.2 (by rw [hq]; exact List.mem_cons_self)
  have hstays : (s.view t).stays = false := by simp [St.view, hcur]
  refine .goto h t (by rw [hwk]; simp) (by simp) (by rw [hwk]; rfl) ?_ (fun u hu => ?_)
    (fun p t hp => (by cases hp))
    fun c p t stage hp => (by cases hp)
  · rw [role_retire_self]
    exact .retireInspect hrole hchoosing hrq (decide_eq_false hcur) hstays
  · rw [role_retire_ne hu, hwk]
    rfl

/-- `removeq` is empty: a task is to be chosen. -/
theorem Moves.choose (h : Shape s) (hwk : s.worker = .begin) (hq : s.sched.removeq = []) :
    Moves strict s { s with worker := .loadMask, seen := s.pushed } := by
  refine ⟨fun u => ?_, h.own, fun p t hp => (by cases hp), fun c p t stage hp => (by cases hp)⟩
  have hrole : (s.view u).role = .none := by simp only [St.view, hwk]; rfl
  have hv : ({ s with worker := .loadMask, seen := s.pushed } : St ι τ).view u =
      { s.view u with choosing := true, seen := (s.view u).pushed } := by
    simp only [St.view, hwk]
    simp [Work.role, Work.choosing]
  rw [hv]
  exact .choose hrole (by simp [St.view, hq])

/-- The head of a queue is found. -/
theorem Moves.find (h : Shape s) (hw : s.worker ≠ .run) (hc : s.worker.choosing = true)
    (hr : ∀ u, s.worker.role u = .none) (ht : t ∈ s.sched.readyq p) (hw' : w ≠ .run) (hc' : w.choosing = true)
    (hr' : ∀ u, w.role u = if u = t then .found else .none) (hplace : w.place = some (p, t))
    (habove : ∀ c p t stage, w ≠ .preempt c p t stage) : Moves strict s (s.goto w) := by
  have hp := h.own p t ht
  refine .goto h t hw hw' (by rw [hc, hc']) ?_ (fun u hu => ?_) (fun p' t' hpt => ?_)
    fun c p t stage hwp => absurd hwp (habove c p t stage)
  · rw [hr', if_pos rfl]
    exact .find (hr t) hc (queued_pos (hp ▸ ht))
  · rw [hr', if_neg hu, hr]
  · rw [hplace] at hpt
    obtain ⟨rfl, rfl⟩ := Prod.mk.inj (Option.some.inj hpt)
    exact hp

/-- The current task is to be preempted. -/
theorem Moves.preemptStart (h : Shape s) (hwk : s.worker = .found p t) (hcur : s.current = some c)
    (hst : s.state c = .running) (hlt : p < s.prio c) : Moves strict s (s.goto (.preempt c p t .push)) := by
  have hpt : p = s.prio t := h.place p t (by rw [hwk]; rfl)
  have hct : c ≠ t := by
    rintro rfl
    rw [hpt] at hlt
    exact lt_irrefl _ hlt
  have hrole : (s.view c).role = .none := by
    simp only [St.view, hwk]
    exact if_neg hct
  have hchoosing : (s.view c).choosing = true := by simp only [St.view, hwk]; rfl
  have hstays : (s.view c).stays = false := by simp [St.view, hwk]
  refine .goto h c (by rw [hwk]; simp) (by simp) (by rw [hwk]; rfl) ?_ (fun u hu => ?_)
    (fun p' t' hp => h.place p' t' (by rw [hwk]; exact hp)) fun c' p' t' stage hp => ?_
  · rw [role_preempt_self]
    exact .preemptStart hrole hchoosing (decide_eq_true hcur) hst hstays
  · rw [hwk]
    simp only [Work.role, if_neg hu]
  · obtain ⟨rfl, rfl, -, -⟩ := Work.preempt.inj hp
    exact hlt

theorem Moves.take (h : Shape s) (hwk : s.worker = .take p t) (hex : strict → s.exclusiveWorker = true) :
    Moves strict s { s with sched := s.sched.dequeue p t, worker := .runLoad t } := by
  obtain rfl : p = s.prio t := h.place p t (by rw [hwk]; rfl)
  have hrole : (s.view t).role = .found := by
    simp only [St.view, hwk]
    exact if_pos rfl
  refine .work t (by rw [hwk]; simp) (by simp) (by rw [hwk]; rfl) ?_ (fun u hu => ⟨rfl, rfl, rfl, ?_, rfl, ?_⟩)
    (own_dequeue h.own _ t) (fun p t hp => (by cases hp)) fun c p t stage hp => (by cases hp)
  · have hchosen : (Work.runLoad t).role t = .chosen := if_pos rfl
    rw [queued_dequeue, List.count_singleton_self, hchosen]
    refine .take hrole fun hst hstop => ?_
    have hseen := hex hst
    simp only [St.exclusiveWorker, hwk] at hseen
    exact decide_eq_true (of_decide_eq_true hseen (of_decide_eq_true hstop))
  · rw [queued_dequeue, count_singleton_ne hu, Nat.sub_zero]
  · rw [hwk]
    simp only [Work.role, if_neg hu]

theorem Moves.runStore (h : Shape s) (hwk : s.worker = .runStore t) :
    Moves strict s (({ s with state := update s.state t .running } : St ι τ).ret (some t)) := by
  refine .ret h (fun u hu => .inl ?_) (fun u hu => update_of_ne (fun hut => hu (by rw [hut])) _ _) fun u hu => ?_
  · simp only [St.view, hwk]
    exact if_neg fun hut => hu (by rw [hut])
  · obtain rfl := Option.some.inj hu
    have hrole : (s.view t).role = .chosen := by
      simp only [St.view, hwk]
      exact if_pos rfl
    rw [update_self]
    exact .run hrole

theorem moves_found (h : Shape s) (hwk : s.worker = .found p t) (hs : s.stepWorker = some s') :
    Moves strict s s' := by
  have htake : Moves strict s (s.goto (.take p t)) :=
    .keep h (by rw [hwk]; simp) (by simp) (by rw [hwk]; rfl) (fun u => by rw [hwk]; rfl) (by rw [hwk]; rfl)
      (by simp) rfl rfl
  have hrole : ∀ u, (s.view u).role = .none ∨ (s.view u).role = .found := fun u => by
    simp only [St.view, hwk, Work.role]
    split
    · exact .inr rfl
    · exact .inl rfl
  unfold St.stepWorker at hs
  rw [hwk] at hs
  simp only at hs
  split at hs
  case h_1 c hcur =>
    split at hs
    case isTrue hst =>
      split at hs <;> rename_i hlt <;> rw [← Option.some.inj hs]
      · exact .preemptStart h hwk hcur hst hlt
      · refine .retSame h hrole fun u hu => ?_
        obtain rfl := Option.some.inj hu
        exact ⟨hcur, hst⟩
    case isFalse => rw [← Option.some.inj hs]; exact htake
  case h_2 => rw [← Option.some.inj hs]; exact htake

theorem moves_nothing (h : Shape s) (hwk : s.worker = .nothing) (hs : s.stepWorker = some s') :
    Moves strict s s' := by
  have hnone : ∀ u, (s.view u).role = .none ∨ (s.view u).role = .found :=
    fun u => .inl (by simp only [St.view, hwk]; rfl)
  have hidle : Moves strict s (s.ret none) := .retSame h hnone fun t ht => (by cases ht)
  unfold St.stepWorker at hs
  rw [hwk] at hs
  simp only at hs
  split at hs
  case h_1 c hcur =>
    split at hs <;> rename_i hst <;> rw [← Option.some.inj hs]
    · refine .retSame h hnone fun t ht => ?_
      obtain rfl := Option.some.inj ht
      exact ⟨hcur, hst⟩
    · exact hidle
  case h_2 => rw [← Option.some.inj hs]; exact hidle

/-- The worker looks for a queue that is not empty. -/
def Work.searching : Work τ → Bool
  | .loadMask | .search _ | .clear _ _ | .again _ _ | .nothing => true
  | _ => false

theorem searching_spec (h : w.searching = true) :
    w ≠ .run ∧ w.choosing = true ∧ (∀ u, w.role u = .none) ∧ w.place = none ∧ ∀ c p t stage,
    w ≠ .preempt c p t stage := by
  cases w <;> simp only [Work.searching, Bool.false_eq_true] at h <;>
    exact ⟨by simp, rfl, fun _ => rfl, rfl, by simp⟩

theorem Moves.search (h : Shape s) (hw : s.worker.searching = true) (hw' : w.searching = true) {sched : Sched τ}
    (hq : sched.readyq = s.sched.readyq) (hrq : sched.removeq = s.sched.removeq) :
    Moves strict s { s with sched, worker := w } := by
  obtain ⟨hrun, hc, hrole, hplace, -⟩ := searching_spec hw
  obtain ⟨hrun', hc', hrole', hplace', habove⟩ := searching_spec hw'
  exact .keep h hrun hrun' (by rw [hc, hc']) (fun u => by rw [hrole, hrole'])
    (by rw [hplace, hplace']) habove hq hrq

theorem Moves.findHead (h : Shape s) (hw : s.worker.searching = true) {ts : List τ}
    (hq : s.sched.readyq p = t :: ts) (hw' : w = .found p t ∨ w = .set p t) : Moves strict s (s.goto w) := by
  obtain ⟨hrun, hc, hrole, -, -⟩ := searching_spec hw
  have ht : t ∈ s.sched.readyq p := by rw [hq]; exact List.mem_cons_self
  rcases hw' with rfl | rfl
  · exact .find h hrun hc hrole ht (by simp) rfl (fun _ => rfl) rfl (by simp)
  · exact .find h hrun hc hrole ht (by simp) rfl (fun _ => rfl) rfl (by simp)

theorem moves_worker (h : Shape s) (hap : s.apartWorker = true) (hex : strict → s.exclusiveWorker = true)
    (hs : s.stepWorker = some s') : Moves strict s s' := by
  have hs₀ := hs
  unfold St.stepWorker at hs
  split at hs <;> rename_i hwk
  case h_1 => cases hs
  case h_2 =>
    split at hs
    case h_1 hq => rw [← Option.some.inj hs]; exact .choose h hwk hq
    case h_2 t ts hq =>
      split at hs <;> rename_i hcur <;> rw [← Option.some.inj hs]
      · exact .retSame h (fun u => .inl (by simp only [St.view, hwk]; rfl)) fun t ht => (by cases ht)
      · exact .retireInspect h hwk hq hcur
  case h_3 t stage => rw [← Option.some.inj hs]; exact moves_retire h hwk hap
  case h_4 => rw [← Option.some.inj hs]; exact .search h (by rw [hwk]; rfl) rfl rfl rfl
  case h_5 mask =>
    split at hs
    case h_1 => rw [← Option.some.inj hs]; exact .search h (by rw [hwk]; rfl) rfl rfl rfl
    case h_2 p =>
      split at hs <;> rename_i hq <;> rw [← Option.some.inj hs]
      · exact .search h (by rw [hwk]; rfl) rfl rfl rfl
      · exact .findHead h (by rw [hwk]; rfl) hq (.inl rfl)
  case h_6 mask p => rw [← Option.some.inj hs]; refine .search h (by rw [hwk]; rfl) rfl ?_ ?_ <;> rfl
  case h_7 mask p =>
    split at hs <;> rename_i hq <;> rw [← Option.some.inj hs]
    · exact .search h (by rw [hwk]; rfl) rfl rfl rfl
    · exact .findHead h (by rw [hwk]; rfl) hq (.inr rfl)
  case h_8 p t =>
    rw [← Option.some.inj hs]
    refine .keep h (by rw [hwk]; simp) (by simp) ?_ (fun u => ?_) ?_ (by simp) ?_ ?_ <;> try rw [hwk]
    all_goals rfl
  case h_9 => exact moves_nothing h hwk hs₀
  case h_10 p t => exact moves_found h hwk hs₀
  case h_11 c p t stage => rw [← Option.some.inj hs]; exact moves_preempt h hwk
  case h_12 p t => rw [← Option.some.inj hs]; exact .take h hwk hex
  case h_13 t =>
    rw [← Option.some.inj hs]
    refine .keep h (by rw [hwk]; simp) (by simp) ?_ (fun u => ?_) ?_ (by simp) ?_ ?_ <;> try rw [hwk]
    all_goals rfl
  case h_14 t => rw [← Option.some.inj hs]; exact .runStore h hwk

/-! ## The tasks -/

/-- A step of the current task, or of adding a task. -/
theorem Moves.task (h : Shape s) {state : τ → TaskState} {userdata : τ → Bool} {sched : Sched τ} {leaving : Bool}
    (hm : ∀ u, Move strict (s.view u) { s.view u with
      state := state u, userdata := userdata u, queued := queued s.prio sched u, removeq := sched.removeq.count u,
      stays := decide (s.current = some u) && decide (s.worker = .run) && !leaving })
    (hown : ∀ p t, t ∈ sched.readyq p → p = s.prio t) :
    Moves strict s { s with state, userdata, sched, leaving } :=
  ⟨hm, hown, h.place, h.above⟩

omit [Fintype ι] in
theorem queued_ready (s : St ι τ) (t u : τ) : queued s.prio ((s.sched.push (s.prio t) t).setMask (s.prio t)) u =
    queued s.prio s.sched u + [t].count u :=
  queued_push s.prio s.sched t u

theorem Moves.add (h : Shape s) (hd : s.userdata t = false) (hst : s.state t = .stopped) :
    Moves strict s { s with
      state := update s.state t .ready
      userdata := update s.userdata t true
      sched := (s.sched.push (s.prio t) t).setMask (s.prio t) } := by
  refine .task h (fun u => ?_) (own_push h.own t)
  rw [queued_ready]
  by_cases hu : u = t
  · subst hu
    rw [update_self, update_self, List.count_singleton_self]
    exact .add hd hst
  · rw [update_of_ne hu, update_of_ne hu, count_singleton_ne hu]
    exact .same

theorem stays_eq_true (hcur : s.current = some t) (hw : s.worker = .run) (hl : s.leaving = false) :
    (s.view t).stays = true := by
  simp [St.view, hcur, hw, hl]

omit [Fintype ι] [DecidableEq τ] in
theorem running_of_currentRuns (hcur : s.current = some t) (h : s.currentRuns = true) : s.state t = .running := by
  rw [St.currentRuns, hcur] at h
  exact of_decide_eq_true h

theorem Moves.block (h : Shape s) (hcur : s.current = some t) (hw : s.worker = .run) (hl : s.leaving = false)
    (hex : strict → s.currentRuns = true) :
    Moves strict s { s with state := update s.state t .blocked, leaving := true } := by
  refine .task h (fun u => ?_) h.own
  rw [Bool.not_true, Bool.and_false]
  by_cases hu : u = t
  · subst hu
    rw [update_self]
    exact .block (stays_eq_true hcur hw hl) fun hst => running_of_currentRuns hcur (hex hst)
  · rw [update_of_ne hu]
    exact .rest

theorem Moves.yield (h : Shape s) (hcur : s.current = some t) (hw : s.worker = .run) (hl : s.leaving = false)
    (hex : strict → s.currentRuns = true) :
    Moves strict s { s with
      state := update s.state t .ready
      sched := (s.sched.push (s.prio t) t).setMask (s.prio t)
      leaving := true } := by
  refine .task h (fun u => ?_) (own_push h.own t)
  rw [queued_ready, Bool.not_true, Bool.and_false]
  by_cases hu : u = t
  · subst hu
    rw [update_self, List.count_singleton_self]
    exact .yield (stays_eq_true hcur hw hl) fun hst => running_of_currentRuns hcur (hex hst)
  · rw [update_of_ne hu, count_singleton_ne hu]
    exact .rest

theorem Moves.unblockSelf (h : Shape s) (hcur : s.current = some t) (hw : s.worker = .run)
    (hb : s.state t = .blocked) :
    Moves strict s { s with state := update s.state t .running, leaving := false } := by
  refine .task h (fun u => ?_) h.own
  by_cases hu : u = t
  · subst hu
    have hrole : (s.view u).role = .none := by simp only [St.view, hw]; rfl
    have hchoosing : (s.view u).choosing = false := by simp only [St.view, hw]; rfl
    rw [update_self, decide_eq_true hcur, decide_eq_true hw]
    exact .unblockSelf hb (decide_eq_true hcur) hrole hchoosing
  · have hne : decide (s.current = some u) = false := decide_eq_false fun hc => hu (by
      rw [hcur] at hc
      exact (Option.some.inj hc).symm)
    rw [update_of_ne hu, hne]
    exact .rest

theorem Moves.getNext (h : Shape s) (hw : s.worker = .run) : Moves strict s (s.goto .begin) := by
  refine ⟨fun u => ?_, h.own, fun p t hp => (by cases hp), fun c p t stage hp => (by cases hp)⟩
  have hv : (s.goto .begin).view u = { s.view u with stays := false } := by
    simp only [St.view, St.goto, hw, Work.role, Work.choosing, View.mk.injEq, true_and, and_true]
    refine ⟨rfl, rfl, rfl, rfl, rfl, ?_⟩
    simp
  rw [hv]
  exact .rest

/-! ## The result -/

/-- **What a step does.** -/
theorem step_moves [DecidableEq ι] (h : Shape s) {a : Act ι τ} (hap : s.Apart a) (hex : strict → s.Exclusive a)
    (hs : s.step a = some s') : Moves strict s s' := by
  cases a with
  | add t =>
    obtain ⟨⟨hd, hst⟩, rfl⟩ := Option.ite_none_right_eq_some.1 hs |>.imp_right Option.some.inj
    exact .add h hd hst
  | block =>
    simp only [St.step] at hs
    split at hs
    case h_1 t hcur =>
      obtain ⟨⟨hw, hl⟩, rfl⟩ := Option.ite_none_right_eq_some.1 hs |>.imp_right Option.some.inj
      exact .block h hcur hw hl hex
    case h_2 => cases hs
  | yield =>
    simp only [St.step] at hs
    split at hs
    case h_1 t hcur =>
      obtain ⟨⟨hw, hl⟩, rfl⟩ := Option.ite_none_right_eq_some.1 hs |>.imp_right Option.some.inj
      exact .yield h hcur hw hl hex
    case h_2 => cases hs
  | unblockSelf =>
    simp only [St.step] at hs
    split at hs
    case h_1 t hcur =>
      obtain ⟨⟨hw, hb⟩, rfl⟩ := Option.ite_none_right_eq_some.1 hs |>.imp_right Option.some.inj
      exact .unblockSelf h hcur hw hb
    case h_2 => cases hs
  | getNext =>
    obtain ⟨hw, rfl⟩ := Option.ite_none_right_eq_some.1 hs |>.imp_right Option.some.inj
    exact .getNext h hw
  | worker => exact moves_worker h hap hex hs
  | unblock j t =>
    obtain ⟨hpc, rfl⟩ := Option.ite_none_right_eq_some.1 hs |>.imp_right Option.some.inj
    refine .callerGoto h hpc ?_ ?_ ?_ ?_ ?_ <;> rfl
  | remove j t =>
    obtain ⟨⟨hpc, hd, hr⟩, rfl⟩ := Option.ite_none_right_eq_some.1 hs |>.imp_right Option.some.inj
    exact .removeStart h hpc hd hr
  | step j => exact moves_caller h hap hex hs

/-- The view of a task before anything has happened. -/
def View.init : View :=
  ⟨.stopped, false, false, 0, 0, 0, 0, 0, false, false, false, false, false, false, .none, false⟩

theorem view_init {prio : τ → Prio} : (St.init prio : St ι τ).view t = .init := by
  have hidle : ∀ f : Pc τ → List τ, f .idle = [] → tally f (fun _ : ι => (Pc.idle : Pc τ)) t = 0 := fun f hf =>
    tally_eq_zero fun _ hm => by
      simp only [hf] at hm
      cases hm
  simp only [St.view, St.init, hidle Pc.waking rfl, hidle Pc.removing rfl, hidle Pc.pushing rfl]
  simp [queued, Sched.init, Work.role, Work.choosing, View.init]

/-- **Invariants of single tasks**: a predicate on views that holds at the start and that the moves keep holds
of every task in every state reached. -/
theorem view_inv [DecidableEq ι] (strict : Prop) {ok : St ι τ → Act ι τ → Prop} (hap : ∀ s a, ok s a → s.Apart a)
    (hex : ∀ s a, ok s a → strict → s.Exclusive a) {P : View → Prop} (h0 : P .init)
    (hmove : ∀ v v', P v → Move strict v v' → P v') (h : (sys ι τ).Reach ok s) : Shape s ∧ ∀ t, P (s.view t) := by
  refine System.Reach.inv (I := fun s => Shape s ∧ ∀ t, P (s.view t)) ?_ ?_ h
  · rintro _ ⟨prio, rfl⟩
    exact ⟨shape_init, fun t => by rw [view_init]; exact h0⟩
  · rintro s a s' ⟨hshape, hP⟩ hok hs
    have hm := step_moves hshape (hap s a hok) (hex s a hok) hs
    exact ⟨hm.shape, fun t => hmove _ _ (hP t) (hm.view t)⟩

end Prs.SwprioSteps
