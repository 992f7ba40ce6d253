import Prs.Model.SwprioWorker
import Prs.Proof.SwprioOrder
import Prs.Proof.WorkerSane

/-!
# Every queued task is covered

A call of `prs_sched_swprio_ready` reads the current task once, and does nothing more when that task is as
urgent as its own. The worker reads the mask once. Whatever the order, a queued task is covered: a caller has
yet to look at the worker, or the worker is told to look again, or what it does is in view of the task.

* `Covered`: the obligation for one queued task; `Ahead` is its part for a search that is going on.
* `Sound`: every queued task is covered, and its bit is in the mask or about to be.
* `Sound.step`: every step keeps it, of a caller, of the worker outside the search, and of the search.
-/

namespace Prs.SwprioWorker

open Function Swprio Worker

variable {ι τ : Type} {s s' : St ι τ} {a : Act ι τ} {t : τ}

/-! ## The obligation for a queued task -/

def St.Queued (s : St ι τ) (t : τ) : Prop := t ∈ s.sched.readyq (s.prio t)

/-- The caller `i` has queued `t` and has yet to look at the worker, or to set its flag. -/
def St.Owes (s : St ι τ) (i : ι) (t : τ) : Prop :=
  s.ready i = .mask t ∨ s.ready i = .read t ∨ s.ready i = .post t ∧ s.worker.post i = .orPending true

def St.Owed (s : St ι τ) (t : τ) : Prop := ∃ i, s.Owes i t

/-- The worker sleeps, and a caller has seen that. -/
def St.Waking (s : St ι τ) : Prop := s.worker.pc.suspended = true ∧ ∃ i, s.worker.post i = .andIdle true

/-- The worker is told to search. It sets the flag itself when it falls asleep, so that does not count then. -/
def St.Told (s : St ι τ) : Prop :=
  s.worker.flags.pending = true ∧ (s.worker.pc.suspended = true → s.worker.flags.idle = false)

/-- A search that is here comes to a task that is as urgent as `t`. -/
def Scan.Ahead (prio : τ → Prio) (t : τ) : Scan τ → Prop
  | .reset | .loadMask => True
  | .search mask | .clear mask _ | .again mask _ => mask.getLsbD (prio t) = true
  | .set p _ | .found p _ | .preempt _ p _ _ | .take p _ => p ≤ prio t
  | .running n | .store n => prio n ≤ prio t
  | .nothing | .switch _ => False

/-- The worker searches, or will before it runs a task. -/
def St.Ahead (s : St ι τ) (t : τ) : Prop :=
  match s.worker.pc with
  | .entry | .leaving | .exited => True
  | .top _ check => check = false
  | .getNext _ => s.scan.Ahead s.prio t
  | _ => False

/-- The current task is as urgent as `t`. -/
def St.Outranked (s : St ι τ) (t : τ) : Prop := ∃ c, s.current = some c ∧ s.prio c ≤ s.prio t

/-- **The obligation** for a queued task. -/
def St.Covered (s : St ι τ) (t : τ) : Prop := s.Owed t ∨ s.Waking ∨ s.Told ∨ s.Outranked t ∨ s.Ahead t

/-! ## The invariant -/

/-- The worker is between its clearing of the mask of a queue and the second look at that queue, or has pushed
a task whose bit it is about to set. -/
def Scan.Exposed (prio : τ → Prio) (t : τ) : Scan τ → Prop
  | .again _ p | .set p _ => prio t = p
  | .preempt c _ _ .mask => t = c
  | _ => False

/-- The bit of `t` is in the mask, or about to be. -/
def St.Masked (s : St ι τ) (t : τ) : Prop :=
  s.sched.readyMask.getLsbD (s.prio t) = true ∨ (∃ i, s.ready i = .mask t) ∨ s.scan.Exposed s.prio t

/-- What a search knows of the mask that it has loaded, and of the node that it has found. -/
def Scan.Fit (prio : τ → Prio) (q : Sched τ) : Scan τ → Prop
  | .clear mask p | .again mask p => lsb mask = some p
  | .set p t | .found p t | .take p t => t ∈ q.readyq p
  | .preempt c p t _ => t ∈ q.readyq p ∧ p < prio c
  | _ => True

/-- The search has begun, and the next task is not current yet. -/
def Scan.Busy : Scan τ → Prop
  | .reset | .switch _ => False
  | _ => True

/-- The worker has no current task. -/
def St.Between (s : St ι τ) : Prop :=
  match s.worker.pc with
  | .idle _ | .suspend _ => True
  | .getNext _ => s.scan.Busy
  | _ => False

structure Sound (s : St ι τ) : Prop where
  placed : ∀ p, ∀ t ∈ s.sched.readyq p, s.prio t = p
  fit : s.scan.Fit s.prio s.sched
  reset : (∀ c, s.worker.pc ≠ .getNext c) → s.scan = .reset
  between : s.Between → s.current = none
  masked : ∀ t, s.Queued t → s.Masked t
  covered : ∀ t, s.Queued t → s.Covered t

theorem sound_init (prio : τ → Prio) : Sound (St.init prio : St ι τ) where
  placed := fun _ _ h => nomatch h
  fit := trivial
  reset := fun _ => rfl
  between := fun _ => rfl
  masked := fun _ h => nomatch h
  covered := fun _ h => nomatch h

/-! ## Queues -/

theorem mem_push {q : Sched τ} {p p' : Prio} {u : τ} :
    t ∈ (q.push p u).readyq p' ↔ t ∈ q.readyq p' ∨ t = u ∧ p' = p := by
  unfold Sched.push
  by_cases hp : p' = p
  · subst hp
    simp
  · simp [hp]

theorem mem_of_dequeue [DecidableEq τ] {q : Sched τ} {p p' : Prio} {u : τ}
    (h : t ∈ (q.dequeue p u).readyq p') : t ∈ q.readyq p' := by
  unfold Sched.dequeue at h
  by_cases hp : p' = p
  · subst hp
    simp only [update_self] at h
    exact List.mem_of_mem_erase h
  · simpa [hp] using h

theorem setMask_self (q : Sched τ) (p : Prio) : (q.setMask p).readyMask.getLsbD p = true := by
  unfold Sched.setMask
  rw [getLsbD_set, decide_eq_true rfl, Bool.or_true]

theorem setMask_of {q : Sched τ} {p p' : Prio} (h : q.readyMask.getLsbD p' = true) :
    (q.setMask p).readyMask.getLsbD p' = true := by
  unfold Sched.setMask
  rw [getLsbD_set, h, Bool.true_or]

/-- A node that was found stays where it is while tasks are queued. -/
theorem Scan.Fit.mono {prio : τ → Prio} {q q' : Sched τ} {scan : Scan τ} (h : scan.Fit prio q)
    (hq : ∀ p, ∀ t ∈ q.readyq p, t ∈ q'.readyq p) : scan.Fit prio q' := by
  cases scan with
  | set p t => exact hq p t h
  | found p t => exact hq p t h
  | take p t => exact hq p t h
  | preempt _ p t _ => exact ⟨hq p t h.1, h.2⟩
  | reset | loadMask | search | clear | again | nothing | running | store | switch => exact h

/-! ## Callers -/

section Callers

variable {i : ι} {u : τ}

/-- What the others owe stays when one caller moves. -/
theorem St.Owed.others (h : s.Owed u) (s' : St ι τ) (i : ι) (hr : ∀ j, j ≠ i → s'.ready j = s.ready j)
    (hp : ∀ j, j ≠ i → s'.worker.post j = s.worker.post j) : s.Owes i u ∨ s'.Owed u := by
  obtain ⟨j, hj⟩ := h
  by_cases hji : j = i
  · exact .inl (hji ▸ hj)
  · refine .inr ⟨j, ?_⟩
    unfold St.Owes
    rw [hr j hji, hp j hji]
    exact hj

/-- A caller moves and leaves the worker alone. -/
theorem St.Covered.caller [DecidableEq ι] (h : s.Covered u) {r : Ready τ} {sched : Sched τ}
    {state : τ → TaskState} (hi : s.Owes i u →
      ({ s with sched, state, ready := update s.ready i r } : St ι τ).Covered u) :
    ({ s with sched, state, ready := update s.ready i r } : St ι τ).Covered u := by
  rcases h with h | h
  · rcases h.others { s with sched, state, ready := update s.ready i r } i
      (fun j hj => update_of_ne hj _ _) (fun _ _ => rfl) with h | h
    · exact hi h
    · exact .inl h
  · exact .inr h

theorem St.Masked.caller [DecidableEq ι] (h : s.Masked u) {w : Worker.St ι} {r : Ready τ} {sched : Sched τ}
    {state : τ → TaskState} (hm : s.sched.readyMask.getLsbD (s.prio u) = true →
      sched.readyMask.getLsbD (s.prio u) = true)
    (hi : s.ready i = .mask u → sched.readyMask.getLsbD (s.prio u) = true) :
    ({ s with worker := w, sched, state, ready := update s.ready i r } : St ι τ).Masked u := by
  rcases h with h | ⟨j, hj⟩ | h
  · exact .inl (hm h)
  · by_cases hji : j = i
    · exact .inl (hi (hji ▸ hj))
    · exact .inr (.inl ⟨j, (update_of_ne hji _ _).trans hj⟩)
  · exact .inr (.inr h)

/-- A call begins. -/
theorem Sound.ready [DecidableEq ι] (h : Sound s) {state : τ → TaskState} (hi : s.ready i = .idle) :
    Sound { s with state, ready := update s.ready i (.push t) } where
  placed := h.placed
  fit := h.fit
  reset := h.reset
  between := h.between
  masked := fun u hu => (h.masked u hu).caller id fun hm => by rw [hi] at hm; cases hm
  covered := fun u hu => (h.covered u hu).caller fun ho => by
    rcases ho with ho | ho | ⟨ho, -⟩ <;> rw [hi] at ho <;> cases ho

theorem Sound.push [DecidableEq ι] (h : Sound s) (hi : s.ready i = .push t) :
    Sound { s with sched := s.sched.push (s.prio t) t, ready := update s.ready i (.mask t) } where
  placed := by
    intro p u hu
    rcases mem_push.1 hu with hu | ⟨rfl, rfl⟩
    · exact h.placed p u hu
    · rfl
  fit := h.fit.mono fun _ _ hu => mem_push.2 (.inl hu)
  reset := h.reset
  between := h.between
  masked := by
    intro u hu
    rcases mem_push.1 hu with hu | ⟨rfl, -⟩
    · exact (h.masked u hu).caller id fun hm => by rw [hi] at hm; cases hm
    · exact .inr (.inl ⟨i, update_self _ _ _⟩)
  covered := by
    intro u hu
    rcases mem_push.1 hu with hu | ⟨rfl, -⟩
    · refine (h.covered u hu).caller fun ho => ?_
      rcases ho with ho | ho | ⟨ho, -⟩ <;> rw [hi] at ho <;> cases ho
    · exact .inl ⟨i, .inl (update_self _ _ _)⟩

theorem Sound.mask [DecidableEq ι] (h : Sound s) (hi : s.ready i = .mask t) :
    Sound { s with sched := s.sched.setMask (s.prio t), ready := update s.ready i (.read t) } where
  placed := h.placed
  fit := h.fit.mono fun _ _ hu => hu
  reset := h.reset
  between := h.between
  masked := by
    intro u hu
    refine (h.masked u hu).caller setMask_of fun hm => ?_
    obtain rfl : t = u := Ready.mask.inj (hi.symm.trans hm)
    exact setMask_self _ _
  covered := by
    intro u hu
    refine (h.covered u hu).caller fun ho => ?_
    rcases ho with ho | ho | ⟨ho, -⟩ <;> rw [hi] at ho <;> cases ho
    exact .inl ⟨i, .inr (.inl (update_self _ _ _))⟩

/-- A caller does not interrupt for a task that the current one outranks. -/
theorem outranked_of_interrupts (h : s.interrupts t = false) : s.Outranked t := by
  unfold St.interrupts at h
  split at h
  · cases h
  · rename_i c hc
    refine ⟨c, hc, le_of_not_gt fun hlt => ?_⟩
    -- a priority above another is not zero
    have hpos : 0 < (s.prio c).val := Nat.zero_lt_of_lt hlt
    rw [decide_eq_true hpos, decide_eq_true hlt] at h
    cases h

/-- A caller that finds a current task as urgent as its own is done. -/
theorem Sound.leave [DecidableEq ι] (h : Sound s) (hi : s.ready i = .read t) (hn : s.interrupts t = false) :
    Sound { s with ready := update s.ready i .idle } where
  placed := h.placed
  fit := h.fit
  reset := h.reset
  between := h.between
  masked := fun u hu => (h.masked u hu).caller id fun hm => by rw [hi] at hm; cases hm
  covered := by
    intro u hu
    refine (h.covered u hu).caller fun ho => ?_
    rcases ho with ho | ho | ⟨ho, -⟩ <;> rw [hi] at ho <;> cases ho
    exact .inr (.inr (.inr (.inl (outranked_of_interrupts hn))))

/-- A caller that goes on to `prs_worker_interrupt`. -/
theorem Sound.read [DecidableEq ι] (h : Sound s) (hi : s.ready i = .read t) (hd : s.worker.post i = .done) :
    Sound { s with
      worker := { s.worker with post := update s.worker.post i (.orPending true) }
      ready := update s.ready i (.post t) } where
  placed := h.placed
  fit := h.fit
  reset := h.reset
  between := h.between
  masked := fun u hu => (h.masked u hu).caller id fun hm => by rw [hi] at hm; cases hm
  covered := by
    intro u hu
    rcases h.covered u hu with ho | ⟨hsp, j, hj⟩ | ho
    · rcases ho.others { s with
        worker := { s.worker with post := update s.worker.post i (.orPending true) }
        ready := update s.ready i (.post t) } i (fun j hj => update_of_ne hj _ _)
        (fun j hj => update_of_ne hj _ _) with ho | ho
      · rcases ho with ho | ho | ⟨ho, -⟩ <;> rw [hi] at ho <;> cases ho
        exact .inl ⟨i, .inr (.inr ⟨update_self _ _ _, update_self _ _ _⟩)⟩
      · exact .inl ho
    · have hji : j ≠ i := by
        rintro rfl
        rw [hd] at hj
        cases hj
      exact .inr (.inl ⟨hsp, j, (update_of_ne hji _ _).trans hj⟩)
    · exact .inr (.inr ho)

/-- The first step of `prs_worker_interrupt` tells a worker that is awake, or has seen that it sleeps. -/
theorem covered_orPending [Fintype ι] [DecidableEq ι] (hw : Sane s.worker) {b : Bool}
    (hp : s.worker.post i = .orPending b) (r : ι → Ready τ) :
    ({ s with worker := s.worker.poster i, ready := r } : St ι τ).Covered u := by
  obtain ⟨hpc, hf, hpost⟩ := poster_frame s.worker i
  rw [hp] at hf hpost
  by_cases hsl : s.worker.pc.suspended = true ∧ s.worker.flags.idle = true
  · refine .inr (.inl ⟨by rw [hpc]; exact hsl.1, i, ?_⟩)
    obtain rfl : b = true := by
      have hl := hw.loud i
      rw [hp] at hl
      exact hl
    rw [hpost, update_self]
    simp only [Post.next, if_pos hsl.2]
  · refine .inr (.inr (.inl ⟨by rw [hf]; rfl, fun hsp => ?_⟩))
    rw [hpc] at hsp
    rw [hf]
    exact Bool.not_eq_true _ ▸ fun hid => hsl ⟨hsp, hid⟩

/-- The other steps of `prs_worker_interrupt` leave the pending flag as it is, and may clear the idle flag. -/
theorem next_frame (f : Flags) {p : Post} (hp : ∀ b, p ≠ .orPending b) :
    (p.next f).2.pending = f.pending ∧ (f.idle = false → (p.next f).2.idle = false) ∧
      (∀ b, p = .andIdle b → (p.next f).2.idle = false) := by
  cases p with
  | orPending b => exact absurd rfl (hp b)
  | andIdle b => exact ⟨rfl, fun _ => rfl, fun _ _ => rfl⟩
  | done | orStop | resume | interrupt => exact ⟨rfl, id, fun _ h => nomatch h⟩

theorem covered_poster [Fintype ι] [DecidableEq ι] (h : s.Covered u) (hw : Sane s.worker)
    (hp : ∀ b, s.worker.post i ≠ .orPending b) (hi : s.ready i = .post t) (r : Ready τ) :
    ({ s with worker := s.worker.poster i, ready := update s.ready i r } : St ι τ).Covered u := by
  obtain ⟨hpc, hf, hpost⟩ := poster_frame s.worker i
  obtain ⟨hpend, hidle, hclear⟩ := next_frame s.worker.flags hp
  rw [← hf] at hpend hidle hclear
  rcases h with ho | ⟨hsp, j, hj⟩ | ⟨hpe, hid⟩ | ho | ho
  · rcases ho.others { s with worker := s.worker.poster i, ready := update s.ready i r } i
      (fun j hj => update_of_ne hj _ _) (fun j hj => by rw [hpost, update_of_ne hj]) with ho | ho
    · rcases ho with ho | ho | ⟨-, ho⟩
      · rw [hi] at ho; cases ho
      · rw [hi] at ho; cases ho
      · exact absurd ho (hp true)
    · exact .inl ho
  · by_cases hji : j = i
    · -- the caller that saw the idle flag has cleared it
      subst hji
      exact .inr (.inr (.inl ⟨hpend.trans (hw.asleep hsp), fun _ => hclear true hj⟩))
    · exact .inr (.inl ⟨by rw [hpc]; exact hsp, j, by rw [hpost, update_of_ne hji]; exact hj⟩)
  · exact .inr (.inr (.inl ⟨hpend.trans hpe, fun hsp => hidle (hid (hpc ▸ hsp))⟩))
  · exact .inr (.inr (.inr (.inl ho)))
  · refine .inr (.inr (.inr (.inr ?_)))
    unfold St.Ahead at ho ⊢
    rw [show (s.worker.poster i).pc = s.worker.pc from hpc]
    exact ho

/-- A step of `prs_worker_interrupt`. -/
theorem Sound.post [Fintype ι] [DecidableEq ι] (h : Sound s) (hw : Sane s.worker) (hi : s.ready i = .post t)
    (r : Ready τ) :
    Sound { s with worker := s.worker.poster i, ready := update s.ready i r } where
  placed := h.placed
  fit := h.fit
  reset := by
    rw [(poster_frame s.worker i).1]
    exact h.reset
  between := by
    unfold St.Between
    rw [(poster_frame s.worker i).1]
    exact h.between
  masked := fun u hu => (h.masked u hu).caller id fun hm => by rw [hi] at hm; cases hm
  covered := by
    intro u hu
    by_cases hp : ∃ b, s.worker.post i = .orPending b
    · obtain ⟨b, hp⟩ := hp
      exact covered_orPending hw hp _
    · exact covered_poster (h.covered u hu) hw (fun b hb => hp ⟨b, hb⟩) hi r

end Callers

/-! ## The worker outside the search -/

section Own

variable {w : Worker.St ι} {u : τ}

/-- What callers owe does not depend on where the worker is. -/
theorem St.Owed.worker (h : s.Owed u) (hp : w.post = s.worker.post) :
    ({ s with worker := w } : St ι τ).Owed u := by
  obtain ⟨i, hi⟩ := h
  refine ⟨i, ?_⟩
  unfold St.Owes
  rw [hp]
  exact hi

/-- A worker that is about to search is ahead of every task. -/
theorem ahead_fresh (hreset : s.scan = .reset) (hpc : s.worker.pc = .entry ∨ s.worker.pc = .leaving ∨
    s.worker.pc = .exited ∨ (∃ c, s.worker.pc = .top c false) ∨ ∃ c, s.worker.pc = .getNext c) : s.Ahead u := by
  unfold St.Ahead
  rcases hpc with hpc | hpc | hpc | ⟨c, hpc⟩ | ⟨c, hpc⟩
  · rw [hpc]
    trivial
  · rw [hpc]
    trivial
  · rw [hpc]
    trivial
  · rw [hpc]
  · rw [hpc, hreset]
    trivial

theorem Sound.reset_own (h : Sound s) (ho : Own s.worker w) : (∀ c, w.pc ≠ .getNext c) → s.scan = .reset := by
  intro hpc
  rcases ho.leaves with hl | hl
  · exact h.reset hl
  · exact h.reset (hl ▸ hpc)

theorem Sound.between_own (h : Sound s) (ho : Own s.worker w) (hb : ({ s with worker := w } : St ι τ).Between) :
    s.current = none := by
  unfold St.Between at hb
  cases ho with
  | fresh hpc hpc' =>
    have hr := h.reset hpc
    rcases hpc' with hpc' | hpc' | hpc' | ⟨c, hpc'⟩ | ⟨c, hpc'⟩ <;> rw [hpc'] at hb
    · cases hb
    · cases hb
    · cases hb
    · cases hb
    · rw [hr] at hb
      cases hb
  | sleep c _ hpc _ _ =>
    refine h.between ?_
    unfold St.Between
    rw [hpc]
    trivial
  | move _ hpc' _ => rcases hpc' with ⟨c, hpc'⟩ | hpc' | hpc' | hpc' <;> rw [hpc'] at hb <;> cases hb
  | stay hpc _ _ =>
    rw [hpc] at hb
    exact h.between hb

/-- The worker falls asleep when nothing has told it not to. -/
theorem Sound.covered_sleep (h : Sound s) {c : Caller} (hp : w.post = s.worker.post) (hz : s.worker.flags = .zero)
    (hpc : s.worker.pc = .idle c) (hu : s.Queued u) : ({ s with worker := w } : St ι τ).Covered u := by
  rcases h.covered u hu with ho | ⟨hsp, -⟩ | ⟨hpe, -⟩ | ⟨c, hc, -⟩ | ha
  · exact .inl (ho.worker hp)
  · rw [hpc] at hsp
    cases hsp
  · rw [hz] at hpe
    cases hpe
  · have hn : s.current = none := h.between (by unfold St.Between; rw [hpc]; trivial)
    rw [hn] at hc
    cases hc
  · unfold St.Ahead at ha
    rw [hpc] at ha
    cases ha

/-- The worker goes on without a search. -/
theorem St.Covered.move [Fintype ι] (h : s.Covered u) (hw : Sane s.worker) (hp : w.post = s.worker.post)
    (ha : ¬s.Ahead u) (hsp : w.pc.suspended = false)
    (hpe : s.worker.flags.pending = true → w.flags.pending = true) (scan : Scan τ) :
    ({ s with worker := w, scan } : St ι τ).Covered u := by
  have hawake : w.pc.suspended = true → w.flags.idle = false := fun h => by rw [hsp] at h; cases h
  rcases h with ho | ⟨hs, -⟩ | ⟨hs, -⟩ | ho | ho
  · exact .inl (ho.worker hp)
  · -- it is woken, with the pending flag that it set when it fell asleep
    exact .inr (.inr (.inl ⟨hpe (hw.asleep hs), hawake⟩))
  · exact .inr (.inr (.inl ⟨hpe hs, hawake⟩))
  · exact .inr (.inr (.inr (.inl ho)))
  · exact absurd ho ha

theorem Sound.own [Fintype ι] (h : Sound s) (hw : Sane s.worker) (hp : w.post = s.worker.post)
    (ho : Own s.worker w) :
    Sound { s with worker := w } := by
  refine ⟨h.placed, h.fit, h.reset_own ho, h.between_own ho, h.masked, fun u hu => ?_⟩
  cases ho with
  | fresh hpc hpc' => exact .inr (.inr (.inr (.inr (ahead_fresh (h.reset hpc) hpc'))))
  | sleep c hz hpc _ _ => exact h.covered_sleep hp hz hpc hu
  | move hpc hpc' hpe =>
    refine (h.covered u hu).move hw hp ?_ ?_ hpe s.scan
    · intro ha
      unfold St.Ahead at ha
      rcases hpc with ⟨c, hpc⟩ | ⟨c, hpc⟩ | ⟨c, hpc⟩ | hpc | hpc | hpc <;> rw [hpc] at ha <;> cases ha
    · rcases hpc' with ⟨c, hpc'⟩ | hpc' | hpc' | hpc' <;> rw [hpc'] <;> rfl
  | stay hpc hpe hid =>
    have hc := h.covered u hu
    unfold St.Covered St.Waking St.Told St.Ahead at hc ⊢
    rw [hpc, hpe, hid, hp]
    exact hc.imp_left fun ho => ho.worker hp

end Own

/-! ## The search -/

section Search

variable {caller : Caller} {u : τ}

theorem Sound.current_none (h : Sound s) (hpc : s.worker.pc = .getNext caller)
    (hb : s.scan.Busy) : s.current = none := by
  refine h.between ?_
  unfold St.Between
  rw [hpc]
  exact hb

/-- A task that no caller and no flag covers is one that the search comes to. -/
theorem Sound.search (h : Sound s) (hpc : s.worker.pc = .getNext caller) (hb : s.scan.Busy)
    (hu : s.Queued u) : s.Owed u ∨ s.Told ∨ s.scan.Ahead s.prio u := by
  rcases h.covered u hu with ho | ⟨hsp, -⟩ | ho | ⟨c, hc, -⟩ | ha
  · exact .inl ho
  · rw [hpc] at hsp
    cases hsp
  · exact .inr (.inl ho)
  · rw [h.current_none hpc hb] at hc
    cases hc
  · unfold St.Ahead at ha
    rw [hpc] at ha
    exact .inr (.inr ha)

/-- The bit of a task that the search has not exposed stays. -/
theorem St.Masked.unexposed (h : s.Masked u) (he : ¬s.scan.Exposed s.prio u) {P : Prop} :
    s.sched.readyMask.getLsbD (s.prio u) = true ∨ (∃ i, s.ready i = .mask u) ∨ P := by
  rcases h with hm | hi | hx
  · exact .inl hm
  · exact .inr (.inl hi)
  · exact absurd hx he

/-- A step of the search. -/
theorem sound_work (hpc : s.worker.pc = .getNext caller) {sched : Sched τ} {state : τ → TaskState}
    {current prev : Option τ} {scan : Scan τ} (hplaced : ∀ p, ∀ t ∈ sched.readyq p, s.prio t = p)
    (hfit : scan.Fit s.prio sched) (hbetween : scan.Busy → current = none)
    (hmasked : ∀ u ∈ sched.readyq (s.prio u), sched.readyMask.getLsbD (s.prio u) = true ∨
      (∃ i, s.ready i = .mask u) ∨
      scan.Exposed s.prio u)
    (hcovered : ∀ u ∈ sched.readyq (s.prio u), s.Owed u ∨ s.Told ∨ (∃ c, current = some c ∧ s.prio c ≤ s.prio u) ∨
      scan.Ahead s.prio u) : Sound { s with sched, state, current, prev, scan } where
  placed := hplaced
  fit := hfit
  reset := fun hc => absurd hpc (hc caller)
  between := by
    unfold St.Between
    rw [hpc]
    exact hbetween
  masked := hmasked
  covered := by
    intro u hu
    rcases hcovered u hu with ho | ho | ho | ho
    · exact .inl ho
    · exact .inr (.inr (.inl ho))
    · exact .inr (.inr (.inr (.inl ho)))
    · refine .inr (.inr (.inr (.inr ?_)))
      unfold St.Ahead
      rw [hpc]
      exact ho

/-- The search goes on, with the queues and the mask as they are. -/
theorem Sound.goto (h : Sound s) (hpc : s.worker.pc = .getNext caller) (hb : s.scan.Busy)
    {scan : Scan τ} (hfit : scan.Fit s.prio s.sched)
    (hexp : ∀ u, s.Queued u → s.scan.Exposed s.prio u → scan.Exposed s.prio u)
    (hahead : ∀ u, s.Queued u → s.scan.Ahead s.prio u → s.Owed u ∨ scan.Ahead s.prio u) :
    Sound (s.goto scan) := by
  refine sound_work hpc h.placed hfit (fun _ => h.current_none hpc hb) (fun u hu => ?_) fun u hu => ?_
  · exact (h.masked u hu).imp_right (.imp_right (hexp u hu))
  · rcases h.search hpc hb hu with ho | ho | ho
    · exact .inl ho
    · exact .inr (.inl ho)
    · exact (hahead u hu ho).imp_right fun ha => .inr (.inr ha)

/-- The mask that is loaded has every task whose caller has set its bit. -/
theorem Sound.loadMask (h : Sound s) (hpc : s.worker.pc = .getNext caller) (hsc : s.scan = .loadMask) :
    Sound (s.goto (.search s.sched.readyMask)) := by
  have hb : s.scan.Busy := by rw [hsc]; trivial
  refine h.goto hpc hb trivial (fun u _ he => ?_) fun u hu _ => ?_
  · rw [hsc] at he
    cases he
  · rcases h.masked u hu with hm | ⟨i, hi⟩ | he
    · exact .inr hm
    · -- a bit that is not there yet has a caller that will read the current task after this
      exact .inl ⟨i, .inl hi⟩
    · rw [hsc] at he
      cases he

theorem ahead_of_lsb {mask : BitVec 32} {p : Prio} (hp : lsb mask = some p)
    (hm : mask.getLsbD (s.prio u) = true) :
    p ≤ s.prio u := by
  refine le_of_not_gt fun hlt => ?_
  have := (lsb_eq_some.1 hp).2 (s.prio u) hlt
  rw [hm] at this
  cases this

theorem Sound.searchMask (h : Sound s) (hpc : s.worker.pc = .getNext caller) {mask : BitVec 32}
    (hsc : s.scan = .search mask) {scan : Scan τ} (hfit : scan.Fit s.prio s.sched)
    (hahead : ∀ u, s.Queued u → mask.getLsbD (s.prio u) = true → scan.Ahead s.prio u) : Sound (s.goto scan) := by
  have hb : s.scan.Busy := by rw [hsc]; trivial
  refine h.goto hpc hb hfit (fun u _ he => ?_) fun u hu ha => ?_
  · rw [hsc] at he
    cases he
  · rw [hsc] at ha
    exact .inr (hahead u hu ha)

theorem Sound.clear (h : Sound s) (hpc : s.worker.pc = .getNext caller) {mask : BitVec 32} {p : Prio}
    (hsc : s.scan = .clear mask p) : Sound { s with sched := s.sched.clearMask p, scan := .again mask p } := by
  have hb : s.scan.Busy := by rw [hsc]; trivial
  have hf := h.fit
  rw [hsc] at hf
  refine sound_work hpc h.placed hf (fun _ => h.current_none hpc hb) (fun u hu => ?_) fun u hu => ?_
  · by_cases hp : s.prio u = p
    · -- its bit is lost, and the second look makes up for it
      exact .inr (.inr hp)
    · rcases h.masked u hu with hm | hi | he
      · refine .inl ?_
        unfold Sched.clearMask
        rw [getLsbD_clear, hm, decide_eq_true (Ne.symm hp)]
        rfl
      · exact .inr (.inl hi)
      · rw [hsc] at he
        cases he
  · rcases h.search hpc hb hu with ho | ho | ho
    · exact .inl ho
    · exact .inr (.inl ho)
    · rw [hsc] at ho
      exact .inr (.inr (.inr ho))

/-- The second look finds the queue empty, so no task of it is passed over. -/
theorem Sound.againNil (h : Sound s) (hpc : s.worker.pc = .getNext caller) {mask : BitVec 32} {p : Prio}
    (hsc : s.scan = .again mask p) (hq : s.sched.readyq p = []) :
    Sound (s.goto (.search (mask &&& ~~~bit p))) := by
  have hb : s.scan.Busy := by rw [hsc]; trivial
  have hne : ∀ u, s.Queued u → p ≠ s.prio u := by
    rintro u hu rfl
    unfold St.Queued at hu
    rw [hq] at hu
    cases hu
  refine h.goto hpc hb trivial (fun u hu he => ?_) fun u hu ha => ?_
  · rw [hsc] at he
    exact absurd he.symm (hne u hu)
  · rw [hsc] at ha
    have ha : mask.getLsbD (s.prio u) = true := ha
    have hm : (mask &&& ~~~bit p).getLsbD (s.prio u) = true := by
      rw [getLsbD_clear, ha, decide_eq_true (hne u hu)]
      rfl
    exact .inr hm

theorem Sound.againCons (h : Sound s) (hpc : s.worker.pc = .getNext caller) {mask : BitVec 32} {p : Prio}
    {ts : List τ} (hsc : s.scan = .again mask p) (hq : s.sched.readyq p = t :: ts) :
    Sound (s.goto (.set p t)) := by
  have hb : s.scan.Busy := by rw [hsc]; trivial
  have hf := h.fit
  rw [hsc] at hf
  have hmem : t ∈ s.sched.readyq p := hq ▸ List.mem_cons_self
  refine h.goto hpc hb hmem (fun u _ he => ?_) fun u _ ha => ?_
  · rw [hsc] at he
    exact he
  · rw [hsc] at ha
    exact .inr (ahead_of_lsb hf ha)

theorem Sound.set (h : Sound s) (hpc : s.worker.pc = .getNext caller) {p : Prio} (hsc : s.scan = .set p t) :
    Sound { s with sched := s.sched.setMask p, scan := .found p t } := by
  have hb : s.scan.Busy := by rw [hsc]; trivial
  have hf := h.fit
  rw [hsc] at hf
  refine sound_work hpc h.placed hf (fun _ => h.current_none hpc hb) (fun u hu => ?_) fun u hu => ?_
  · rcases h.masked u hu with hm | hi | he
    · exact .inl (setMask_of hm)
    · exact .inr (.inl hi)
    · rw [hsc] at he
      obtain rfl : s.prio u = p := he
      exact .inl (setMask_self _ _)
  · rcases h.search hpc hb hu with ho | ho | ho
    · exact .inl ho
    · exact .inr (.inl ho)
    · rw [hsc] at ho
      exact .inr (.inr (.inr ho))

/-- The search has found a task of priority `p` and goes on with it, or with a current task as urgent as that. -/
theorem Sound.foundTo (h : Sound s) (hpc : s.worker.pc = .getNext caller) {p : Prio} (hsc : s.scan = .found p t)
    {scan : Scan τ} (hfit : scan.Fit s.prio s.sched) (hahead : ∀ u, p ≤ s.prio u → scan.Ahead s.prio u) :
    Sound (s.goto scan) := by
  have hb : s.scan.Busy := by rw [hsc]; trivial
  refine h.goto hpc hb hfit (fun u _ he => ?_) fun u _ ha => ?_
  · rw [hsc] at he
    cases he
  · rw [hsc] at ha
    exact .inr (hahead u ha)

/-- Nothing was found. Whatever is queued is owed, or the worker is told. -/
theorem Sound.nothingTo (h : Sound s) (hpc : s.worker.pc = .getNext caller) (hsc : s.scan = .nothing)
    {scan : Scan τ} (hfit : scan.Fit s.prio s.sched) : Sound (s.goto scan) := by
  have hb : s.scan.Busy := by rw [hsc]; trivial
  refine h.goto hpc hb hfit (fun u _ he => ?_) fun u _ ha => ?_
  · rw [hsc] at he
    cases he
  · rw [hsc] at ha
    cases ha

theorem Sound.preempt [DecidableEq τ] (h : Sound s) (hpc : s.worker.pc = .getNext caller) {c : τ} {p : Prio}
    {stage : Preempt} (hsc : s.scan = .preempt c p t stage) : Sound (s.stepPreempt c p t stage) := by
  have hb : s.scan.Busy := by rw [hsc]; trivial
  have hn := h.current_none hpc hb
  have hf := h.fit
  have hcov : ∀ u, s.Queued u → s.Owed u ∨ s.Told ∨ p ≤ s.prio u := by
    intro u hu
    have ho := h.search hpc hb hu
    rw [hsc] at ho
    exact ho
  rw [hsc] at hf
  obtain ⟨hmem, hlt⟩ := hf
  cases stage with
  | push =>
    refine sound_work hpc (fun q u hu => ?_) ⟨mem_push.2 (.inl hmem), hlt⟩ (fun _ => hn)
      (fun u hu => ?_) fun u hu => ?_
    · rcases mem_push.1 hu with hu | ⟨rfl, rfl⟩
      · exact h.placed q u hu
      · rfl
    · rcases mem_push.1 hu with hu | ⟨rfl, -⟩
      · exact (h.masked u hu).unexposed (by rw [hsc]; exact id)
      · exact .inr (.inr rfl)
    · rcases mem_push.1 hu with hu | ⟨rfl, -⟩
      · exact (hcov u hu).imp_right (.imp_right .inr)
      · -- the preempted task is less urgent than the one found
        exact .inr (.inr (.inr hlt.le))
  | mask =>
    refine sound_work hpc h.placed ⟨hmem, hlt⟩ (fun _ => hn) (fun u hu => ?_) fun u hu => ?_
    · rcases h.masked u hu with hm | hi | he
      · exact .inl (setMask_of hm)
      · exact .inr (.inl hi)
      · rw [hsc] at he
        obtain rfl : u = c := he
        exact .inl (setMask_self _ _)
    · exact (hcov u hu).imp_right (.imp_right .inr)
  | state =>
    refine sound_work hpc h.placed hmem (fun _ => hn) (fun u hu => ?_) fun u hu => ?_
    · exact (h.masked u hu).unexposed (by rw [hsc]; exact id)
    · exact (hcov u hu).imp_right (.imp_right .inr)

theorem Sound.take [DecidableEq τ] (h : Sound s) (hpc : s.worker.pc = .getNext caller) {p : Prio}
    (hsc : s.scan = .take p t) :
    Sound { s with sched := s.sched.dequeue p t, scan := .running t } := by
  have hb : s.scan.Busy := by rw [hsc]; trivial
  have hf := h.fit
  rw [hsc] at hf
  have hp : s.prio t = p := h.placed p t hf
  refine sound_work hpc (fun q u hu => h.placed q u (mem_of_dequeue hu)) trivial (fun _ => h.current_none hpc hb)
    (fun u hu => ?_) fun u hu => ?_
  · exact (h.masked u (mem_of_dequeue hu)).unexposed (by rw [hsc]; exact id)
  · have ho := h.search hpc hb (mem_of_dequeue hu)
    rw [hsc] at ho
    rcases ho with ho | ho | ho
    · exact .inl ho
    · exact .inr (.inl ho)
    · exact .inr (.inr (.inr (hp.trans_le ho)))

theorem Sound.running (h : Sound s) (hpc : s.worker.pc = .getNext caller) (hsc : s.scan = .running t)
    (state : τ → TaskState) : Sound { s with state, scan := .store t } := by
  have hb : s.scan.Busy := by rw [hsc]; trivial
  refine sound_work hpc h.placed trivial (fun _ => h.current_none hpc hb) (fun u hu => ?_) fun u hu => ?_
  · exact (h.masked u hu).unexposed (by rw [hsc]; exact id)
  · have ho := h.search hpc hb hu
    rw [hsc] at ho
    exact ho.imp_right (.imp_right .inr)

/-- The search begins: from here on every task that is not in view has a caller that sees no current task. -/
theorem Sound.begin (h : Sound s) (hpc : s.worker.pc = .getNext caller) (hsc : s.scan = .reset)
    (prev : Option τ) :
    Sound { s with prev, current := none, scan := .loadMask } := by
  refine sound_work hpc h.placed trivial (fun _ => rfl) (fun u hu => ?_) fun u hu => ?_
  · exact (h.masked u hu).unexposed (by rw [hsc]; exact id)
  · exact .inr (.inr (.inr trivial))

/-- The search ends: the next task is as urgent as every task that is not covered otherwise. -/
theorem Sound.store (h : Sound s) (hpc : s.worker.pc = .getNext caller) (hsc : s.scan = .store t) :
    Sound { s with current := some t, scan := .switch t } := by
  have hb : s.scan.Busy := by rw [hsc]; trivial
  refine sound_work hpc h.placed trivial (fun hb => nomatch hb) (fun u hu => ?_) fun u hu => ?_
  · exact (h.masked u hu).unexposed (by rw [hsc]; exact id)
  · have ho := h.search hpc hb hu
    rw [hsc] at ho
    exact ho.imp_right (.imp_right fun ha => .inl ⟨t, rfl, ha⟩)

/-- The worker leaves the search for a place where it is not asleep. -/
theorem Sound.leaveSearch [Fintype ι] (h : Sound s) (hw : Sane s.worker) (hpc : s.worker.pc = .getNext caller)
    (hsc : s.scan = .nothing ∨ ∃ t, s.scan = .switch t) {pc : Pc} (hsp : pc.suspended = false)
    (hbetween : ({ s with worker := { s.worker with pc }, scan := .reset } : St ι τ).Between → s.current = none) :
    Sound { s with worker := { s.worker with pc }, scan := .reset } where
  placed := h.placed
  fit := trivial
  reset := fun _ => rfl
  between := hbetween
  masked := by
    intro u hu
    refine (h.masked u hu).unexposed fun he => ?_
    rcases hsc with hsc | ⟨t, hsc⟩ <;> rw [hsc] at he <;> cases he
  covered := by
    intro u hu
    refine (h.covered u hu).move (w := { s.worker with pc }) hw rfl (fun ha => ?_) hsp id .reset
    unfold St.Ahead at ha
    rw [hpc] at ha
    rcases hsc with hsc | ⟨t, hsc⟩ <;> rw [hsc] at ha <;> cases ha

theorem Sound.idle [Fintype ι] [DecidableEq ι] (h : Sound s) (hw : Sane s.worker)
    (hpc : s.worker.pc = .getNext caller) (hsc : s.scan = .nothing) (hs : s.idle = some s') : Sound s' := by
  unfold St.idle St.lift St.goto at hs
  simp only [Worker.St.step, hpc, Option.map_some, Option.some.injEq] at hs
  subst hs
  exact h.leaveSearch hw hpc (.inl hsc) rfl fun _ => h.current_none hpc (by rw [hsc]; trivial)

theorem Sound.scan [Fintype ι] [DecidableEq ι] [DecidableEq τ] (h : Sound s) (hw : Sane s.worker)
    (hpc : s.worker.pc = .getNext caller) (hs : s.stepScan = some s') : Sound s' := by
  unfold St.stepScan at hs
  split at hs
  case h_1 hsc =>
    rw [← Option.some.inj hs]
    exact h.begin hpc hsc s.current
  case h_2 hsc =>
    rw [← Option.some.inj hs]
    exact h.loadMask hpc hsc
  case h_3 mask hsc =>
    split at hs
    case h_1 hl =>
      rw [← Option.some.inj hs]
      refine h.searchMask hpc hsc trivial fun u _ hm => ?_
      rw [lsb_eq_none.1 hl] at hm
      cases hm
    case h_2 p hl =>
      split at hs
      case h_1 =>
        rw [← Option.some.inj hs]
        exact h.searchMask hpc hsc hl fun _ _ hm => hm
      case h_2 t ts hq =>
        rw [← Option.some.inj hs]
        have hmem : t ∈ s.sched.readyq p := hq ▸ List.mem_cons_self
        exact h.searchMask hpc hsc hmem fun _ _ hm => ahead_of_lsb hl hm
  case h_4 mask p hsc =>
    rw [← Option.some.inj hs]
    exact h.clear hpc hsc
  case h_5 mask p hsc =>
    split at hs
    case h_1 hq =>
      rw [← Option.some.inj hs]
      exact h.againNil hpc hsc hq
    case h_2 t ts hq =>
      rw [← Option.some.inj hs]
      exact h.againCons hpc hsc hq
  case h_6 p t hsc =>
    rw [← Option.some.inj hs]
    exact h.set hpc hsc
  case h_7 hsc =>
    split at hs
    case h_1 c hc =>
      split at hs
      case isTrue =>
        rw [← Option.some.inj hs]
        exact h.nothingTo hpc hsc trivial
      case isFalse => exact h.idle hw hpc hsc hs
    case h_2 => exact h.idle hw hpc hsc hs
  case h_8 p t hsc =>
    have hf : t ∈ s.sched.readyq p := by
      have hf := h.fit
      rw [hsc] at hf
      exact hf
    split at hs
    case h_1 c hc =>
      split at hs
      case isTrue =>
        split at hs
        case isTrue hlt =>
          rw [← Option.some.inj hs]
          exact h.foundTo hpc hsc ⟨hf, hlt⟩ fun _ => id
        case isFalse hle =>
          rw [← Option.some.inj hs]
          exact h.foundTo hpc hsc trivial fun _ => (not_lt.1 hle).trans
      case isFalse =>
        rw [← Option.some.inj hs]
        exact h.foundTo hpc hsc hf fun _ => id
    case h_2 =>
      rw [← Option.some.inj hs]
      exact h.foundTo hpc hsc hf fun _ => id
  case h_9 c p t stage hsc =>
    rw [← Option.some.inj hs]
    exact h.preempt hpc hsc
  case h_10 p t hsc =>
    rw [← Option.some.inj hs]
    exact h.take hpc hsc
  case h_11 t hsc =>
    rw [← Option.some.inj hs]
    exact h.running hpc hsc _
  case h_12 t hsc =>
    rw [← Option.some.inj hs]
    exact h.store hpc hsc
  case h_13 => cases hs

/-- Where the context of the next task is. -/
theorem switch_cases [DecidableEq ι] [DecidableEq τ] {context : Option Caller}
    (hs : s.stepSwitch context = some s') :
    ∃ caller t pc, s.worker.pc = .getNext caller ∧ s.scan = .switch t ∧
      (pc = .top .prologue true ∨ ∃ c : Caller, pc = c.back) ∧
      s' = { s with worker := { s.worker with pc }, scan := .reset } := by
  unfold St.stepSwitch at hs
  split at hs
  case h_2 => cases hs
  case h_1 caller t hpc hsc =>
    simp only [St.lift, St.goto, Worker.St.step, hpc] at hs
    by_cases hprev : s.prev = some t
    · simp only [if_pos hprev, Option.map_some, Option.some.injEq] at hs
      exact ⟨caller, t, caller.back, hpc, hsc, .inr ⟨caller, rfl⟩, hs.symm⟩
    · rw [if_neg hprev] at hs
      cases context with
      | none => exact ⟨caller, t, .top .prologue true, hpc, hsc, .inl rfl, (Option.some.inj hs).symm⟩
      | some c => exact ⟨caller, t, c.back, hpc, hsc, .inr ⟨c, rfl⟩, (Option.some.inj hs).symm⟩

theorem Sound.switch [Fintype ι] [DecidableEq ι] [DecidableEq τ] (h : Sound s) (hw : Sane s.worker)
    {context : Option Caller} (hs : s.stepSwitch context = some s') : Sound s' := by
  obtain ⟨caller, t, pc, hpc, hsc, hto, rfl⟩ := switch_cases hs
  have hto : pc = .top .prologue true ∨ pc = .entry ∨ pc = .prologue ∨ pc = .run := by
    rcases hto with hto | ⟨c, hto⟩
    · exact .inl hto
    · exact .inr (hto ▸ back_cases c)
  refine h.leaveSearch hw hpc (.inr ⟨t, hsc⟩) ?_ fun hb => ?_
  · rcases hto with rfl | rfl | rfl | rfl <;> rfl
  · rcases hto with rfl | rfl | rfl | rfl <;> cases hb

end Search

/-! ## Steps -/

theorem Sound.caller [Fintype ι] [DecidableEq ι] (h : Sound s) (hw : Sane s.worker) {i : ι}
    (hs : s.stepCaller i = some s') : Sound s' := by
  unfold St.stepCaller at hs
  split at hs
  case h_1 => cases hs
  case h_2 t hi =>
    rw [← Option.some.inj hs]
    exact h.push hi
  case h_3 t hi =>
    rw [← Option.some.inj hs]
    exact h.mask hi
  case h_4 t hi =>
    split at hs
    case isTrue =>
      simp only [St.lift, Worker.St.step, Option.map_map, Option.map_eq_some_iff] at hs
      obtain ⟨w, hp, rfl⟩ := hs
      obtain ⟨hd, rfl⟩ := Option.ite_none_right_eq_some.1 hp |>.imp_right Option.some.inj
      exact h.read hi hd
    case isFalse hn =>
      rw [← Option.some.inj hs]
      exact h.leave hi (Bool.not_eq_true _ ▸ hn)
  case h_5 t hi =>
    simp only [St.lift, Worker.St.step, Option.map_map, Option.map_eq_some_iff] at hs
    obtain ⟨w, hp, rfl⟩ := hs
    obtain ⟨-, rfl⟩ := Option.ite_none_left_eq_some.1 hp |>.imp_right Option.some.inj
    exact h.post hw hi _

theorem Sound.lift [Fintype ι] [DecidableEq ι] (h : Sound s) (hw : Sane s.worker) {a : Worker.Act ι}
    (ha : a.own = true) (hs : s.lift a = some s') : Sound s' := by
  obtain ⟨w, hw', rfl⟩ := Option.map_eq_some_iff.1 hs
  obtain ⟨hp, ho⟩ := own_step ha hw'
  exact h.own hw hp ho

/-- The state of a task is not read by what is owed to it. -/
theorem Sound.state (h : Sound s) (state : τ → TaskState) : Sound { s with state } :=
  ⟨h.placed, h.fit, h.reset, h.between, h.masked, h.covered⟩

theorem Sound.step [Fintype ι] [DecidableEq ι] [DecidableEq τ] (h : Sound s) (hw : Sane s.worker)
    (hs : s.step a = some s') : Sound s' := by
  cases a with
  | ready i t =>
    obtain ⟨hi, rfl⟩ := Option.ite_none_right_eq_some.1 hs |>.imp_right Option.some.inj
    exact h.ready hi.1
  | caller i => exact h.caller hw hs
  | worker => exact h.lift hw rfl hs
  | getNext =>
    simp only [St.step] at hs
    split at hs
    case h_1 caller hpc => exact h.scan hw hpc hs
    case h_2 => cases hs
  | switch context => exact h.switch hw hs
  | block =>
    simp only [St.step] at hs
    split at hs
    case h_1 =>
      obtain ⟨-, rfl⟩ := Option.ite_none_right_eq_some.1 hs |>.imp_right Option.some.inj
      exact h.state _
    case h_2 => cases hs
  | unblockSelf =>
    simp only [St.step] at hs
    split at hs
    case h_1 =>
      obtain ⟨-, rfl⟩ := Option.ite_none_right_eq_some.1 hs |>.imp_right Option.some.inj
      exact h.state _
    case h_2 => cases hs
  | disable => exact h.lift hw rfl hs
  | enable => exact h.lift hw rfl hs
  | schedule => exact h.lift hw rfl hs
  | interrupt => exact h.lift hw rfl hs

end Prs.SwprioWorker
