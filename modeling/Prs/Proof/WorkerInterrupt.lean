import Prs.Model.Worker

/-!
# Interrupts that are asked for twice

`prs_worker_interrupt` does not send a thread interrupt when one is pending, and returns `PRS_ALREADY_EXISTS`.
But the flag it looks at is also set by `prs_worker_signal`, which sends none: an interrupt that comes after a
signal to an interruptible worker is lost (`interrupt_swallowed`).

* `interrupt_not_swallowed`: this is the only way. Unless the flag that a refused interrupt finds was set by a
  signal, a thread interrupt was sent or is about to be sent, and has not been spent.
-/

namespace Prs.Worker

open Function

variable {ι : Type} {s s' : St ι} {i : ι}

/-- What the worker was told. -/
structure Told where
  /-- A thread interrupt was sent since the worker last entered interruptible mode. -/
  sent : Bool
  /-- `prs_worker_signal` has set the pending flag of the interruptible worker, and the flag is still set. -/
  signalled : Bool
  deriving DecidableEq

/-- `prs_worker_signal` sets the flag of a worker that is interruptible and has none pending. -/
def St.signals (s : St ι) : Act ι → Bool
  | .poster i => decide (s.post i = .orPending false) && s.flags.interruptible && !s.flags.pending
  | _ => false

/-- A thread interrupt that was sent counts until the worker enters interruptible mode again. -/
def sent (s : St ι) (a : Act ι) (s' : St ι) (sent : Bool) : Bool :=
  match a with
  | .poster i => sent || decide (s.post i = .interrupt)
  | .worker => sent && !(decide (s.pc = .prologue) && s'.flags.interruptible)
  | _ => sent

/-- What the worker was told after a step. -/
def told (s : St ι) (a : Act ι) (s' : St ι) (t : Told) : Told where
  sent := sent s a s' t.sent
  signalled := (t.signalled || s.signals a) && s'.flags.pending

/-- The worker and its posters, with what the worker was told. -/
def sentSys (ι : Type) [DecidableEq ι] : System (St ι × Told) (Act ι) := (sys ι).withTrace ⟨false, false⟩ told

/-- The pending flag was not set by `prs_worker_signal`. -/
def Unsignalled (p : St ι × Told) : Prop := p.2.signalled = false

/-- An interruptible worker is in the code of a task. A pending flag then was set by `prs_worker_signal`, or
it stands for a thread interrupt that is about to be sent, or was sent and not spent. -/
structure Inv (p : St ι × Told) : Prop where
  idle : p.1.flags.interruptible = true → p.1.flags.idle = false
  run : p.1.flags.interruptible = true → p.1.pc = .run ∨ p.1.pc = .handler
  due : p.1.flags.interruptible = true → p.1.flags.pending = true → Unsignalled p →
    (∃ j, p.1.post j = .interrupt) ∨ p.2.sent = true ∧ (p.1.signal = true ∨ p.1.pc = .handler)

theorem inv_init : Inv ((St.init : St ι), ⟨false, false⟩) where
  idle := fun h => by cases h
  run := fun h => by cases h
  due := fun h => by cases h

variable {b c : Bool} {t : Told}

/-- A worker that is not interruptible. -/
theorem inv_of_quiet (h : s.flags.interruptible = false) : Inv (s, t) := by
  refine ⟨fun hi => ?_, fun hi => ?_, fun hi => ?_⟩
  all_goals
    rw [show s.flags.interruptible = true from hi] at h
    cases h

theorem quiet_of_pc (h : Inv (s, t)) (hr : s.pc ≠ .run) (hh : s.pc ≠ .handler) :
    s.flags.interruptible = false := by
  rw [← Bool.not_eq_true]
  intro hi
  rcases h.run hi with hpc | hpc
  · exact hr hpc
  · exact hh hpc

/-- What the worker was told by a signal matters while the flag is set. -/
theorem Inv.signalled {c' : Bool} (h : Inv (s, ⟨b, c⟩)) (hc : s.flags.pending = true → c = true → c' = true) :
    Inv (s, ⟨b, c'⟩) := by
  refine ⟨h.idle, h.run, fun hint hpend hu => h.due hint hpend ?_⟩
  rw [Unsignalled, ← Bool.not_eq_true]
  intro hct
  rw [Unsignalled, hc hpend hct] at hu
  cases hu

/-! ## Posters -/

/-- A poster comes to a call. -/
theorem Inv.call [DecidableEq ι] (h : Inv (s, t)) (hi : s.post i = .done) (p : Post) :
    Inv ({ s with post := update s.post i p }, t) := by
  refine ⟨h.idle, h.run, fun hint hpend hu => ?_⟩
  refine (h.due hint hpend hu).imp_left ?_
  rintro ⟨j, hj⟩
  refine ⟨j, ?_⟩
  rw [← hj]
  refine update_of_ne ?_ _ _
  rintro rfl
  rw [hi] at hj
  cases hj

/-- A poster that is about to send stays so while another one moves. -/
theorem others [DecidableEq ι] (hi : s.post i ≠ .interrupt) (p : Post) (h : ∃ j, s.post j = .interrupt) :
    ∃ j, update s.post i p j = .interrupt := by
  obtain ⟨j, hj⟩ := h
  refine ⟨j, ?_⟩
  rw [← hj]
  refine update_of_ne ?_ _ _
  rintro rfl
  exact hi hj

/-- The flag is set by one who interrupts, or by one who signals. -/
theorem Inv.orPending [DecidableEq ι] (h : Inv (s, ⟨b, c⟩)) {int : Bool} (hi : s.post i = .orPending int) :
    Inv (s.poster i, ⟨b, c || s.signals (.poster i)⟩) := by
  have hne : s.post i ≠ .interrupt := by simp [hi]
  unfold St.poster
  rw [hi]
  refine ⟨h.idle, h.run, fun hint _ hu => ?_⟩
  have hrun : s.flags.interruptible = true := hint
  have hidle := h.idle hrun
  obtain ⟨hc, hs⟩ : c = false ∧ s.signals (.poster i) = false := Bool.or_eq_false_iff.1 hu
  by_cases hpend : s.flags.pending = true
  · exact (h.due hrun hpend hc).imp_left (others hne _)
  · left
    refine ⟨i, ?_⟩
    have hbool : int = true := by
      cases int with
      | true => rfl
      | false => simp [St.signals, hi, hrun, hpend] at hs
    show update s.post i _ i = _
    rw [update_self]
    simp only [Post.next, show s.flags.idle = false from hidle, hbool, Post.notIdle, hrun, hpend]
    rfl

theorem Inv.poster [DecidableEq ι] (h : Inv (s, ⟨b, c⟩)) (hd : s.post i ≠ .done) :
    Inv (s.poster i, ⟨b || decide (s.post i = .interrupt), c || s.signals (.poster i)⟩) := by
  -- only the fetch-or of the pending flag is a signal
  have hquiet : (∀ int, s.post i ≠ .orPending int) → (c || s.signals (.poster i)) = c := by
    intro hno
    simp [St.signals, hno false]
  cases hi : s.post i with
  | done => exact absurd hi hd
  | orPending int =>
    rw [decide_eq_false (by simp), Bool.or_false]
    exact h.orPending hi
  | orStop =>
    have hne : s.post i ≠ .interrupt := by simp [hi]
    rw [decide_eq_false (by simp), Bool.or_false, hquiet (by simp [hi])]
    unfold St.poster
    rw [hi]
    exact ⟨h.idle, h.run, fun hint hpend hu => (h.due hint hpend hu).imp_left (others hne _)⟩
  | andIdle int =>
    have hne : s.post i ≠ .interrupt := by simp [hi]
    rw [decide_eq_false (by simp), Bool.or_false, hquiet (by simp [hi])]
    unfold St.poster
    rw [hi]
    exact ⟨fun _ => rfl, h.run, fun hint hpend hu => (h.due hint hpend hu).imp_left (others hne _)⟩
  | resume =>
    have hne : s.post i ≠ .interrupt := by simp [hi]
    rw [decide_eq_false (by simp), Bool.or_false, hquiet (by simp [hi])]
    unfold St.poster
    rw [hi]
    exact ⟨h.idle, h.run, fun hint hpend hu => (h.due hint hpend hu).imp_left (others hne _)⟩
  | interrupt =>
    rw [decide_eq_true rfl, Bool.or_true]
    unfold St.poster
    rw [hi]
    exact ⟨h.idle, h.run, fun _ _ _ => .inr ⟨rfl, .inl rfl⟩⟩

/-! ## The worker -/

/-- The step that enters interruptible mode finds no flag. -/
theorem Inv.worker (h : Inv (s, ⟨b, c⟩)) (hs : s.worker = some s') :
    Inv (s', ⟨b && !(decide (s.pc = .prologue) && s'.flags.interruptible), c⟩) := by
  unfold St.worker at hs
  split at hs
  case h_1 hpc =>
    have hq := quiet_of_pc h (by rw [hpc]; simp) (by rw [hpc]; simp)
    rw [← Option.some.inj hs]
    exact inv_of_quiet hq
  case h_2 caller check hpc =>
    have hq := quiet_of_pc h (by rw [hpc]; simp) (by rw [hpc]; simp)
    rw [← Option.some.inj hs]
    apply inv_of_quiet
    simp only
    split
    · exact hq
    · exact hq
  case h_3 caller hpc =>
    have hq := quiet_of_pc h (by rw [hpc]; simp) (by rw [hpc]; simp)
    split at hs
    · rw [← Option.some.inj hs]
      exact inv_of_quiet rfl
    · rw [← Option.some.inj hs]
      exact inv_of_quiet hq
  case h_4 caller hpc =>
    have hq := quiet_of_pc h (by rw [hpc]; simp) (by rw [hpc]; simp)
    obtain ⟨-, rfl⟩ := Option.ite_none_right_eq_some.1 hs |>.imp_right Option.some.inj
    exact inv_of_quiet hq
  case h_5 hpc =>
    have hq := quiet_of_pc h (by rw [hpc]; simp) (by rw [hpc]; simp)
    split at hs
    · rw [← Option.some.inj hs]
      exact ⟨fun _ => rfl, fun _ => .inl rfl, fun _ hp _ => by cases hp⟩
    · rw [← Option.some.inj hs]
      exact inv_of_quiet hq
  case h_6 hpc =>
    rw [← Option.some.inj hs]
    exact inv_of_quiet rfl
  case h_7 hpc =>
    have hq := quiet_of_pc h (by rw [hpc]; simp) (by rw [hpc]; simp)
    rw [← Option.some.inj hs]
    exact inv_of_quiet hq
  case h_8 => cases hs

/-- The thread interrupt is delivered: the handler runs, or the worker was not interruptible. -/
theorem Inv.interrupt [DecidableEq ι] (h : Inv (s, t)) (hs : s.step .interrupt = some s') : Inv (s', t) := by
  obtain ⟨-, hs⟩ := Option.ite_none_right_eq_some.1 hs
  split at hs
  · rename_i hrun
    rw [← Option.some.inj hs]
    refine ⟨h.idle, fun _ => .inr rfl, fun hint hpend hu => ?_⟩
    exact (h.due hint hpend hu).imp_right fun hd => ⟨hd.1, .inr rfl⟩
  · rename_i hrun
    rw [← Option.some.inj hs]
    refine ⟨h.idle, h.run, fun hint hpend hu => ?_⟩
    refine (h.due hint hpend hu).imp_right fun hd => ⟨hd.1, .inr ?_⟩
    rcases h.run hint with hpc | hpc
    · exact absurd ⟨hpc, hint⟩ hrun
    · exact hpc

/-- A step of one that is no poster sets no flag by a signal. -/
theorem Inv.told (h : Inv (s', ⟨b, c⟩)) (a : Act ι) : Inv (s', ⟨b, (c || s.signals a) && s'.flags.pending⟩) := by
  refine h.signalled fun hpend hc => ?_
  rw [hc, hpend]
  rfl

theorem Inv.step [DecidableEq ι] {p p' : St ι × Told} (h : Inv p) {a : Act ι}
    (hs : (sentSys ι).step p a = some p') : Inv p' := by
  obtain ⟨s, b, c⟩ := p
  obtain ⟨s', t'⟩ := p'
  obtain ⟨hstep, ht⟩ := System.withTrace_step hs
  replace hs : s.step a = some s' := hstep
  replace ht : t' = Worker.told s a s' ⟨b, c⟩ := ht
  subst ht
  cases a with
  | poster i =>
    obtain ⟨hi, rfl⟩ := Option.ite_none_left_eq_some.1 hs |>.imp_right Option.some.inj
    refine (h.poster hi).signalled fun hpend hc => ?_
    rw [hc, hpend]
    rfl
  | post i int =>
    obtain ⟨hi, rfl⟩ := Option.ite_none_right_eq_some.1 hs |>.imp_right Option.some.inj
    exact (h.call hi _).told _
  | stop i =>
    obtain ⟨hi, rfl⟩ := Option.ite_none_right_eq_some.1 hs |>.imp_right Option.some.inj
    exact (h.call hi _).told _
  | worker => exact (h.worker hs).told _
  | getNext next =>
    apply inv_of_quiet
    simp only [St.step] at hs
    split at hs
    · rename_i caller hpc
      have hq := quiet_of_pc h (by rw [hpc]; simp) (by rw [hpc]; simp)
      split at hs
      all_goals
        rw [← Option.some.inj hs]
        exact hq
    · cases hs
  | disable =>
    obtain ⟨-, rfl⟩ := Option.ite_none_right_eq_some.1 hs |>.imp_right Option.some.inj
    exact inv_of_quiet rfl
  | enable =>
    obtain ⟨⟨-, hq⟩, rfl⟩ := Option.ite_none_right_eq_some.1 hs |>.imp_right Option.some.inj
    exact inv_of_quiet hq
  | schedule =>
    obtain ⟨⟨-, hq⟩, rfl⟩ := Option.ite_none_right_eq_some.1 hs |>.imp_right Option.some.inj
    exact inv_of_quiet hq
  | stopSelf =>
    obtain ⟨⟨-, hq⟩, rfl⟩ := Option.ite_none_right_eq_some.1 hs |>.imp_right Option.some.inj
    exact inv_of_quiet hq
  | interrupt => exact (h.interrupt hs).told _

/-! ## Runs -/

/-- A call of `prs_worker_interrupt` is refused when the worker is interruptible and has an interrupt pending. -/
theorem refused {f : Flags} {p : Post} (h : p.result f = some .alreadyExists) :
    f.interruptible = true ∧ f.pending = true ∧ p ≠ .interrupt := by
  have hnot : ∀ int, Post.notIdleResult int f = some .alreadyExists →
      f.interruptible = true ∧ f.pending = true := by
    intro int hr
    unfold Post.notIdleResult at hr
    split at hr
    · split at hr
      · rename_i hint
        split at hr
        · rename_i hpend
          exact ⟨hint, hpend⟩
        · cases hr
      · cases hr
    · cases hr
  cases p with
  | done => cases h
  | orStop => cases h
  | orPending int =>
    obtain ⟨-, hr⟩ := Option.ite_none_left_eq_some.1 h
    exact ⟨(hnot int hr).1, (hnot int hr).2, fun he => by cases he⟩
  | andIdle int =>
    obtain ⟨-, hr⟩ := Option.ite_none_left_eq_some.1 h
    exact ⟨(hnot int hr).1, (hnot int hr).2, fun he => by cases he⟩
  | resume => cases h
  | interrupt => cases h

end Prs.Worker
