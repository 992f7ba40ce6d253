import Prs.Proof.WorkerIdle
import Prs.Proof.WorkerInterrupt

/-!
# A worker that is only interrupted

What a scheduler relies on when it tells its worker of tasks with `prs_worker_interrupt` alone.

* `Own`: what a step of the worker's own code does, in the terms of a scheduler; `own_step` is the inversion.
* `Sane`: the idle hand-shake, the interrupt that is due, and the pending flag of a worker that sleeps. Every
  step keeps it (`Sane.step`).
-/

namespace Prs.Worker

open Function

variable {ι : Type} [DecidableEq ι] {w w' : St ι} {a : Act ι}

/-- `prs_worker_signal` is not called. -/
def Act.loud : Act ι → Bool
  | .post _ int => int
  | _ => true

/-- Every poster is in `prs_worker_interrupt`. -/
def Post.Loud : Post → Prop
  | .orPending int => int = true
  | .andIdle int => int = true
  | _ => True

theorem loud_notIdle (b : Bool) (f : Flags) : (Post.notIdle b f).Loud := by
  unfold Post.notIdle
  split <;> exact trivial

theorem Post.Loud.next {p : Post} (h : p.Loud) (f : Flags) : (p.next f).1.Loud := by
  cases p with
  | done => trivial
  | orStop => exact rfl
  | orPending b =>
    simp only [Post.next]
    split
    · exact h
    · exact loud_notIdle b f
  | andIdle b =>
    simp only [Post.next]
    split
    · exact trivial
    · exact loud_notIdle b f
  | resume => trivial
  | interrupt => trivial

/-- **The worker's side of the protocol**, when it is told of tasks by interrupts alone. -/
structure Sane [Fintype ι] (w : St ι) : Prop where
  handshake : Handshake w
  loud : ∀ i, (w.post i).Loud
  asleep : w.pc.suspended = true → w.flags.pending = true
  due : ∃ b, Inv (w, ⟨b, false⟩)

omit [DecidableEq ι] in
theorem sane_init [Fintype ι] : Sane (St.init : St ι) where
  handshake := handshake_init
  loud := fun _ => trivial
  asleep := fun h => nomatch h
  due := ⟨false, inv_init⟩

/-- What a step of the worker's own code does: it goes where it will search for a task, it falls asleep, it
goes elsewhere, or it stays. -/
inductive Own (w w' : St ι) : Prop
  | fresh (hpc : ∀ c, w.pc ≠ .getNext c) (h : w'.pc = .entry ∨ w'.pc = .leaving ∨ w'.pc = .exited ∨
      (∃ c, w'.pc = .top c false) ∨ ∃ c, w'.pc = .getNext c)
  | sleep (c : Caller) (hz : w.flags = .zero) (hpc : w.pc = .idle c) (hpc' : w'.pc = .suspend c)
      (hp : w'.flags.pending = true)
  | move (hpc : (∃ c, w.pc = .top c true) ∨ (∃ c, w.pc = .idle c) ∨ (∃ c, w.pc = .suspend c) ∨ w.pc = .prologue ∨
      w.pc = .run ∨ w.pc = .handler)
      (hpc' : (∃ c, w'.pc = .top c true) ∨ w'.pc = .prologue ∨ w'.pc = .run ∨ w'.pc = .handler)
      (hp : w.flags.pending = true → w'.flags.pending = true)
  | stay (hpc : w'.pc = w.pc) (hp : w'.flags.pending = w.flags.pending) (hi : w'.flags.idle = w.flags.idle)

omit [DecidableEq ι] in
/-- The worker does not leave a search by a step of its own code. -/
theorem Own.leaves (h : Own w w') : (∀ c, w.pc ≠ .getNext c) ∨ w'.pc = w.pc := by
  cases h with
  | fresh hpc => exact .inl hpc
  | sleep c _ hpc => exact .inl (by simp [hpc])
  | move hpc =>
    refine .inl fun c hc => ?_
    rw [hc] at hpc
    simp at hpc
  | stay hpc => exact .inr hpc

theorem back_cases (c : Caller) : c.back = .entry ∨ c.back = .prologue ∨ c.back = .run := by
  cases c with
  | entry => exact .inl rfl
  | prologue => exact .inr (.inl rfl)
  | task => exact .inr (.inr rfl)

omit [DecidableEq ι] in
theorem own_worker (hs : w.worker = some w') : w'.post = w.post ∧ Own w w' := by
  unfold St.worker at hs
  split at hs
  case h_1 hpc =>
    rw [← Option.some.inj hs]
    refine ⟨rfl, .fresh (by simp [hpc]) ?_⟩
    by_cases hstop : w.flags.stop = true
    · exact .inr (.inl (if_pos hstop))
    · exact .inr (.inr (.inr (.inl ⟨.entry, if_neg hstop⟩)))
  case h_2 c check hpc =>
    rw [← Option.some.inj hs]
    refine ⟨rfl, ?_⟩
    cases check with
    | false => exact .fresh (by simp [hpc]) (.inr (.inr (.inr (.inr ⟨c, by simp [Flags.zero]⟩))))
    | true =>
      by_cases hstop : w.flags.stop = true
      · exact .fresh (by simp [hpc]) (.inl (by simp [hstop]))
      by_cases hpend : w.flags.pending = true
      · exact .fresh (by simp [hpc]) (.inr (.inr (.inr (.inr ⟨c, by simp [hstop, hpend]⟩))))
      have hto : (if w.flags.stop = true then Pc.entry else
          if w.flags.pending = true then .getNext c else c.back) =
          c.back := by rw [if_neg hstop, if_neg hpend]
      rcases back_cases c with hb | hb
      · exact .fresh (by simp [hpc]) (.inl (hto.trans hb))
      · exact .move (.inl ⟨c, hpc⟩) (.inr (hb.imp hto.trans fun h => .inl (hto.trans h))) fun h => absurd h hpend
  case h_3 c hpc =>
    split at hs
    case isTrue hz =>
      rw [← Option.some.inj hs]
      exact ⟨rfl, .sleep c hz hpc rfl rfl⟩
    case isFalse =>
      rw [← Option.some.inj hs]
      exact ⟨rfl, .move (.inr (.inl ⟨c, hpc⟩)) (.inl ⟨c, rfl⟩) id⟩
  case h_4 c hpc =>
    obtain ⟨-, rfl⟩ := Option.ite_none_right_eq_some.1 hs |>.imp_right Option.some.inj
    exact ⟨rfl, .move (.inr (.inr (.inl ⟨c, hpc⟩))) (.inl ⟨c, rfl⟩) id⟩
  case h_5 hpc =>
    split at hs
    case isTrue hz =>
      rw [← Option.some.inj hs]
      refine ⟨rfl, .move (.inr (.inr (.inr (.inl hpc)))) (.inr (.inr (.inl rfl))) fun h => ?_⟩
      rw [hz] at h
      cases h
    case isFalse =>
      rw [← Option.some.inj hs]
      exact ⟨rfl, .move (.inr (.inr (.inr (.inl hpc)))) (.inl ⟨.prologue, rfl⟩) id⟩
  case h_6 hpc =>
    rw [← Option.some.inj hs]
    refine ⟨rfl, .move (.inr (.inr (.inr (.inr (.inr hpc))))) ?_ id⟩
    by_cases hint : w.flags.interruptible = true
    · exact .inl ⟨.prologue, if_pos hint⟩
    · exact .inr (.inr (.inl (if_neg hint)))
  case h_7 hpc =>
    rw [← Option.some.inj hs]
    exact ⟨rfl, .fresh (by simp [hpc]) (.inr (.inr (.inl rfl)))⟩
  case h_8 => cases hs

/-- The worker's own code, and what a task makes it do. -/
def Act.own : Act ι → Bool
  | .worker | .disable | .enable | .schedule | .interrupt => true
  | _ => false

theorem own_step (ha : a.own = true) (hs : w.step a = some w') : w'.post = w.post ∧ Own w w' := by
  cases a with
  | worker => exact own_worker hs
  | disable =>
    obtain ⟨-, rfl⟩ := Option.ite_none_right_eq_some.1 hs |>.imp_right Option.some.inj
    exact ⟨rfl, .stay rfl rfl rfl⟩
  | enable =>
    obtain ⟨hpc, rfl⟩ := Option.ite_none_right_eq_some.1 hs |>.imp_right Option.some.inj
    exact ⟨rfl, .move (.inr (.inr (.inr (.inr (.inl hpc.1))))) (.inl ⟨.prologue, rfl⟩) id⟩
  | schedule =>
    obtain ⟨hpc, rfl⟩ := Option.ite_none_right_eq_some.1 hs |>.imp_right Option.some.inj
    exact ⟨rfl, .fresh (by simp [hpc.1]) (.inr (.inr (.inr (.inl ⟨.task, rfl⟩))))⟩
  | interrupt =>
    obtain ⟨-, hs⟩ := Option.ite_none_right_eq_some.1 hs
    split at hs
    case isTrue hpc =>
      rw [← Option.some.inj hs]
      exact ⟨rfl, .move (.inr (.inr (.inr (.inr (.inl hpc.1))))) (.inr (.inr (.inr rfl))) id⟩
    case isFalse =>
      rw [← Option.some.inj hs]
      exact ⟨rfl, .stay rfl rfl rfl⟩
  | post | stop | poster | getNext | stopSelf => cases ha

theorem post_of_step (hs : w.step a = some w') : w'.post = w.post ∨
    (∃ i b, a = .post i b ∧ w'.post = update w.post i (.orPending b)) ∨
    (∃ i, a = .stop i ∧ w'.post = update w.post i .orStop) ∨
    ∃ i, a = .poster i ∧ w'.post = update w.post i ((w.post i).next w.flags).1 := by
  by_cases ha : a.own = true
  · exact .inl (own_step ha hs).1
  cases a with
  | post i b =>
    obtain ⟨-, rfl⟩ := Option.ite_none_right_eq_some.1 hs |>.imp_right Option.some.inj
    exact .inr (.inl ⟨i, b, rfl, rfl⟩)
  | stop i =>
    obtain ⟨-, rfl⟩ := Option.ite_none_right_eq_some.1 hs |>.imp_right Option.some.inj
    exact .inr (.inr (.inl ⟨i, rfl, rfl⟩))
  | poster i =>
    obtain ⟨-, rfl⟩ := Option.ite_none_left_eq_some.1 hs |>.imp_right Option.some.inj
    refine .inr (.inr (.inr ⟨i, rfl, ?_⟩))
    unfold St.poster
    split <;> rfl
  | getNext next =>
    simp only [St.step] at hs
    split at hs
    case h_1 => split at hs <;> exact .inl (by rw [← Option.some.inj hs])
    case h_2 => cases hs
  | stopSelf =>
    obtain ⟨-, rfl⟩ := Option.ite_none_right_eq_some.1 hs |>.imp_right Option.some.inj
    exact .inl rfl
  | worker | disable | enable | schedule | interrupt => exact absurd rfl ha

theorem loud_step (h : ∀ i, (w.post i).Loud) (ha : a.loud = true) (hs : w.step a = some w') (i : ι) :
    (w'.post i).Loud := by
  rcases post_of_step hs with hp | ⟨j, b, rfl, hp⟩ | ⟨j, -, hp⟩ | ⟨j, -, hp⟩
  · rw [hp]
    exact h i
  · rw [hp]
    have hb : (Post.orPending b).Loud := ha
    exact forall_update h hb i
  · rw [hp]
    have hb : Post.orStop.Loud := trivial
    exact forall_update h hb i
  · rw [hp]
    exact forall_update h ((h j).next w.flags) i

/-- A poster leaves the worker where it is, and the pending flag set. -/
theorem poster_frame (w : St ι) (i : ι) : (w.poster i).pc = w.pc ∧
    (w.poster i).flags = ((w.post i).next w.flags).2 ∧ (w.poster i).post = update w.post i
    ((w.post i).next w.flags).1 := by
  unfold St.poster
  split <;> exact ⟨rfl, rfl, rfl⟩

theorem pending_next {f : Flags} (h : f.pending = true) (p : Post) : (p.next f).2.pending = true := by
  cases p with
  | orPending => rfl
  | done | orStop | andIdle | resume | interrupt => exact h

theorem asleep_step (h : w.pc.suspended = true → w.flags.pending = true) (hs : w.step a = some w') :
    w'.pc.suspended = true → w'.flags.pending = true := by
  intro hsp
  by_cases ha : a.own = true
  · cases (own_step ha hs).2 with
    | fresh _ hpc => rcases hpc with hpc | hpc | hpc | ⟨c, hpc⟩ | ⟨c, hpc⟩ <;> rw [hpc] at hsp <;> cases hsp
    | sleep c _ _ _ hp => exact hp
    | move _ hpc => rcases hpc with ⟨c, hpc⟩ | hpc | hpc | hpc <;> rw [hpc] at hsp <;> cases hsp
    | stay hpc hp =>
      rw [hpc] at hsp
      rw [hp]
      exact h hsp
  cases a with
  | post i b =>
    obtain ⟨-, rfl⟩ := Option.ite_none_right_eq_some.1 hs |>.imp_right Option.some.inj
    exact h hsp
  | stop i =>
    obtain ⟨-, rfl⟩ := Option.ite_none_right_eq_some.1 hs |>.imp_right Option.some.inj
    exact h hsp
  | poster i =>
    obtain ⟨-, rfl⟩ := Option.ite_none_left_eq_some.1 hs |>.imp_right Option.some.inj
    obtain ⟨hpc, hf, -⟩ := poster_frame w i
    rw [hpc] at hsp
    rw [hf]
    exact pending_next (h hsp) _
  | getNext next =>
    simp only [St.step] at hs
    split at hs
    case h_1 =>
      split at hs <;> rw [← Option.some.inj hs] at hsp
      · cases hsp
      · cases hsp
      · cases hsp
      · rw [suspended_back] at hsp
        cases hsp
    case h_2 => cases hs
  | stopSelf =>
    obtain ⟨-, rfl⟩ := Option.ite_none_right_eq_some.1 hs |>.imp_right Option.some.inj
    cases hsp
  | worker | disable | enable | schedule | interrupt => exact absurd rfl ha

omit [DecidableEq ι] in
/-- No poster is in `prs_worker_signal`. -/
theorem signals_of_loud (h : ∀ i, (w.post i).Loud) (a : Act ι) : w.signals a = false := by
  cases a with
  | poster i =>
    have hne : w.post i ≠ .orPending false := by
      intro hi
      have hl := h i
      rw [hi] at hl
      cases hl
    simp [St.signals, hne]
  | _ => rfl

theorem Sane.step [Fintype ι] (h : Sane w) (ha : a.loud = true) (hs : w.step a = some w') : Sane w' where
  handshake := h.handshake.step hs
  loud := loud_step h.loud ha hs
  asleep := asleep_step h.asleep hs
  due := by
    obtain ⟨b, hb⟩ := h.due
    have hI : Inv (w', told w a w' ⟨b, false⟩) :=
      hb.step (a := a) (congrArg (Option.map fun s' => (s', told w a s' ⟨b, false⟩)) hs)
    have hq : told w a w' ⟨b, false⟩ = ⟨sent w a w' b, false⟩ := by
      simp only [told, signals_of_loud h.loud a, Bool.or_self, Bool.false_and]
    exact ⟨sent w a w' b, hq ▸ hI⟩

end Prs.Worker
