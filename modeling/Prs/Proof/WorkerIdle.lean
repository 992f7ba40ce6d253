import Prs.Model.Worker

/-!
# The idle hand-shake

A worker that has set the idle flag sleeps until it is resumed. The flag is the right to resume it: a poster
that clears the flag takes that right, and spends it on the semaphore. A poster that saw the flag set may be
late and find it cleared, or find the flag of a later idle period; either way whoever clears it is the one who
resumes.

* `idle_handshake`: while the worker is in `prs_pal_thread_suspend` for being idle, exactly one of the idle
  flag, a poster about to resume and a resume in the semaphore is there; otherwise none is. So each suspension
  is ended by a resume of its own.
-/

namespace Prs.Worker

open Function

variable {ι : Type} [Fintype ι] {s s' : St ι}

/-- The worker is between the exchange in `prs_worker_idle` and its return from `prs_pal_thread_suspend`. -/
def Pc.suspended : Pc → Bool
  | .suspend _ => true
  | _ => false

/-- How many posters have cleared the idle flag and have not called `prs_pal_thread_resume` yet. -/
def St.resumers (s : St ι) : ℕ := headcount (· = Post.resume) s.post

/-- **The right to resume** is in one place while the worker is suspended, and nowhere else otherwise. -/
structure Handshake (s : St ι) : Prop where
  right : s.flags.idle.toNat + s.resumers + s.resumes = s.pc.suspended.toNat
  idles : s.idles = s.woken + s.pc.suspended.toNat
  resumed : s.resumed = s.woken + s.resumes

theorem handshake_init : Handshake (St.init : St ι) where
  right := by simp [St.init, Flags.zero, St.resumers, headcount, Pc.suspended]
  idles := rfl
  resumed := rfl

variable [DecidableEq ι]

theorem notIdle_ne_resume (b : Bool) (f : Flags) : Post.notIdle b f ≠ .resume := by
  unfold Post.notIdle
  split <;> simp

/-- A poster turns the idle flag into the right to resume. -/
theorem next_right (p : Post) (f : Flags) (hp : p ≠ .resume) :
    (p.next f).2.idle.toNat + (if (p.next f).1 = .resume then 1 else 0) = f.idle.toNat := by
  cases p with
  | done => simp [Post.next]
  | orStop => simp [Post.next]
  | orPending b =>
    by_cases hi : f.idle = true
    · simp [Post.next, hi]
    · simp [Post.next, hi, notIdle_ne_resume]
  | andIdle b =>
    by_cases hi : f.idle = true
    · simp [Post.next, hi]
    · simp [Post.next, hi, notIdle_ne_resume]
  | resume => exact absurd rfl hp
  | interrupt => simp [Post.next]

theorem resumers_update (s : St ι) (i : ι) (p : Post) :
    headcount (· = Post.resume) (update s.post i p) + (if s.post i = .resume then 1 else 0) =
      s.resumers + if p = .resume then 1 else 0 :=
  headcount_update (· = Post.resume) s.post i p

/-! ## Steps -/

/-- A poster that begins a call. -/
theorem Handshake.call (h : Handshake s) {i : ι} {p : Post} (hi : s.post i = .done) (hp : p ≠ .resume) :
    Handshake { s with post := update s.post i p } := by
  refine ⟨?_, h.idles, h.resumed⟩
  have hu := resumers_update s i p
  rw [hi, if_neg hp] at hu
  have hr := h.right
  simp only [St.resumers] at hu hr ⊢
  simp at hu
  omega

theorem Handshake.poster (h : Handshake s) (i : ι) : Handshake (s.poster i) := by
  have hu := resumers_update s i ((s.post i).next s.flags).1
  have hr := h.right
  by_cases hp : s.post i = .resume
  · -- the right goes into the semaphore
    rw [hp] at hu
    simp only [St.poster, hp]
    refine ⟨?_, h.idles, ?_⟩
    · simp only [St.resumers, Post.next] at hu hr ⊢
      simp at hu
      omega
    · have := h.resumed
      simp only
      omega
  · have hn := next_right (s.post i) s.flags hp
    rw [if_neg hp] at hu
    have hright : ((s.post i).next s.flags).2.idle.toNat +
        headcount (· = Post.resume) (update s.post i ((s.post i).next s.flags).1) + s.resumes =
        s.pc.suspended.toNat := by omega
    unfold St.poster
    split
    · exact absurd ‹_› hp
    · exact ⟨hright, h.idles, h.resumed⟩
    · exact ⟨hright, h.idles, h.resumed⟩

omit [DecidableEq ι] in
/-- A step of the worker that leaves the idle flag alone and is not about idle mode. -/
theorem Handshake.move (h : Handshake s) {flags : Flags} {pc : Pc} {signal : Bool}
    (hf : flags.idle = s.flags.idle) (hpc : pc.suspended = s.pc.suspended) :
    Handshake { s with flags, pc, signal } := by
  refine ⟨?_, ?_, h.resumed⟩
  · have hr := h.right
    simp only [St.resumers] at hr ⊢
    rw [hf, hpc]
    exact hr
  · have := h.idles
    simp only [hpc]
    exact this

theorem suspended_back (c : Caller) : c.back.suspended = false := by
  cases c <;> rfl

omit [DecidableEq ι] in
theorem Handshake.worker (h : Handshake s) (hs : s.worker = some s') : Handshake s' := by
  have hr := h.right
  have hi := h.idles
  have hd := h.resumed
  unfold St.worker at hs
  split at hs
  case h_1 hpc =>
    rw [← Option.some.inj hs]
    refine h.move rfl ?_
    rw [hpc]
    split <;> rfl
  case h_2 caller check hpc =>
    rw [← Option.some.inj hs]
    have hsp : s.pc.suspended = false := by rw [hpc]; rfl
    have hto : ∀ f : Flags, (if f.stop then Pc.entry else if f.pending then .getNext caller
        else caller.back).suspended = false := by
      intro f
      split
      · rfl
      · split
        · rfl
        · exact suspended_back caller
    exact h.move (by split <;> rfl) ((hto _).trans hsp.symm)
  case h_3 caller hpc =>
    split at hs
    case isTrue hz =>
      -- the exchange succeeds only without the idle flag
      rw [← Option.some.inj hs]
      rw [hpc, hz] at hr
      rw [hpc] at hi
      simp only [Flags.zero, Pc.suspended, Bool.toNat_false, St.resumers] at hr hi
      refine ⟨?_, ?_, hd⟩
      · simp only [St.resumers, Pc.suspended, Bool.toNat_true]
        omega
      · simp only [Pc.suspended, Bool.toNat_true]
        omega
    case isFalse =>
      rw [← Option.some.inj hs]
      exact h.move rfl (by rw [hpc]; rfl)
  case h_4 caller hpc =>
    split at hs
    case isFalse => cases hs
    case isTrue hpos =>
      rw [← Option.some.inj hs]
      rw [hpc] at hr hi
      simp only [Pc.suspended, Bool.toNat_true, St.resumers] at hr hi
      refine ⟨?_, ?_, ?_⟩
      · simp only [St.resumers, Pc.suspended, Bool.toNat_false]
        omega
      · simp only [Pc.suspended, Bool.toNat_false]
        omega
      · simp only
        omega
  case h_5 hpc =>
    split at hs
    case isTrue hz =>
      rw [← Option.some.inj hs]
      exact h.move (by rw [hz]) (by rw [hpc]; rfl)
    case isFalse =>
      rw [← Option.some.inj hs]
      exact h.move rfl (by rw [hpc]; rfl)
  case h_6 hpc =>
    rw [← Option.some.inj hs]
    refine h.move rfl ?_
    rw [hpc]
    split <;> rfl
  case h_7 hpc =>
    rw [← Option.some.inj hs]
    exact h.move rfl (by rw [hpc]; rfl)
  case h_8 => cases hs

theorem Handshake.step (h : Handshake s) {a : Act ι} (hs : s.step a = some s') : Handshake s' := by
  cases a with
  | post i interrupt =>
    obtain ⟨hi, rfl⟩ := Option.ite_none_right_eq_some.1 hs |>.imp_right Option.some.inj
    exact h.call hi (by simp)
  | stop i =>
    obtain ⟨hi, rfl⟩ := Option.ite_none_right_eq_some.1 hs |>.imp_right Option.some.inj
    exact h.call hi (by simp)
  | poster i =>
    obtain ⟨-, rfl⟩ := Option.ite_none_left_eq_some.1 hs |>.imp_right Option.some.inj
    exact h.poster i
  | worker => exact h.worker hs
  | getNext next =>
    simp only [St.step] at hs
    split at hs
    case h_2 => cases hs
    case h_1 caller hpc =>
      have hsp : s.pc.suspended = false := by rw [hpc]; rfl
      split at hs <;> rw [← Option.some.inj hs]
      · exact h.move rfl hsp.symm
      · exact h.move rfl hsp.symm
      · exact h.move rfl hsp.symm
      · exact h.move rfl ((suspended_back _).trans hsp.symm)
  | disable =>
    obtain ⟨hpc, rfl⟩ := Option.ite_none_right_eq_some.1 hs |>.imp_right Option.some.inj
    exact h.move rfl rfl
  | enable =>
    obtain ⟨hpc, rfl⟩ := Option.ite_none_right_eq_some.1 hs |>.imp_right Option.some.inj
    exact h.move rfl (by rw [hpc.1]; rfl)
  | schedule =>
    obtain ⟨hpc, rfl⟩ := Option.ite_none_right_eq_some.1 hs |>.imp_right Option.some.inj
    exact h.move rfl (by rw [hpc.1]; rfl)
  | stopSelf =>
    obtain ⟨hpc, rfl⟩ := Option.ite_none_right_eq_some.1 hs |>.imp_right Option.some.inj
    exact h.move rfl (by rw [hpc.1]; rfl)
  | interrupt =>
    simp only [St.step] at hs
    split at hs
    case isFalse => cases hs
    case isTrue =>
      split at hs
      case isTrue hpc =>
        rw [← Option.some.inj hs]
        exact h.move rfl (by rw [hpc.1]; rfl)
      case isFalse =>
        rw [← Option.some.inj hs]
        exact h.move rfl rfl

/-! ## The result -/

/-- **The idle hand-shake.** While the worker is suspended in idle mode, exactly one of these is there: the
idle flag, a poster that has cleared it and is about to resume the thread, a resume in the semaphore.
Otherwise none of them is. Each suspension that has ended took one resume, and each resume was for one
suspension. -/
theorem idle_handshake (h : (sys ι).Reachable s) :
    (s.pc.suspended = true →
      (s.flags.idle = true ∧ s.resumers = 0 ∧ s.resumes = 0) ∨
      (s.flags.idle = false ∧ s.resumers = 1 ∧ s.resumes = 0) ∨
      (s.flags.idle = false ∧ s.resumers = 0 ∧ s.resumes = 1)) ∧
    (s.pc.suspended = false → s.flags.idle = false ∧ s.resumers = 0 ∧ s.resumes = 0) ∧
    s.idles = s.woken + s.pc.suspended.toNat ∧ s.resumed = s.woken + s.resumes := by
  have hi : Handshake s :=
    System.Reachable.inv (I := Handshake) (fun _ h => h ▸ handshake_init) (fun _ _ _ h hs => h.step hs) h
  have hr := hi.right
  refine ⟨fun hsp => ?_, fun hsp => ?_, hi.idles, hi.resumed⟩
  · rw [hsp, Bool.toNat_true] at hr
    cases hidle : s.flags.idle with
    | true =>
      rw [hidle, Bool.toNat_true] at hr
      exact .inl ⟨rfl, by omega, by omega⟩
    | false =>
      rw [hidle, Bool.toNat_false] at hr
      have hcases : s.resumers = 1 ∧ s.resumes = 0 ∨ s.resumers = 0 ∧ s.resumes = 1 := by omega
      rcases hcases with hc | hc
      · exact .inr (.inl ⟨rfl, hc⟩)
      · exact .inr (.inr ⟨rfl, hc⟩)
  · rw [hsp, Bool.toNat_false] at hr
    have hidle : s.flags.idle.toNat = 0 := by omega
    exact ⟨Bool.toNat_eq_zero.1 hidle, by omega, by omega⟩

/-- A poster that saw the first idle period acts on the second one, and resumes the worker from it. -/
theorem idle_handshake_late : ∃ s, (sys (Fin 2)).Reachable s ∧ s.idles = 2 ∧ s.post 0 = .resume ∧
    s.flags.idle = false ∧ s.resumers = 1 ∧ s.resumes = 0 := by
  obtain ⟨s, hs, hi, hp, hsp, hf⟩ := System.exists_of_check (sys (Fin 2)) (fun _ _ => True)
    (fun s => s.idles = 2 ∧ s.post 0 = .resume ∧ s.pc.suspended = true ∧ s.resumers = 1) .init rfl
    [.worker, .worker, .getNext .idle, .worker, .post 0 true, .poster 0, .post 1 true, .poster 1, .poster 1,
      .poster 1, .worker, .worker, .getNext .idle, .worker, .poster 0] (by decide +kernel)
  obtain ⟨h1, -⟩ := idle_handshake hs
  rcases h1 hsp with h | h | h
  · rw [hf] at h; cases h.2.1
  · exact ⟨s, hs, hi, hp, h⟩
  · rw [hf] at h; cases h.2.1

end Prs.Worker
