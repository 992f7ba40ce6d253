import Mathlib.Tactic.Linarith
import Prs.Lib.Threads
import Prs.Model.Sem

/-!
# Credit of the semaphore

A wait that times out leaves the counter decremented, and the signal that makes up for it finds nobody to
wake: it pops only events that their timeouts have signaled. `SignalMeetsWait` says that this does not happen,
and that the counter does not overflow. In every run in which it holds, the credit is the counter where that
is positive (`Credit`).

* `blocks_without_credit`: in such a run a wait blocks only when there is no credit.
* `blocks_with_credit`: without that, a wait blocks after a wait that timed out and a signal.
-/

namespace Prs.Sem

open Function

/-- A signal that finds the counter negative finds a wait in the queue that is still blocked, and the counter
stays within 64 bits. -/
def St.SignalMeetsWait (s : St) : Act → Prop
  | .signal => s.count < 2 ^ 63 - 1 ∧ (s.count < 0 → ∃ w ∈ s.waitq, (s.event w).cause = none)
  | .wait _ _ => -2 ^ 63 < s.count
  | _ => True

instance (s : St) (a : Act) : Decidable (s.SignalMeetsWait a) := by
  unfold St.SignalMeetsWait
  split <;> infer_instance

variable {s s' : St} {w : ℕ}

/-! ## `prs_sem_signal_once` -/

/-- **What `prs_sem_signal_once` does**: it pops the events that were signaled before, and signals the first
one that was not, if there is one. -/
theorem signalOnce_spec (self : Option ℕ) (q : List ℕ) (event : ℕ → Event) :
    ((∀ e ∈ q, (event e).cause ≠ none) ∧ (signalOnce self q event).1 = [] ∧
      (∀ w, ((signalOnce self q event).2.1 w).cause = (event w).cause) ∧ (signalOnce self q event).2.2 = false) ∨
    ∃ pre e post, q = pre ++ e :: post ∧ (∀ x ∈ pre, (event x).cause ≠ none) ∧ (event e).cause = none ∧
      (signalOnce self q event).1 = post ∧
      (∀ w, ((signalOnce self q event).2.1 w).cause = if w = e then some .signal else (event w).cause) ∧
      (signalOnce self q event).2.2 = decide (self = some e) := by
  induction q generalizing event with
  | nil => exact Or.inl ⟨by simp, rfl, fun _ => rfl, rfl⟩
  | cons e q ih =>
    by_cases he : (event e).cause = none
    · refine Or.inr ⟨[], e, q, rfl, by simp, he, ?_⟩
      simp only [signalOnce, he, if_true]
      by_cases hs : self = some e
      · rw [if_pos hs]
        refine ⟨rfl, fun w => ?_, by simp [hs]⟩
        by_cases hw : w = e
        · subst hw
          simp only [update_self, if_true]
          split <;> simp [Event.unref, Event.cancel, he]
        · simp [hw]
      · rw [if_neg hs]
        refine ⟨rfl, fun w => ?_, by simp [hs]⟩
        by_cases hw : w = e
        · subst hw; simp [Event.unref, he]
        · simp [hw]
    · -- a stale event keeps its cause
      have hsame : ∀ w, (update event e ((event e).unref (some .signal)) w).cause = (event w).cause := by
        intro w
        by_cases hw : w = e
        · subst hw
          obtain ⟨c, hc⟩ := Option.ne_none_iff_exists'.1 he
          simp [Event.unref, hc]
        · rw [update_of_ne hw]
      simp only [signalOnce, he, if_false]
      rcases ih (update event e ((event e).unref (some .signal))) with ⟨h1, h2, h3, h4⟩ | ⟨pre, x, post, h1,
        h2, h3, h4⟩
      · refine Or.inl ⟨?_, h2, fun w => (h3 w).trans (hsame w), h4⟩
        intro x hx
        rcases List.mem_cons.1 hx with rfl | hx
        · exact he
        · rw [← hsame x]; exact h1 x hx
      · refine Or.inr ⟨e :: pre, x, post, by rw [h1]; rfl, ?_, by rw [← hsame x]; exact h3, ?_⟩
        · intro y hy
          rcases List.mem_cons.1 hy with rfl | hy
          · exact he
          · rw [← hsame y]; exact h2 y hy
        · simpa only [hsame] using h4

/-! ## The invariant -/

/-- How many waits in the queue are blocked. -/
def St.blocked (s : St) : ℕ := s.waitq.countP fun w => (s.event w).cause = none

/-- **The credit is in the counter**, and a negative counter has room for every wait that is blocked. -/
structure Credit (s : St) : Prop where
  nodup : s.waits.Nodup
  queued : ∀ w ∈ s.waitq, w ∈ s.waits
  credit : s.credit = max s.count 0
  blocked : (s.blocked : ℤ) ≤ max (-s.count) 0

theorem countP_cause_congr {l : List ℕ} {event event' : ℕ → Event} {c : Option Cause}
    (h : ∀ w ∈ l, (event' w).cause = (event w).cause) :
    l.countP (fun w => (event' w).cause = c) = l.countP fun w => (event w).cause = c :=
  List.countP_congr fun w hw => by simp [h w hw]

/-- One wait more has ended with a signal. -/
theorem countP_signal {l : List ℕ} {event event' : ℕ → Event} {e : ℕ} (hl : l.Nodup) (he : e ∈ l)
    (hc : (event e).cause = none)
    (h : ∀ w, (event' w).cause = if w = e then some .signal else (event w).cause) :
    l.countP (fun w => (event' w).cause = some .signal) = l.countP (fun w => (event w).cause = some .signal) +
    1 := by
  refine countP_flip hl he ?_ ?_ fun w hw => ?_
  · simp [hc]
  · simp [h e]
  · rw [h w, if_neg hw]

/-- A wait that is signaled is not blocked any more. -/
theorem countP_blocked_le {l : List ℕ} {event event' : ℕ → Event}
    (h : ∀ w, (event' w).cause = none → (event w).cause = none) :
    l.countP (fun w => (event' w).cause = none) ≤ l.countP fun w => (event w).cause = none :=
  List.countP_mono_left fun w _ hw => by simpa using h w (by simpa using hw)

theorem countP_blocked_eq_zero {l : List ℕ} {event : ℕ → Event} (h : ∀ x ∈ l, (event x).cause ≠ none) :
    l.countP (fun w => (event w).cause = none) = 0 :=
  List.countP_eq_zero.2 fun w hw => by simpa using h w hw

theorem credit_init {c : ℤ} (hc : 0 ≤ c) : Credit (.init c) where
  nodup := List.nodup_nil
  queued := by simp [St.init]
  credit := by simp [St.credit, St.init, St.acquired, hc]
  blocked := by simp [St.blocked, St.init]

/-- The timer entry of a wait goes. -/
theorem Credit.disarm (h : Credit s) {signal : Option Cause} (hs : signal ≠ some .signal) :
    Credit (s.disarm w signal) := by
  have hcause : ∀ x, ((s.disarm w signal).event x).cause =
      if x = w then (s.event w).cause.or signal else (s.event x).cause := by
    intro x
    by_cases hx : x = w
    · subst hx; simp [St.disarm, Event.unref]
    · simp [St.disarm, hx]
  have hacq : (s.disarm w signal).acquired = s.acquired := by
    refine List.countP_congr fun x _ => ?_
    rw [hcause x]
    by_cases hx : x = w
    · subst hx
      cases hc : (s.event x).cause <;> simp [hs]
    · simp [hx]
  have hbl : (s.disarm w signal).blocked ≤ s.blocked := by
    refine countP_blocked_le fun x hx => ?_
    rw [hcause x] at hx
    split at hx
    · rename_i hxw; rw [hxw]; exact (Option.or_eq_none_iff.1 hx).1
    · exact hx
  refine ⟨h.nodup, h.queued, ?_, ?_⟩
  · have := h.credit
    unfold St.credit at this ⊢
    rw [hacq]; exact this
  · have h1 := h.blocked
    have h2 : (s.disarm w signal).count = s.count := rfl
    rw [h2]; omega

/-- The causes after a wait has queued its event. -/
theorem cause_queued (hw : w ∉ s.waits) (e : Event) {x : ℕ} (hx : x ∈ s.waits) :
    (update s.event w e x).cause = (s.event x).cause := by
  rw [update_of_ne]
  rintro rfl
  exact hw hx

/-- A wait that finds no credit is one more that is blocked. -/
theorem Credit.wait_block (h : Credit s) {event : ℕ → Event} (hw : w ∉ s.waits) (hc : s.count ≤ 0)
    (hlow : -2 ^ 63 < s.count) (hnew : (event w).cause = none)
    (hold : ∀ x ∈ s.waits, (event x).cause = (s.event x).cause) :
    Credit { s with
      event := event, waitq := s.waitq ++ [w], count := wrap (s.count - 1), waits := w :: s.waits } := by
  have hacq : (w :: s.waits).countP (fun x => (event x).cause = some .signal) = s.acquired := by
    rw [List.countP_cons, countP_cause_congr hold]
    simp [hnew, St.acquired]
  have hbl : (s.waitq ++ [w]).countP (fun x => (event x).cause = none) = s.blocked + 1 := by
    rw [List.countP_append, countP_cause_congr fun x hx => hold x (h.queued x hx)]
    simp [hnew, St.blocked]
  have hwrap : wrap (s.count - 1) = s.count - 1 := wrap_eq (by omega) (by omega)
  refine ⟨List.nodup_cons.2 ⟨hw, h.nodup⟩, fun x hx => ?_, ?_, ?_⟩
  · rcases List.mem_append.1 hx with hx | hx
    · exact List.mem_cons_of_mem _ (h.queued x hx)
    · rw [List.mem_singleton.1 hx]; exact List.mem_cons_self
  · have h1 := h.credit
    unfold St.credit St.acquired at h1 ⊢
    simp only [hacq, hwrap]
    unfold St.acquired
    omega
  · have h1 := h.blocked
    show (((s.waitq ++ [w]).countP fun x => (event x).cause = none : ℕ) : ℤ) ≤ max (-wrap (s.count - 1)) 0
    rw [hbl, hwrap]
    omega

/-- A wait that finds credit takes it at once: no wait is blocked, so it pops its own event. -/
theorem Credit.wait_take (h : Credit s) (hw : w ∉ s.waits) (hc : 0 < s.count) (hhigh : s.count < 2 ^ 63)
    {event : ℕ → Event} (hnew : (event w).cause = none)
    (hold : ∀ x ∈ s.waits, (event x).cause = (s.event x).cause) :
    (signalOnce (some w) (s.waitq ++ [w]) event).2.2 = true ∧
    Credit { s with
      event := (signalOnce (some w) (s.waitq ++ [w]) event).2.1
      waitq := (signalOnce (some w) (s.waitq ++ [w]) event).1
      count := wrap (s.count - 1), waits := w :: s.waits } := by
  have hstale : ∀ x ∈ s.waitq, (event x).cause ≠ none := by
    intro x hx hn
    have h0 : s.blocked = 0 := by have := h.blocked; omega
    rw [hold x (h.queued x hx)] at hn
    exact List.countP_eq_zero.1 h0 x hx (by simp [hn])
  rcases signalOnce_spec (some w) (s.waitq ++ [w]) event with ⟨h1, -⟩ | ⟨pre, e, post, hq, -, he, hpost,
    hcause, hres⟩
  · exact absurd hnew (h1 w (by simp))
  -- every other event of the queue is stale
  have hrest : ∀ x ∈ s.waitq ++ [w], (event x).cause = none → x = w := by
    intro x hx hn
    rcases List.mem_append.1 hx with hx | hx
    · exact absurd hn (hstale x hx)
    · exact List.mem_singleton.1 hx
  have hew : e = w := hrest e (by rw [hq]; simp) he
  subst hew
  have hmem : ∀ x ∈ post, x ∈ s.waitq ++ [e] := fun x hx => by rw [hq]; simp [hx]
  have hwrap : wrap (s.count - 1) = s.count - 1 := wrap_eq (by omega) (by omega)
  have hnd : (e :: s.waits).Nodup := List.nodup_cons.2 ⟨hw, h.nodup⟩
  refine ⟨by rw [hres]; simp, hnd, ?_, ?_, ?_⟩
  · intro x hx
    simp only [hpost] at hx
    rcases List.mem_append.1 (hmem x hx) with hx | hx
    · exact List.mem_cons_of_mem _ (h.queued x hx)
    · rw [List.mem_singleton.1 hx]; exact List.mem_cons_self
  · have h1 := h.credit
    have h2 := countP_signal hnd List.mem_cons_self he hcause
    have h3 : (e :: s.waits).countP (fun x => (event x).cause = some .signal) = s.acquired := by
      rw [List.countP_cons, countP_cause_congr hold]
      simp [hnew, St.acquired]
    unfold St.credit at h1 ⊢
    unfold St.acquired at h3 ⊢
    simp only [h2, h3, hwrap]
    unfold St.acquired at h1
    omega
  · have h0 : post.countP (fun x => ((signalOnce (some e) (s.waitq ++ [e]) event).2.1 x).cause = none) = 0 := by
      refine countP_blocked_eq_zero fun x hx hn => ?_
      rw [hcause x] at hn
      split at hn
      · cases hn
      · rename_i hxe; exact hxe (hrest x (hmem x hx) hn)
    simp only [St.blocked, hpost, h0, hwrap]
    omega

theorem Credit.signal (h : Credit s) (hok : s.SignalMeetsWait .signal) (hlow : -2 ^ 63 ≤ s.count) :
    Credit s.signal := by
  obtain ⟨hhigh, hex⟩ := hok
  have hwrap : wrap (s.count + 1) = s.count + 1 := wrap_eq (by omega) (by omega)
  have hcr := h.credit
  have hbl := h.blocked
  unfold St.credit at hcr
  unfold St.signal
  split
  · rename_i hneg
    obtain ⟨w, hw, hwn⟩ := hex hneg
    rcases signalOnce_spec none s.waitq s.event with ⟨h1, -⟩ | ⟨pre, e, post, hq, hpre, he, hpost, hcause, -⟩
    · exact absurd hwn (h1 w hw)
    have hmem : e ∈ s.waits := h.queued e (by rw [hq]; simp)
    have hacq := countP_signal h.nodup hmem he hcause
    have hblk : s.blocked = post.countP (fun x => (s.event x).cause = none) + 1 := by
      rw [St.blocked, hq, List.countP_append, countP_blocked_eq_zero hpre, List.countP_cons, he]
      simp
    have hpost_le : post.countP (fun x => ((signalOnce none s.waitq s.event).2.1 x).cause = none) ≤
        post.countP fun x => (s.event x).cause = none := by
      refine countP_blocked_le fun x hx => ?_
      rw [hcause x] at hx
      split at hx
      · cases hx
      · exact hx
    refine ⟨h.nodup, fun x hx => ?_, ?_, ?_⟩
    · simp only [hpost] at hx
      exact h.queued x (by rw [hq]; simp [hx])
    · unfold St.credit St.acquired at *
      simp only [hacq, hwrap]
      omega
    · show ((((signalOnce none s.waitq s.event).1.countP fun x =>
        ((signalOnce none s.waitq s.event).2.1 x).cause = none : ℕ)) : ℤ) ≤ max (-wrap (s.count + 1)) 0
      rw [hpost, hwrap]
      omega
  · rename_i hneg
    refine ⟨h.nodup, h.queued, ?_, ?_⟩
    · unfold St.credit St.acquired at *
      simp only [hwrap]
      omega
    · show (s.blocked : ℤ) ≤ max (-wrap (s.count + 1)) 0
      rw [hwrap]
      omega

theorem Credit.wait (h : Credit s) {timed : Bool} (hw : w ∉ s.waits) (hlow : -2 ^ 63 < s.count)
    (hhigh : s.count < 2 ^ 63) : Credit (s.wait w timed) ∧
      (((s.wait w timed).event w).cause = none → s.credit ≤ 0) := by
  have hold : ∀ e : Event, ∀ x ∈ s.waits, (update s.event w e x).cause = (s.event x).cause :=
    fun e x hx => cause_queued hw e hx
  unfold St.wait
  by_cases hc : 0 < s.count
  · simp only [hc, if_true]
    obtain ⟨h1, h2⟩ := h.wait_take hw hc hhigh (by simp) (hold ⟨if timed then 2 else 1, none, false, false⟩)
    simp only [h1, if_true]
    refine ⟨h2, fun hn => ?_⟩
    rcases signalOnce_spec (some w) (s.waitq ++ [w])
      (update s.event w ⟨if timed then 2 else 1, none, false, false⟩) with ⟨-, -, -, h3⟩ | ⟨_, e, _, -, -, -,
        -, h4, h5⟩
    · rw [h3] at h1; cases h1
    · have he : w = e := by rw [h5] at h1; simpa using h1
      rw [h4 w, if_pos he] at hn
      cases hn
  · simp only [hc, if_false]
    have hc' : s.count ≤ 0 := by omega
    refine ⟨?_, fun _ => by have := h.credit; omega⟩
    refine h.wait_block hw hc' hlow (by simp) fun x hx => ?_
    have hxw : x ≠ w := by rintro rfl; exact hw hx
    simp [hxw]

/-- Both bounds of the counter. -/
def St.Fits (s : St) : Prop := -2 ^ 63 ≤ s.count ∧ s.count < 2 ^ 63

theorem wrap_fits (x : ℤ) : -2 ^ 63 ≤ wrap x ∧ wrap x < 2 ^ 63 := by
  have h1 := Int.le_bmod (x := x) (m := 2 ^ 64) (by norm_num)
  have h2 := Int.bmod_lt (x := x) (m := 2 ^ 64) (by norm_num)
  unfold wrap
  omega

theorem step_fits {a : Act} (h : s.Fits) (hs : s.step a = some s') : s'.Fits := by
  cases a with
  | wait w timed =>
    simp only [St.step] at hs
    split at hs
    · cases hs
    · obtain rfl := Option.some.inj hs
      have hc : (s.wait w timed).count = wrap (s.count - 1) := by
        unfold St.wait
        by_cases hc : 0 < s.count
        · simp only [hc, if_true]
          exact (apply_ite St.count _ _ _).trans (ite_self _)
        · simp only [hc, if_false]
          rfl
      rw [St.Fits, hc]; exact wrap_fits _
  | signal =>
    obtain rfl := Option.some.inj hs
    have hc : s.signal.count = wrap (s.count + 1) := by
      unfold St.signal
      dsimp only
      split <;> rfl
    rw [St.Fits, hc]; exact wrap_fits _
  | timeout w =>
    simp only [St.step] at hs
    split at hs
    · exact Option.some.inj hs ▸ h
    · cases hs
  | cancel w =>
    simp only [St.step] at hs
    split at hs
    · exact Option.some.inj hs ▸ h
    · cases hs

theorem step_credit {a : Act} (hf : s.Fits) (h : Credit s) (hok : s.SignalMeetsWait a) (hs : s.step a = some s') :
    Credit s' := by
  cases a with
  | wait w timed =>
    simp only [St.step] at hs
    split at hs
    · cases hs
    · rename_i hw
      exact Option.some.inj hs ▸ (h.wait hw hok hf.2).1
  | signal => exact Option.some.inj hs ▸ h.signal hok hf.1
  | timeout w =>
    simp only [St.step] at hs
    split at hs
    · exact Option.some.inj hs ▸ h.disarm (by simp)
    · cases hs
  | cancel w =>
    simp only [St.step] at hs
    split at hs
    · exact Option.some.inj hs ▸ h.disarm (by simp)
    · cases hs

theorem reach_credit (h : sys.Reach St.SignalMeetsWait s) : s.Fits ∧ Credit s := by
  refine h.inv (I := fun s => s.Fits ∧ Credit s) ?_ ?_
  · rintro s ⟨c, h0, h1, rfl⟩
    exact ⟨⟨by simp [St.init]; omega, h1⟩, credit_init h0⟩
  · rintro s a s' ⟨hf, hc⟩ hok hs
    exact ⟨step_fits hf hs, step_credit hf hc hok hs⟩

/-- **A wait blocks only when there is no credit**, in every run in which each signal that finds the counter
negative finds a wait that is still blocked: the initial count and the signals are used up by the waits that
acquired the semaphore, so those that timed out have taken none. -/
theorem blocks_without_credit (h : sys.Reach St.SignalMeetsWait s) {timed : Bool}
    (hok : s.SignalMeetsWait (.wait w timed)) (hs : s.step (.wait w timed) = some s')
    (hb : (s'.event w).cause = none) : s.credit ≤ 0 := by
  obtain ⟨hf, hc⟩ := reach_credit h
  simp only [St.step] at hs
  split at hs
  · cases hs
  · rename_i hw
    obtain rfl := Option.some.inj hs
    exact (hc.wait hw hok hf.2).2 hb

/-- A wait takes the initial count, a second one is signaled, a third one blocks. -/
theorem blocks_without_credit_third : ∃ s s', (sys.Reach St.SignalMeetsWait s ∧
    s.step (.wait 3 false) = some s' ∧ (s'.event 3).cause = none) ∧
    (s.initial = 1 ∧ s.signals = 1 ∧ s.acquired = 2) ∧ s.credit ≤ 0 := by
  obtain ⟨s, hs, hok, ⟨s', hs', hb⟩, hc⟩ := System.exists_of_check sys St.SignalMeetsWait
    (fun s => s.SignalMeetsWait (.wait 3 false) ∧
      (∃ s' ∈ s.step (.wait 3 false), (s'.event 3).cause = none) ∧
      s.initial = 1 ∧ s.signals = 1 ∧ s.acquired = 2) (.init 1) ⟨1, by decide, by decide, rfl⟩
    [.wait 1 false, .wait 2 true, .signal, .cancel 2] (by decide +kernel)
  exact ⟨s, s', ⟨hs, hs', hb⟩, hc, blocks_without_credit hs hok hs' hb⟩

/-- A wait times out, and the signal that follows only brings the counter back to zero: the next wait blocks
although the signal was used by no one. -/
theorem blocks_with_credit : ∃ s s', sys.Reachable s ∧ s.step (.wait 2 false) = some s' ∧
    (s'.event 2).cause = none ∧ ¬ s.credit ≤ 0 := by
  obtain ⟨s, hs, ⟨s', hs', hb⟩, hc⟩ := System.exists_of_check sys (fun _ _ => True)
    (fun s => (∃ s' ∈ s.step (.wait 2 false), (s'.event 2).cause = none) ∧ ¬ s.credit ≤ 0)
    (.init 0) ⟨0, by decide, by decide, rfl⟩ [.wait 1 true, .timeout 1, .signal] (by decide +kernel)
  exact ⟨s, s', hs, hs', hb, hc⟩

end Prs.Sem
