import Prs.Model.SemCalls

/-!
# Wake-ups of the semaphore

A decrement of a positive counter and an increment of a negative one each give the right to pop one event. The
rights given so far are as many as the waits that have decremented, or the initial count and the signals,
whichever is less (`Inv.rights`). A wait queues its event before it decrements, so the queue has an event for
every right that is still to be used, and every event is popped once.

* `wakes_the_least`: in every run in which the counter stays within 64 bits, a pop finds an event that has not
  been signaled, and when no call is between its steps, as many waits are released as there are waits, or
  initial count and signals together, whichever is less; the others are blocked.
* `signal_overflows`: without that, a signal wraps the counter around and a wait blocks.
-/

namespace Prs.SemCalls

open Function

/-- The task is about to decrement the counter. -/
def Pc.decrements : Pc → Bool
  | .sub _ => true
  | _ => false

/-- The counter stays within 64 bits. -/
def St.InRange {ι : Type} (s : St ι) : Act ι → Prop
  | .step i => ((s.pc i).decrements = false ∨ -2 ^ 63 < s.count) ∧ (s.pc i ≠ .add ∨ s.count < 2 ^ 63 - 1)
  | _ => True

instance {ι : Type} (s : St ι) (a : Act ι) : Decidable (s.InRange a) :=
  match a with
  | .step _ => inferInstanceAs (Decidable (_ ∧ _))
  | .wait _ _ => inferInstanceAs (Decidable True)
  | .signal _ => inferInstanceAs (Decidable True)

variable {ι : Type} [Fintype ι] [DecidableEq ι] {s s' : St ι} {i : ι} {e w : ℕ}

/-! ## Where events are -/

/-- The wait that a task is in. -/
def Pc.wait : Pc → Option ℕ
  | .push w => some w
  | .sub w => some w
  | .pop self => self
  | .signal _ self => self
  | .schedule w => some w
  | _ => none

/-- The event that a task is about to push or to signal. -/
def Pc.holds : Pc → List ℕ
  | .push w => [w]
  | .signal e _ => [e]
  | _ => []

def Pc.pushing : Pc → Bool
  | .push _ => true
  | _ => false

/-- The task has not decremented the counter. -/
def Pc.early : Pc → Bool
  | .push _ => true
  | .sub _ => true
  | _ => false

def Pc.popping : Pc → Bool
  | .pop _ => true
  | _ => false

def Pc.signaling : Pc → Bool
  | .signal _ _ => true
  | _ => false

/-- How many tasks are at a place with `P`. -/
def St.at (s : St ι) (P : Pc → Bool) : ℕ := headcount (fun p => P p = true) s.pc

theorem at_move (P : Pc → Bool) {p : Pc} (hpc : s.pc i = p) (p' : Pc) :
    headcount (fun p => P p = true) (update s.pc i p') + (P p).toNat =
      headcount (fun p => P p = true) s.pc + (P p').toNat := by
  have hu := headcount_update (fun p => P p = true) s.pc i p'
  rw [hpc] at hu
  cases hp : P p <;> cases hp' : P p' <;> simpa [hp, hp'] using hu

/-- What a place counts for: pushing, early, popping, signaling. -/
def Pc.marks (p : Pc) : ℕ × ℕ × ℕ × ℕ := (p.pushing.toNat, p.early.toNat, p.popping.toNat, p.signaling.toNat)

theorem marks_idle : Pc.idle.marks = (0, 0, 0, 0) := rfl

theorem marks_push (w : ℕ) : (Pc.push w).marks = (1, 1, 0, 0) := rfl

theorem marks_sub (w : ℕ) : (Pc.sub w).marks = (0, 1, 0, 0) := rfl

theorem marks_pop (self : Option ℕ) : (Pc.pop self).marks = (0, 0, 1, 0) := rfl

theorem marks_signal (e : ℕ) (self : Option ℕ) : (Pc.signal e self).marks = (0, 0, 0, 1) := rfl

theorem marks_schedule (w : ℕ) : (Pc.schedule w).marks = (0, 0, 0, 0) := rfl

theorem marks_add : Pc.add.marks = (0, 0, 0, 0) := rfl

theorem at_moves {p p' : Pc} {a b c d a' b' c' d' : ℕ} (hpc : s.pc i = p) (h : p.marks = (a, b, c, d))
    (h' : p'.marks = (a', b', c', d')) :
    headcount (fun p => p.pushing = true) (update s.pc i p') + a = headcount
    (fun p => p.pushing = true) s.pc + a' ∧
    headcount (fun p => p.early = true) (update s.pc i p') + b = headcount (fun p => p.early = true) s.pc + b' ∧
    headcount (fun p => p.popping = true) (update s.pc i p') + c = headcount
    (fun p => p.popping = true) s.pc + c' ∧
    headcount (fun p => p.signaling = true) (update s.pc i p') + d =
      headcount (fun p => p.signaling = true) s.pc + d' := by
  simp only [Pc.marks, Prod.mk.injEq] at h h'
  have m1 := at_move Pc.pushing hpc p'
  have m2 := at_move Pc.early hpc p'
  have m3 := at_move Pc.popping hpc p'
  have m4 := at_move Pc.signaling hpc p'
  omega

/-- **Events.** Each is in one place from its push to its signal, and blocks its task until then. -/
structure Events (s : St ι) : Prop where
  nodup : s.waits.Nodup
  started : ∀ w, (s.event w).isSome → w ∈ s.waits
  own : ∀ i w, (s.pc i).wait = some w → ∃ E, s.event w = some E ∧ E.task = i
  blocked : ∀ i w, s.blocked i = some w → (s.pc i).wait = some w
  queue : ∀ e ∈ s.waitq, s.isBlocked e = true
  held : ∀ i, ∀ e ∈ (s.pc i).holds, s.isBlocked e = true
  once : ∀ e, tally Pc.holds s.pc e + s.waitq.count e ≤ 1

/-- **Rights.** -/
structure Rights (s : St ι) : Prop where
  place : s.waits.length = s.at Pc.pushing + s.waitq.length + s.at Pc.signaling + s.released
  early : s.at Pc.early ≤ s.waits.length
  rights : (s.released : ℤ) + s.at Pc.signaling + s.at Pc.popping =
    min ((s.waits.length : ℤ) - s.at Pc.early) (s.initial + s.signals)
  count : s.count = s.initial + s.signals - (s.waits.length - s.at Pc.early)

omit [DecidableEq ι] in
theorem headcount_init (P : Pc → Bool) (h : P .idle = false) {c : ℤ} : (St.init c : St ι).at P = 0 := by
  simp [St.at, headcount, St.init, h]

omit [DecidableEq ι] in
theorem events_init {c : ℤ} : Events (St.init c : St ι) where
  nodup := List.nodup_nil
  started := fun w h => by simp [St.init] at h
  own := fun i w h => by cases h
  blocked := fun i w h => by cases h
  queue := fun e h => by cases h
  held := fun i e h => by cases h
  once := fun e => by
    have ht : tally Pc.holds (St.init c : St ι).pc e = 0 := tally_eq_zero fun i => List.not_mem_nil
    rw [ht]
    simp [St.init]

omit [DecidableEq ι] in
theorem rights_init {c : ℤ} (hc : 0 ≤ c) : Rights (St.init c : St ι) where
  place := by
    rw [headcount_init _ rfl, headcount_init _ rfl]
    rfl
  early := by rw [headcount_init _ rfl]; exact Nat.zero_le _
  rights := by
    rw [headcount_init _ rfl, headcount_init _ rfl, headcount_init _ rfl]
    simp [St.init, St.released, hc]
  count := by
    rw [headcount_init _ rfl]
    simp [St.init]

omit [Fintype ι] [DecidableEq ι] in
theorem isBlocked_iff : s.isBlocked e = true ↔ ∃ E, s.event e = some E ∧ s.blocked E.task = some e := by
  simp [St.isBlocked, Option.any_eq_true]

omit [DecidableEq ι] in
/-- **There is an event for every right.** -/
theorem Rights.popping_le (h : Rights s) : s.at Pc.popping ≤ s.waitq.length := by
  have hp := h.place
  have hr := h.rights
  have he : s.at Pc.pushing ≤ s.at Pc.early := by
    refine Finset.sum_le_sum fun j _ => ?_
    cases s.pc j <;> simp [Pc.pushing, Pc.early]
  omega

/-! ## Events -/

theorem Events.own_move (h : Events s) {p : Pc} (hp : ∀ w, p.wait = some w → (s.pc i).wait = some w) (j : ι)
    (w : ℕ) (hj : (update s.pc i p j).wait = some w) : ∃ E, s.event w = some E ∧ E.task = j := by
  by_cases hji : j = i
  · subst hji
    rw [update_self] at hj
    exact h.own j w (hp w hj)
  · rw [update_of_ne hji] at hj
    exact h.own j w hj

theorem Events.blocked_move (h : Events s) {p : Pc} (hp : ∀ w, s.blocked i = some w → p.wait = some w) (j : ι)
    (w : ℕ) (hj : s.blocked j = some w) : (update s.pc i p j).wait = some w := by
  by_cases hji : j = i
  · subst hji
    rw [update_self]
    exact hp w hj
  · rw [update_of_ne hji]
    exact h.blocked j w hj

/-- A task moves on without an event. -/
theorem Events.move (h : Events s) {p : Pc} (hw : ∀ w, p.wait = some w → (s.pc i).wait = some w)
    (hb : ∀ w, s.blocked i = some w → p.wait = some w) (hh : p.holds = []) {count : ℤ} {signals : ℕ}
    (hold : (s.pc i).holds = []) :
    Events { s with count, signals, pc := update s.pc i p } where
  nodup := h.nodup
  started := h.started
  own := h.own_move hw
  blocked := h.blocked_move hb
  queue := h.queue
  held := by
    have hp : ∀ e ∈ p.holds, s.isBlocked e = true := fun e he => by rw [hh] at he; cases he
    exact forall_update (P := fun p : Pc => ∀ e ∈ p.holds, s.isBlocked e = true) h.held hp
  once := fun e => by
    rw [tally_congr (hh.trans hold.symm)]
    exact h.once e

section Wait

/-- The state in which task `i` has started a wait. -/
def St.startWait (s : St ι) (i : ι) (w : ℕ) : St ι :=
  { s with
    event := update s.event w (some ⟨i, 1, false⟩), blocked := update s.blocked i (some w)
    pc := update s.pc i (.push w), waits := w :: s.waits }

omit [DecidableEq ι] in
/-- A task that is in no call is not blocked. -/
theorem Events.not_blocked (h : Events s) (hpc : s.pc i = .idle) : s.blocked i = none := by
  rw [Option.eq_none_iff_forall_ne_some]
  intro v hb
  have hw := h.blocked i v hb
  rw [hpc] at hw
  cases hw

omit [DecidableEq ι] in
/-- The number of a wait that has not started is not in use. -/
theorem Events.unused (h : Events s) (hw : w ∉ s.waits) : s.isBlocked w = false ∧ s.event w = none := by
  have hE : s.event w = none := by
    rw [Option.eq_none_iff_forall_ne_some]
    intro E hE
    exact hw (h.started w (by rw [hE]; rfl))
  refine ⟨?_, hE⟩
  rw [Bool.eq_false_iff, ne_eq, isBlocked_iff]
  rintro ⟨E, hE', -⟩
  rw [hE] at hE'
  cases hE'

/-- The new event is blocked, and every other is as it was. -/
theorem Events.isBlocked_startWait (h : Events s) (hpc : s.pc i = .idle) (v : ℕ) :
    (s.startWait i w).isBlocked v = if v = w then true else s.isBlocked v := by
  by_cases hv : v = w
  · subst hv
    rw [if_pos rfl]
    exact isBlocked_iff.2 ⟨⟨i, 1, false⟩, update_self _ _ _, update_self _ _ _⟩
  · rw [if_neg hv, Bool.eq_iff_iff, isBlocked_iff, isBlocked_iff]
    simp only [St.startWait, update_of_ne hv]
    refine exists_congr fun E => and_congr_right fun _ => ?_
    by_cases hE : E.task = i
    · rw [hE, update_self, h.not_blocked hpc]
      simp [Ne.symm hv]
    · rw [update_of_ne hE]

theorem Events.released_startWait (h : Events s) (hpc : s.pc i = .idle) (hw : w ∉ s.waits) :
    (s.startWait i w).released = s.released := by
  have htail :
      s.waits.countP (fun v => !(s.startWait i w).isBlocked v) = s.waits.countP fun v => !s.isBlocked v := by
    refine List.countP_congr fun v hv => ?_
    have hvw : v ≠ w := by
      rintro rfl
      exact hw hv
    rw [h.isBlocked_startWait hpc, if_neg hvw]
  rw [St.released, St.released, show (s.startWait i w).waits = w :: s.waits from rfl, List.countP_cons, htail,
    h.isBlocked_startWait hpc, if_pos rfl]
  rfl

theorem Events.startWait (h : Events s) (hpc : s.pc i = .idle) (hw : w ∉ s.waits) : Events (s.startWait i w) := by
  obtain ⟨hnot, hE⟩ := h.unused hw
  have hself : (s.startWait i w).isBlocked w = true := by rw [h.isBlocked_startWait hpc, if_pos rfl]
  have hkeep : ∀ v, s.isBlocked v = true → (s.startWait i w).isBlocked v = true := by
    intro v hv
    rw [h.isBlocked_startWait hpc]
    split
    · rfl
    · exact hv
  constructor
  case nodup => exact List.nodup_cons.2 ⟨hw, h.nodup⟩
  case started =>
    intro v hv
    by_cases hvw : v = w
    · rw [hvw]
      exact List.mem_cons_self
    · simp only [St.startWait, update_of_ne hvw] at hv
      exact List.mem_cons_of_mem w (h.started v hv)
  case own =>
    intro j v hj
    by_cases hji : j = i
    · subst hji
      simp only [St.startWait, update_self] at hj
      obtain rfl : w = v := Option.some.inj hj
      exact ⟨_, update_self _ _ _, rfl⟩
    · simp only [St.startWait, update_of_ne hji] at hj
      obtain ⟨E, hE', hj'⟩ := h.own j v hj
      have hvw : v ≠ w := by
        rintro rfl
        rw [hE] at hE'
        cases hE'
      exact ⟨E, (update_of_ne hvw _ _).trans hE', hj'⟩
  case blocked =>
    intro j v hj
    by_cases hji : j = i
    · subst hji
      simp only [St.startWait, update_self] at hj ⊢
      exact hj
    · simp only [St.startWait, update_of_ne hji] at hj ⊢
      exact h.blocked j v hj
  case queue => exact fun v hv => hkeep v (h.queue v hv)
  case held =>
    intro j v hv
    by_cases hji : j = i
    · subst hji
      simp only [St.startWait, update_self] at hv
      obtain rfl := List.mem_singleton.1 hv
      exact hself
    · simp only [St.startWait, update_of_ne hji] at hv
      exact hkeep v (h.held j v hv)
  case once =>
    intro v
    have ht := tally_update Pc.holds s.pc i (.push w) v
    rw [hpc] at ht
    have ho := h.once v
    change tally Pc.holds (update s.pc i (.push w)) v + s.waitq.count v ≤ 1
    by_cases hvw : v = w
    · -- nobody has the new event yet
      subst hvw
      have h0 : tally Pc.holds s.pc v = 0 := tally_eq_zero fun j hj => by
        rw [h.held j v hj] at hnot
        cases hnot
      have hq : s.waitq.count v = 0 := List.count_eq_zero.2 fun hq => by
        rw [h.queue v hq] at hnot
        cases hnot
      simp only [Pc.holds, List.count_nil, List.count_singleton_self] at ht
      omega
    · have hc : ([w] : List ℕ).count v = 0 := List.count_eq_zero.2 (by simpa using hvw)
      simp only [Pc.holds, List.count_nil, hc] at ht
      omega

end Wait

theorem Events.wait (h : Events s) (hs : s.step (.wait i w) = some s') :
    Events s' ∧ s'.released = s.released := by
  obtain ⟨⟨hpc, hw⟩, rfl⟩ := Option.ite_none_right_eq_some.1 hs |>.imp_right Option.some.inj
  exact ⟨h.startWait hpc hw, h.released_startWait hpc hw⟩

theorem Events.push (h : Events s) (hpc : s.pc i = .push w) :
    Events { s with waitq := s.waitq ++ [w], pc := update s.pc i (.sub w) } := by
  have hbw : s.isBlocked w = true := h.held i w (by rw [hpc]; exact List.mem_singleton_self w)
  exact
    { nodup := h.nodup
      started := h.started
      own := h.own_move fun v hv => by rw [hpc]; exact hv
      blocked := h.blocked_move fun v hv => by
        have := h.blocked i v hv
        rw [hpc] at this
        exact this
      queue := fun v hv => by
        rcases List.mem_append.1 hv with hv | hv
        · exact h.queue v hv
        · rw [List.mem_singleton.1 hv]; exact hbw
      held := by
        have hp : ∀ e ∈ (Pc.sub w).holds, s.isBlocked e = true := fun e he => by cases he
        exact forall_update (P := fun p : Pc => ∀ e ∈ p.holds, s.isBlocked e = true) h.held hp
      once := fun v => by
        have ht := tally_update Pc.holds s.pc i (.sub w) v
        rw [hpc] at ht
        have ho := h.once v
        simp only [Pc.holds, List.count_nil, List.count_append] at ht ⊢
        omega }

theorem Events.pop (h : Events s) {self : Option ℕ} {q : List ℕ} (hpc : s.pc i = .pop self)
    (hq : s.waitq = e :: q) :
    Events { s with waitq := q, pc := update s.pc i (.signal e self) } := by
  have hbe : s.isBlocked e = true := h.queue e (by rw [hq]; exact List.mem_cons_self)
  exact
    { nodup := h.nodup
      started := h.started
      own := h.own_move fun v hv => by rw [hpc]; exact hv
      blocked := h.blocked_move fun v hv => by
        have := h.blocked i v hv
        rw [hpc] at this
        exact this
      queue := fun v hv => h.queue v (by rw [hq]; exact List.mem_cons_of_mem e hv)
      held := by
        have hp : ∀ x ∈ (Pc.signal e self).holds, s.isBlocked x = true := fun x hx => by
          rw [List.mem_singleton.1 hx]; exact hbe
        exact forall_update (P := fun p : Pc => ∀ x ∈ p.holds, s.isBlocked x = true) h.held hp
      once := fun v => by
        have ht := tally_update Pc.holds s.pc i (.signal e self) v
        rw [hpc] at ht
        have ho := h.once v
        rw [hq, count_cons_eq] at ho
        simp only [Pc.holds, List.count_nil] at ht ⊢
        omega }

/-- What `prs_event_signal` changes when it unblocks the task of `e`. -/
structure Signaled (s : St ι) (e : ℕ) (s' : St ι) : Prop where
  task : ∀ v, (s'.event v).map Event.task = (s.event v).map Event.task
  blocked : ∀ E, s.event e = some E → s'.blocked = update s.blocked E.task none
  waitq : s'.waitq = s.waitq
  pc : s'.pc = s.pc
  waits : s'.waits = s.waits
  count : s'.count = s.count
  initial : s'.initial = s.initial
  signals : s'.signals = s.signals

omit [Fintype ι] in
theorem signalEvent_spec (hb : s.isBlocked e = true) : Signaled s e (s.signalEvent e) := by
  obtain ⟨E, hE, hblk⟩ := isBlocked_iff.1 hb
  simp only [St.signalEvent, hE, hblk, if_true]
  refine ⟨fun v => ?_, fun E' hE' => ?_, rfl, rfl, rfl, rfl, rfl, rfl⟩
  · by_cases hv : v = e
    · subst hv
      simp [hE]
    · simp [update_of_ne hv]
  · rw [hE] at hE'
    rw [Option.some.inj hE']

omit [Fintype ι] in
theorem Signaled.cancel (h : Signaled s e s') : Signaled s e (s'.cancelEvent e) := by
  refine ⟨fun v => ?_, h.blocked, h.waitq, h.pc, h.waits, h.count, h.initial, h.signals⟩
  rw [← h.task v]
  by_cases hv : v = e
  · subst hv
    simp [St.cancelEvent, Option.map_map, Function.comp_def]
  · simp [St.cancelEvent, update_of_ne hv]

omit [Fintype ι] [DecidableEq ι] in
theorem isBlocked_iff_task {v : ℕ} :
    s.isBlocked v = true ↔ ∃ j, (s.event v).map Event.task = some j ∧ s.blocked j = some v := by
  rw [isBlocked_iff]
  constructor
  · rintro ⟨E, hE, hb⟩
    exact ⟨E.task, by rw [hE]; rfl, hb⟩
  · rintro ⟨j, hj, hb⟩
    obtain ⟨E, hE, rfl⟩ := Option.map_eq_some_iff.1 hj
    exact ⟨E, hE, hb⟩

omit [Fintype ι] in
/-- The task of `e` was blocked by `e` alone. -/
theorem Signaled.isBlocked (h : Signaled s e s') (hb : s.isBlocked e = true) (v : ℕ) :
    s'.isBlocked v = true ↔ v ≠ e ∧ s.isBlocked v = true := by
  obtain ⟨E, hE, hblk⟩ := isBlocked_iff.1 hb
  rw [isBlocked_iff_task, isBlocked_iff_task, h.task v, h.blocked E hE]
  constructor
  · rintro ⟨j, hj, hv⟩
    by_cases hjE : j = E.task
    · rw [hjE, update_self] at hv
      cases hv
    · rw [update_of_ne hjE] at hv
      refine ⟨?_, j, hj, hv⟩
      rintro rfl
      rw [hE] at hj
      exact hjE (Option.some.inj hj).symm
  · rintro ⟨hve, j, hj, hv⟩
    have hjE : j ≠ E.task := by
      rintro rfl
      rw [hblk] at hv
      exact hve (Option.some.inj hv).symm
    exact ⟨j, hj, by rw [update_of_ne hjE]; exact hv⟩

/-- One wait more is released. -/
theorem Signaled.released (h : Signaled s e s') (hs : Events s) (hb : s.isBlocked e = true) :
    s'.released = s.released + 1 := by
  have hmem : e ∈ s.waits := by
    obtain ⟨E, hE, -⟩ := isBlocked_iff.1 hb
    exact hs.started e (by rw [hE]; rfl)
  rw [St.released, St.released, h.waits]
  refine countP_flip hs.nodup hmem (by rw [hb]; rfl) ?_ fun v hv => ?_
  · rw [Bool.not_eq_true', Bool.eq_false_iff, ne_eq, h.isBlocked hb]
    exact fun hne => hne.1 rfl
  · rw [Bool.eq_iff_iff.2 ((h.isBlocked hb v).trans (and_iff_right hv))]

/-- The task goes on to `p` after it has signaled `e`. -/
theorem Events.signal (h : Events s) {self : Option ℕ} {p : Pc} (hpc : s.pc i = .signal e self)
    (hS : Signaled s e s') (hp : p = .after self ∨ self = some e ∧ p = .idle) :
    Events { s' with pc := update s'.pc i p } := by
  have hbe : s.isBlocked e = true := h.held i e (by rw [hpc]; exact List.mem_singleton_self e)
  have hph : p.holds = [] := by
    rcases hp with rfl | ⟨-, rfl⟩
    · cases self <;> rfl
    · rfl
  -- nobody else has `e`
  have hgone : ∀ v, tally Pc.holds (update s.pc i p) v + ([e] : List ℕ).count v = tally Pc.holds s.pc v := by
    intro v
    have ht := tally_update Pc.holds s.pc i p v
    rw [hpc, hph] at ht
    simpa only [Pc.holds, List.count_nil, Nat.add_zero] using ht
  have hfree : tally Pc.holds (update s.pc i p) e = 0 ∧ s.waitq.count e = 0 := by
    have h1 := h.once e
    have h2 := hgone e
    rw [List.count_singleton_self] at h2
    omega
  have hkeep : ∀ v, v ≠ e → s.isBlocked v = true → s'.isBlocked v = true := fun v hv hb =>
    (hS.isBlocked hbe v).2 ⟨hv, hb⟩
  have hwait : ∀ w, p.wait = some w → (s.pc i).wait = some w := by
    intro w hw
    rw [hpc]
    rcases hp with rfl | ⟨-, rfl⟩
    · cases self with
      | none => cases hw
      | some v => exact hw
    · cases hw
  obtain ⟨E, hE, hblk⟩ := isBlocked_iff.1 hbe
  have htask : ∀ j w, (∃ F, s.event w = some F ∧ F.task = j) → ∃ F, s'.event w = some F ∧ F.task = j := by
    rintro j w ⟨F, hF, rfl⟩
    have := hS.task w
    rw [hF] at this
    exact Option.map_eq_some_iff.1 this
  rw [hS.pc]
  exact
    { nodup := by simpa only [hS.waits] using h.nodup
      started := fun w hw => by
        have := congrArg Option.isSome (hS.task w)
        simp only [Option.isSome_map] at this
        rw [show s'.waits = s.waits from hS.waits]
        exact h.started w (this ▸ hw)
      own := fun j w hj => htask j w (h.own_move hwait j w hj)
      blocked := fun j w hj => by
        have hj' : update s.blocked E.task none j = some w := by rw [← hS.blocked E hE]; exact hj
        have hjE : j ≠ E.task := by
          rintro rfl
          rw [update_self] at hj'
          cases hj'
        rw [update_of_ne hjE] at hj'
        have hw := h.blocked j w hj'
        by_cases hji : j = i
        · subst hji
          simp only [update_self]
          rw [hpc] at hw
          rcases hp with rfl | ⟨hself, rfl⟩
          · rw [show self = some w from hw]; rfl
          · -- the task was blocked by the event that it has signaled
            obtain ⟨F, hF, hFj⟩ := h.own j e (by rw [hpc]; exact hself)
            rw [hE] at hF
            exact absurd (Option.some.inj hF ▸ hFj).symm hjE
        · simp only [update_of_ne hji]
          exact hw
      queue := fun v hv => by
        rw [show s'.waitq = s.waitq from hS.waitq] at hv
        refine hkeep v ?_ (h.queue v hv)
        rintro rfl
        exact List.count_eq_zero.1 hfree.2 hv
      held := fun j v hv => by
        have hve : v ≠ e := by
          rintro rfl
          exact not_mem_of_tally_eq_zero hfree.1 j hv
        refine hkeep v hve ?_
        by_cases hji : j = i
        · subst hji
          simp only [update_self, hph] at hv
          cases hv
        · simp only [update_of_ne hji] at hv
          exact h.held j v hv
      once := fun v => by
        have h1 := h.once v
        have h2 := hgone v
        rw [show s'.waitq = s.waitq from hS.waitq]
        simp only
        omega }

/-! ## Rights -/

omit [DecidableEq ι] in
/-- A step that releases nobody. -/
theorem Rights.move {pc : ι → Pc} {waitq : List ℕ} {count : ℤ} {signals : ℕ}
    (h1 : s.waits.length = headcount (fun p => p.pushing = true) pc + waitq.length +
      headcount (fun p => p.signaling = true) pc + s.released)
    (h2 : headcount (fun p => p.early = true) pc ≤ s.waits.length)
    (h3 : (s.released : ℤ) + headcount (fun p => p.signaling = true) pc +
      headcount (fun p => p.popping = true) pc =
      min ((s.waits.length : ℤ) - headcount (fun p => p.early = true) pc) (s.initial + signals))
    (h4 : count = s.initial + signals - (s.waits.length - headcount (fun p => p.early = true) pc)) :
    Rights { s with count, waitq, pc, signals } := ⟨h1, h2, h3, h4⟩

theorem Rights.wait (h : Rights s) (hev : Events s) (hs : s.step (.wait i w) = some s') : Rights s' := by
  have hrel := (hev.wait hs).2
  simp only [St.step] at hs
  split at hs
  case isFalse => cases hs
  case isTrue hg =>
    obtain ⟨m1, m2, m3, m4⟩ := at_moves hg.1 marks_idle (marks_push w)
    obtain ⟨p1, p2, p3, p4⟩ := h
    obtain rfl := (Option.some.inj hs).symm
    constructor <;> simp only [hrel] <;> simp only [St.at, List.length_cons] at * <;> omega

theorem Rights.call (h : Rights s) (hpc : s.pc i = .idle) : Rights (s.goto i .add) := by
  obtain ⟨m1, m2, m3, m4⟩ := at_moves hpc marks_idle marks_add
  obtain ⟨p1, p2, p3, p4⟩ := h
  apply Rights.move <;> simp only [St.at] at * <;> omega

theorem Rights.push (h : Rights s) (hpc : s.pc i = .push w) :
    Rights { s with waitq := s.waitq ++ [w], pc := update s.pc i (.sub w) } := by
  obtain ⟨m1, m2, m3, m4⟩ := at_moves hpc (marks_push w) (marks_sub w)
  obtain ⟨p1, p2, p3, p4⟩ := h
  apply Rights.move <;> simp only [St.at, List.length_append, List.length_singleton] at * <;> omega

/-- A decrement gives a right if the counter was positive. -/
theorem Rights.sub (h : Rights s) (hpc : s.pc i = .sub w) (hr : -2 ^ 63 < s.count) (hc : s.count < 2 ^ 63) :
    Rights { s with
      count := Sem.wrap (s.count - 1)
      pc := update s.pc i (if 0 < s.count then .pop (some w) else .schedule w) } := by
  have hw : Sem.wrap (s.count - 1) = s.count - 1 := Sem.wrap_eq (by omega) (by omega)
  obtain ⟨p1, p2, p3, p4⟩ := h
  rw [hw]
  by_cases hpos : 0 < s.count
  · obtain ⟨m1, m2, m3, m4⟩ := at_moves hpc (marks_sub w) (marks_pop (some w))
    rw [if_pos hpos]
    apply Rights.move <;> simp only [St.at] at * <;> omega
  · obtain ⟨m1, m2, m3, m4⟩ := at_moves hpc (marks_sub w) (marks_schedule w)
    rw [if_neg hpos]
    apply Rights.move <;> simp only [St.at] at * <;> omega

/-- An increment gives a right if the counter was negative. -/
theorem Rights.add (h : Rights s) (hpc : s.pc i = .add) (hr : s.count < 2 ^ 63 - 1) (hc : -2 ^ 63 ≤ s.count) :
    Rights { s with
      count := Sem.wrap (s.count + 1), signals := s.signals + 1
      pc := update s.pc i (if s.count < 0 then .pop none else .idle) } := by
  have hw : Sem.wrap (s.count + 1) = s.count + 1 := Sem.wrap_eq (by omega) (by omega)
  obtain ⟨p1, p2, p3, p4⟩ := h
  rw [hw]
  by_cases hneg : s.count < 0
  · obtain ⟨m1, m2, m3, m4⟩ := at_moves hpc marks_add (marks_pop none)
    rw [if_pos hneg]
    apply Rights.move <;> simp only [St.at] at * <;> omega
  · obtain ⟨m1, m2, m3, m4⟩ := at_moves hpc marks_add marks_idle
    rw [if_neg hneg]
    apply Rights.move <;> simp only [St.at] at * <;> omega

theorem Rights.pop (h : Rights s) {self : Option ℕ} {q : List ℕ} (hpc : s.pc i = .pop self)
    (hq : s.waitq = e :: q) :
    Rights { s with waitq := q, pc := update s.pc i (.signal e self) } := by
  obtain ⟨m1, m2, m3, m4⟩ := at_moves hpc (marks_pop self) (marks_signal e self)
  obtain ⟨p1, p2, p3, p4⟩ := h
  rw [hq] at p1
  apply Rights.move <;> simp only [St.at, List.length_cons] at * <;> omega

theorem Rights.signal (h : Rights s) (hev : Events s) {self : Option ℕ} {p : Pc} (hpc : s.pc i = .signal e self)
    (hS : Signaled s e s') (hp : p = .after self ∨ self = some e ∧ p = .idle) :
    Rights { s' with pc := update s'.pc i p } := by
  have hbe : s.isBlocked e = true := hev.held i e (by rw [hpc]; exact List.mem_singleton_self e)
  have hrel := hS.released hev hbe
  have hplace : p.marks = (0, 0, 0, 0) := by
    rcases hp with rfl | ⟨-, rfl⟩
    · cases self <;> rfl
    · rfl
  obtain ⟨m1, m2, m3, m4⟩ := at_moves hpc (marks_signal e self) hplace
  obtain ⟨p1, p2, p3, p4⟩ := h
  rw [hS.pc]
  have hrel' : St.released { s' with pc := update s.pc i p } = s.released + 1 := hrel
  constructor <;> simp only [hrel'] <;>
    simp only [St.at, hS.waits, hS.waitq, hS.initial, hS.signals, hS.count] at * <;> omega

theorem Rights.wake (h : Rights s) (hpc : s.pc i = .schedule w) : Rights (s.goto i .idle) := by
  obtain ⟨m1, m2, m3, m4⟩ := at_moves hpc (marks_schedule w) marks_idle
  obtain ⟨p1, p2, p3, p4⟩ := h
  apply Rights.move <;> simp only [St.at] at * <;> omega

/-! ## The invariant -/

structure Inv (s : St ι) : Prop where
  events : Events s
  rights : Rights s
  range : -2 ^ 63 ≤ s.count ∧ s.count < 2 ^ 63

omit [DecidableEq ι] in
/-- **A pop finds an event that blocks its task.** -/
theorem Inv.pop_finds (h : Inv s) {self : Option ℕ} (hpc : s.pc i = .pop self) :
    ∃ e q, s.waitq = e :: q ∧ s.isBlocked e = true := by
  have hpos : 0 < s.at Pc.popping := by
    have hle : (if (s.pc i).popping = true then 1 else 0) ≤ s.at Pc.popping :=
      Finset.single_le_sum (f := fun j => if (s.pc j).popping = true then 1 else 0) (fun _ _ => Nat.zero_le _)
        (Finset.mem_univ i)
    rw [hpc] at hle
    exact hle
  cases hq : s.waitq with
  | nil =>
    have := h.rights.popping_le
    rw [hq] at this
    simp at this
    omega
  | cons e q => exact ⟨e, q, rfl, h.events.queue e (by rw [hq]; exact List.mem_cons_self)⟩

theorem Inv.stepTask (h : Inv s) (hok : s.InRange (.step i)) (hs : s.stepTask i = some s') : Inv s' := by
  obtain ⟨hlo, hhi⟩ := h.range
  obtain ⟨hok1, hok2⟩ := hok
  have hkeep : ∀ {p : Pc}, s.pc i = p → ∀ w, s.blocked i = some w → p.wait = some w := fun hpc w hw => by
    rw [← hpc]
    exact h.events.blocked i w hw
  unfold St.stepTask at hs
  split at hs
  case h_1 w hpc =>
    rw [← Option.some.inj hs]
    exact ⟨h.events.push hpc, h.rights.push hpc, h.range⟩
  case h_2 w hpc =>
    have hr : -2 ^ 63 < s.count := by
      rw [hpc] at hok1
      exact hok1.resolve_left (by simp [Pc.decrements])
    have hw : Sem.wrap (s.count - 1) = s.count - 1 := Sem.wrap_eq (by omega) (by omega)
    have hwait : (if 0 < s.count then Pc.pop (some w) else .schedule w).wait = some w := by split <;> rfl
    rw [← Option.some.inj hs]
    refine ⟨h.events.move (fun v hv => ?_) (fun v hv => ?_) (by split <;> rfl) (by rw [hpc]; rfl),
      h.rights.sub hpc hr hhi, ?_⟩
    · rw [hpc, ← hv, hwait]; rfl
    · rw [hwait]; exact hkeep hpc v hv
    · simp only [hw]; omega
  case h_3 self hpc =>
    obtain ⟨e, q, hq, -⟩ := h.pop_finds hpc
    rw [hq] at hs
    rw [← Option.some.inj hs]
    exact ⟨h.events.pop hpc hq, h.rights.pop hpc hq, h.range⟩
  case h_4 e self hpc =>
    have hb : s.isBlocked e = true := h.events.held i e (by rw [hpc]; exact List.mem_singleton_self e)
    have hS := signalEvent_spec hb
    have hfin : ∀ {t : St ι} {p : Pc}, Signaled s e t → (p = .after self ∨ self = some e ∧ p = .idle) →
        Inv (t.goto i p) := by
      intro t p ht hp
      have hc : (t.goto i p).count = s.count := ht.count
      exact ⟨h.events.signal hpc ht hp, h.rights.signal h.events hpc ht hp, by rw [hc]; exact h.range⟩
    simp only [hb, if_true] at hs
    split at hs
    case isTrue hself =>
      split at hs
      · rw [← Option.some.inj hs]; exact hfin hS (.inr ⟨hself, rfl⟩)
      · rw [← Option.some.inj hs]; exact hfin hS.cancel (.inr ⟨hself, rfl⟩)
    case isFalse =>
      rw [← Option.some.inj hs]; exact hfin hS (.inl rfl)
  case h_5 w hpc =>
    split at hs
    case isTrue => cases hs
    case isFalse hne =>
      rw [← Option.some.inj hs]
      refine ⟨h.events.move (fun v hv => by cases hv) (fun v hv => ?_) rfl (by rw [hpc]; rfl), h.rights.wake hpc,
        h.range⟩
      have : some w = some v := hkeep hpc v hv
      exact absurd (this ▸ hv) hne
  case h_6 hpc =>
    have hr : s.count < 2 ^ 63 - 1 := hok2.resolve_left (fun hn => hn hpc)
    have hw : Sem.wrap (s.count + 1) = s.count + 1 := Sem.wrap_eq (by omega) (by omega)
    have hwait : (if s.count < 0 then Pc.pop none else .idle).wait = none := by split <;> rfl
    rw [← Option.some.inj hs]
    refine ⟨h.events.move (fun v hv => ?_) (fun v hv => ?_) (by split <;> rfl) (by rw [hpc]; rfl),
      h.rights.add hpc hr hlo, ?_⟩
    · rw [hwait] at hv; cases hv
    · have := hkeep hpc v hv
      cases this
    · simp only [hw]; omega
  case h_7 => cases hs

theorem Inv.step (h : Inv s) {a : Act ι} (hok : s.InRange a) (hs : s.step a = some s') : Inv s' := by
  cases a with
  | wait i w =>
    have hev := (h.events.wait hs).1
    have hr := h.rights.wait h.events hs
    refine ⟨hev, hr, ?_⟩
    obtain ⟨-, rfl⟩ := Option.ite_none_right_eq_some.1 hs |>.imp_right Option.some.inj
    exact h.range
  | signal i =>
    obtain ⟨hpc, rfl⟩ := Option.ite_none_right_eq_some.1 hs |>.imp_right Option.some.inj
    refine ⟨h.events.move (fun v hv => by cases hv) (fun v hv => ?_) rfl (by rw [hpc]; rfl),
      h.rights.call hpc, h.range⟩
    have := h.events.blocked i v hv
    rw [hpc] at this
    cases this
  | step i => exact h.stepTask hok hs

/-! ## The result -/

omit [DecidableEq ι] in
theorem at_eq_zero (h : s.Quiet) (P : Pc → Bool) (hi : P .idle = false) (hw : ∀ w, P (.schedule w) = false) :
    s.at P = 0 := by
  refine Finset.sum_eq_zero fun j _ => ?_
  rcases h j with hj | ⟨w, hj⟩
  · rw [hj]; simp [hi]
  · rw [hj]; simp [hw]

/-- **Wake-ups.** In every run in which the counter stays within 64 bits, every pop of `prs_sem_signal_once`
finds an event that has not been signaled. When no call is between its steps, the waits that were released are
as many as there are waits, or the initial count and the signals together, whichever is less, and the task of
every other wait is blocked in the scheduler. -/
theorem wakes_the_least (h : (sys ι).Reach St.InRange s) :
    (∀ i self, s.pc i = .pop self → ∃ e q, s.waitq = e :: q ∧ s.isBlocked e = true) ∧
    (∀ i e self, s.pc i = .signal e self → s.isBlocked e = true) ∧
    (s.Quiet → (s.released : ℤ) = min (s.waits.length : ℤ) (s.initial + s.signals) ∧
      ∀ w, s.isBlocked w = true → ∃ i, s.pc i = .schedule w ∧ s.blocked i = some w) := by
  have hi : Inv s := by
    refine System.Reach.inv (I := Inv) ?_ (fun _ _ _ h hok hs => h.step hok hs) h
    rintro t ⟨c, h0, h1, rfl⟩
    exact ⟨events_init, rights_init h0, by simp only [St.init]; omega⟩
  refine ⟨fun i self hpc => hi.pop_finds hpc, fun i e self hpc => ?_, fun hq => ⟨?_, fun w hw => ?_⟩⟩
  · exact hi.events.held i e (by rw [hpc]; exact List.mem_singleton_self e)
  · have hr := hi.rights.rights
    rw [at_eq_zero hq _ rfl fun _ => rfl, at_eq_zero hq _ rfl fun _ => rfl, at_eq_zero hq _ rfl fun _ =>
      rfl] at hr
    omega
  · obtain ⟨E, hE, hb⟩ := isBlocked_iff.1 hw
    have hwt := hi.events.blocked _ _ hb
    rcases hq E.task with hj | ⟨v, hj⟩
    · rw [hj] at hwt; cases hwt
    · rw [hj] at hwt
      rw [Option.some.inj hwt] at hj
      exact ⟨E.task, hj, hb⟩

/-- A wait queues behind another and releases it, as the counter is positive; the other one releases the first. -/
theorem wakes_the_least_crossed : ∃ s, (sys (Fin 2)).Reach St.InRange s ∧ s.released = 2 ∧
    s.pc 0 = .schedule 0 ∧ s.pc 1 = .idle := by
  obtain ⟨s, hs, h0, h1, hw, hi, hg⟩ := System.exists_of_check (sys (Fin 2)) St.InRange
    (fun s => s.pc 0 = .schedule 0 ∧ s.pc 1 = .idle ∧ s.waits = [1, 0] ∧ s.initial = 2 ∧ s.signals = 0)
    (.init 2) ⟨2, by decide, by decide, rfl⟩
    [.wait 0 0, .wait 1 1, .step 0, .step 1, .step 1, .step 0, .step 1, .step 0, .step 1, .step 0, .step 1]
    (by decide +kernel)
  obtain ⟨-, -, hq⟩ := wakes_the_least hs
  refine ⟨s, hs, ?_, h0, h1⟩
  have hquiet : s.Quiet := Fin.forall_fin_two.2 ⟨.inr ⟨0, h0⟩, .inl h1⟩
  have := (hq hquiet).1
  rw [hw, hi, hg] at this
  simp at this
  omega

/-- **A signal overflows the counter**, and a wait blocks on a semaphore with credit. -/
theorem signal_overflows : ∃ s, (sys (Fin 1)).Reachable s ∧ s.Quiet ∧
    (s.released : ℤ) ≠ min (s.waits.length : ℤ) (s.initial + s.signals) := by
  obtain ⟨s, hs, h0, hne⟩ := System.exists_of_check (sys (Fin 1)) (fun _ _ => True)
    (fun s => s.pc 0 = .schedule 0 ∧ (s.released : ℤ) ≠ min (s.waits.length : ℤ) (s.initial + s.signals))
    (.init (2 ^ 63 - 1)) ⟨2 ^ 63 - 1, by decide, by decide, rfl⟩
    [.signal 0, .step 0, .wait 0 0, .step 0, .step 0] (by decide +kernel)
  refine ⟨s, hs, ?_, hne⟩
  intro i
  rw [Subsingleton.elim i 0]
  exact .inr ⟨0, h0⟩

end Prs.SemCalls
