import Prs.Lib.Threads
import Prs.Proof.MsgqSearch

/-!
# No lost wake-up

The receiver publishes its filter and then searches the queue once more. A message that this search does not
see is pushed after it, by a sender that loads `filter_id` later still: so the sender finds the filter, and as
long as the event is in the filter it goes on to take it. Whoever has taken the event unblocks the task.

* `Refs`: the reference count of a filter is what the receiver and the senders hold. With fewer than 4094
  sends in progress no lock is refused.
* `Wake`: while the receiver is blocked and the event is in its filter, a sender is on its way for each
  message that matches; when the event was taken, a sender is on its way to unblock the task.
* `no_lost_wakeup`: so when all sends have returned, no message that matches is in the queue.
-/

namespace Prs.Msgq

open Function

variable {ι ν μ : Type} {s s' : St ι ν μ} {i : ι}

/-! ## The references of the filters -/

/-- The filter that a sender has locked. -/
def Pc.held : Pc ν → List ℕ
  | .idle => []
  | .push _ => []
  | .load _ => []
  | .lock _ _ => []
  | .event _ id => [id]
  | .evaluate _ id => [id]
  | .take _ id => [id]
  | .drop id _ => [id]
  | .unblock id _ => [id]
  | .ready id => [id]
  | .unlock id => [id]

/-- The receiver has a reference to its filter. -/
def Own.holds : Own → Bool
  | .idle => false
  | .search => false
  | .create => false
  | .remove => false
  | .removing => false
  | _ => true

/-- The references that the receiver has to a filter. -/
def St.ownRef (s : St ι ν μ) (id : ℕ) : ℕ := if s.own.holds = true ∧ s.loc.filter = id then 1 else 0

/-- **The references of the filters.** -/
structure Refs [Fintype ι] (s : St ι ν μ) : Prop where
  refcnt : ∀ id, s.pd.refcnt id = s.ownRef id + tally Pc.held s.pc id
  unused : ∀ id, s.pd.used id = false → s.pd.refcnt id = 0

theorem refs_init [Fintype ι] [DecidableEq ι] [DecidableEq ν] (data : ν → μ) : Refs (.init data : St ι ν μ) where
  refcnt := fun id => by
    rw [tally_eq_zero fun i => List.not_mem_nil]
    rfl
  unused := fun id _ => rfl

/-- A step that takes and drops no reference. -/
theorem Refs.keep [Fintype ι] (h : Refs s) (hpd : s'.pd = s.pd) (hown : ∀ id, s'.ownRef id = s.ownRef id)
    (hpc : ∀ j, (s'.pc j).held = (s.pc j).held) : Refs s' := by
  refine ⟨fun id => ?_, hpd ▸ h.unused⟩
  have ht : tally Pc.held s'.pc id = tally Pc.held s.pc id := Finset.sum_congr rfl fun j _ => by rw [hpc j]
  rw [hpd, hown, ht]
  exact h.refcnt id

/-- A sender moves on with what it holds. -/
theorem held_congr [DecidableEq ι] {pc : ι → Pc ν} {p : Pc ν} (hp : p.held = (pc i).held) (j : ι) :
    (update pc i p j).held = (pc j).held := by
  by_cases hj : j = i
  · rw [hj, update_self, hp]
  · rw [update_of_ne hj]

/-- A sender has locked a filter. -/
theorem Refs.lock [Fintype ι] [DecidableEq ι] (h : Refs s) {id : ℕ} {pd : Pd} {p : Pc ν}
    (hl : s.pd.lock id = some pd) (hi : (s.pc i).held = []) (hp : p.held = [id]) :
    Refs { s with pd := pd, pc := update s.pc i p } := by
  obtain ⟨hne, rfl⟩ := Option.ite_none_left_eq_some.1 hl |>.imp_right Option.some.inj
  refine ⟨fun k => ?_, fun k hk => ?_⟩
  · have ht := tally_update Pc.held s.pc i p k
    have hr := h.refcnt k
    rw [hi, hp] at ht
    change update s.pd.refcnt id (s.pd.refcnt id + 1) k = s.ownRef k + tally Pc.held (update s.pc i p) k
    by_cases hk : k = id
    · subst hk
      rw [update_self]
      simp only [List.count_nil, List.count_singleton_self] at ht
      omega
    · rw [update_of_ne hk]
      simp only [List.count_nil, List.count_singleton, beq_iff_eq, if_neg (Ne.symm hk)] at ht
      omega
  · have hz := h.unused k hk
    change update s.pd.refcnt id (s.pd.refcnt id + 1) k = 0
    rw [update_of_ne]
    · exact hz
    · rintro rfl
      exact hne (.inl hz)

/-- A sender has dropped its reference. -/
theorem Refs.unlock [Fintype ι] [DecidableEq ι] (h : Refs s) {id : ℕ} {p : Pc ν} (hi : (s.pc i).held = [id])
    (hp : p.held = []) :
    Refs { s with pd := (s.pd.unlock id).1, pc := update s.pc i p } := by
  refine ⟨fun k => ?_, fun k hk => ?_⟩
  · have ht := tally_update Pc.held s.pc i p k
    have hr := h.refcnt k
    rw [hi, hp] at ht
    change update s.pd.refcnt id (s.pd.refcnt id - 1) k = s.ownRef k + tally Pc.held (update s.pc i p) k
    by_cases hk : k = id
    · subst hk
      rw [update_self]
      simp only [List.count_nil, List.count_singleton_self] at ht
      omega
    · rw [update_of_ne hk]
      simp only [List.count_nil, List.count_singleton, beq_iff_eq, if_neg (Ne.symm hk)] at ht
      omega
  · have hz := h.unused k hk
    change update s.pd.refcnt id (s.pd.refcnt id - 1) k = 0
    by_cases hk : k = id
    · rw [hk, update_self, ← hk, hz]
    · rw [update_of_ne hk, hz]

theorem Refs.send [Fintype ι] [DecidableEq ι] [Fintype ν] [DecidableEq ν] (h : Refs s) {c : Bool}
    (hs : s.stepSend i c = some s') : Refs s' := by
  cases hp : s.pc i <;> simp only [St.stepSend, hp] at hs
  case idle => cases hs
  case push n =>
    unfold St.stepPush at hs
    split at hs
    · obtain ⟨q, -, rfl⟩ := Option.map_eq_some_iff.1 hs
      exact h.keep rfl (fun _ => rfl) fun _ => rfl
    · obtain ⟨q, -, rfl⟩ := Option.map_eq_some_iff.1 hs
      split
      · exact h.keep rfl (fun _ => rfl) (held_congr (by rw [hp]; rfl))
      · exact h.keep rfl (fun _ => rfl) fun _ => rfl
  case lock n id =>
    split at hs
    · rw [← Option.some.inj hs]
      exact h.keep rfl (fun _ => rfl) (held_congr (by rw [hp]; rfl))
    · rename_i pd hl
      rw [← Option.some.inj hs]
      exact h.lock hl (by rw [hp]; rfl) rfl
  case unlock id =>
    rw [← Option.some.inj hs]
    exact h.unlock (by rw [hp]; rfl) rfl
  all_goals
    repeat' split at hs
    all_goals
      rw [← Option.some.inj hs]
      exact h.keep rfl (fun _ => rfl) (held_congr (congrArg Pc.held hp).symm)

theorem loop_kept : s.loop.own.holds = false ∧ s.loop.pd = s.pd ∧ s.loop.pc = s.pc := by
  unfold St.loop
  repeat' split
  all_goals exact ⟨rfl, rfl, rfl⟩

theorem ownRef_eq_zero (h : s.own.holds = false) (id : ℕ) : s.ownRef id = 0 := by
  rw [St.ownRef, h, if_neg fun hd => by cases hd.1]

/-- The receiver holds nothing, before and after. -/
theorem Refs.free [Fintype ι] (h : Refs s) (hpd : s'.pd = s.pd) (hpc : s'.pc = s.pc) (ho : s.own.holds = false)
    (ho' : s'.own.holds = false) : Refs s' :=
  h.keep hpd (fun id => by rw [ownRef_eq_zero ho, ownRef_eq_zero ho']) fun j => by rw [hpc]

/-- The receiver holds its filter, before and after. -/
theorem Refs.hold [Fintype ι] (h : Refs s) (hpd : s'.pd = s.pd) (hpc : s'.pc = s.pc) (ho : s.own.holds = true)
    (ho' : s'.own.holds = true) (hf : s'.loc.filter = s.loc.filter) : Refs s' :=
  h.keep hpd (fun id => by rw [St.ownRef, St.ownRef, ho, ho', hf]) fun j => by rw [hpc]

/-- The receiver has dropped its reference. -/
theorem Refs.release [Fintype ι] (h : Refs s) (ho : s.own.holds = true)
    (hpd : s'.pd = (s.pd.unlock s.loc.filter).1) (hpc : s'.pc = s.pc) (ho' : s'.own.holds = false) : Refs s' := by
  refine ⟨fun k => ?_, fun k hk => ?_⟩
  · have hr := h.refcnt k
    rw [ownRef_eq_zero ho', hpc, hpd]
    change update s.pd.refcnt s.loc.filter (s.pd.refcnt s.loc.filter - 1) k = 0 + tally Pc.held s.pc k
    by_cases hk : k = s.loc.filter
    · rw [hk, update_self, ← hk, hr, St.ownRef, if_pos ⟨ho, hk.symm⟩]
      omega
    · rw [update_of_ne hk, hr, St.ownRef, if_neg fun hd => hk hd.2.symm]
  · rw [hpd] at hk ⊢
    have hz := h.unused k hk
    change update s.pd.refcnt s.loc.filter (s.pd.refcnt s.loc.filter - 1) k = 0
    by_cases hk : k = s.loc.filter
    · rw [hk, update_self, ← hk, hz]
    · rw [update_of_ne hk, hz]

theorem Refs.own [Fintype ι] [DecidableEq ι] [Fintype ν] [DecidableEq ν] (h : Refs s)
    (hs : s.stepOwn = some s') : Refs s' := by
  cases ho : s.own <;> simp only [St.stepOwn, ho] at hs
  case search =>
    obtain ⟨r, -, rfl⟩ := Option.map_eq_some_iff.1 hs
    obtain ⟨h1, h2, h3⟩ := loop_kept (s := s.found r)
    exact h.free h2 h3 (by rw [ho]; rfl) h1
  case again =>
    obtain ⟨r, -, rfl⟩ := Option.map_eq_some_iff.1 hs
    exact h.hold rfl rfl (by rw [ho]; rfl) (by simp only; split <;> rfl) rfl
  case cause =>
    split at hs
    · obtain ⟨r, -, rfl⟩ := Option.map_eq_some_iff.1 hs
      exact h.hold rfl rfl (by rw [ho]; rfl) rfl rfl
    · rw [← Option.some.inj hs]
      exact h.hold rfl rfl (by rw [ho]; rfl) rfl rfl
  case unblock early =>
    split at hs
    · rw [← Option.some.inj hs]
      exact h.hold rfl rfl (by rw [ho]; rfl) rfl rfl
    · rw [← Option.some.inj hs]
      exact h.hold rfl rfl (by rw [ho]; rfl) (by simp only; split <;> rfl) rfl
  case unlock =>
    rw [← Option.some.inj hs]
    split
    · exact h.release (by rw [ho]; rfl) rfl rfl rfl
    · obtain ⟨h1, h2, h3⟩ := loop_kept (s := { s with pd := (s.pd.unlock s.loc.filter).1 })
      exact h.release (by rw [ho]; rfl) h2 h3 h1
  case remove =>
    obtain ⟨n, -, hs⟩ := Option.bind_eq_some_iff.1 hs
    obtain ⟨q, -, rfl⟩ := Option.map_eq_some_iff.1 hs
    split
    · exact h.free rfl rfl (by rw [ho]; rfl) rfl
    · exact h.free rfl rfl (by rw [ho]; rfl) rfl
  case removing =>
    obtain ⟨n, -, hs⟩ := Option.bind_eq_some_iff.1 hs
    obtain ⟨q, -, rfl⟩ := Option.map_eq_some_iff.1 hs
    exact h.free rfl rfl (by rw [ho]; rfl) rfl
  all_goals
    repeat' split at hs
    all_goals
      first
      | rw [← Option.some.inj hs]
        exact h.hold rfl rfl (by rw [ho]; rfl) rfl rfl
      | cases hs

theorem Refs.create [Fintype ι] (h : Refs s) {id : ℕ} {pd : Pd} (ha : s.pd.alloc id = some pd)
    (ho : s.own.holds = false) (hpd : s'.pd = pd) (hpc : s'.pc = s.pc) (ho' : s'.own.holds = true)
    (hf : s'.loc.filter = id) : Refs s' := by
  obtain ⟨hu, rfl⟩ := Option.ite_none_left_eq_some.1 ha |>.imp_right Option.some.inj
  rw [Bool.not_eq_true] at hu
  refine ⟨fun k => ?_, fun k hk => ?_⟩
  · have hr := h.refcnt k
    rw [hpd, hpc, St.ownRef, ho', hf]
    rw [ownRef_eq_zero ho] at hr
    change update s.pd.refcnt id 1 k = _
    by_cases hk : k = id
    · have hz := h.unused id hu
      rw [hk] at hr ⊢
      rw [update_self, if_pos ⟨rfl, rfl⟩]
      omega
    · rw [update_of_ne hk, if_neg fun hd => hk hd.2.symm]
      exact hr
  · rw [hpd] at hk ⊢
    change update s.pd.used id true k = false at hk
    change update s.pd.refcnt id 1 k = 0
    by_cases hki : k = id
    · rw [hki, update_self] at hk
      cases hk
    · rw [update_of_ne hki] at hk ⊢
      exact h.unused k hk

theorem Refs.step [Fintype ι] [DecidableEq ι] [Fintype ν] [DecidableEq ν] (h : Refs s) {a : Act ι ν μ}
    (hs : s.step a = some s') : Refs s' := by
  cases a <;> simp only [St.step] at hs
  case step i c => exact h.send hs
  case own => exact h.own hs
  case send i n =>
    obtain ⟨hi, hs⟩ := Option.ite_none_right_eq_some.1 hs
    obtain ⟨q, -, rfl⟩ := Option.map_eq_some_iff.1 hs
    exact h.keep rfl (fun _ => rfl) (held_congr (by rw [hi]; rfl))
  case recv f u t =>
    obtain ⟨ho, rfl⟩ := Option.ite_none_right_eq_some.1 hs |>.imp_right Option.some.inj
    exact h.free rfl rfl (by rw [ho]; rfl) rfl
  case create id =>
    obtain ⟨⟨ho, -⟩, hs⟩ := Option.ite_none_right_eq_some.1 hs
    obtain ⟨pd, ha, rfl⟩ := Option.map_eq_some_iff.1 hs
    exact h.create ha (by rw [ho]; rfl) rfl rfl rfl rfl
  case woken d =>
    obtain ⟨ho, hs⟩ := Option.ite_none_right_eq_some.1 hs
    split at hs
    · rw [← Option.some.inj hs]
      exact h.hold rfl rfl (by rw [ho]; rfl) rfl rfl
    · rw [← Option.some.inj hs]
      exact h.hold rfl rfl (by rw [ho]; rfl) rfl rfl
  case timer e =>
    unfold St.stepTimer at hs
    repeat' split at hs
    all_goals
      first
      | rw [← Option.some.inj hs]
        exact h.keep rfl (fun _ => rfl) fun _ => rfl
      | cases hs
  all_goals
    repeat' split at hs
    all_goals
      first
      | rw [← Option.some.inj hs]
        exact h.keep rfl (fun _ => rfl) fun _ => rfl
      | cases hs

/-! ## Who will wake the receiver -/

/-- The sender of message `n` is on its way to the event in filter `id`. -/
def Pc.Serves (p : Pc ν) (n : ν) (id : ℕ) : Prop :=
  match p with
  | .load m => m = n
  | .lock m k => m = n ∧ k = id
  | .event m k => m = n ∧ k = id
  | .evaluate m k => m = n ∧ k = id
  | .take m k => m = n ∧ k = id
  | _ => False

/-- The sender has taken event `e` and is on its way to unblock the task. -/
def Pc.Signals (p : Pc ν) (e : ℕ) : Prop :=
  match p with
  | .drop _ k => k = e
  | .unblock _ k => k = e
  | _ => False

/-- The receiver waits, or will wait next. -/
def Own.sleeps : Own → Bool
  | .timer => true
  | .schedule => true
  | _ => false

/-- `filter_id` is the filter of the receiver. -/
def Own.posted : Own → Bool
  | .again => true
  | o => o.sleeps

/-- The event was stored in the filter. -/
def Own.armed : Own → Bool
  | .set => true
  | o => o.posted

/-- The event in the filter of the receiver. -/
def St.filterEvent (s : St ι ν μ) : Option ℕ := (s.filter s.loc.filter).event

/-- **Who will wake the receiver.** -/
structure Wake (s : St ι ν μ) : Prop where
  function : s.own.holds = true → (s.filter s.loc.filter).function = s.loc.function
  event : s.own.armed = true → s.filterEvent = some s.loc.event ∨
    (s.filterEvent = none ∧ (s.blocked = some s.loc.event → ∃ j, (s.pc j).Signals s.loc.event))
  current : s.own.posted = true → s.filterId = some s.loc.filter
  cover : s.own.sleeps = true → s.blocked = some s.loc.event → s.filterEvent = some s.loc.event →
    ∀ n ∈ s.box.queue.order, s.box.fits s.loc.function n = true → ∃ j, (s.pc j).Serves n s.loc.filter

theorem wake_init [DecidableEq ι] [DecidableEq ν] (data : ν → μ) : Wake (.init data : St ι ν μ) :=
  ⟨fun h => (by cases h), fun h => (by cases h), fun h => (by cases h), fun h => (by cases h)⟩

theorem posted_of_sleeps {o : Own} (h : o.sleeps = true) : o.posted = true := by
  cases o <;> first | rfl | cases h

theorem holds_of_sleeps {o : Own} (h : o.sleeps = true) : o.holds = true := by
  cases o <;> first | rfl | cases h

/-- Some party that does something still does it when sender `i` has moved, if sender `i` does. -/
theorem exists_update [DecidableEq ι] {P : Pc ν → Prop} {pc : ι → Pc ν} {p : Pc ν} (h : ∃ j, P (pc j))
    (hi : P (pc i) → P p) :
    ∃ j, P (update pc i p j) := by
  obtain ⟨j, hj⟩ := h
  by_cases hji : j = i
  · exact ⟨i, by rw [update_self]; exact hi (hji ▸ hj)⟩
  · exact ⟨j, by rw [update_of_ne hji]; exact hj⟩

/-- A task that is blocked on an event after a step was so before it. -/
theorem blocked_before {e : ℕ} (hb : s'.blocked = s.blocked ∨ s'.blocked = none) (he : s'.blocked = some e) :
    s.blocked = some e := by
  rcases hb with hb | hb
  · rwa [hb] at he
  · rw [hb] at he
    cases he

/-- **A sender moves on.** It still serves its message as long as that matters, and still signals the event
that it has taken. -/
theorem Wake.move [DecidableEq ι] (h : Wake s) {p : Pc ν} (hpc : s'.pc = update s.pc i p)
    (hbox : s'.box = s.box) (hloc : s'.loc = s.loc) (hown : s'.own = s.own) (hid : s'.filterId = s.filterId)
    (hf : s'.filter = s.filter) (hb : s'.blocked = s.blocked ∨ s'.blocked = none)
    (hsig : ∀ e, s'.blocked = some e → (s.pc i).Signals e → p.Signals e)
    (hserve : s.own.sleeps = true → s.filterEvent = some s.loc.event → ∀ n ∈ s.box.queue.order,
      s.box.fits s.loc.function n = true → (s.pc i).Serves n s.loc.filter → p.Serves n s.loc.filter) :
        Wake s' := by
  have hfe : s'.filterEvent = s.filterEvent := by rw [St.filterEvent, St.filterEvent, hf, hloc]
  constructor
  case function =>
    rw [hown, hf, hloc]
    exact h.function
  case event =>
    rw [hown, hfe, hloc, hpc]
    intro ha
    refine (h.event ha).imp_right (And.imp_right fun h2 he => ?_)
    exact exists_update (P := fun p => p.Signals s.loc.event) (h2 (blocked_before hb he)) (hsig _ he)
  case current =>
    rw [hown, hid, hloc]
    exact h.current
  case cover =>
    rw [hown, hfe, hloc, hpc, hbox]
    intro hsl he hev n hn hfit
    exact exists_update (P := fun p => p.Serves n s.loc.filter) (h.cover hsl (blocked_before hb he) hev n hn hfit)
      (hserve hsl hev n hn hfit)

theorem Wake.goto [DecidableEq ι] (h : Wake s) {p q : Pc ν} (hp : s.pc i = q) (hsig : ∀ e, ¬ q.Signals e)
    (hserve : s.own.sleeps = true → s.filterEvent = some s.loc.event → ∀ n ∈ s.box.queue.order,
      s.box.fits s.loc.function n = true → q.Serves n s.loc.filter → p.Serves n s.loc.filter) :
        Wake (s.goto i p) :=
  h.move rfl rfl rfl rfl rfl rfl (.inl rfl) (fun e _ hd => absurd (hp ▸ hd) (hsig e)) (hp ▸ hserve)

theorem clearEvent_function (id k : ℕ) : ((s.clearEvent id).filter k).function = (s.filter k).function := by
  simp only [St.clearEvent]
  by_cases hk : k = id
  · rw [hk, update_self]
  · rw [update_of_ne hk]

/-- A sender has taken the event of a filter. -/
theorem Wake.taken [DecidableEq ι] (h : Wake s) {n : ν} {id e : ℕ} (hi : s.pc i = .take n id)
    (he : (s.filter id).event = some e) :
    Wake ((s.clearEvent id).goto i (.drop id e)) := by
  by_cases hid : s.loc.filter = id
  · have hnone : ((s.clearEvent id).goto i (.drop id e)).filterEvent = none := by
      simp only [St.filterEvent, St.clearEvent, St.goto, hid, update_self]
    constructor
    case function => exact fun ho => (clearEvent_function id _).trans (h.function ho)
    case event =>
      intro ha
      refine .inr ⟨hnone, fun _ => ⟨i, ?_⟩⟩
      rcases h.event ha with h1 | ⟨h1, -⟩
      · rw [St.filterEvent, hid, he] at h1
        simp only [St.goto, update_self, Pc.Signals]
        exact Option.some.inj h1
      · rw [St.filterEvent, hid, he] at h1
        cases h1
    case current => exact h.current
    case cover =>
      intro hsl hb hev
      rw [hnone] at hev
      cases hev
  · have hsame : ((s.clearEvent id).goto i (.drop id e)).filterEvent = s.filterEvent := by
      simp only [St.filterEvent, St.clearEvent, St.goto, update_of_ne hid]
    constructor
    case function => exact fun ho => (clearEvent_function id _).trans (h.function ho)
    case event =>
      intro ha
      rw [hsame]
      refine (h.event ha).imp_right (And.imp_right fun h2 hb => ?_)
      refine exists_update (P := fun p => p.Signals s.loc.event) (h2 hb) fun hs => ?_
      change (s.pc i).Signals _ at hs
      rw [hi] at hs
      cases hs
    case current => exact h.current
    case cover =>
      intro hsl hb hev m hm hfit
      rw [hsame] at hev
      refine exists_update (P := fun p => p.Serves m s.loc.filter) (h.cover hsl hb hev m hm hfit) fun hs => ?_
      change (s.pc i).Serves m _ at hs
      rw [hi] at hs
      exact absurd hs.2.symm hid

/-- A send is in progress. -/
def Pc.Busy (p : Pc ν) : Prop := p ≠ .idle

instance [DecidableEq ν] (p : Pc ν) : Decidable p.Busy := inferInstanceAs (Decidable (¬ _))

/-- Fewer than 4094 sends are in progress. -/
def St.Few [Fintype ι] [DecidableEq ν] (s : St ι ν μ) : Prop := headcount Pc.Busy s.pc < 4094

instance [Fintype ι] [DecidableEq ν] : Decidable s.Few := inferInstanceAs (Decidable (_ < _))

theorem held_le_busy [DecidableEq ν] (p : Pc ν) (id : ℕ) : p.held.count id ≤ if p.Busy then 1 else 0 := by
  cases p with
  | idle => exact le_of_eq rfl
  | _ => first | exact Nat.zero_le _ | exact List.count_le_length

theorem tally_le_headcount [Fintype ι] [DecidableEq ν] (pc : ι → Pc ν) (id : ℕ) :
    tally Pc.held pc id ≤ headcount Pc.Busy pc :=
  Finset.sum_le_sum fun j _ => held_le_busy (pc j) id

/-- **The lock on the filter of the receiver is not refused.** -/
theorem Refs.lock_isSome [Fintype ι] [DecidableEq ν] (h : Refs s) (hfew : s.Few) (ho : s.own.holds = true) :
    s.pd.lock s.loc.filter ≠ none := by
  have hr := h.refcnt s.loc.filter
  rw [St.ownRef, if_pos ⟨ho, rfl⟩] at hr
  have hle := tally_le_headcount s.pc s.loc.filter
  unfold St.Few at hfew
  have hlive : ¬ (s.pd.refcnt s.loc.filter = 0 ∨ s.pd.refcnt s.loc.filter = Pd.refcntMax) := by
    unfold Pd.refcntMax
    omega
  rw [Pd.lock, if_neg hlive]
  exact fun hd => by cases hd

/-- A message is pushed: its sender serves it. -/
theorem Wake.push [Fintype ι] [DecidableEq ι] [Fintype ν] [DecidableEq ν] (h : Wake s) (hS : Sound s) {n : ν}
    {c : Bool} (hi : s.pc i = .push n) (hs : s.stepPush i n c = some s') :
    Wake s' := by
  rcases hS.stepPush hi hs with ⟨a, q, -, hsame, rfl⟩ | ⟨a, q, -, ho, -, -, rfl⟩
  · refine ⟨h.function, h.event, h.current, fun hsl hb hev m hm => ?_⟩
    exact h.cover hsl hb hev m (hsame.order ▸ hm)
  · refine ⟨h.function, fun ha => ?_, h.current, fun hsl hb hev m hm hfit => ?_⟩
    · refine (h.event ha).imp_right (And.imp_right fun h2 hb => ?_)
      refine exists_update (P := fun p => p.Signals s.loc.event) (h2 hb) fun hd => ?_
      rw [hi] at hd
      cases hd
    · change m ∈ q.order at hm
      rw [ho] at hm
      rcases List.mem_cons.1 hm with rfl | hm
      · exact ⟨i, by simp only [update_self, Pc.Serves]⟩
      · refine exists_update (P := fun p => p.Serves m s.loc.filter) (h.cover hsl hb hev m hm hfit) fun hd => ?_
        rw [hi] at hd
        cases hd

theorem Wake.send [Fintype ι] [DecidableEq ι] [Fintype ν] [DecidableEq ν] (h : Wake s) (hS : Sound s)
    (hR : Refs s) (hfew : s.Few) {c : Bool} (hs : s.stepSend i c = some s') :
    Wake s' := by
  cases hp : s.pc i <;> simp only [St.stepSend, hp] at hs
  case idle => cases hs
  case push n => exact h.push hS hp hs
  case load n =>
    split at hs
    · rename_i hid
      rw [← Option.some.inj hs]
      refine h.goto hp (fun _ => id) fun hsl => ?_
      rw [h.current (posted_of_sleeps hsl)] at hid
      cases hid
    · rename_i id hid
      rw [← Option.some.inj hs]
      refine h.goto hp (fun _ hd => hd) fun hsl _ m _ _ hm => ?_
      rw [h.current (posted_of_sleeps hsl)] at hid
      exact ⟨hm, (Option.some.inj hid).symm⟩
  case lock n id =>
    split at hs
    · rename_i hl
      rw [← Option.some.inj hs]
      refine h.goto hp (fun _ hd => hd) fun hsl _ m _ _ hm => ?_
      exact absurd (hm.2 ▸ hl) (hR.lock_isSome hfew (holds_of_sleeps hsl))
    · rw [← Option.some.inj hs]
      refine h.move rfl rfl rfl rfl rfl rfl (.inl rfl) (fun e _ hd => ?_) fun _ _ m _ _ hm => ?_
      · rw [hp] at hd
        cases hd
      · rw [hp] at hm
        exact hm
  case event n id =>
    split at hs
    · rename_i hnone
      rw [← Option.some.inj hs]
      refine h.goto hp (fun _ hd => hd) fun _ hev m _ _ hm => ?_
      rw [St.filterEvent, ← hm.2, hnone] at hev
      cases hev
    · split at hs
      · rw [← Option.some.inj hs]
        exact h.goto hp (fun _ hd => hd) fun _ _ m _ _ hm => hm
      · rw [← Option.some.inj hs]
        exact h.goto hp (fun _ hd => hd) fun _ _ m _ _ hm => hm
  case evaluate n id =>
    split at hs
    · rw [← Option.some.inj hs]
      exact h.goto hp (fun _ hd => hd) fun _ _ m _ _ hm => hm
    · rename_i hno
      rw [← Option.some.inj hs]
      refine h.goto hp (fun _ hd => hd) fun hsl _ m _ hfit hm => ?_
      -- the message is in the queue, so what the sender evaluates is what the search would
      rw [hm.1, hm.2, h.function (holds_of_sleeps hsl)] at hno
      exact absurd hfit hno
  case take n id =>
    split at hs
    · rename_i hnone
      rw [← Option.some.inj hs]
      refine h.goto hp (fun _ hd => hd) fun _ hev m _ _ hm => ?_
      rw [St.filterEvent, ← hm.2, hnone] at hev
      cases hev
    · rename_i e he
      rw [← Option.some.inj hs]
      exact h.taken hp he
  case drop id e =>
    rw [← Option.some.inj hs]
    refine h.move rfl rfl rfl rfl rfl rfl (.inl rfl) (fun k _ hd => ?_) fun _ _ m _ _ hm => ?_
    · rw [hp] at hd
      exact hd
    · rw [hp] at hm
      cases hm
  case unblock id e =>
    split at hs
    · rw [← Option.some.inj hs]
      refine h.move rfl rfl rfl rfl rfl rfl (.inr rfl) (fun k hk => by cases hk) fun _ _ m _ _ hm => ?_
      rw [hp] at hm
      cases hm
    · rename_i hne
      rw [← Option.some.inj hs]
      refine h.move rfl rfl rfl rfl rfl rfl (.inl rfl) (fun k hk hd => ?_) fun _ _ m _ _ hm => ?_
      · rw [hp] at hd
        exact absurd (hd ▸ hk) hne
      · rw [hp] at hm
        cases hm
  all_goals
    rw [← Option.some.inj hs]
    refine h.move rfl rfl rfl rfl rfl rfl (.inl rfl) (fun k _ hd => ?_) fun _ _ m _ _ hm => ?_
    · rw [hp] at hd
      cases hd
    · rw [hp] at hm
      cases hm

/-- The receiver is not waiting for its event. -/
theorem Wake.leave (hf : s'.own.holds = true → (s'.filter s'.loc.filter).function = s'.loc.function)
    (ha : s'.own.armed = false) : Wake s' := by
  have hp : ¬ s'.own.posted = true := by
    intro hp
    cases ho : s'.own <;> rw [ho] at hp ha <;> first | cases ha; done | cases hp
  refine ⟨hf, fun h => ?_, fun h => absurd h hp, fun h => absurd (posted_of_sleeps h) hp⟩
  rw [ha] at h
  cases h

/-- The receiver goes on, and does not wait. -/
theorem Wake.onward (h : Wake s) (ho : s.own.holds = true)
    (hf : ∀ id, (s'.filter id).function = (s.filter id).function) (hl : s'.loc.filter = s.loc.filter)
    (hfun : s'.loc.function = s.loc.function) (ha : s'.own.armed = false) : Wake s' :=
  .leave (fun _ => by rw [hf, hl, hfun]; exact h.function ho) ha

theorem armed_of_free {o : Own} (h : o.holds = false) : o.armed = false := by
  cases o <;> first | rfl | cases h

/-- The receiver has no filter. -/
theorem Wake.idle (ho : s'.own.holds = false) : Wake s' :=
  .leave (fun hd => by rw [ho] at hd; cases hd) (armed_of_free ho)

theorem Wake.own [Fintype ι] [DecidableEq ι] [Fintype ν] [DecidableEq ν] (h : Wake s) (hS : Sound s)
    (hs : s.stepOwn = some s') : Wake s' := by
  cases ho : s.own <;> simp only [St.stepOwn, ho] at hs
  case search =>
    obtain ⟨r, -, rfl⟩ := Option.map_eq_some_iff.1 hs
    exact .idle loop_kept.1
  case block =>
    rw [← Option.some.inj hs]
    exact h.onward (by rw [ho]; rfl) (fun _ => rfl) rfl rfl rfl
  case publish =>
    rw [← Option.some.inj hs]
    refine ⟨fun _ => ?_, fun _ => .inl ?_, fun hd => (by cases hd), fun hd => (by cases hd)⟩
    · simp only [update_self]
      exact h.function (by rw [ho]; rfl)
    · simp only [St.filterEvent, update_self]
  case set =>
    rw [← Option.some.inj hs]
    exact ⟨fun _ => h.function (by rw [ho]; rfl), fun _ => h.event (by rw [ho]; rfl), fun _ => rfl,
      fun hd => by cases hd⟩
  case again =>
    obtain ⟨r, hr, rfl⟩ := Option.map_eq_some_iff.1 hs
    obtain ⟨r', hr', hres, -, hord, -, -, hdata, -⟩ := hS.mail.search (hS.removing_none (by rw [ho]; decide))
    obtain rfl := Option.some.inj (hr.symm.trans hr')
    cases hm : r.2.1 with
    | some n => exact h.onward (by rw [ho]; rfl) (fun _ => rfl) rfl rfl rfl
    | none =>
      refine ⟨fun _ => h.function (by rw [ho]; rfl), fun _ => h.event (by rw [ho]; rfl),
        fun _ => h.current (by rw [ho]; rfl), fun _ _ _ n hn hfit => ?_⟩
      -- no message in the queue matches
      rw [hm] at hres
      have hno := List.find?_eq_none.1 hres.symm n (List.mem_reverse.2 (hord ▸ hn))
      change accepts s.loc.function (r.1.data n) = true at hfit
      rw [hdata] at hfit
      exact absurd hfit hno
  case timer =>
    rw [← Option.some.inj hs]
    exact ⟨fun _ => h.function (by rw [ho]; rfl), fun _ => h.event (by rw [ho]; rfl),
      fun _ => h.current (by rw [ho]; rfl), fun _ => h.cover (by rw [ho]; rfl)⟩
  case cause =>
    split at hs
    · obtain ⟨r, -, rfl⟩ := Option.map_eq_some_iff.1 hs
      exact h.onward (by rw [ho]; rfl) (fun _ => rfl) rfl rfl rfl
    · rw [← Option.some.inj hs]
      exact h.onward (by rw [ho]; rfl) (fun _ => rfl) rfl rfl rfl
  case unlock =>
    rw [← Option.some.inj hs]
    split
    · exact .idle rfl
    · exact .idle loop_kept.1
  case remove =>
    obtain ⟨n, -, hs⟩ := Option.bind_eq_some_iff.1 hs
    obtain ⟨q, -, rfl⟩ := Option.map_eq_some_iff.1 hs
    split
    · exact .idle rfl
    · exact .idle rfl
  case removing =>
    obtain ⟨n, -, hs⟩ := Option.bind_eq_some_iff.1 hs
    obtain ⟨q, -, rfl⟩ := Option.map_eq_some_iff.1 hs
    exact .idle rfl
  case unblock early =>
    split at hs
    · rw [← Option.some.inj hs]
      exact h.onward (by rw [ho]; rfl) (fun _ => rfl) rfl rfl rfl
    · rw [← Option.some.inj hs]
      exact h.onward (by rw [ho]; rfl) (fun _ => rfl) rfl rfl (by simp only; split <;> rfl)
  all_goals
    repeat' split at hs
    all_goals
      first
      | rw [← Option.some.inj hs]
        exact h.onward (by rw [ho]; rfl) (fun _ => rfl) rfl rfl rfl
      | rw [← Option.some.inj hs]
        exact h.onward (by rw [ho]; rfl) (clearEvent_function _) rfl rfl rfl
      | cases hs

/-- The timer or nobody does something: at most, the task is unblocked. -/
theorem Wake.quiet (h : Wake s) (hpc : s'.pc = s.pc) (hbox : s'.box = s.box) (hloc : s'.loc = s.loc)
    (hown : s'.own = s.own) (hid : s'.filterId = s.filterId) (hf : s'.filter = s.filter)
    (hb : s'.blocked = s.blocked ∨ s'.blocked = none) : Wake s' := by
  have hfe : s'.filterEvent = s.filterEvent := by rw [St.filterEvent, St.filterEvent, hf, hloc]
  refine ⟨?_, ?_, ?_, ?_⟩
  · rw [hown, hf, hloc]
    exact h.function
  · rw [hown, hfe, hloc, hpc]
    exact fun ha => (h.event ha).imp_right (And.imp_right fun h2 he => h2 (blocked_before hb he))
  · rw [hown, hid, hloc]
    exact h.current
  · rw [hown, hfe, hloc, hpc, hbox]
    exact fun hsl he => h.cover hsl (blocked_before hb he)

theorem Wake.step [Fintype ι] [DecidableEq ι] [Fintype ν] [DecidableEq ν] (h : Wake s) (hS : Sound s)
    (hR : Refs s) (hfew : s.Few) {a : Act ι ν μ} (hs : s.step a = some s') :
    Wake s' := by
  cases a <;> simp only [St.step] at hs
  case write n m =>
    obtain ⟨hn, rfl⟩ := Option.ite_none_right_eq_some.1 hs |>.imp_right Option.some.inj
    refine ⟨h.function, h.event, h.current, fun hsl hb hev k hk hfit => h.cover hsl hb hev k hk ?_⟩
    have hne : k ≠ n := by
      rintro rfl
      exact hn.1 hk
    simpa only [Box.fits, update_of_ne hne] using hfit
  case send i n =>
    obtain ⟨hi, hs⟩ := Option.ite_none_right_eq_some.1 hs
    obtain ⟨q, hq, rfl⟩ := Option.map_eq_some_iff.1 hs
    obtain ⟨-, rfl⟩ := Mpsciq.push_eq hq
    refine ⟨h.function, fun ha => ?_, h.current, fun hsl hb hev k hk hfit => ?_⟩
    · refine (h.event ha).imp_right (And.imp_right fun h2 hb => ?_)
      refine exists_update (P := fun p => p.Signals s.loc.event) (h2 hb) fun hd => ?_
      rw [hi] at hd
      cases hd
    · refine exists_update (P := fun p => p.Serves k s.loc.filter) (h.cover hsl hb hev k hk hfit) fun hd => ?_
      rw [hi] at hd
      cases hd
  case step i c => exact h.send hS hR hfew hs
  case recv f u t =>
    obtain ⟨ho, rfl⟩ := Option.ite_none_right_eq_some.1 hs |>.imp_right Option.some.inj
    exact .idle rfl
  case own => exact h.own hS hs
  case create id =>
    obtain ⟨-, hs⟩ := Option.ite_none_right_eq_some.1 hs
    obtain ⟨pd, -, rfl⟩ := Option.map_eq_some_iff.1 hs
    exact .leave (fun _ => by simp only [update_self]) rfl
  case woken d =>
    obtain ⟨ho, hs⟩ := Option.ite_none_right_eq_some.1 hs
    split at hs
    · rw [← Option.some.inj hs]
      exact h.onward (by rw [ho]; rfl) (fun _ => rfl) rfl rfl rfl
    · rw [← Option.some.inj hs]
      exact h.onward (by rw [ho]; rfl) (fun _ => rfl) rfl rfl rfl
  case expire e =>
    split at hs
    · rw [← Option.some.inj hs]
      exact h.quiet rfl rfl rfl rfl rfl rfl (.inl rfl)
    · cases hs
  case discard e =>
    obtain ⟨-, rfl⟩ := Option.ite_none_right_eq_some.1 hs |>.imp_right Option.some.inj
    exact h.quiet rfl rfl rfl rfl rfl rfl (.inl rfl)
  case timer e =>
    unfold St.stepTimer at hs
    repeat' split at hs
    all_goals
      first
      | rw [← Option.some.inj hs]
        exact h.quiet rfl rfl rfl rfl rfl rfl (.inl rfl)
      | rw [← Option.some.inj hs]
        exact h.quiet rfl rfl rfl rfl rfl rfl (.inr rfl)
      | cases hs

/-! ## The result -/

/-- The receiver is blocked: it waits in `prs_sched_schedule`, and the state of its task is the token of its
event. -/
def St.Asleep (s : St ι ν μ) : Prop := s.own = .schedule ∧ s.blocked = some s.loc.event

/-- Every call of `prs_msgq_send` has returned. -/
def St.Returned (s : St ι ν μ) : Prop := ∀ i, s.pc i = .idle

instance : Decidable s.Asleep := inferInstanceAs (Decidable (_ ∧ _))

instance [Fintype ι] [DecidableEq ν] : Decidable s.Returned := inferInstanceAs (Decidable (∀ _, _))

/-- **No lost wake-up.** In every run with fewer than 4094 sends in progress at once: when the receiver is
blocked and all sends have returned, no message in the queue matches its filter. -/
theorem no_lost_wakeup [Fintype ι] [DecidableEq ι] [Fintype ν] [DecidableEq ν] {data : ν → μ}
    (h : (sys ι ν μ data).Reach (fun s _ => s.Few) s) (ha : s.Asleep) (hq : s.Returned) :
    ∀ n ∈ s.box.queue.order, s.box.fits s.loc.function n = false := by
  have hI : Sound s ∧ Refs s ∧ Wake s := by
    refine h.inv (I := fun s => Sound s ∧ Refs s ∧ Wake s) ?_ ?_
    · rintro _ rfl
      exact ⟨sound_init data, refs_init data, wake_init data⟩
    · rintro s a s' ⟨hS, hR, hW⟩ hfew hs
      exact ⟨hS.step hs, hR.step hs, hW.step hS hR hfew hs⟩
  obtain ⟨-, -, hW⟩ := hI
  obtain ⟨ho, hb⟩ := ha
  intro n hn
  by_contra hfit
  rw [Bool.not_eq_false] at hfit
  rcases hW.event (by rw [ho]; rfl) with hev | ⟨-, hsig⟩
  · obtain ⟨j, hj⟩ := hW.cover (by rw [ho]; rfl) hb hev n hn hfit
    rw [hq j] at hj
    cases hj
  · obtain ⟨j, hj⟩ := hsig hb
    rw [hq j] at hj
    cases hj

/-- A receive for message 1 waits, and message 0 is in the queue. -/
theorem no_lost_wakeup_other : ∃ s, (sys (Fin 1) (Fin 2) (Fin 2) id).Reach (fun s _ => s.Few) s ∧ s.Asleep ∧
    s.Returned ∧ s.box.queue.order = [0] ∧ ∀ n ∈ s.box.queue.order, s.box.fits s.loc.function n = false := by
  obtain ⟨s, hs, ha, hq, ho⟩ := System.exists_of_check (sys (Fin 1) (Fin 2) (Fin 2) id) (fun s _ => s.Few)
    (fun s => s.Asleep ∧ s.Returned ∧ s.box.queue.order = [0]) (.init id) rfl
    (List.flatten [[.recv (some fun m => m == 1) false 0, .own, .create 1], List.replicate 5 .own,
      .send 0 0 :: List.replicate 7 (.step 0 false)]) (by decide +kernel)
  exact ⟨s, hs, ha, hq, ho, no_lost_wakeup hs ha hq⟩

end Prs.Msgq
