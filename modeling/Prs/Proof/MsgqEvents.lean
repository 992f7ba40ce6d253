import Prs.Proof.MsgqWake

/-!
# The events of a message queue

An event has a reference for the senders, one for the receiver and, with a timeout, one for the timer. The
reference for the senders is where the event is: in the filter, with the sender that has taken it, or back
with the receiver. The reference for the timer is there from the start, and goes with the timeout request; but
when the search after `prs_msgq_filter_set` finds a message the request is never queued, and nobody drops it
(`event_leaked`).

* `Books`: the calls made on an event and the references that are still out are its initial count.
* `events_freed`: in a run in which that search finds a message only when there is no timeout, every event is
  released as often as its initial count says, and freed once.
-/

namespace Prs.Msgq

open Function

variable {ι ν μ : Type} {s s' : St ι ν μ} {i : ι} {e : ℕ}

/-! ## Where the references are -/

/-- The event that a sender has taken and has still to release. -/
def Pc.taken : Pc ν → List ℕ
  | .drop _ e => [e]
  | _ => []

/-- The references that the receiver has to its event. It has the one for the senders too until it has stored
the event in the filter, and after it has taken it back. -/
def Own.share : Own → ℕ
  | .publish => 2
  | .set => 1
  | .again => 1
  | .timer => 1
  | .schedule => 1
  | .woken => 1
  | .cause => 1
  | .exchange _ => 1
  | .unref _ => 2
  | .signal _ => 1
  | _ => 0

/-- The timeout request of the event is not queued yet. -/
def Own.untimed : Own → Bool
  | .publish => true
  | .set => true
  | .again => true
  | .timer => true
  | _ => false

/-- The event is not stored in the filter yet. -/
def Own.fresh : Own → Bool
  | .block => true
  | .publish => true
  | _ => false

/-- The reference for the timer is out. -/
def Timer.share : Timer → ℕ
  | .none => 1
  | .queued _ => 1
  | .signal => 1
  | .unref => 1
  | _ => 0

def St.ownShare (s : St ι ν μ) (e : ℕ) : ℕ := if s.loc.event = e then s.own.share else 0

def St.timerShare (s : St ι ν μ) (e : ℕ) : ℕ := if (s.event e).initialRefcnt = 3 then (s.timer e).share else 0

def St.filterShare (s : St ι ν μ) (e : ℕ) : ℕ := if (s.filter (s.event e).filter).event = some e then 1 else 0

/-- The references to event `e` that are out. -/
def St.out [Fintype ι] (s : St ι ν μ) (e : ℕ) : ℕ :=
  s.filterShare e + tally Pc.taken s.pc e + s.timerShare e + s.ownShare e

/-- **The books of the events**, in the middle of a step in which the references `l` are in nobody's hands. -/
structure Books [Fintype ι] (s : St ι ν μ) (l : List ℕ) : Prop where
  /-- What was called and what is out is the initial count. -/
  balance : ∀ e < s.created, (s.event e).calls + s.out e + l.count e = (s.event e).initialRefcnt
  count : ∀ e < s.created, (s.event e).refcnt + (s.event e).calls = (s.event e).initialRefcnt ∧
    (s.event e).frees = if (s.event e).refcnt = 0 then 1 else 0
  hand : ∀ e ∈ l, e < s.created
  filter : ∀ id e, (s.filter id).event = some e → (s.event e).filter = id ∧ e < s.created ∧ s.pd.used id = true
  taken : ∀ j, ∀ e ∈ (s.pc j).taken, e < s.created
  timed : ∀ e, s.timer e ≠ .none → (s.event e).initialRefcnt = 3 ∧ e < s.created

theorem books_init [Fintype ι] [DecidableEq ι] [DecidableEq ν] (data : ν → μ) :
    Books (.init data : St ι ν μ) [] where
  balance := fun e he => absurd he (Nat.not_lt_zero e)
  count := fun e he => absurd he (Nat.not_lt_zero e)
  hand := fun _ h => by cases h
  filter := fun _ _ h => by cases h
  taken := fun _ _ h => by cases h
  timed := fun _ h => absurd rfl h

variable {l l' : List ℕ}

theorem dropEvent_kept (k : ℕ) : ((s.dropEvent e).event k).initialRefcnt = (s.event k).initialRefcnt ∧
    ((s.dropEvent e).event k).filter = (s.event k).filter := by
  simp only [St.dropEvent]
  by_cases hk : k = e
  · rw [hk, update_self]
    exact ⟨rfl, rfl⟩
  · rw [update_of_ne hk]
    exact ⟨rfl, rfl⟩

/-- A reference is released. -/
theorem Books.drop [Fintype ι] (h : Books s (e :: l)) : Books (s.dropEvent e) l := by
  have he := h.hand e List.mem_cons_self
  have hkeep := dropEvent_kept (s := s) (e := e)
  have hout : ∀ k, (s.dropEvent e).out k = s.out k := by
    intro k
    simp only [St.out, St.filterShare, St.timerShare, (hkeep k).1, (hkeep k).2]
    rfl
  have hpos : 0 < (s.event e).refcnt := by
    have h1 := h.balance e he
    have h2 := (h.count e he).1
    rw [List.count_cons_self] at h1
    omega
  constructor
  case balance =>
    intro k hk
    rw [hout, (hkeep k).1]
    have hb := h.balance k hk
    by_cases hke : k = e
    · subst hke
      simp only [St.dropEvent, update_self, Event.drop]
      rw [List.count_cons_self] at hb
      omega
    · simp only [St.dropEvent, update_of_ne hke]
      rwa [List.count_cons_of_ne (Ne.symm hke)] at hb
  case count =>
    intro k hk
    rw [(hkeep k).1]
    obtain ⟨h1, h2⟩ := h.count k hk
    by_cases hke : k = e
    · subst hke
      simp only [St.dropEvent, update_self, Event.drop]
      refine ⟨by omega, ?_⟩
      rw [if_neg (Nat.pos_iff_ne_zero.1 hpos)] at h2
      rw [h2]
      split <;> rename_i h3
      · rw [if_pos (by omega)]
      · rw [if_neg (by omega)]
    · simp only [St.dropEvent, update_of_ne hke]
      exact ⟨h1, h2⟩
  case hand => exact fun k hk => h.hand k (List.mem_cons_of_mem e hk)
  case filter =>
    intro id k hk
    rw [(hkeep k).2]
    exact h.filter id k hk
  case taken => exact h.taken
  case timed =>
    intro k hk
    rw [(hkeep k).1]
    exact h.timed k hk

/-- The event is taken out of a filter. -/
theorem Books.clear [Fintype ι] (h : Books s l) {id : ℕ} (he : (s.filter id).event = some e) :
    Books (s.clearEvent id) (e :: l) := by
  obtain ⟨hid, hlt, -⟩ := h.filter id e he
  have hsub : ∀ k m, ((s.clearEvent id).filter k).event = some m → (s.filter k).event = some m := by
    intro k m hm
    simp only [St.clearEvent] at hm
    by_cases hk : k = id
    · rw [hk, update_self] at hm
      cases hm
    · rwa [update_of_ne hk] at hm
  have hshare : ∀ k, (s.clearEvent id).filterShare k + [e].count k = s.filterShare k := by
    intro k
    change (if ((s.clearEvent id).filter (s.event k).filter).event = some k then 1 else 0) + [e].count k =
      s.filterShare k
    unfold St.filterShare
    by_cases hk : (s.event k).filter = id
    · have hnone : ((s.clearEvent id).filter id).event = none := by simp only [St.clearEvent, update_self]
      rw [hk, hnone, he, if_neg (fun hd => by cases hd)]
      simp only [List.count_singleton, beq_iff_eq, Option.some.injEq]
      omega
    · have hne : e ≠ k := by
        rintro rfl
        exact hk hid
      have hsame : (s.clearEvent id).filter (s.event k).filter = s.filter (s.event k).filter :=
        update_of_ne hk _ _
      rw [hsame, List.count_singleton, beq_eq_false_iff_ne.2 hne]
      rfl
  constructor
  case balance =>
    intro k hk
    have hb := h.balance k hk
    have hs := hshare k
    rw [count_cons_eq]
    simp only [St.out] at hb ⊢
    rw [← hs] at hb
    change (s.event k).calls + (_ + tally Pc.taken s.pc k + s.timerShare k + s.ownShare k) + _ =
      (s.event k).initialRefcnt
    omega
  case count => exact h.count
  case hand =>
    intro k hk
    rcases List.mem_cons.1 hk with rfl | hk
    · exact hlt
    · exact h.hand k hk
  case filter => exact fun k m hm => h.filter k m (hsub k m hm)
  case taken => exact h.taken
  case timed => exact h.timed

/-- A sender moves on, and takes or leaves a reference. -/
theorem Books.goto [Fintype ι] [DecidableEq ι] (h : Books s l) {p : Pc ν} (hpc : s'.pc = update s.pc i p)
    (hev : s'.event = s.event) (hcr : s'.created = s.created) (hf : s'.filter = s.filter)
    (ht : s'.timer = s.timer) (hu : s'.pd.used = s.pd.used) (ho : s'.own = s.own) (hloc : s'.loc = s.loc)
    (hl : p.taken ++ l' = (s.pc i).taken ++ l) : Books s' l' := by
  have hcount : ∀ k, p.taken.count k + l'.count k = (s.pc i).taken.count k + l.count k := by
    intro k
    rw [← List.count_append, hl, List.count_append]
  have hmem : ∀ k, k ∈ p.taken ∨ k ∈ l' → k < s.created := by
    intro k hk
    rw [← List.mem_append, hl, List.mem_append] at hk
    exact hk.elim (h.taken i k) (h.hand k)
  constructor
  case balance =>
    rw [hcr, hev]
    intro k hk
    have hb := h.balance k hk
    have ht' := tally_update Pc.taken s.pc i p k
    have hc := hcount k
    simp only [St.out, St.filterShare, St.timerShare, St.ownShare, hev, hf, ht, ho, hloc, hpc] at hb ⊢
    omega
  case count =>
    rw [hcr, hev]
    exact h.count
  case hand =>
    rw [hcr]
    exact fun k hk => hmem k (.inr hk)
  case filter =>
    rw [hcr, hev, hf, hu]
    exact h.filter
  case taken =>
    rw [hcr, hpc]
    intro j k hk
    by_cases hj : j = i
    · rw [hj, update_self] at hk
      exact hmem k (.inl hk)
    · rw [update_of_ne hj] at hk
      exact h.taken j k hk
  case timed =>
    rw [hcr, hev, ht]
    exact h.timed

/-- The receiver moves on, and takes or leaves references. -/
theorem Books.own [Fintype ι] (h : Books s l) (hpc : s'.pc = s.pc) (hev : s'.event = s.event)
    (hcr : s'.created = s.created) (hf : ∀ id, (s'.filter id).event = (s.filter id).event)
    (ht : s'.timer = s.timer) (hu : ∀ id, s.pd.used id = true → s'.pd.used id = true)
    (hlt : ∀ k ∈ l', k < s.created) (hl : ∀ k, s'.ownShare k + l'.count k = s.ownShare k + l.count k) :
    Books s' l' := by
  constructor
  case balance =>
    rw [hcr, hev]
    intro k hk
    have hb := h.balance k hk
    have hc := hl k
    simp only [St.out, St.filterShare, St.timerShare, hev, hf, ht, hpc] at hb ⊢
    omega
  case count =>
    rw [hcr, hev]
    exact h.count
  case hand =>
    rw [hcr]
    exact hlt
  case filter =>
    rw [hcr, hev]
    intro id k hk
    rw [hf] at hk
    obtain ⟨h1, h2, h3⟩ := h.filter id k hk
    exact ⟨h1, h2, hu id h3⟩
  case taken =>
    rw [hcr, hpc]
    exact h.taken
  case timed =>
    rw [hcr, hev, ht]
    exact h.timed

/-- A timeout request moves on, and takes or leaves a reference. -/
theorem Books.timer [Fintype ι] (h : Books s l) {t : Timer} (h3 : (s.event e).initialRefcnt = 3)
    (he : e < s.created) (hpc : s'.pc = s.pc) (hev : s'.event = s.event) (hcr : s'.created = s.created)
    (hf : s'.filter = s.filter) (hu : s'.pd.used = s.pd.used) (htm : s'.timer = update s.timer e t)
    (ho : ∀ k, s'.ownShare k = s.ownShare k) (hlt : ∀ k ∈ l', k < s.created)
    (hl : ∀ k, (if k = e then t.share else 0) + l'.count k = (if k = e then (s.timer e).share else 0) +
      l.count k) :
    Books s' l' := by
  constructor
  case balance =>
    rw [hcr, hev]
    intro k hk
    have hb := h.balance k hk
    have hc := hl k
    simp only [St.out, St.filterShare, St.timerShare, hev, hf, htm, hpc, ho] at hb ⊢
    by_cases hke : k = e
    · subst hke
      simp only [if_pos] at hc
      rw [if_pos h3] at hb ⊢
      rw [update_self]
      omega
    · simp only [if_neg hke] at hc
      rw [update_of_ne hke]
      omega
  case count =>
    rw [hcr, hev]
    exact h.count
  case hand =>
    rw [hcr]
    exact hlt
  case filter =>
    rw [hcr, hev, hf, hu]
    exact h.filter
  case taken =>
    rw [hcr, hpc]
    exact h.taken
  case timed =>
    rw [hcr, hev, htm]
    intro k hk
    by_cases hke : k = e
    · rw [hke]
      exact ⟨h3, he⟩
    · rw [update_of_ne hke] at hk
      exact h.timed k hk

/-! ## The steps -/

/-- **The receiver and its event.** -/
structure Holder (s : St ι ν μ) : Prop where
  event : 0 < s.own.share → s.loc.event < s.created ∧ (s.event s.loc.event).filter = s.loc.filter
  untimed : s.own.untimed = true → s.timer s.loc.event = .none ∧
    (s.event s.loc.event).initialRefcnt = s.loc.sources
  used : s.own.holds = true → s.pd.used s.loc.filter = true
  empty : s.own.fresh = true → (s.filter s.loc.filter).event = none
  mine : 0 < s.own.share → ∀ e, (s.filter s.loc.filter).event = some e → e = s.loc.event

/-- The receiver has no filter. -/
theorem Holder.idle (h : s.own.holds = false) : Holder s := by
  cases ho : s.own <;> rw [ho] at h <;> first | cases h; done | skip
  all_goals
    refine ⟨fun hd => ?_, fun hd => ?_, fun hd => ?_, fun hd => ?_, fun hd => ?_⟩
    all_goals
      rw [ho] at hd
      simp [Own.share, Own.untimed, Own.holds, Own.fresh] at hd

/-- What a step leaves alone that is not the receiver's. -/
structure Elsewhere (s s' : St ι ν μ) : Prop where
  own : s'.own = s.own
  loc : s'.loc = s.loc
  created : s'.created = s.created
  event : ∀ e, (s'.event e).initialRefcnt = (s.event e).initialRefcnt ∧ (s'.event e).filter = (s.event e).filter
  filter : ∀ id, (s'.filter id).event = none ∨ (s'.filter id).event = (s.filter id).event
  used : s'.pd.used = s.pd.used
  timer : ∀ e, s.timer e = .none ↔ s'.timer e = .none

theorem Holder.elsewhere (h : Holder s) (hs : Elsewhere s s') : Holder s' := by
  constructor
  case event =>
    rw [hs.own, hs.loc, hs.created, (hs.event _).2]
    exact h.event
  case untimed =>
    rw [hs.own, hs.loc, (hs.event _).1, ← hs.timer]
    exact h.untimed
  case used =>
    rw [hs.own, hs.loc, hs.used]
    exact h.used
  case empty =>
    rw [hs.own, hs.loc]
    intro ho
    rcases hs.filter s.loc.filter with hf | hf
    · exact hf
    · rw [hf, h.empty ho]
  case mine =>
    rw [hs.own, hs.loc]
    intro ho e he
    rcases hs.filter s.loc.filter with hf | hf
    · rw [hf] at he
      cases he
    · exact h.mine ho e (hf ▸ he)

theorem clearEvent_event (id k : ℕ) :
    ((s.clearEvent id).filter k).event = none ∨ ((s.clearEvent id).filter k).event = (s.filter k).event := by
  simp only [St.clearEvent]
  by_cases hk : k = id
  · rw [hk, update_self]
    exact .inl rfl
  · rw [update_of_ne hk]
    exact .inr rfl

/-- A step that touches neither events nor filters. -/
theorem Elsewhere.same (ho : s'.own = s.own) (hl : s'.loc = s.loc) (hc : s'.created = s.created)
    (he : s'.event = s.event) (hf : s'.filter = s.filter) (hu : s'.pd.used = s.pd.used)
    (ht : s'.timer = s.timer) : Elsewhere s s' :=
  ⟨ho, hl, hc,
    fun _ => by rw [he]; exact ⟨rfl, rfl⟩, fun _ => by rw [hf]; exact .inr rfl, hu, fun _ => by rw [ht]⟩

theorem stepSend_elsewhere [Fintype ι] [DecidableEq ι] [Fintype ν] [DecidableEq ν] {c : Bool}
    (hs : s.stepSend i c = some s') : Elsewhere s s' := by
  cases hi : s.pc i <;> simp only [St.stepSend, hi] at hs
  case idle => cases hs
  case push n =>
    unfold St.stepPush at hs
    split at hs
    · obtain ⟨q, -, rfl⟩ := Option.map_eq_some_iff.1 hs
      exact .same rfl rfl rfl rfl rfl rfl rfl
    · obtain ⟨q, -, rfl⟩ := Option.map_eq_some_iff.1 hs
      split
      · exact .same rfl rfl rfl rfl rfl rfl rfl
      · exact .same rfl rfl rfl rfl rfl rfl rfl
  case lock n id =>
    split at hs
    · rw [← Option.some.inj hs]
      exact .same rfl rfl rfl rfl rfl rfl rfl
    · rename_i pd hl
      obtain ⟨-, rfl⟩ := Option.ite_none_left_eq_some.1 hl |>.imp_right Option.some.inj
      rw [← Option.some.inj hs]
      exact .same rfl rfl rfl rfl rfl rfl rfl
  case take n id =>
    split at hs
    · rw [← Option.some.inj hs]
      exact .same rfl rfl rfl rfl rfl rfl rfl
    · rw [← Option.some.inj hs]
      exact ⟨rfl, rfl, rfl, fun _ => ⟨rfl, rfl⟩, clearEvent_event id, rfl, fun _ => .rfl⟩
  case drop id e =>
    rw [← Option.some.inj hs]
    exact ⟨rfl, rfl, rfl, dropEvent_kept, fun _ => .inr rfl, rfl, fun _ => .rfl⟩
  all_goals
    repeat' split at hs
    all_goals
      rw [← Option.some.inj hs]
      exact .same rfl rfl rfl rfl rfl rfl rfl

theorem Books.send [Fintype ι] [DecidableEq ι] [Fintype ν] [DecidableEq ν] (h : Books s []) {c : Bool}
    (hs : s.stepSend i c = some s') : Books s' [] := by
  cases hi : s.pc i <;> simp only [St.stepSend, hi] at hs
  case idle => cases hs
  case push n =>
    unfold St.stepPush at hs
    split at hs
    · obtain ⟨q, -, rfl⟩ := Option.map_eq_some_iff.1 hs
      exact { h with }
    · obtain ⟨q, -, rfl⟩ := Option.map_eq_some_iff.1 hs
      split
      · exact h.goto rfl rfl rfl rfl rfl rfl rfl rfl (by rw [hi]; rfl)
      · exact { h with }
  case lock n id =>
    split at hs
    · rw [← Option.some.inj hs]
      exact h.goto rfl rfl rfl rfl rfl rfl rfl rfl (by rw [hi]; rfl)
    · rename_i pd hl
      obtain ⟨-, rfl⟩ := Option.ite_none_left_eq_some.1 hl |>.imp_right Option.some.inj
      rw [← Option.some.inj hs]
      exact h.goto rfl rfl rfl rfl rfl rfl rfl rfl (by rw [hi]; rfl)
  case take n id =>
    split at hs
    · rw [← Option.some.inj hs]
      exact h.goto rfl rfl rfl rfl rfl rfl rfl rfl (by rw [hi]; rfl)
    · rename_i e he
      rw [← Option.some.inj hs]
      have hi' : (s.clearEvent id).pc i = .take n id := hi
      exact (h.clear he).goto rfl rfl rfl rfl rfl rfl rfl rfl (by rw [hi']; rfl)
  case drop id e =>
    rw [← Option.some.inj hs]
    have hg : Books (s.goto i (.unblock id e)) [e] := h.goto rfl rfl rfl rfl rfl rfl rfl rfl (by rw [hi]; rfl)
    exact hg.drop
  all_goals
    repeat' split at hs
    all_goals
      rw [← Option.some.inj hs]
      exact h.goto rfl rfl rfl rfl rfl rfl rfl rfl (by rw [hi]; rfl)

theorem ownShare_eq_zero (h : s.own.share = 0) (k : ℕ) : s.ownShare k = 0 := by
  rw [St.ownShare, h, ite_self]

theorem share_of_free {o : Own} (h : o.holds = false) : o.share = 0 := by
  cases o <;> first | rfl | cases h

/-- The receiver has no reference, before and after. -/
theorem Books.free [Fintype ι] (h : Books s []) (hpc : s'.pc = s.pc) (hev : s'.event = s.event)
    (hcr : s'.created = s.created) (hf : s'.filter = s.filter) (ht : s'.timer = s.timer)
    (hu : s'.pd.used = s.pd.used) (h0 : s.own.share = 0) (h0' : s'.own.share = 0) : Books s' [] :=
  h.own hpc hev hcr (fun _ => by rw [hf]) ht (fun _ => by rw [hu]; exact id) (fun k hk => by cases hk) fun k => by
    rw [ownShare_eq_zero h0, ownShare_eq_zero h0']

/-- The receiver has the references that it had. -/
theorem Books.hold [Fintype ι] (h : Books s []) (hpc : s'.pc = s.pc) (hev : s'.event = s.event)
    (hcr : s'.created = s.created) (hf : s'.filter = s.filter) (ht : s'.timer = s.timer)
    (hu : s'.pd.used = s.pd.used) (hsh : s'.own.share = s.own.share) (hl : s'.loc.event = s.loc.event) :
    Books s' [] :=
  h.own hpc hev hcr (fun _ => by rw [hf]) ht (fun _ => by rw [hu]; exact id) (fun k hk => by cases hk) fun k => by
    rw [St.ownShare, St.ownShare, hsh, hl]

theorem loop_frame : s.loop.own.holds = false ∧ s.loop.pc = s.pc ∧ s.loop.event = s.event ∧
    s.loop.created = s.created ∧ s.loop.filter = s.filter ∧ s.loop.timer = s.timer ∧ s.loop.pd = s.pd := by
  unfold St.loop
  repeat' split
  all_goals exact ⟨rfl, rfl, rfl, rfl, rfl, rfl, rfl⟩

theorem Books.loop [Fintype ι] (h : Books s []) (h0 : s.own.share = 0) : Books s.loop [] := by
  obtain ⟨hh, hpc, hev, hcr, hf, ht, hpd⟩ := loop_frame (s := s)
  exact h.free hpc hev hcr hf ht (by rw [hpd]) h0 (share_of_free hh)

/-- A step of the receiver that changes neither the events nor the filters, and keeps its event and its filter. -/
structure Stays (s s' : St ι ν μ) : Prop where
  pc : s'.pc = s.pc
  event : s'.event = s.event
  created : s'.created = s.created
  filter : s'.filter = s.filter
  timer : s'.timer = s.timer
  used : s'.pd.used = s.pd.used
  locEvent : s'.loc.event = s.loc.event
  locFilter : s'.loc.filter = s.loc.filter
  active : s'.loc.timeoutActive = s.loc.timeoutActive

theorem Holder.stays (h : Holder s) (hs : Stays s s') {o p : Own} (ho : s.own = o) (hp : s'.own = p)
    (hsh : p.share ≤ o.share) (hun : p.untimed = false ∨ o.untimed = true) (hho : o.holds = true)
    (hfr : p.fresh = false) : Holder s' := by
  subst ho hp
  have hpos : 0 < s'.own.share → 0 < s.own.share := fun hd => Nat.lt_of_lt_of_le hd hsh
  constructor
  case event =>
    rw [hs.event, hs.created, hs.locEvent, hs.locFilter]
    exact fun hd => h.event (hpos hd)
  case untimed =>
    rw [hs.event, hs.timer, hs.locEvent, Local.sources, hs.active]
    intro hd
    refine h.untimed (hun.resolve_left fun hn => ?_)
    rw [hn] at hd
    cases hd
  case used =>
    rw [hs.used, hs.locFilter]
    exact fun _ => h.used hho
  case empty =>
    intro hd
    rw [hfr] at hd
    cases hd
  case mine =>
    rw [hs.filter, hs.locFilter, hs.locEvent]
    exact fun hd => h.mine (hpos hd)

/-- The receiver moves on with the references that it has. -/
theorem Books.stays [Fintype ι] (h : Books s []) (hH : Holder s) (hs : Stays s s') {o p : Own}
    (ho : s.own = o) (hp : s'.own = p) (hsh : p.share = o.share) (hun : p.untimed = false ∨ o.untimed = true)
    (hho : o.holds = true) (hfr : p.fresh = false) :
    Books s' [] ∧ Holder s' := by
  refine ⟨?_, hH.stays hs ho hp (Nat.le_of_eq hsh) hun hho hfr⟩
  exact h.hold hs.pc hs.event hs.created hs.filter hs.timer hs.used (by rw [ho, hp, hsh]) hs.locEvent

/-- `prs_event_create`. -/
def St.blockNext (s : St ι ν μ) : St ι ν μ :=
  { s with
    event := update s.event s.created ⟨s.loc.sources, s.loc.sources, 0, 0, s.loc.filter⟩
    created := s.created + 1
    blocked := some s.created
    loc := { s.loc with event := s.created }
    own := .publish }

theorem sources_eq (m : Local ν μ) :
    (m.sources = 3 ∧ m.timeoutActive = true) ∨ (m.sources = 2 ∧ m.timeoutActive = false) := by
  unfold Local.sources
  cases m.timeoutActive with
  | true => exact .inl ⟨rfl, rfl⟩
  | false => exact .inr ⟨rfl, rfl⟩

theorem Books.block [Fintype ι] (h : Books s []) (ho : s.own = .block) : Books s.blockNext [] := by
  have hold : ∀ {k}, k < s.created → s.blockNext.event k = s.event k :=
    fun hk => update_of_ne (Nat.ne_of_lt hk) _ _
  have hnew : s.blockNext.event s.created = ⟨s.loc.sources, s.loc.sources, 0, 0, s.loc.filter⟩ :=
    update_self _ _ _
  have hnone : s.timer s.created = .none := by
    by_contra hd
    exact absurd (h.timed s.created hd).2 (Nat.lt_irrefl _)
  have hno : (s.filter s.loc.filter).event ≠ some s.created := fun hd => Nat.lt_irrefl _ (h.filter _ _ hd).2.1
  have htaken : tally Pc.taken s.pc s.created = 0 := tally_eq_zero fun j hd => Nat.lt_irrefl _ (h.taken j _ hd)
  constructor
  case balance =>
    intro k hk
    by_cases hke : k = s.created
    · subst hke
      have hf : s.blockNext.filterShare s.created = 0 := by
        rw [St.filterShare, hnew]
        exact if_neg hno
      have ht : s.blockNext.timerShare s.created = if s.loc.sources = 3 then 1 else 0 := by
        rw [St.timerShare, hnew]
        change (if s.loc.sources = 3 then (s.timer s.created).share else 0) = _
        rw [hnone]
        rfl
      have hown : s.blockNext.ownShare s.created = 2 := if_pos rfl
      have hta : tally Pc.taken s.blockNext.pc s.created = 0 := htaken
      rw [St.out, hf, ht, hown, hta, hnew, List.count_nil]
      rcases sources_eq s.loc with ⟨h3, -⟩ | ⟨h2, -⟩
      · simp only [h3, if_pos]
      · simp only [h2, if_neg (show ¬ (2 = 3) by decide)]
    · have hlt : k < s.created := by
        have : k < s.created + 1 := hk
        omega
      have hb := h.balance k hlt
      have h0 : s.own.share = 0 := by rw [ho]; rfl
      have hown : s.blockNext.ownShare k = s.ownShare k :=
        (if_neg (Ne.symm hke)).trans (ownShare_eq_zero h0 k).symm
      rw [St.out, hown, St.filterShare, St.timerShare, hold hlt]
      exact hb
  case count =>
    intro k hk
    by_cases hke : k = s.created
    · rw [hke, hnew]
      refine ⟨rfl, (if_neg ?_).symm⟩
      rcases sources_eq s.loc with ⟨h3, -⟩ | ⟨h2, -⟩
      · simp only [h3]
        decide
      · simp only [h2]
        decide
    · have hlt : k < s.created := by
        have : k < s.created + 1 := hk
        omega
      rw [hold hlt]
      exact h.count k hlt
  case hand => exact fun k hk => by cases hk
  case filter =>
    intro id k hk
    obtain ⟨h1, h2, h3⟩ := h.filter id k hk
    rw [hold h2]
    exact ⟨h1, Nat.lt_succ_of_lt h2, h3⟩
  case taken => exact fun j k hk => Nat.lt_succ_of_lt (h.taken j k hk)
  case timed =>
    intro k hk
    obtain ⟨h1, h2⟩ := h.timed k hk
    rw [hold h2]
    exact ⟨h1, Nat.lt_succ_of_lt h2⟩

theorem Holder.block [Fintype ι] (h : Holder s) (hB : Books s []) (ho : s.own = .block) : Holder s.blockNext := by
  have hnew : s.blockNext.event s.created = ⟨s.loc.sources, s.loc.sources, 0, 0, s.loc.filter⟩ :=
    update_self _ _ _
  constructor
  case event =>
    intro _
    exact ⟨Nat.lt_succ_self _, congrArg Event.filter hnew⟩
  case untimed =>
    intro _
    refine ⟨?_, congrArg Event.initialRefcnt hnew⟩
    by_contra hd
    exact absurd (hB.timed s.created hd).2 (Nat.lt_irrefl _)
  case used => exact fun _ => h.used (by rw [ho]; rfl)
  case empty => exact fun _ => h.empty (by rw [ho]; rfl)
  case mine =>
    intro _ e he
    have hn := h.empty (by rw [ho]; rfl)
    change (s.filter s.loc.filter).event = some e at he
    rw [hn] at he
    cases he

/-- The store of the event in the filter. -/
def St.publishNext (s : St ι ν μ) : St ι ν μ :=
  { s with
    filter := update s.filter s.loc.filter { s.filter s.loc.filter with event := some s.loc.event }
    own := .set }

theorem Books.publish [Fintype ι] (h : Books s []) (hH : Holder s) (ho : s.own = .publish) :
    Books s.publishNext [] := by
  obtain ⟨hlt, hfil⟩ := hH.event (by rw [ho]; decide)
  have hnone := hH.empty (by rw [ho]; rfl)
  have hshare : ∀ k, s.publishNext.filterShare k + s.publishNext.ownShare k = s.filterShare k + s.ownShare k := by
    intro k
    have hown : s.ownShare k = if s.loc.event = k then 2 else 0 := by rw [St.ownShare, ho, Own.share]
    have hown' : s.publishNext.ownShare k = if s.loc.event = k then 1 else 0 := rfl
    rw [hown, hown', St.filterShare, St.filterShare]
    change (if (s.publishNext.filter (s.event k).filter).event = some k then 1 else 0) + _ = _
    by_cases hk : (s.event k).filter = s.loc.filter
    · have hsome : (s.publishNext.filter s.loc.filter).event = some s.loc.event := by
        simp only [St.publishNext, update_self]
      rw [hk, hsome, hnone]
      simp only [Option.some.injEq, reduceCtorEq, if_false]
      split <;> rfl
    · have hsame : s.publishNext.filter (s.event k).filter = s.filter (s.event k).filter := update_of_ne hk _ _
      have hne : s.loc.event ≠ k := by
        rintro rfl
        exact hk hfil
      rw [hsame, if_neg hne, if_neg hne]
  constructor
  case balance =>
    intro k hk
    have hb := h.balance k hk
    have hs := hshare k
    simp only [St.out] at hb ⊢
    change (s.event k).calls + (_ + tally Pc.taken s.pc k + s.timerShare k + _) + _ = (s.event k).initialRefcnt
    omega
  case count => exact h.count
  case hand => exact h.hand
  case filter =>
    intro id k hk
    by_cases hid : id = s.loc.filter
    · rw [hid] at hk
      simp only [St.publishNext, update_self] at hk
      obtain rfl := Option.some.inj hk
      exact ⟨hfil.trans hid.symm, hlt, hid ▸ hH.used (by rw [ho]; rfl)⟩
    · simp only [St.publishNext, update_of_ne hid] at hk
      exact h.filter id k hk
  case taken => exact h.taken
  case timed => exact h.timed

theorem Holder.publish (h : Holder s) (ho : s.own = .publish) : Holder s.publishNext := by
  constructor
  case event => exact fun _ => h.event (by rw [ho]; decide)
  case untimed => exact fun _ => h.untimed (by rw [ho]; rfl)
  case used => exact fun _ => h.used (by rw [ho]; rfl)
  case empty => exact fun hd => by cases hd
  case mine =>
    intro _ e he
    simp only [St.publishNext, update_self] at he
    exact (Option.some.inj he).symm

/-- The receiver releases the reference `e`, which is one of those that it has. -/
theorem Books.spend [Fintype ι] (h : Books s []) {o o' : Own} (hlt : s.loc.event < s.created) (ho : s.own = o)
    (hsh : o.share = o'.share + 1) : Books { s.dropEvent s.loc.event with own := o' } [] := by
  have hg : Books { s with own := o' } [s.loc.event] := by
    refine h.own rfl rfl rfl (fun _ => rfl) rfl (fun _ => id) (fun k hk => ?_) fun k => ?_
    · rw [List.mem_singleton.1 hk]
      exact hlt
    · simp only [St.ownShare, ho, hsh, List.count_singleton, beq_iff_eq, List.count_nil]
      split <;> rfl
  exact hg.drop

theorem Holder.spend (h : Holder s) {o o' : Own} (ho : s.own = o) (h0 : 0 < o.share) (hun : o'.untimed = false)
    (hho : o.holds = true) (hfr : o'.fresh = false) : Holder { s.dropEvent s.loc.event with own := o' } := by
  have hev := dropEvent_kept (s := s) (e := s.loc.event) s.loc.event
  subst ho
  constructor
  case event => exact fun _ => ⟨(h.event h0).1, hev.2.trans (h.event h0).2⟩
  case untimed => exact fun hd => by cases hun.symm.trans hd
  case used => exact fun _ => h.used hho
  case empty => exact fun hd => by cases hfr.symm.trans hd
  case mine => exact fun _ => h.mine h0

/-- `prs_timer_queue`, when there is a timeout. -/
def St.timerNext (s : St ι ν μ) : St ι ν μ :=
  { s with
    timer := if s.loc.timeoutActive then update s.timer s.loc.event (.queued false) else s.timer
    own := .schedule }

theorem Books.queue [Fintype ι] (h : Books s []) (hH : Holder s) (ho : s.own = .timer) :
    Books s.timerNext [] ∧ Holder s.timerNext := by
  obtain ⟨hlt, hfil⟩ := hH.event (by rw [ho]; decide)
  obtain ⟨hnone, hinit⟩ := hH.untimed (by rw [ho]; rfl)
  have hholder : Holder s.timerNext := by
    refine ⟨fun _ => ⟨hlt, hfil⟩, fun hd => (by cases hd), fun _ => hH.used (by rw [ho]; rfl),
      fun hd => (by cases hd), ?_⟩
    exact fun _ => hH.mine (by rw [ho]; decide)
  refine ⟨?_, hholder⟩
  rcases sources_eq s.loc with ⟨h3, hact⟩ | ⟨-, hact⟩
  · have ht : s.timerNext.timer = update s.timer s.loc.event (.queued false) := if_pos hact
    refine h.timer (hinit.trans h3) hlt rfl rfl rfl rfl rfl ht (fun k => ?_) (fun k hk => by cases hk) fun k => ?_
    · rw [St.ownShare, St.ownShare, ho]
      rfl
    · rw [hnone]
      rfl
  · have hown : s.timerNext = { s with own := .schedule } := by
      unfold St.timerNext
      rw [hact]
      rfl
    rw [hown]
    exact h.hold rfl rfl rfl rfl rfl rfl (by rw [ho]; rfl) rfl

/-- The exchange of `prs_msgq_free_event` has returned the event. -/
theorem Books.takeBack [Fintype ι] (h : Books s []) (hH : Holder s) {early : Bool} (ho : s.own = .exchange early)
    (he : (s.filter s.loc.filter).event = some e) :
    Books { s.clearEvent s.loc.filter with own := .unref early } [] ∧
      Holder { s.clearEvent s.loc.filter with own := .unref early } := by
  have h0 : 0 < s.own.share := by rw [ho]; exact Nat.one_pos
  obtain rfl := hH.mine h0 e he
  constructor
  · refine (h.clear he).own rfl rfl rfl (fun _ => rfl) rfl (fun _ => id) (fun k hk => by cases hk) fun k => ?_
    simp only [St.ownShare, St.clearEvent, ho, Own.share, List.count_singleton, beq_iff_eq, List.count_nil]
    split <;> rfl
  · refine ⟨fun _ => hH.event h0, fun hd => (by cases hd), fun _ => hH.used (by rw [ho]; rfl),
      fun hd => (by cases hd), ?_⟩
    intro _ k hk
    simp only [St.clearEvent, update_self] at hk
    cases hk

theorem Books.stepOwn [Fintype ι] [DecidableEq ι] [Fintype ν] [DecidableEq ν] (h : Books s []) (hH : Holder s)
    (hs : s.stepOwn = some s') : Books s' [] ∧ Holder s' := by
  cases ho : s.own <;> simp only [St.stepOwn, ho] at hs
  case search =>
    obtain ⟨r, -, rfl⟩ := Option.map_eq_some_iff.1 hs
    have h0 : s.own.share = 0 := by rw [ho]; rfl
    have hf : Books (s.found r) [] := h.free rfl rfl rfl rfl rfl rfl h0 h0
    exact ⟨hf.loop h0, .idle loop_frame.1⟩
  case block =>
    rw [← Option.some.inj hs]
    exact ⟨h.block ho, hH.block h ho⟩
  case publish =>
    rw [← Option.some.inj hs]
    exact ⟨h.publish hH ho, hH.publish ho⟩
  case again =>
    obtain ⟨r, -, rfl⟩ := Option.map_eq_some_iff.1 hs
    by_cases hr : r.2.1.isSome = true
    · exact h.stays hH ⟨rfl, rfl, rfl, rfl, rfl, rfl, rfl, rfl, rfl⟩ ho (if_pos hr) rfl (.inl rfl) rfl rfl
    · exact h.stays hH ⟨rfl, rfl, rfl, rfl, rfl, rfl, rfl, rfl, rfl⟩ ho (if_neg hr) rfl (.inr rfl) rfl rfl
  case timer =>
    rw [← Option.some.inj hs]
    exact h.queue hH ho
  case cause =>
    split at hs
    · obtain ⟨r, -, rfl⟩ := Option.map_eq_some_iff.1 hs
      exact h.stays hH ⟨rfl, rfl, rfl, rfl, rfl, rfl, rfl, rfl, rfl⟩ ho rfl rfl (.inl rfl) rfl rfl
    · rw [← Option.some.inj hs]
      exact h.stays hH ⟨rfl, rfl, rfl, rfl, rfl, rfl, rfl, rfl, rfl⟩ ho rfl rfl (.inl rfl) rfl rfl
  case exchange early =>
    split at hs
    · rename_i e he
      rw [← Option.some.inj hs]
      exact h.takeBack hH ho he
    · rw [← Option.some.inj hs]
      exact h.stays hH ⟨rfl, rfl, rfl, rfl, rfl, rfl, rfl, rfl, rfl⟩ ho rfl rfl (.inl rfl) rfl rfl
  case unref early =>
    rw [← Option.some.inj hs]
    have h0 : 0 < (Own.unref early).share := Nat.two_pos
    exact ⟨h.spend (hH.event (ho ▸ h0)).1 ho rfl, hH.spend ho h0 rfl rfl rfl⟩
  case signal early =>
    rw [← Option.some.inj hs]
    have h0 : 0 < (Own.signal early).share := Nat.one_pos
    exact ⟨h.spend (hH.event (ho ▸ h0)).1 ho rfl, hH.spend ho h0 rfl rfl rfl⟩
  case unblock early =>
    split at hs
    · rw [← Option.some.inj hs]
      exact h.stays hH ⟨rfl, rfl, rfl, rfl, rfl, rfl, rfl, rfl, rfl⟩ ho rfl rfl (.inl rfl) rfl rfl
    · rw [← Option.some.inj hs]
      cases early with
      | true => exact h.stays hH ⟨rfl, rfl, rfl, rfl, rfl, rfl, rfl, rfl, rfl⟩ ho rfl rfl (.inl rfl) rfl rfl
      | false => exact h.stays hH ⟨rfl, rfl, rfl, rfl, rfl, rfl, rfl, rfl, rfl⟩ ho rfl rfl (.inl rfl) rfl rfl
  case unlock =>
    rw [← Option.some.inj hs]
    have h0 : s.own.share = 0 := by rw [ho]; rfl
    split
    · exact ⟨h.free rfl rfl rfl rfl rfl rfl h0 rfl, .idle rfl⟩
    · have hu : Books { s with pd := (s.pd.unlock s.loc.filter).1 } [] := h.free rfl rfl rfl rfl rfl rfl h0 h0
      rw [ho] at hu
      exact ⟨hu.loop rfl, .idle loop_frame.1⟩
  case remove =>
    obtain ⟨n, -, hs⟩ := Option.bind_eq_some_iff.1 hs
    obtain ⟨q, -, rfl⟩ := Option.map_eq_some_iff.1 hs
    have h0 : s.own.share = 0 := by rw [ho]; rfl
    split
    · exact ⟨h.free rfl rfl rfl rfl rfl rfl h0 rfl, .idle rfl⟩
    · exact ⟨h.free rfl rfl rfl rfl rfl rfl h0 rfl, .idle rfl⟩
  case removing =>
    obtain ⟨n, -, hs⟩ := Option.bind_eq_some_iff.1 hs
    obtain ⟨q, -, rfl⟩ := Option.map_eq_some_iff.1 hs
    have h0 : s.own.share = 0 := by rw [ho]; rfl
    exact ⟨h.free rfl rfl rfl rfl rfl rfl h0 rfl, .idle rfl⟩
  all_goals
    repeat' split at hs
    all_goals
      first
      | rw [← Option.some.inj hs]
        exact h.stays hH ⟨rfl, rfl, rfl, rfl, rfl, rfl, rfl, rfl, rfl⟩ ho rfl rfl (.inl rfl) rfl rfl
      | rw [← Option.some.inj hs]
        exact h.stays hH ⟨rfl, rfl, rfl, rfl, rfl, rfl, rfl, rfl, rfl⟩ ho rfl rfl (.inr rfl) rfl rfl
      | cases hs

/-- `prs_msgq_filter_create`. -/
theorem Books.create [Fintype ι] (h : Books s []) (ho : s.own = .create) {id : ℕ} {pd : Pd}
    (ha : s.pd.alloc id = some pd) (f : Filter μ) (hf : f.event = none) (m : Local ν μ) (hm : m.filter = id) :
    Books { s with pd := pd, filter := update s.filter id f, loc := m, own := .block } [] ∧
      Holder { s with pd := pd, filter := update s.filter id f, loc := m, own := .block } := by
  obtain ⟨hu, rfl⟩ := Option.ite_none_left_eq_some.1 ha |>.imp_right Option.some.inj
  -- the id is new, so no filter with an event is overwritten
  have hnone : (s.filter id).event = none := by
    by_contra hd
    obtain ⟨e, he⟩ := Option.ne_none_iff_exists'.1 hd
    exact hu (h.filter id e he).2.2
  constructor
  · refine h.own rfl rfl rfl (fun k => ?_) rfl (fun k hk => ?_) (fun k hk => by cases hk) fun k => ?_
    · by_cases hk : k = id
      · simp only [hk, update_self, hf, hnone]
      · simp only [update_of_ne hk]
    · by_cases hki : k = id
      · simp only [hki, update_self]
      · simpa only [update_of_ne hki] using hk
    · rw [ownShare_eq_zero (s := s) (by rw [ho]; rfl)]
      exact congrArg (· + _) (ownShare_eq_zero rfl k)
  · refine ⟨fun hd => (by cases hd), fun hd => (by cases hd), fun _ => ?_, fun _ => ?_, fun hd => by cases hd⟩
    · simp only [hm, update_self]
    · simp only [hm, update_self, hf]

/-- A timeout request moves on without a call on its event. -/
theorem Books.request [Fintype ι] (h : Books s []) {t : Timer} (hne : s.timer e ≠ .none)
    (hsh : t.share = (s.timer e).share) (hpc : s'.pc = s.pc) (hev : s'.event = s.event)
    (hcr : s'.created = s.created) (hf : s'.filter = s.filter) (hu : s'.pd.used = s.pd.used)
    (htm : s'.timer = update s.timer e t) (ho : ∀ k, s'.ownShare k = s.ownShare k) :
    Books s' [] := by
  obtain ⟨h3, hlt⟩ := h.timed e hne
  exact h.timer h3 hlt hpc hev hcr hf hu htm ho (fun k hk => by cases hk) fun k => by rw [hsh]

/-- The clock thread calls `prs_event_signal` or `prs_event_unref`. -/
theorem Books.expire [Fintype ι] (h : Books s []) {t : Timer} (hne : s.timer e ≠ .none)
    (hsh : (s.timer e).share = t.share + 1) :
    Books { s.dropEvent e with timer := update s.timer e t } [] := by
  obtain ⟨h3, hlt⟩ := h.timed e hne
  have hg : Books { s with timer := update s.timer e t } [e] := by
    refine h.timer h3 hlt rfl rfl rfl rfl rfl rfl (fun _ => rfl) (fun k hk => ?_) fun k => ?_
    · rw [List.mem_singleton.1 hk]
      exact hlt
    · rw [hsh, List.count_singleton, List.count_nil]
      by_cases hk : k = e
      · rw [if_pos hk, if_pos hk, hk, beq_self_eq_true]
        rfl
      · rw [if_neg hk, if_neg hk, beq_eq_false_iff_ne.2 (Ne.symm hk)]
        rfl
  exact hg.drop

/-- A request that was queued stays so, for all that the receiver sees of it. -/
theorem timer_none_iff {t : Timer} (hne : s.timer e ≠ .none) (ht : t ≠ .none) (k : ℕ) :
    s.timer k = .none ↔ update s.timer e t k = .none := by
  by_cases hk : k = e
  · rw [hk, update_self]
    exact iff_of_false hne ht
  · rw [update_of_ne hk]

theorem Books.stepTimer [Fintype ι] (h : Books s []) (hs : s.stepTimer e = some s') :
    Books s' [] ∧ Elsewhere s s' := by
  cases ht : s.timer e <;> simp only [St.stepTimer, ht] at hs
  case signal =>
    rw [← Option.some.inj hs]
    have hne : s.timer e ≠ .none := by rw [ht]; decide
    exact ⟨h.expire hne (by rw [ht]; rfl), rfl, rfl, rfl, dropEvent_kept, fun _ => .inr rfl, rfl,
      timer_none_iff hne (by decide)⟩
  case unref =>
    rw [← Option.some.inj hs]
    have hne : s.timer e ≠ .none := by rw [ht]; decide
    exact ⟨h.expire hne (by rw [ht]; rfl), rfl, rfl, rfl, dropEvent_kept, fun _ => .inr rfl, rfl,
      timer_none_iff hne (by decide)⟩
  case unblock =>
    have hne : s.timer e ≠ .none := by rw [ht]; decide
    split at hs
    · rw [← Option.some.inj hs]
      exact ⟨h.request hne (by rw [ht]; rfl) rfl rfl rfl rfl rfl rfl fun _ => rfl, rfl, rfl, rfl,
        fun _ => ⟨rfl, rfl⟩, fun _ => .inr rfl, rfl, timer_none_iff hne (by decide)⟩
    · rw [← Option.some.inj hs]
      exact ⟨h.request hne (by rw [ht]; rfl) rfl rfl rfl rfl rfl rfl fun _ => rfl, rfl, rfl, rfl,
        fun _ => ⟨rfl, rfl⟩, fun _ => .inr rfl, rfl, timer_none_iff hne (by decide)⟩
  case ready =>
    have hne : s.timer e ≠ .none := by rw [ht]; decide
    rw [← Option.some.inj hs]
    exact ⟨h.request hne (by rw [ht]; rfl) rfl rfl rfl rfl rfl rfl fun _ => rfl, rfl, rfl, rfl,
      fun _ => ⟨rfl, rfl⟩, fun _ => .inr rfl, rfl, timer_none_iff hne (by decide)⟩
  all_goals cases hs

theorem cancel_share (t : Timer) : t.cancel.share = t.share := by
  cases t <;> rfl

theorem cancel_eq_none {t : Timer} (h : t.cancel = .none) : t = .none := by
  cases t <;> first | rfl | cases h

theorem Books.step [Fintype ι] [DecidableEq ι] [Fintype ν] [DecidableEq ν] (h : Books s []) (hH : Holder s)
    {a : Act ι ν μ} (hs : s.step a = some s') : Books s' [] ∧ Holder s' := by
  cases a <;> simp only [St.step] at hs
  case write n m =>
    obtain ⟨-, rfl⟩ := Option.ite_none_right_eq_some.1 hs |>.imp_right Option.some.inj
    exact ⟨{ h with }, hH.elsewhere (.same rfl rfl rfl rfl rfl rfl rfl)⟩
  case send i n =>
    obtain ⟨hi, hs⟩ := Option.ite_none_right_eq_some.1 hs
    obtain ⟨q, -, rfl⟩ := Option.map_eq_some_iff.1 hs
    exact ⟨h.goto rfl rfl rfl rfl rfl rfl rfl rfl (by rw [hi]; rfl),
      hH.elsewhere (.same rfl rfl rfl rfl rfl rfl rfl)⟩
  case step i c => exact ⟨h.send hs, hH.elsewhere (stepSend_elsewhere hs)⟩
  case recv f u t =>
    obtain ⟨ho, rfl⟩ := Option.ite_none_right_eq_some.1 hs |>.imp_right Option.some.inj
    exact ⟨h.free rfl rfl rfl rfl rfl rfl (by rw [ho]; rfl) rfl, .idle rfl⟩
  case own => exact h.stepOwn hH hs
  case create id =>
    obtain ⟨⟨ho, -⟩, hs⟩ := Option.ite_none_right_eq_some.1 hs
    obtain ⟨pd, ha, rfl⟩ := Option.map_eq_some_iff.1 hs
    exact h.create ho ha _ rfl _ rfl
  case woken d =>
    obtain ⟨ho, hs⟩ := Option.ite_none_right_eq_some.1 hs
    split at hs
    · rw [← Option.some.inj hs]
      refine ⟨?_, fun _ => hH.event (by rw [ho]; decide), fun hd => (by cases hd),
        fun _ => hH.used (by rw [ho]; rfl), fun hd => (by cases hd), fun _ => hH.mine (by rw [ho]; decide)⟩
      by_cases hne : s.timer s.loc.event = .none
      · have ht : update s.timer s.loc.event (s.timer s.loc.event).cancel = s.timer := by
          have hc : Timer.none.cancel = .none := rfl
          rw [hne, hc, ← hne, update_eq_self]
        exact h.hold rfl rfl rfl rfl ht rfl (by rw [ho]; rfl) rfl
      · refine h.request hne (cancel_share _) rfl rfl rfl rfl rfl rfl fun k => ?_
        rw [St.ownShare, St.ownShare, ho]
        rfl
    · rw [← Option.some.inj hs]
      exact h.stays hH ⟨rfl, rfl, rfl, rfl, rfl, rfl, rfl, rfl, rfl⟩ ho rfl rfl (.inl rfl) rfl rfl
  case expire e =>
    split at hs
    · rename_i c ht
      have hne : s.timer e ≠ .none := by rw [ht]; exact fun hd => by cases hd
      rw [← Option.some.inj hs]
      refine ⟨h.request hne (by rw [ht]; rfl) rfl rfl rfl rfl rfl rfl fun _ => rfl, hH.elsewhere ?_⟩
      exact ⟨rfl, rfl, rfl, fun _ => ⟨rfl, rfl⟩, fun _ => .inr rfl, rfl, timer_none_iff hne (by decide)⟩
    · cases hs
  case discard e =>
    obtain ⟨ht, rfl⟩ := Option.ite_none_right_eq_some.1 hs |>.imp_right Option.some.inj
    have hne : s.timer e ≠ .none := by rw [ht]; decide
    refine ⟨h.request hne (by rw [ht]; rfl) rfl rfl rfl rfl rfl rfl fun _ => rfl, hH.elsewhere ?_⟩
    exact ⟨rfl, rfl, rfl, fun _ => ⟨rfl, rfl⟩, fun _ => .inr rfl, rfl, timer_none_iff hne (by decide)⟩
  case timer e =>
    obtain ⟨hB, hE⟩ := h.stepTimer hs
    exact ⟨hB, hH.elsewhere hE⟩

/-! ## The event in the filter -/

/-- The receiver has stored its event in the filter and not tried to take it back. -/
def Own.stored : Own → Bool
  | .set => true
  | .again => true
  | .timer => true
  | .schedule => true
  | .woken => true
  | .cause => true
  | .exchange _ => true
  | _ => false

/-- **The event in a filter** is there while the receiver waits for it, and in no other filter. -/
def Stored (s : St ι ν μ) : Prop := ∀ id e, (s.filter id).event = some e → s.own.stored = true ∧ s.loc.filter = id

theorem Stored.keep (h : Stored s) (hf : ∀ id, (s'.filter id).event = none ∨
    (s'.filter id).event = (s.filter id).event) (hst : s.own.stored = true → s'.own.stored = true ∧
    s'.loc.filter = s.loc.filter) : Stored s' := by
  intro id e he
  rcases hf id with hn | hn
  · rw [hn] at he
    cases he
  · obtain ⟨h1, h2⟩ := h id e (hn ▸ he)
    exact ⟨(hst h1).1, (hst h1).2.trans h2⟩

theorem Stored.elsewhere (h : Stored s) (hs : Elsewhere s s') : Stored s' :=
  h.keep hs.filter fun hd => by rw [hs.own, hs.loc]; exact ⟨hd, rfl⟩

/-- The receiver had no event in its filter. -/
theorem Stored.none (h : Stored s) {o : Own} (ho : s.own = o) (hst : o.stored = false)
    (hf : ∀ id, (s'.filter id).event = .none ∨ (s'.filter id).event = (s.filter id).event) : Stored s' :=
  h.keep hf fun hd => by rw [ho, hst] at hd; cases hd

theorem Stored.stepOwn [Fintype ι] [DecidableEq ι] [Fintype ν] [DecidableEq ν] (h : Stored s)
    (hs : s.stepOwn = some s') : Stored s' := by
  cases ho : s.own <;> simp only [St.stepOwn, ho] at hs
  case search =>
    obtain ⟨r, -, rfl⟩ := Option.map_eq_some_iff.1 hs
    exact h.none ho rfl fun _ => by rw [loop_frame.2.2.2.2.1]; exact .inr rfl
  case publish =>
    rw [← Option.some.inj hs]
    intro id e he
    by_cases hid : id = s.loc.filter
    · exact ⟨rfl, hid.symm⟩
    · simp only [update_of_ne hid] at he
      have hst := (h id e he).1
      rw [ho] at hst
      cases hst
  case again =>
    obtain ⟨r, -, rfl⟩ := Option.map_eq_some_iff.1 hs
    refine h.keep (fun _ => .inr rfl) fun _ => ⟨?_, rfl⟩
    simp only
    split <;> rfl
  case cause =>
    split at hs
    · obtain ⟨r, -, rfl⟩ := Option.map_eq_some_iff.1 hs
      exact h.keep (fun _ => .inr rfl) fun _ => ⟨rfl, rfl⟩
    · rw [← Option.some.inj hs]
      exact h.keep (fun _ => .inr rfl) fun _ => ⟨rfl, rfl⟩
  case exchange early =>
    split at hs
    · rw [← Option.some.inj hs]
      intro id e he
      rcases clearEvent_event (s := s) s.loc.filter id with hn | hn
      · exact absurd (hn.symm.trans he) (fun hd => by cases hd)
      · obtain ⟨-, rfl⟩ := h id e (hn ▸ he)
        simp only [St.clearEvent, update_self] at he
        cases he
    · rename_i hnone
      rw [← Option.some.inj hs]
      intro id e he
      obtain ⟨-, rfl⟩ := h id e he
      rw [hnone] at he
      cases he
  case unlock =>
    rw [← Option.some.inj hs]
    split
    · exact h.none ho rfl fun _ => .inr rfl
    · exact h.none ho rfl fun _ => by rw [loop_frame.2.2.2.2.1]; exact .inr rfl
  case remove =>
    obtain ⟨n, -, hs⟩ := Option.bind_eq_some_iff.1 hs
    obtain ⟨q, -, rfl⟩ := Option.map_eq_some_iff.1 hs
    split
    · exact h.none ho rfl fun _ => .inr rfl
    · exact h.none ho rfl fun _ => .inr rfl
  case removing =>
    obtain ⟨n, -, hs⟩ := Option.bind_eq_some_iff.1 hs
    obtain ⟨q, -, rfl⟩ := Option.map_eq_some_iff.1 hs
    exact h.none ho rfl fun _ => .inr rfl
  all_goals
    repeat' split at hs
    all_goals
      first
      | rw [← Option.some.inj hs]
        exact h.none ho rfl fun _ => .inr rfl
      | rw [← Option.some.inj hs]
        exact h.keep (fun _ => .inr rfl) fun _ => ⟨rfl, rfl⟩
      | cases hs

theorem Stored.step [Fintype ι] [DecidableEq ι] [Fintype ν] [DecidableEq ν] (h : Stored s) (hB : Books s [])
    {a : Act ι ν μ} (hs : s.step a = some s') : Stored s' := by
  cases a <;> simp only [St.step] at hs
  case send i n =>
    obtain ⟨-, hs⟩ := Option.ite_none_right_eq_some.1 hs
    obtain ⟨q, -, rfl⟩ := Option.map_eq_some_iff.1 hs
    exact h.elsewhere (.same rfl rfl rfl rfl rfl rfl rfl)
  case step i c => exact h.elsewhere (stepSend_elsewhere hs)
  case own => exact h.stepOwn hs
  case create id =>
    obtain ⟨⟨ho, -⟩, hs⟩ := Option.ite_none_right_eq_some.1 hs
    obtain ⟨pd, -, rfl⟩ := Option.map_eq_some_iff.1 hs
    refine h.none ho rfl fun k => ?_
    by_cases hk : k = id
    · exact .inl (by simp only [hk, update_self])
    · exact .inr (by simp only [update_of_ne hk])
  case timer e => exact h.elsewhere (hB.stepTimer hs).2
  all_goals
    repeat' split at hs
    all_goals
      first
      | rw [← Option.some.inj hs]
        exact h.keep (fun _ => .inr rfl) fun hd => ⟨hd, rfl⟩
      | rw [← Option.some.inj hs]
        exact h.keep (fun _ => .inr rfl) fun _ => ⟨rfl, rfl⟩
      | rename_i ho
        rw [← Option.some.inj hs]
        exact h.none ho rfl fun _ => .inr rfl
      | cases hs

/-! ## The request of an event with a timeout -/

/-- **Every timeout is requested**: an event with a reference for the timer has its request, unless the
receiver has still to queue it. -/
def Timely (s : St ι ν μ) : Prop :=
  ∀ e < s.created, (s.event e).initialRefcnt = 3 → s.timer e = .none → s.own.untimed = true ∧ s.loc.event = e

/-- The step is one of the receiver. -/
def Act.owns : Act ι ν μ → Bool
  | .own => true
  | _ => false

/-- The condition on a step: when the search after `prs_msgq_filter_set` finds a message, there is no timeout. -/
def St.Waits (s : St ι ν μ) (a : Act ι ν μ) : Prop :=
  a.owns = true → s.own = .again → s.loc.timeoutActive = true → (s.box.oldest s.loc.function).isNone = true

instance (a : Act ι ν μ) : Decidable (s.Waits a) := inferInstanceAs (Decidable (_ → _ → _ → _))

theorem Timely.elsewhere (h : Timely s) (hs : Elsewhere s s') : Timely s' := by
  intro e he h3 hn
  rw [hs.created] at he
  rw [(hs.event e).1] at h3
  rw [hs.own, hs.loc]
  exact h e he h3 ((hs.timer e).2 hn)

/-- The receiver goes on: either it has still to queue the request, or the event needs none, or has one. -/
theorem Timely.onward (h : Timely s) (hcr : s'.created = s.created)
    (hev : ∀ e, (s'.event e).initialRefcnt = (s.event e).initialRefcnt)
    (ht : ∀ e, s'.timer e = .none → s.timer e = .none)
    (hun : s.own.untimed = true → (s'.own.untimed = true ∧ s'.loc.event = s.loc.event) ∨
      ((s.event s.loc.event).initialRefcnt = 3 → s'.timer s.loc.event ≠ .none)) : Timely s' := by
  intro e he h3 hn
  rw [hcr] at he
  rw [hev] at h3
  obtain ⟨hu, rfl⟩ := h e he h3 (ht e hn)
  rcases hun hu with hd | hd
  · exact hd
  · exact absurd hn (hd h3)

/-- The receiver is not between the creation of its event and the request. -/
theorem Timely.past (h : Timely s) {o : Own} (ho : s.own = o) (hu : o.untimed = false)
    (hcr : s'.created = s.created) (hev : ∀ e, (s'.event e).initialRefcnt = (s.event e).initialRefcnt)
    (ht : ∀ e, s'.timer e = .none → s.timer e = .none) :
    Timely s' :=
  h.onward hcr hev ht fun hd => by rw [ho, hu] at hd; cases hd

theorem Timely.stepOwn [Fintype ι] [DecidableEq ι] [Fintype ν] [DecidableEq ν] (h : Timely s) (hH : Holder s)
    (hS : Sound s) (hw : s.Waits .own) (hs : s.stepOwn = some s') :
    Timely s' := by
  cases ho : s.own <;> simp only [St.stepOwn, ho] at hs
  case search =>
    obtain ⟨r, -, rfl⟩ := Option.map_eq_some_iff.1 hs
    obtain ⟨-, -, hev, hcr, -, ht, -⟩ := loop_frame (s := s.found r)
    exact h.past ho rfl hcr (fun e => by rw [hev]; rfl) fun e he => by rwa [ht] at he
  case block =>
    rw [← Option.some.inj hs]
    intro e he h3 hn
    by_cases hk : e = s.created
    · exact ⟨rfl, hk.symm⟩
    · have hlt : e < s.created := by
        have : e < s.created + 1 := he
        omega
      simp only [update_of_ne hk] at h3
      have hu := (h e hlt h3 hn).1
      rw [ho] at hu
      cases hu
  case publish =>
    rw [← Option.some.inj hs]
    exact h.onward rfl (fun _ => rfl) (fun _ he => he) fun _ => .inl ⟨rfl, rfl⟩
  case set =>
    rw [← Option.some.inj hs]
    exact h.onward rfl (fun _ => rfl) (fun _ he => he) fun _ => .inl ⟨rfl, rfl⟩
  case again =>
    obtain ⟨r, hr, rfl⟩ := Option.map_eq_some_iff.1 hs
    refine h.onward rfl (fun _ => rfl) (fun _ he => he) fun _ => ?_
    by_cases hsome : r.2.1.isSome = true
    · refine .inr fun h3 => ?_
      obtain ⟨-, hinit⟩ := hH.untimed (by rw [ho]; rfl)
      rcases sources_eq s.loc with ⟨-, hact⟩ | ⟨h2, -⟩
      · -- the search has found a message although there is a timeout
        obtain ⟨r', hr', hold, -⟩ := hS.mail.search (hS.removing_none (by rw [ho]; decide))
        obtain rfl := Option.some.inj (hr.symm.trans hr')
        rw [hold, Option.isNone_iff_eq_none.1 (hw rfl ho hact)] at hsome
        cases hsome
      · rw [hinit, h2] at h3
        cases h3
    · refine .inl ⟨?_, rfl⟩
      simp only [if_neg hsome]
      rfl
  case timer =>
    rw [← Option.some.inj hs]
    refine h.onward rfl (fun _ => rfl) (fun e he => ?_) fun _ => .inr fun h3 => ?_
    · simp only at he
      split at he
      · by_cases hk : e = s.loc.event
        · rw [hk, update_self] at he
          cases he
        · rwa [update_of_ne hk] at he
      · exact he
    · obtain ⟨-, hinit⟩ := hH.untimed (by rw [ho]; rfl)
      rcases sources_eq s.loc with ⟨-, hact⟩ | ⟨h2, -⟩
      · simp only [hact, if_true, update_self]
        exact fun hd => by cases hd
      · rw [hinit, h2] at h3
        cases h3
  case cause =>
    split at hs
    · obtain ⟨r, -, rfl⟩ := Option.map_eq_some_iff.1 hs
      exact h.past ho rfl rfl (fun _ => rfl) fun _ he => he
    · rw [← Option.some.inj hs]
      exact h.past ho rfl rfl (fun _ => rfl) fun _ he => he
  case unref early =>
    rw [← Option.some.inj hs]
    exact h.past ho rfl rfl (fun k => (dropEvent_kept k).1) fun _ he => he
  case signal early =>
    rw [← Option.some.inj hs]
    exact h.past ho rfl rfl (fun k => (dropEvent_kept k).1) fun _ he => he
  case unlock =>
    rw [← Option.some.inj hs]
    split
    · exact h.past ho rfl rfl (fun _ => rfl) fun _ he => he
    · obtain ⟨-, -, hev, hcr, -, ht, -⟩ := loop_frame
        (s := { s with pd := (s.pd.unlock s.loc.filter).1, own := .unlock })
      exact h.past ho rfl hcr (fun e => by rw [hev]) fun e he => by rwa [ht] at he
  case remove =>
    obtain ⟨n, -, hs⟩ := Option.bind_eq_some_iff.1 hs
    obtain ⟨q, -, rfl⟩ := Option.map_eq_some_iff.1 hs
    split
    · exact h.past ho rfl rfl (fun _ => rfl) fun _ he => he
    · exact h.past ho rfl rfl (fun _ => rfl) fun _ he => he
  case removing =>
    obtain ⟨n, -, hs⟩ := Option.bind_eq_some_iff.1 hs
    obtain ⟨q, -, rfl⟩ := Option.map_eq_some_iff.1 hs
    exact h.past ho rfl rfl (fun _ => rfl) fun _ he => he
  all_goals
    repeat' split at hs
    all_goals
      first
      | rw [← Option.some.inj hs]
        exact h.past ho rfl rfl (fun _ => rfl) fun _ he => he
      | cases hs

theorem Timely.step [Fintype ι] [DecidableEq ι] [Fintype ν] [DecidableEq ν] (h : Timely s) (hB : Books s [])
    (hH : Holder s) (hS : Sound s) {a : Act ι ν μ} (hw : s.Waits a) (hs : s.step a = some s') : Timely s' := by
  cases a <;> simp only [St.step] at hs
  case write n m =>
    obtain ⟨-, rfl⟩ := Option.ite_none_right_eq_some.1 hs |>.imp_right Option.some.inj
    exact h.elsewhere (.same rfl rfl rfl rfl rfl rfl rfl)
  case send i n =>
    obtain ⟨-, hs⟩ := Option.ite_none_right_eq_some.1 hs
    obtain ⟨q, -, rfl⟩ := Option.map_eq_some_iff.1 hs
    exact h.elsewhere (.same rfl rfl rfl rfl rfl rfl rfl)
  case step i c => exact h.elsewhere (stepSend_elsewhere hs)
  case recv f u t =>
    obtain ⟨ho, rfl⟩ := Option.ite_none_right_eq_some.1 hs |>.imp_right Option.some.inj
    exact h.past ho rfl rfl (fun _ => rfl) fun _ he => he
  case own => exact h.stepOwn hH hS hw hs
  case create id =>
    obtain ⟨⟨ho, -⟩, hs⟩ := Option.ite_none_right_eq_some.1 hs
    obtain ⟨pd, -, rfl⟩ := Option.map_eq_some_iff.1 hs
    exact h.past ho rfl rfl (fun _ => rfl) fun _ he => he
  case woken d =>
    obtain ⟨ho, hs⟩ := Option.ite_none_right_eq_some.1 hs
    split at hs
    · rw [← Option.some.inj hs]
      refine h.past ho rfl rfl (fun _ => rfl) fun e he => ?_
      by_cases hk : e = s.loc.event
      · simp only [hk, update_self] at he ⊢
        exact cancel_eq_none he
      · simpa only [update_of_ne hk] using he
    · rw [← Option.some.inj hs]
      exact h.past ho rfl rfl (fun _ => rfl) fun _ he => he
  case expire e =>
    split at hs
    · rename_i c ht
      rw [← Option.some.inj hs]
      have hne : s.timer e ≠ .none := by rw [ht]; exact fun hd => by cases hd
      exact h.elsewhere ⟨rfl, rfl, rfl, fun _ => ⟨rfl, rfl⟩, fun _ => .inr rfl, rfl,
        timer_none_iff hne (by decide)⟩
    · cases hs
  case discard e =>
    obtain ⟨ht, rfl⟩ := Option.ite_none_right_eq_some.1 hs |>.imp_right Option.some.inj
    have hne : s.timer e ≠ .none := by rw [ht]; decide
    exact h.elsewhere ⟨rfl, rfl, rfl, fun _ => ⟨rfl, rfl⟩, fun _ => .inr rfl, rfl, timer_none_iff hne (by decide)⟩
  case timer e => exact h.elsewhere (hB.stepTimer hs).2

theorem share_of_stored {o : Own} (h : o.stored = true) : 0 < o.share := by
  cases o <;> first | exact Nat.one_pos | cases h

theorem share_of_untimed {o : Own} (h : o.untimed = true) : 0 < o.share := by
  cases o <;> first | exact Nat.one_pos | exact Nat.two_pos | cases h

/-! ## The result -/

/-- The receive that has created event `e` has returned, or has gone on to another event, and the timeout
request of `e` was retired, if there was one. -/
def St.Over (s : St ι ν μ) (e : ℕ) : Prop :=
  e < s.created ∧ (0 < s.own.share → s.loc.event ≠ e) ∧ (s.timer e = .none ∨ s.timer e = .retired)

instance : Decidable (s.Over e) := inferInstanceAs (Decidable (_ ∧ _))

/-- **The events are freed.** In every run in which the search after `prs_msgq_filter_set` finds a message
only when there is no timeout: when all sends have returned, the receive is over and its timeout request is
retired, the calls of `prs_event_signal` and `prs_event_unref` on an event are as many as its initial
reference count, and it was freed once. -/
theorem events_freed [Fintype ι] [DecidableEq ι] [Fintype ν] [DecidableEq ν] {data : ν → μ}
    (h : (sys ι ν μ data).Reach St.Waits s) (hq : s.Returned) (ho : s.Over e) :
    (s.event e).calls = (s.event e).initialRefcnt ∧ (s.event e).frees = 1 := by
  have hI : Sound s ∧ Books s [] ∧ Holder s ∧ Stored s ∧ Timely s := by
    refine h.inv (I := fun s => Sound s ∧ Books s [] ∧ Holder s ∧ Stored s ∧ Timely s) ?_ ?_
    · rintro _ rfl
      exact ⟨sound_init data, books_init data, .idle rfl, fun id e he => (by cases he),
        fun e he => absurd he (Nat.not_lt_zero e)⟩
    · rintro s a s' ⟨hS, hB, hH, hst, hT⟩ hw hs
      exact ⟨hS.step hs, (hB.step hH hs).1, (hB.step hH hs).2, hst.step hB hs, hT.step hB hH hS hw hs⟩
  obtain ⟨-, hB, hH, hst, hT⟩ := hI
  obtain ⟨hlt, hown, htimer⟩ := ho
  -- no reference is out
  have hshare : s.ownShare e = 0 := by
    by_cases h0 : 0 < s.own.share
    · exact if_neg (hown h0)
    · exact ownShare_eq_zero (Nat.eq_zero_of_not_pos h0) e
  have htaken : tally Pc.taken s.pc e = 0 := tally_eq_zero fun j => by rw [hq j]; exact List.not_mem_nil
  have hfilter : s.filterShare e = 0 := by
    refine if_neg fun hf => ?_
    obtain ⟨hs, hid⟩ := hst _ e hf
    have hpos := share_of_stored hs
    exact hown hpos (hH.mine hpos e (hid ▸ hf)).symm
  have htime : s.timerShare e = 0 := by
    unfold St.timerShare
    split
    · rename_i h3
      rcases htimer with hn | hn
      · obtain ⟨hu, hl⟩ := hT e hlt h3 hn
        exact absurd hl (hown (share_of_untimed hu))
      · rw [hn]
        rfl
    · rfl
  have hb := hB.balance e hlt
  obtain ⟨hc, hfr⟩ := hB.count e hlt
  rw [St.out, hshare, htaken, hfilter, htime, List.count_nil] at hb
  refine ⟨hb, ?_⟩
  rw [hfr, if_pos (by omega)]

/-- A receive with a timeout is woken by a sender; the receiver cancels its timeout request, and the clock
thread retires it. -/
theorem events_freed_timeout : ∃ s, (sys (Fin 1) (Fin 1) (Fin 1) id).Reach St.Waits s ∧ s.Returned ∧ s.Over 0 ∧
    s.own = .idle ∧ (s.event 0).initialRefcnt = 3 ∧ (s.event 0).calls = 3 ∧ (s.event 0).frees = 1 := by
  obtain ⟨s, hs, hq, hov, ho, h3⟩ := System.exists_of_check (sys (Fin 1) (Fin 1) (Fin 1) id) St.Waits
    (fun s => s.Returned ∧ s.Over 0 ∧ s.own = .idle ∧ (s.event 0).initialRefcnt = 3) (.init id) rfl
    (List.flatten [[.recv none true 5, .own, .create 1], List.replicate 5 .own,
      .send 0 0 :: List.replicate 10 (.step 0 false), [.own, .woken 1], List.replicate 8 .own,
      [.discard 0, .timer 0]]) (by decide +kernel)
  obtain ⟨hc, hf⟩ := events_freed hs hq hov
  exact ⟨s, hs, hq, hov, ho, h3, hc.trans h3, hf⟩

/-- **An event is leaked.** A message arrives after the first search of a receive with a timeout, and the
second search finds it: the event has three references, the timeout is never requested, and two calls are made
on the event. -/
theorem event_leaked : ∃ s, (sys (Fin 1) (Fin 1) (Fin 1) id).Reachable s ∧ s.Returned ∧ s.Over 0 ∧ s.own = .idle ∧
    (s.event 0).initialRefcnt = 3 ∧ (s.event 0).calls = 2 ∧ (s.event 0).frees = 0 := by
  exact System.exists_of_check (sys (Fin 1) (Fin 1) (Fin 1) id) (fun _ _ => True)
    (fun s => s.Returned ∧ s.Over 0 ∧ s.own = .idle ∧ (s.event 0).initialRefcnt = 3 ∧ (s.event 0).calls = 2 ∧
      (s.event 0).frees = 0) (.init id) rfl
    (List.flatten [[.recv none true 5, .own, .send 0 0], List.replicate 4 (.step 0 false),
      .create 1 :: List.replicate 12 .own])
    (by decide +kernel)

end Prs.Msgq
