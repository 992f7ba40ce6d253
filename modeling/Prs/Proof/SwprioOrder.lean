import Mathlib.Data.Fin.Tuple.Basic
import Prs.Lib.Priority
import Prs.Model.Swprio

/-!
# The ready queues are one ordered list

The tasks that wait in the ready queues and were not removed are a list in the order of their arrival
(`St.waiting`). The queues, the mask and the late removal do not show: `prs_sched_swprio_get_next` acts on
that list.

* `Inv`: what holds between calls. A task that was not removed waits iff it is `PRS_TASK_STATE_READY`, and it
  waits once.
* `scan_spec`: the loop over `removeq` leaves the list as it is.
* `search_spec`: the loop over the mask finds the first queue that has a task.
* `priority_scheduling`: what `prs_sched_swprio_get_next` returns in every run, and what it leaves.
-/

namespace Prs.Swprio

open Function

variable {τ : Type} [DecidableEq τ] {s s' : St τ} {q : Sched τ} {p : Prio} {t c : τ}

/-! ## The mask -/

theorem bit_getLsbD (p p' : Prio) : (bit p).getLsbD p' = decide (p = p') := by
  revert p p'
  decide +kernel

theorem lsb_eq_some {mask : BitVec 32} :
    lsb mask = some p ↔ mask.getLsbD p = true ∧ ∀ p' < p, mask.getLsbD p' = false := by
  unfold lsb
  exact Fin.find?_eq_some_iff

theorem lsb_eq_none {mask : BitVec 32} : lsb mask = none ↔ ∀ p : Prio, mask.getLsbD p = false := by
  unfold lsb
  exact Fin.find?_eq_none_iff

theorem getLsbD_set (mask : BitVec 32) (p p' : Prio) :
    (mask ||| bit p).getLsbD p' = (mask.getLsbD p' || decide (p = p')) := by
  rw [BitVec.getLsbD_or, bit_getLsbD]

theorem getLsbD_clear (mask : BitVec 32) (p p' : Prio) :
    (mask &&& ~~~bit p).getLsbD p' = (mask.getLsbD p' && decide (p ≠ p')) := by
  rw [BitVec.getLsbD_and, BitVec.getLsbD_not, bit_getLsbD]
  simp

/-- The mask has the queues that are not empty. -/
def Sched.Covers (q : Sched τ) (mask : BitVec 32) : Prop := ∀ p, q.readyq p ≠ [] → mask.getLsbD p = true

omit [DecidableEq τ] in
theorem Sched.Covers.clear {mask : BitVec 32} (h : q.Covers mask) (hp : q.readyq p = []) :
    q.Covers (mask &&& ~~~bit p) := by
  intro p' hp'
  have hne : p ≠ p' := by
    rintro rfl
    exact hp' hp
  rw [getLsbD_clear, h p' hp', decide_eq_true hne]
  rfl

omit [DecidableEq τ] in
theorem Sched.Covers.set {mask : BitVec 32} (h : ∀ p', p' ≠ p → q.readyq p' ≠ [] → mask.getLsbD p' = true) :
    q.Covers (mask ||| bit p) := by
  intro p' hp'
  rw [getLsbD_set]
  by_cases hpp : p = p'
  · rw [decide_eq_true hpp, Bool.or_true]
  · rw [h p' (Ne.symm hpp) hp', Bool.true_or]

/-- What the loop over the mask returns: the first queue that has a task. -/
structure Found (q : Sched τ) (r : Sched τ × Option Prio) : Prop where
  readyq : r.1.readyq = q.readyq
  removeq : r.1.removeq = q.removeq
  covers : r.1.Covers r.1.readyMask
  first : ∀ p, r.2 = some p → q.readyq p ≠ [] ∧ ∀ p' < p, q.readyq p' = []
  empty : r.2 = none → ∀ p, q.readyq p = []

omit [DecidableEq τ] in
/-- **The loop over the mask.** Every turn clears the lowest bit, so that after `32 - n` turns the bits below are
clear. -/
theorem search_spec {n : ℕ} {mask : BitVec 32} (hmask : q.Covers mask) (hq : q.Covers q.readyMask)
    (hlow : ∀ p : Prio, p.val < 32 - n → mask.getLsbD p = false) : Found q (q.search n mask) := by
  induction n generalizing mask q with
  | zero =>
    rw [Sched.search]
    refine ⟨rfl, rfl, hq, fun p hp => (by cases hp), fun _ p => ?_⟩
    by_contra hne
    have := hmask p hne
    rw [hlow p p.isLt] at this
    cases this
  | succ n ih =>
    unfold Sched.search
    split
    case h_1 hlsb =>
      refine ⟨rfl, rfl, hq, fun p hp => (by cases hp), fun _ p => ?_⟩
      by_contra hne
      have := hmask p hne
      rw [lsb_eq_none.1 hlsb p] at this
      cases this
    case h_2 p hlsb =>
      obtain ⟨hp, hmin⟩ := lsb_eq_some.1 hlsb
      have hempty : ∀ p' < p, q.readyq p' = [] := fun p' hp' => by
        by_contra hne
        have := hmask p' hne
        rw [hmin p' hp'] at this
        cases this
      split
      case isFalse hne =>
        refine ⟨rfl, rfl, hq, fun p' hp' => ?_, fun hnone => by cases hnone⟩
        obtain rfl := Option.some.inj hp'
        exact ⟨hne, hempty⟩
      case isTrue hnil =>
        have hnil' : (q.clearMask p).readyq p = [] := hnil
        simp only [hnil', if_true]
        have hrec : Found (q.clearMask p) ((q.clearMask p).search n (mask &&& ~~~bit p)) := by
          refine ih (hmask.clear hnil) (hq.clear hnil) fun p' hp' => ?_
          rw [getLsbD_clear]
          by_cases hpp : p = p'
          · simp [hpp]
          · -- the lowest bit was not below `32 - (n + 1)`
            have hge : 32 - (n + 1) ≤ p.val := by
              by_contra hlt
              rw [hlow p (by omega)] at hp
              cases hp
            have hlt : p' < p ∨ p < p' := lt_or_gt_of_ne (Ne.symm hpp)
            rcases hlt with hlt | hlt
            · rw [hmin p' hlt, Bool.false_and]
            · have : p.val < p'.val := hlt
              omega
        exact ⟨hrec.readyq, hrec.removeq, hrec.covers, hrec.first, hrec.empty⟩

/-! ## The queues -/

/-- The tasks of a priority, in their order. -/
def onPrio (prio : τ → Prio) (l : List τ) (p : Prio) : List τ := l.filter fun t => prio t = p

omit [DecidableEq τ] in
theorem onPrio_append (prio : τ → Prio) (l : List τ) (t : τ) :
    onPrio prio (l ++ [t]) = update (onPrio prio l) (prio t) (onPrio prio l (prio t) ++ [t]) := by
  funext p
  unfold onPrio
  rw [List.filter_append]
  by_cases hp : p = prio t
  · rw [hp, update_self]
    simp
  · rw [update_of_ne hp]
    simp [Ne.symm hp]

theorem onPrio_erase (prio : τ → Prio) {l : List τ} (hl : l.Nodup) (t : τ) :
    onPrio prio (l.erase t) = update (onPrio prio l) (prio t) ((onPrio prio l (prio t)).erase t) := by
  funext p
  unfold onPrio
  by_cases hp : p = prio t
  · rw [hp, update_self, hl.erase_eq_filter, List.Nodup.erase_eq_filter (hl.filter _),
      List.filter_comm]
  · rw [update_of_ne hp, hl.erase_eq_filter, List.filter_filter]
    refine List.filter_congr fun u hu => ?_
    by_cases hut : u = t
    · simp [hut, Ne.symm hp]
    · simp [hut]

/-- The priority of a task that does not wait. -/
theorem onPrio_congr {prio : τ → Prio} {l : List τ} (ht : t ∉ l) :
    onPrio (update prio t p) l = onPrio prio l := by
  funext p'
  refine List.filter_congr fun u hu => ?_
  rw [update_of_ne]
  rintro rfl
  exact ht hu

/-- The tasks that wait and were not removed, in the order of their arrival. -/
def St.waiting (s : St τ) : List τ := s.arrivals.filter fun t => t ∉ s.sched.removeq

/-- **The queues and the states of the tasks.** -/
structure Inv (s : St τ) : Prop where
  nodup : s.arrivals.Nodup
  queue : s.sched.readyq = onPrio s.prio s.arrivals
  covers : s.sched.Covers s.sched.readyMask
  added : ∀ t ∈ s.arrivals, s.userdata t = true
  once : s.sched.removeq.Nodup
  live : ∀ t ∈ s.sched.removeq, s.userdata t = true
  ready : ∀ t ∉ s.sched.removeq, t ∈ s.arrivals ↔ s.state t = .ready
  busy : ∀ t, s.state t = .running ∨ s.state t = .blocked → t ∉ s.arrivals ∧ s.userdata t = true
  gone : ∀ t ∈ s.removed, t ∈ s.sched.removeq ∨ (s.userdata t = false ∧ s.state t = .zombie)

/-- **The current task.** -/
structure Current (s : St τ) : Prop where
  running : ∀ t ∉ s.sched.removeq, s.state t = .running → s.current = some t
  added : ∀ t, s.current = some t → s.userdata t = true
  stays : ∀ t, s.current = some t → s.leaving = false → t ∉ s.arrivals ∧ s.state t ≠ .blocked

omit [DecidableEq τ] in
theorem inv_init {prio : τ → Prio} : Inv (St.init prio) where
  nodup := List.nodup_nil
  queue := rfl
  covers := fun p hp => absurd rfl hp
  added := fun t ht => by cases ht
  once := List.nodup_nil
  live := fun t ht => by cases ht
  ready := fun t _ => ⟨fun ht => (by cases ht), fun ht => (by cases ht)⟩
  busy := fun t ht => by rcases ht with ht | ht <;> cases ht
  gone := fun t ht => by cases ht

omit [DecidableEq τ] in
theorem Inv.frame (h : Inv s) {c : Option τ} {l : Bool} : Inv { s with current := c, leaving := l } :=
  ⟨h.nodup, h.queue, h.covers, h.added, h.once, h.live, h.ready, h.busy, h.gone⟩

omit [DecidableEq τ] in
theorem current_init {prio : τ → Prio} : Current (St.init prio) where
  running := fun t _ ht => by cases ht
  added := fun t ht => by cases ht
  stays := fun t ht => by cases ht

theorem userdata_self (hd : s.userdata t = true) :
    ({ s with userdata := update s.userdata t true } : St τ) = s := by
  rw [← hd, update_eq_self]

/-- A task comes to wait. -/
theorem Inv.enqueue (h : Inv s) (ht : t ∉ s.arrivals) (hz : s.userdata t = false → s.state t ≠ .zombie) :
    Inv (({ s with userdata := update s.userdata t true } : St τ).setState t .ready |>.ready t) := by
  refine ⟨?_, ?_, ?_, fun u hu => ?_, h.once, fun u hu => ?_, fun u hu => ?_, fun u hu => ?_, fun u hu => ?_⟩
  all_goals simp only [St.ready, St.setState, Sched.push, Sched.setMask] at *
  · exact List.nodup_append.2 ⟨h.nodup, by simp, fun a ha b hb hab =>
      ht (List.mem_singleton.1 hb ▸ hab ▸ ha)⟩
  · rw [onPrio_append, h.queue]
  · refine Sched.Covers.set fun p' hp' hne => h.covers p' ?_
    simp only [update_of_ne hp'] at hne
    exact hne
  · rcases List.mem_append.1 hu with hu | hu
    · rw [update_apply]
      split
      · rfl
      · exact h.added u hu
    · rw [List.mem_singleton.1 hu, update_self]
  · rw [update_apply]
    split
    · rfl
    · exact h.live u hu
  · by_cases hut : u = t
    · rw [hut, update_self]
      simp
    · rw [update_of_ne hut, ← h.ready u hu]
      simp [hut]
  · by_cases hut : u = t
    · rw [hut, update_self] at hu
      rcases hu with hu | hu <;> cases hu
    · rw [update_of_ne hut] at hu
      rw [update_of_ne hut]
      obtain ⟨hn, hd⟩ := h.busy u hu
      refine ⟨fun hm => ?_, hd⟩
      rcases List.mem_append.1 hm with hm | hm
      · exact hn hm
      · exact hut (List.mem_singleton.1 hm)
  · rcases h.gone u hu with hr | ⟨hd, hz'⟩
    · exact .inl hr
    · have hut : u ≠ t := by
        rintro rfl
        exact hz hd hz'
      rw [update_of_ne hut, update_of_ne hut]
      exact .inr ⟨hd, hz'⟩

/-- A task that does not wait is blocked, or goes on. -/
theorem Inv.setState (h : Inv s) (ht : t ∉ s.arrivals) (hd : s.userdata t = true) {x : TaskState}
    (hx : x ≠ .ready) :
    Inv (s.setState t x) := by
  refine ⟨h.nodup, h.queue, h.covers, h.added, h.once, h.live, fun u hu => ?_, fun u hu => ?_, fun u hu => ?_⟩
  all_goals simp only [St.setState] at *
  · by_cases hut : u = t
    · rw [hut, update_self]
      exact ⟨fun hm => absurd hm ht, fun hxr => absurd hxr hx⟩
    · rw [update_of_ne hut]
      exact h.ready u hu
  · by_cases hut : u = t
    · rw [hut]
      exact ⟨ht, hd⟩
    · rw [update_of_ne hut] at hu
      exact h.busy u hu
  · rcases h.gone u hu with hr | ⟨hd', hz⟩
    · exact .inl hr
    · have hut : u ≠ t := by
        rintro rfl
        rw [hd] at hd'
        cases hd'
      rw [update_of_ne hut]
      exact .inr ⟨hd', hz⟩

theorem drop_readyq (q : Sched τ) (p : Prio) (t : τ) : (q.drop p t).readyq = (q.dequeue p t).readyq := by
  unfold Sched.drop
  split
  case isTrue =>
    simp only
    split
    · split <;> rfl
    · rfl
  case isFalse ht =>
    simp only [Sched.dequeue]
    rw [List.erase_of_not_mem ht, update_eq_self]

theorem dequeue_ne_nil {p' : Prio} (h : (q.dequeue p t).readyq p' ≠ []) : q.readyq p' ≠ [] := by
  simp only [Sched.dequeue] at h
  by_cases hp : p' = p
  · subst hp
    rw [update_self] at h
    intro hnil
    rw [hnil] at h
    exact h rfl
  · rwa [update_of_ne hp] at h

theorem drop_covers (h : q.Covers q.readyMask) : (q.drop p t).Covers (q.drop p t).readyMask := by
  have hd : (q.dequeue p t).Covers q.readyMask := fun p' hp' => h p' (dequeue_ne_nil hp')
  unfold Sched.drop
  split
  case isTrue =>
    simp only
    split
    case isTrue hnil =>
      have hnil' : ((q.dequeue p t).clearMask p).readyq p = [] := hnil
      rw [if_pos hnil']
      exact hd.clear hnil
    case isFalse => exact hd
  case isFalse => exact h

/-- A removed task is retired. -/
theorem Inv.retire (h : Inv s) : Inv (s.retire t) := by
  refine ⟨h.nodup.erase t, ?_, ?_, fun u hu => ?_, h.once.erase t, fun u hu => ?_, fun u hu => ?_, fun u hu => ?_,
    fun u hu => ?_⟩
  all_goals simp only [St.retire] at *
  · rw [drop_readyq, Sched.dequeue, h.queue, onPrio_erase _ h.nodup]
  · exact drop_covers h.covers
  · obtain ⟨hut, hu⟩ := h.nodup.mem_erase_iff.1 hu
    rw [update_of_ne hut]
    exact h.added u hu
  · obtain ⟨hut, hu⟩ := h.once.mem_erase_iff.1 hu
    rw [update_of_ne hut]
    exact h.live u hu
  · rw [h.once.mem_erase_iff, not_and] at hu
    rw [h.nodup.mem_erase_iff]
    by_cases hut : u = t
    · rw [hut, update_self]
      simp
    · rw [update_of_ne hut, ← h.ready u (hu hut)]
      simp [hut]
  · by_cases hut : u = t
    · rw [hut, update_self] at hu
      rcases hu with hu | hu <;> cases hu
    · rw [update_of_ne hut] at hu ⊢
      obtain ⟨hn, hd⟩ := h.busy u hu
      exact ⟨fun hm => hn (List.mem_of_mem_erase hm), hd⟩
  · by_cases hut : u = t
    · rw [hut, update_self, update_self]
      exact .inr ⟨rfl, rfl⟩
    · rw [update_of_ne hut, update_of_ne hut, h.once.mem_erase_iff]
      exact (h.gone u hu).imp_left fun hr => ⟨hut, hr⟩

theorem waiting_retire (h : Inv s) (ht : t ∈ s.sched.removeq) : (s.retire t).waiting = s.waiting := by
  simp only [St.waiting, St.retire, h.nodup.erase_eq_filter, List.filter_filter, h.once.mem_erase_iff]
  refine List.filter_congr fun u hu => ?_
  by_cases hut : u = t
  · simp [hut, ht]
  · simp [hut]

theorem Current.retire (h : Current s) (hI : Inv s) (ht : s.current ≠ some t) : Current (s.retire t) := by
  refine ⟨fun u hu hr => ?_, fun u hu => ?_, fun u hu hl => ?_⟩
  all_goals simp only [St.retire] at *
  · have hut : u ≠ t := by
      rintro rfl
      rw [update_self] at hr
      cases hr
    rw [hI.once.mem_erase_iff, not_and] at hu
    rw [update_of_ne hut] at hr
    exact h.running u (hu hut) hr
  · rw [update_of_ne]
    · exact h.added u hu
    · rintro rfl
      exact ht hu
  · obtain ⟨hn, hb⟩ := h.stays u hu hl
    refine ⟨fun hm => hn (List.mem_of_mem_erase hm), ?_⟩
    rw [update_of_ne]
    · exact hb
    · rintro rfl
      exact ht hu

/-- What the loop over `removeq` leaves. -/
structure Scanned (s : St τ) (r : Bool × St τ) : Prop where
  inv : Inv r.2
  current : Current r.2
  waiting : r.2.waiting = s.waiting
  result : r.1 = false ↔ ∃ c ∈ s.sched.removeq, s.current = some c
  kept : r.1 = false → ∃ c ∈ r.2.sched.removeq, r.2.current = some c
  empty : r.1 = true → r.2.sched.removeq = []
  state : ∀ t ∉ s.sched.removeq, r.2.state t = s.state t
  userdata : ∀ t ∉ s.sched.removeq, r.2.userdata t = s.userdata t
  prio : r.2.prio = s.prio
  same : r.2.current = s.current
  removed : r.2.removed = s.removed

/-- **The loop over `removeq`** retires the tasks up to the current one, and does not change what waits. -/
theorem scan_spec (hI : Inv s) (hC : Current s) {ts : List τ} (hts : s.sched.removeq = ts) :
    Scanned s (s.scan ts) := by
  induction ts generalizing s with
  | nil =>
    rw [St.scan]
    refine ⟨hI, hC, rfl, ⟨fun hf => (by cases hf), fun hc => ?_⟩, fun hf => (by cases hf), fun _ => hts,
      fun _ _ => rfl, fun _ _ => rfl, rfl, rfl, rfl⟩
    obtain ⟨c, hc, -⟩ := hc
    rw [hts] at hc
    cases hc
  | cons t ts ih =>
    have ht : t ∈ s.sched.removeq := by rw [hts]; exact List.mem_cons_self
    rw [St.scan]
    split
    case isTrue hcur =>
      exact ⟨hI, hC, rfl, ⟨fun _ => ⟨t, ht, hcur⟩, fun _ => rfl⟩, fun _ => ⟨t, ht, hcur⟩, fun hf => (by cases hf),
        fun _ _ => rfl, fun _ _ => rfl, rfl, rfl, rfl⟩
    case isFalse hcur =>
      have hrest : (s.retire t).sched.removeq = ts := by
        simp only [St.retire, hts, List.erase_cons_head]
      have hrec := ih hI.retire (hC.retire hI hcur) hrest
      have hout : ∀ u, u ∉ s.sched.removeq → u ≠ t ∧ u ∉ (s.retire t).sched.removeq := fun u hu => by
        rw [hts, List.mem_cons, not_or] at hu
        rw [hrest]
        exact hu
      refine ⟨hrec.inv, hrec.current, hrec.waiting.trans (waiting_retire hI ht), ?_, hrec.kept, hrec.empty,
        fun u hu => ?_, fun u hu => ?_, hrec.prio, hrec.same, hrec.removed⟩
      · rw [hrec.result, hrest, hts]
        constructor
        · rintro ⟨c, hc, hcc⟩
          exact ⟨c, List.mem_cons_of_mem t hc, hcc⟩
        · rintro ⟨c, hc, hcc⟩
          rcases List.mem_cons.1 hc with rfl | hc
          · exact absurd hcc hcur
          · exact ⟨c, hc, hcc⟩
      · rw [hrec.state u (hout u hu).2]
        exact update_of_ne (hout u hu).1 _ _
      · rw [hrec.userdata u (hout u hu).2]
        exact update_of_ne (hout u hu).1 _ _

/-! ## The choice -/

/-- The current task, if it goes on. -/
def St.goesOn (s : St τ) : Option τ := s.current.filter fun c => s.state c = .running

/-- The list without the task to serve. -/
def withoutNext (prio : τ → Prio) (waiting : List τ) : List τ :=
  match waiting.argmin prio with
  | some t => waiting.erase t
  | none => waiting

/-- **The scheduler as one ordered list**: the task to run, given the task that goes on and the list of those
that wait, and the list that is left. `List.argmin` is the first of the tasks of the least priority, so the
one that waits longest. -/
def serve (prio : τ → Prio) (goesOn : Option τ) (waiting : List τ) : Option τ × List τ :=
  match goesOn with
  | some c =>
    if ∀ t ∈ waiting, prio c ≤ prio t then (some c, waiting)
    else (waiting.argmin prio, withoutNext prio waiting ++ [c])
  | none => (waiting.argmin prio, withoutNext prio waiting)

theorem withoutNext_eq {prio : τ → Prio} {l : List τ} (h : l.argmin prio = some t) :
    withoutNext prio l = l.erase t := by
  unfold withoutNext
  rw [h]

/-- What is left of `prs_sched_swprio_get_next` when the removed tasks are gone. -/
structure Selected (s : St τ) (r : Option τ × St τ) : Prop where
  inv : Inv r.2
  current : Current { r.2 with current := r.1, leaving := false }
  order : (r.1, r.2.arrivals) = serve s.prio s.goesOn s.arrivals
  removeq : r.2.sched.removeq = s.sched.removeq
  running : ∀ t, r.1 = some t → r.2.state t = .running ∧ s.userdata t = true
  others : ∀ u, s.userdata u = false → r.2.state u = s.state u
  userdata : r.2.userdata = s.userdata
  removed : r.2.removed = s.removed

theorem take_eq {r : List τ} (hp : s.sched.readyq p = t :: r) : s.take p = (some t,
    ({ s with sched := s.sched.dequeue p t, arrivals := s.arrivals.erase t } : St τ).setState t .running) := by
  unfold St.take
  rw [hp]

omit [DecidableEq τ] in
theorem Inv.mem_of_readyq (h : Inv s) (ht : t ∈ s.sched.readyq p) : t ∈ s.arrivals ∧ s.prio t = p := by
  rw [h.queue, onPrio, List.mem_filter] at ht
  exact ⟨ht.1, of_decide_eq_true ht.2⟩

/-- A waiting task is taken. -/
theorem Inv.take (h : Inv s) (ht : t ∈ s.arrivals) :
    Inv (({ s with sched := s.sched.dequeue (s.prio t) t, arrivals := s.arrivals.erase t } :
      St τ).setState t .running) := by
  refine ⟨h.nodup.erase t, ?_, ?_, fun u hu => ?_, h.once, h.live, fun u hu => ?_, fun u hu => ?_, fun u hu => ?_⟩
  all_goals simp only [St.setState] at *
  · rw [Sched.dequeue, h.queue, onPrio_erase _ h.nodup]
  · exact fun p' hp' => h.covers p' (dequeue_ne_nil hp')
  · exact h.added u (List.mem_of_mem_erase hu)
  · rw [h.nodup.mem_erase_iff]
    by_cases hut : u = t
    · rw [hut, update_self]
      simp
    · rw [update_of_ne hut, ← h.ready u hu]
      simp [hut]
  · by_cases hut : u = t
    · rw [hut]
      exact ⟨h.nodup.not_mem_erase, h.added t ht⟩
    · rw [update_of_ne hut] at hu
      obtain ⟨hn, hd⟩ := h.busy u hu
      exact ⟨fun hm => hn (List.mem_of_mem_erase hm), hd⟩
  · rcases h.gone u hu with hm | ⟨hd, hz⟩
    · exact .inl hm
    · have hut : u ≠ t := by
        rintro rfl
        rw [h.added u ht] at hd
        cases hd
      rw [update_of_ne hut]
      exact .inr ⟨hd, hz⟩

/-- Taking the head `t` of a queue. -/
structure Taken (s : St τ) (t : τ) (r : Option τ × St τ) : Prop where
  next : r.1 = some t
  inv : Inv r.2
  current : Current { r.2 with current := r.1, leaving := false }
  arrivals : r.2.arrivals = s.arrivals.erase t
  removeq : r.2.sched.removeq = s.sched.removeq
  running : r.2.state t = .running
  others : ∀ u, u ≠ t → r.2.state u = s.state u
  added : s.userdata t = true
  userdata : r.2.userdata = s.userdata
  removed : r.2.removed = s.removed

theorem take_spec (h : Inv s) (hrun : ∀ u, s.state u ≠ .running) {r : List τ}
    (hp : s.sched.readyq p = t :: r) : Taken s t (s.take p) := by
  obtain ⟨ht, rfl⟩ := h.mem_of_readyq (hp ▸ List.mem_cons_self : t ∈ s.sched.readyq p)
  have hinv := h.take ht
  rw [take_eq hp]
  refine ⟨rfl, hinv, ⟨fun u _ hu => ?_, fun u hu => ?_, fun u hu _ => ?_⟩, rfl, rfl, update_self .., fun u hu =>
    update_of_ne hu _ _, h.added t ht, rfl, rfl⟩
  · by_cases hut : u = t
    · rw [hut]
    · simp only [St.setState, update_of_ne hut] at hu
      exact absurd hu (hrun u)
  · rw [← Option.some.inj hu]
    exact h.added t ht
  · obtain rfl := Option.some.inj hu
    simp only [St.setState, update_self]
    exact ⟨h.nodup.not_mem_erase, by simp⟩

omit [DecidableEq τ] in
/-- The head of the first queue that is not empty is the task to serve. -/
theorem Inv.argmin (h : Inv s) {r : List τ} (hp : s.sched.readyq p = t :: r)
    (hlow : ∀ p' < p, s.sched.readyq p' = []) :
    s.arrivals.argmin s.prio = some t := by
  rw [h.queue] at hp hlow
  exact argmin_eq_head hp (le_of_filter_eq_nil hlow)

omit [DecidableEq τ] in
theorem Inv.arrivals_eq_nil (h : Inv s) (hq : ∀ p, s.sched.readyq p = []) : s.arrivals = [] := by
  refine List.eq_nil_iff_forall_not_mem.2 fun u hu => ?_
  have hm : u ∈ s.sched.readyq (s.prio u) := by
    rw [h.queue, onPrio, List.mem_filter]
    exact ⟨hu, decide_eq_true rfl⟩
  rw [hq] at hm
  cases hm

omit [DecidableEq τ] in
theorem goesOn_eq_some : s.goesOn = some c ↔ s.current = some c ∧ s.state c = .running := by
  simp [St.goesOn, Option.filter_eq_some_iff]

omit [DecidableEq τ] in
/-- Only the current task is running when the removed tasks are gone. -/
theorem Current.running_of_nil (h : Current s) (hr : s.sched.removeq = []) (u : τ) (hu : s.state u = .running) :
    s.current = some u :=
  h.running u (by rw [hr]; exact List.not_mem_nil) hu

omit [DecidableEq τ] in
theorem not_running (hrun : ∀ u, s.state u = .running → s.current = some u) (hg : s.goesOn = none) (u : τ) :
    s.state u ≠ .running := by
  intro hu
  rw [goesOn_eq_some.2 ⟨hrun u hu, hu⟩] at hg
  cases hg

/-- Nothing is switched. -/
theorem Selected.stay (hI : Inv s) (hC : Current s) (hc : s.goesOn = some c)
    (hle : ∀ t ∈ s.arrivals, s.prio c ≤ s.prio t) : Selected s (some c, s) := by
  obtain ⟨hcur, hrun⟩ := goesOn_eq_some.1 hc
  obtain ⟨hn, hd⟩ := hI.busy c (.inl hrun)
  refine ⟨hI, ⟨fun u hu hur => ?_, fun u hu => ?_, fun u hu _ => ?_⟩, ?_, rfl, fun u hu => ?_, fun _ _ => rfl,
    rfl, rfl⟩
  · exact hcur.symm.trans (hC.running u hu hur)
  · rwa [← Option.some.inj hu]
  · rw [← Option.some.inj hu]
    exact ⟨hn, by simp [hrun]⟩
  · rw [hc, serve, if_pos hle]
  · rw [← Option.some.inj hu]
    exact ⟨hrun, hd⟩

section Select

variable (hrun : ∀ u, s.state u = .running → s.current = some u)
include hrun

/-- There is nothing to run. -/
theorem Selected.idle (hI : Inv s) (hg : s.goesOn = none) (ha : s.arrivals = []) : Selected s (none, s) := by
  refine ⟨hI, ⟨fun u _ hu => ?_, fun u hu => (by cases hu), fun u hu => (by cases hu)⟩, ?_, rfl,
    fun u hu => (by cases hu), fun _ _ => rfl, rfl, rfl⟩
  · exact absurd hu (not_running hrun hg u)
  · rw [hg, ha]
    rfl

/-- The task to serve is taken. -/
theorem Selected.switch (hI : Inv s) (hg : s.goesOn = none) {r : List τ}
    (hp : s.sched.readyq p = t :: r) (hlow : ∀ p' < p, s.sched.readyq p' = []) : Selected s (s.take p) := by
  have hmin := hI.argmin hp hlow
  have ht := take_spec hI (not_running hrun hg) hp
  refine ⟨ht.inv, ht.current, ?_, ht.removeq, fun u hu => ?_, fun u hu => ht.others u ?_, ht.userdata, ht.removed⟩
  · rw [hg, serve, ht.next, ht.arrivals, withoutNext_eq hmin, hmin]
  · rw [ht.next] at hu
    rw [← Option.some.inj hu]
    exact ⟨ht.running, ht.added⟩
  · rintro rfl
    rw [ht.added] at hu
    cases hu

/-- The current task is preempted: it comes to wait behind its equals. -/
theorem Selected.preempt (hI : Inv s) (hc : s.goesOn = some c) {r : List τ}
    (hp : s.sched.readyq p = t :: r) (hlow : ∀ p' < p, s.sched.readyq p' = []) (hlt : p < s.prio c) :
    Selected s (((s.ready c).setState c .ready).take p) := by
  obtain ⟨hcur, hcrun⟩ := goesOn_eq_some.1 hc
  obtain ⟨hn, hd⟩ := hI.busy c (.inl hcrun)
  obtain ⟨hmem, hprio⟩ := hI.mem_of_readyq (hp ▸ List.mem_cons_self : t ∈ s.sched.readyq p)
  have hmin := hI.argmin hp hlow
  have hq : Inv ((s.ready c).setState c .ready) := by
    have := hI.enqueue hn fun _ => by rw [hcrun]; simp
    rwa [userdata_self hd] at this
  have hnot : ∀ u, ((s.ready c).setState c .ready).state u ≠ .running := fun u hu => by
    simp only [St.setState, St.ready, update_apply] at hu
    split at hu
    case isTrue => cases hu
    case isFalse huc =>
      have := hrun u hu
      rw [hcur] at this
      exact huc (Option.some.inj this).symm
  have hp' : ((s.ready c).setState c .ready).sched.readyq p = t :: r := by
    simp only [St.setState, St.ready, Sched.push, Sched.setMask, update_of_ne (ne_of_lt hlt)]
    exact hp
  have ht := take_spec hq hnot hp'
  refine ⟨ht.inv, ht.current, ?_, ht.removeq, fun u hu => ?_,
    fun u hu => (ht.others u ?_).trans (update_of_ne ?_ _ _),
    ht.userdata, ht.removed⟩
  · have hne : ¬ ∀ u ∈ s.arrivals, s.prio c ≤ s.prio u := fun hall => by
      have := hall t hmem
      rw [hprio] at this
      exact absurd hlt (not_lt.2 this)
    rw [hc, serve, if_neg hne, ht.next, ht.arrivals, withoutNext_eq hmin, hmin]
    simp only [St.setState, St.ready]
    rw [List.erase_append_left _ hmem]
  · rw [ht.next] at hu
    rw [← Option.some.inj hu]
    exact ⟨ht.running, ht.added⟩
  · rintro rfl
    rw [show s.userdata u = true from ht.added] at hu
    cases hu
  · rintro rfl
    rw [hd] at hu
    cases hu

end Select

theorem select_spec (hI : Inv s) (hC : Current s) (hrun : ∀ u, s.state u = .running → s.current = some u)
    {o : Option Prio}
    (hsome : ∀ p, o = some p → s.sched.readyq p ≠ [] ∧ ∀ p' < p, s.sched.readyq p' = [])
    (hnone : o = none → ∀ p, s.sched.readyq p = []) : Selected s (s.select o) := by
  cases o with
  | none =>
    have ha := hI.arrivals_eq_nil (hnone rfl)
    cases hg : s.goesOn with
    | none =>
      have heq : s.select none = (none, s) := by
        rw [St.select]
        split
        case h_1 c hcur => rw [if_neg (not_running hrun hg c)]
        case h_2 => rfl
      rw [heq]
      exact Selected.idle hrun hI hg ha
    | some c =>
      obtain ⟨hcur, hcrun⟩ := goesOn_eq_some.1 hg
      simp only [St.select, hcur, hcrun, if_true]
      exact Selected.stay hI hC hg (by simp [ha])
  | some p =>
    obtain ⟨hne, hlow⟩ := hsome p rfl
    obtain ⟨t, r, hp⟩ := List.exists_cons_of_ne_nil hne
    cases hg : s.goesOn with
    | none =>
      have heq : s.select (some p) = s.take p := by
        rw [St.select]
        split
        case h_1 c hcur => rw [if_neg (not_running hrun hg c)]
        case h_2 => rfl
      rw [heq]
      exact Selected.switch hrun hI hg hp hlow
    | some c =>
      obtain ⟨hcur, hcrun⟩ := goesOn_eq_some.1 hg
      simp only [St.select, hcur, hcrun, if_true]
      split
      case isTrue hlt => exact Selected.preempt hrun hI hg hp hlow hlt
      case isFalse hge =>
        refine Selected.stay hI hC hg fun u hu => le_trans (not_lt.1 hge) ?_
        rw [hI.queue] at hlow
        exact le_of_filter_eq_nil hlow u hu

/-- The state after the loop over the mask. -/
def St.searched (s : St τ) : St τ := { s with sched := (s.sched.search 32 s.sched.readyMask).1 }

omit [DecidableEq τ] in
theorem Inv.found (h : Inv s) : Found s.sched (s.sched.search 32 s.sched.readyMask) :=
  search_spec h.covers h.covers fun p hp => by omega

omit [DecidableEq τ] in
theorem Inv.searched (h : Inv s) : Inv s.searched := by
  have hfound := h.found
  refine ⟨h.nodup, ?_, hfound.covers, h.added, ?_, ?_, ?_, h.busy, ?_⟩
  all_goals simp only [St.searched]
  · simp only [hfound.readyq]
    exact h.queue
  all_goals simp only [hfound.removeq]
  · exact h.once
  · exact h.live
  · exact h.ready
  · exact h.gone

omit [DecidableEq τ] in
theorem Current.searched (h : Current s) (hI : Inv s) : Current s.searched := by
  refine ⟨?_, h.added, h.stays⟩
  simp only [St.searched, hI.found.removeq]
  exact h.running

/-- The rest of `prs_sched_swprio_get_next` after the loop over `removeq`. -/
theorem choice_spec (hI : Inv s) (hC : Current s) (hrun : ∀ u, s.state u = .running → s.current = some u) :
    Selected s.searched (s.searched.select (s.sched.search 32 s.sched.readyMask).2) := by
  refine select_spec hI.searched (hC.searched hI) hrun (fun p hp => ?_) fun hp p => ?_
  · simp only [St.searched, hI.found.readyq]
    exact hI.found.first p hp
  · simp only [St.searched, hI.found.readyq]
    exact hI.found.empty hp p

/-- **What `prs_sched_swprio_get_next` does.** -/
structure GetNext (s : St τ) (r : Bool × Option τ × St τ) : Prop where
  inv : Inv r.2.2
  current : Current { r.2.2 with current := r.2.1, leaving := false }
  result : r.1 = false ↔ ∃ c ∈ s.sched.removeq, s.current = some c
  refused : r.1 = false → r.2.1 = none ∧ r.2.2.waiting = s.waiting
  order : r.1 = true → (r.2.1, r.2.2.waiting) = serve s.prio s.goesOn s.waiting
  running : ∀ t, r.2.1 = some t → r.2.2.state t = .running ∧ t ∉ s.removed

theorem waiting_eq_arrivals (h : s.sched.removeq = []) : s.waiting = s.arrivals := by
  unfold St.waiting
  rw [h]
  simp

omit [DecidableEq τ] in
theorem goesOn_congr (hc : s'.current = s.current) (hs : ∀ c, s.current = some c → s'.state c = s.state c) :
    s'.goesOn = s.goesOn := by
  unfold St.goesOn
  rw [hc]
  cases hcur : s.current with
  | none => rfl
  | some c => rw [Option.filter_some, Option.filter_some, hs c hcur]

theorem getNext_spec (hI : Inv s) (hC : Current s) : GetNext s s.getNext := by
  have hscan := scan_spec hI hC rfl
  unfold St.getNext
  split
  case h_1 s₁ heq =>
    rw [heq] at hscan
    refine ⟨hscan.inv, ⟨fun u hu hr => ?_, fun u hu => (by cases hu), fun u hu => (by cases hu)⟩, hscan.result,
      fun _ => ⟨rfl, hscan.waiting⟩, fun hf => (by cases hf), fun u hu => (by cases hu)⟩
    -- the current task is still to be removed
    obtain ⟨c, hc, hcur⟩ := hscan.kept rfl
    have := hscan.current.running u hu hr
    rw [hcur] at this
    exact absurd (Option.some.inj this ▸ hc) hu
  case h_2 s₁ heq =>
    rw [heq] at hscan
    have hr : s₁.sched.removeq = [] := hscan.empty rfl
    have hsel := choice_spec hscan.inv hscan.current (hscan.current.running_of_nil hr)
    have hr₂ : s₁.searched.sched.removeq = [] := hscan.inv.found.removeq.trans hr
    refine ⟨hsel.inv, hsel.current, hscan.result, fun hf => (by cases hf), fun _ => ?_, fun u hu => ?_⟩
    · have hgo : s₁.searched.goesOn = s.goesOn := by
        refine goesOn_congr hscan.same fun c hc => hscan.state c fun hm => ?_
        have := hscan.result.2 ⟨c, hm, hc⟩
        cases this
      have hprio : s₁.searched.prio = s.prio := hscan.prio
      have harr : s₁.searched.arrivals = s₁.arrivals := rfl
      have hend : (s₁.searched.select (s₁.sched.search 32 s₁.sched.readyMask).2).2.waiting =
          (s₁.searched.select (s₁.sched.search 32 s₁.sched.readyMask).2).2.arrivals :=
        waiting_eq_arrivals (hsel.removeq.trans hr₂)
      have horder := hsel.order
      rw [hgo, hprio, harr, ← waiting_eq_arrivals hr, hscan.waiting, ← hend] at horder
      exact horder
    · obtain ⟨hrun, hd⟩ := hsel.running u hu
      refine ⟨hrun, fun hm => ?_⟩
      rcases hscan.inv.searched.gone u (hscan.removed.symm ▸ hm) with hm | ⟨hd', -⟩
      · rw [hr₂] at hm
        cases hm
      · rw [hd] at hd'
        cases hd'

/-! ## The other calls -/

/-- The current task changes its priority. -/
theorem Inv.setPrio (h : Inv s) (ht : t ∉ s.arrivals) : Inv { s with prio := update s.prio t p } where
  nodup := h.nodup
  queue := by
    simp only
    rw [onPrio_congr ht, h.queue]
  covers := h.covers
  added := h.added
  once := h.once
  live := h.live
  ready := h.ready
  busy := h.busy
  gone := h.gone

/-- A task is removed. -/
theorem Inv.remove (h : Inv s) (hd : s.userdata t = true) (hn : t ∉ s.sched.removeq) :
    Inv { s.setState t .stopped with
      sched := { s.sched with removeq := s.sched.removeq ++ [t] }
      removed := t :: s.removed } := by
  refine ⟨h.nodup, h.queue, h.covers, h.added, ?_, fun u hu => ?_, fun u hu => ?_, fun u hu => ?_, fun u hu => ?_⟩
  all_goals simp only [St.setState] at *
  · exact List.nodup_append.2 ⟨h.once, by simp, fun a ha b hb hab => hn (List.mem_singleton.1 hb ▸ hab ▸ ha)⟩
  · rcases List.mem_append.1 hu with hu | hu
    · exact h.live u hu
    · rw [List.mem_singleton.1 hu]
      exact hd
  · rw [List.mem_append, List.mem_singleton, not_or] at hu
    rw [update_of_ne hu.2]
    exact h.ready u hu.1
  · rw [update_apply] at hu
    split at hu
    · rcases hu with hu | hu <;> cases hu
    · exact h.busy u hu
  · rw [List.mem_append, List.mem_singleton]
    by_cases hut : u = t
    · exact .inl (.inr hut)
    · rcases h.gone u (List.mem_of_ne_of_mem hut hu) with hm | hg
      · exact .inl (.inl hm)
      · rw [update_of_ne hut]
        exact .inr hg

/-- A task comes to wait. It is not the current one, or that is leaving. -/
theorem Current.enqueue (h : Current s) {l : Bool} (hl : l = false → s.leaving = false ∧ s.current ≠ some t) :
    Current { ({ s with userdata := update s.userdata t true } :
      St τ).setState t .ready |>.ready t with leaving := l } := by
  refine ⟨fun u hu hr => ?_, fun u hu => ?_, fun u hu hlu => ?_⟩
  all_goals simp only [St.ready, St.setState, Sched.push, Sched.setMask] at *
  · have hut : u ≠ t := by
      rintro rfl
      rw [update_self] at hr
      cases hr
    rw [update_of_ne hut] at hr
    exact h.running u hu hr
  · rw [update_apply]
    split
    · rfl
    · exact h.added u hu
  · obtain ⟨hleave, hcur⟩ := hl hlu
    have hut : u ≠ t := by
      rintro rfl
      exact hcur hu
    obtain ⟨hn, hb⟩ := h.stays u hu hleave
    rw [update_of_ne hut, List.mem_append, List.mem_singleton, not_or]
    exact ⟨⟨hn, hut⟩, hb⟩

/-- The current task blocks. -/
theorem Current.block (h : Current s) : Current { s.setState t .blocked with leaving := true } := by
  refine ⟨fun u hu hr => ?_, h.added, fun u _ hl => (by cases hl)⟩
  simp only [St.setState, update_apply] at hr
  split at hr
  · cases hr
  · exact h.running u hu hr

/-- The current task has unblocked itself. -/
theorem Current.unblock (h : Current s) (hc : s.current = some t) (hn : t ∉ s.arrivals) :
    Current { s.setState t .running with leaving := false } := by
  refine ⟨fun u hu hr => ?_, h.added, fun u hu _ => ?_⟩
  all_goals simp only [St.setState] at *
  · by_cases hut : u = t
    · rw [hut, hc]
    · rw [update_of_ne hut] at hr
      exact h.running u hu hr
  · rw [hc] at hu
    obtain rfl := Option.some.inj hu
    rw [update_self]
    exact ⟨hn, by simp⟩

/-- A task is removed. -/
theorem Current.remove (h : Current s) : Current { s.setState t .stopped with
    sched := { s.sched with removeq := s.sched.removeq ++ [t] }
    removed := t :: s.removed } := by
  refine ⟨fun u hu hr => ?_, h.added, fun u hu hl => ?_⟩
  all_goals simp only [St.setState] at *
  · rw [List.mem_append, List.mem_singleton, not_or] at hu
    rw [update_of_ne hu.2] at hr
    exact h.running u hu.1 hr
  · obtain ⟨hn, hb⟩ := h.stays u hu hl
    refine ⟨hn, ?_⟩
    rw [update_apply]
    split
    · simp
    · exact hb

theorem step_unblock (h : Inv s) (hC : Current s) {remote : Bool} (hs : s.step (.unblock t remote) = some s') :
    Inv s' ∧ Current s' := by
  simp only [St.step] at hs
  split at hs
  case isTrue hb =>
    obtain ⟨hn, hd⟩ := h.busy t (.inr hb)
    split at hs <;> rename_i hself <;> rw [← Option.some.inj hs]
    · have hi := h.setState hn hd (x := .running) (by simp)
      exact ⟨hi.frame, hC.unblock hself.2 hn⟩
    · have hi := h.enqueue hn fun _ => by rw [hb]; simp
      have hc := hC.enqueue (t := t) (l := s.leaving) fun hl => ⟨hl, fun hcur => (hC.stays t hcur hl).2 hb⟩
      rw [userdata_self hd] at hi hc
      exact ⟨hi, hc⟩
  case isFalse =>
    rw [← Option.some.inj hs]
    exact ⟨h, hC⟩

theorem Inv.step (h : Inv s) (hC : Current s) {a : Act τ} (hs : s.step a = some s') : Inv s' ∧ Current s' := by
  cases a with
  | add t =>
    obtain ⟨⟨hd, hst⟩, rfl⟩ := Option.ite_none_right_eq_some.1 hs |>.imp_right Option.some.inj
    have hn : t ∉ s.arrivals := fun hm => by
      rw [h.added t hm] at hd
      cases hd
    refine ⟨h.enqueue hn (fun _ => by rw [hst]; simp), hC.enqueue fun hl => ⟨hl, fun hcur => ?_⟩⟩
    rw [hC.added t hcur] at hd
    cases hd
  | block =>
    simp only [St.step] at hs
    split at hs
    case h_1 t hcur =>
      obtain ⟨hl, rfl⟩ := Option.ite_none_right_eq_some.1 hs |>.imp_right Option.some.inj
      have hi := h.setState (hC.stays t hcur hl).1 (hC.added t hcur) (x := .blocked) (by simp)
      exact ⟨hi.frame, hC.block⟩
    case h_2 => cases hs
  | unblock t remote => exact step_unblock h hC hs
  | yield =>
    simp only [St.step] at hs
    split at hs
    case h_1 t hcur =>
      obtain ⟨hl, rfl⟩ := Option.ite_none_right_eq_some.1 hs |>.imp_right Option.some.inj
      have htwice : (s.setState t .blocked).setState t .ready = s.setState t .ready := by
        simp only [St.setState, update_idem]
      obtain ⟨hn, -⟩ := hC.stays t hcur hl
      have hi := h.enqueue hn fun hd => by rw [hC.added t hcur] at hd; cases hd
      have hc := hC.enqueue (t := t) (l := true) fun hf => (by cases hf)
      rw [userdata_self (hC.added t hcur)] at hi hc
      rw [htwice]
      exact ⟨hi.frame, hc⟩
    case h_2 => cases hs
  | remove t =>
    obtain ⟨⟨hd, hn⟩, hs⟩ := Option.ite_none_right_eq_some.1 hs
    split at hs <;> rename_i hst <;> rw [← Option.some.inj hs]
    · exact ⟨h.remove hd (hn.resolve_left hst), hC.remove⟩
    · exact ⟨h, hC⟩
  | setPrio p =>
    simp only [St.step] at hs
    split at hs
    case h_1 t hcur =>
      obtain ⟨hr, rfl⟩ := Option.ite_none_right_eq_some.1 hs |>.imp_right Option.some.inj
      exact ⟨h.setPrio (h.busy t (.inl hr)).1, ⟨hC.running, hC.added, hC.stays⟩⟩
    case h_2 => cases hs
  | getNext =>
    obtain rfl := Option.some.inj hs
    have hg := getNext_spec h hC
    exact ⟨hg.inv.frame, hg.current⟩

theorem inv_of_reachable (h : (sys τ).Reachable s) : Inv s ∧ Current s := by
  refine System.Reachable.inv (I := fun s => Inv s ∧ Current s) ?_ ?_ h
  · rintro _ ⟨prio, rfl⟩
    exact ⟨inv_init, current_init⟩
  · rintro _ _ _ ⟨hI, hC⟩ hs
    exact hI.step hC hs

/-! ## What the calls do not change -/

theorem take_prio (s : St τ) (p : Prio) : (s.take p).2.prio = s.prio := by
  unfold St.take
  split <;> rfl

theorem select_prio (s : St τ) (o : Option Prio) : (s.select o).2.prio = s.prio := by
  unfold St.select
  split
  · split
    · split <;> rfl
    · rfl
  · split
    · split
      · split
        · exact take_prio _ _
        · rfl
      · exact take_prio _ _
    · exact take_prio _ _

theorem getNext_prio (hI : Inv s) (hC : Current s) : s.getNext.2.2.prio = s.prio := by
  have hscan := scan_spec hI hC rfl
  unfold St.getNext
  split
  case h_1 s₁ heq =>
    rw [heq] at hscan
    exact hscan.prio
  case h_2 s₁ heq =>
    rw [heq] at hscan
    exact (select_prio _ _).trans hscan.prio

/-- The loop over `removeq` adds no task. -/
theorem scan_userdata {ts : List τ} {u : τ} (hu : (s.scan ts).2.userdata u = true) : s.userdata u = true := by
  induction ts generalizing s with
  | nil => exact hu
  | cons t ts ih =>
    unfold St.scan at hu
    split at hu
    · exact hu
    · have := ih hu
      simp only [St.retire, update_apply] at this
      split at this
      · cases this
      · exact this

theorem getNext_userdata (hI : Inv s) (hC : Current s) {u : τ} (hu : s.getNext.2.2.userdata u = true) :
    s.userdata u = true := by
  have hscan := scan_spec hI hC rfl
  unfold St.getNext at hu
  split at hu
  case h_1 s₁ heq =>
    have hu₁ : (s.scan s.sched.removeq).2.userdata u = true := by
      rw [heq]
      exact hu
    exact scan_userdata hu₁
  case h_2 s₁ heq =>
    rw [heq] at hscan
    have hsel := choice_spec hscan.inv hscan.current (hscan.current.running_of_nil (hscan.empty rfl))
    have hu₁ : (s.scan s.sched.removeq).2.userdata u = true := by
      rw [heq]
      exact (congrFun hsel.userdata u).symm.trans hu
    exact scan_userdata hu₁

/-- A call other than `prs_task_set_prio` leaves the priorities, and schedules no task that was not added. -/
theorem step_kept (h : Inv s) (hC : Current s) {a : Act τ} (ha : ∀ p, a ≠ .setPrio p) (hs : s.step a = some s') :
    s'.prio = s.prio ∧ ∀ t, s'.userdata t = true → s.userdata t = true ∨ a = .add t := by
  cases a with
  | add t =>
    obtain ⟨-, rfl⟩ := Option.ite_none_right_eq_some.1 hs |>.imp_right Option.some.inj
    refine ⟨rfl, fun u hu => ?_⟩
    simp only [St.ready, St.setState, update_apply] at hu
    split at hu
    · rename_i hut
      rw [hut]
      exact .inr rfl
    · exact .inl hu
  | block =>
    simp only [St.step] at hs
    split at hs
    · obtain ⟨-, rfl⟩ := Option.ite_none_right_eq_some.1 hs |>.imp_right Option.some.inj
      exact ⟨rfl, fun _ hu => .inl hu⟩
    · cases hs
  | unblock t remote =>
    simp only [St.step] at hs
    split at hs
    · split at hs <;> rw [← Option.some.inj hs] <;> exact ⟨rfl, fun _ hu => .inl hu⟩
    · rw [← Option.some.inj hs]
      exact ⟨rfl, fun _ hu => .inl hu⟩
  | yield =>
    simp only [St.step] at hs
    split at hs
    · obtain ⟨-, rfl⟩ := Option.ite_none_right_eq_some.1 hs |>.imp_right Option.some.inj
      exact ⟨rfl, fun _ hu => .inl hu⟩
    · cases hs
  | remove t =>
    obtain ⟨-, hs⟩ := Option.ite_none_right_eq_some.1 hs
    split at hs <;> rw [← Option.some.inj hs] <;> exact ⟨rfl, fun _ hu => .inl hu⟩
  | setPrio p => exact absurd rfl (ha p)
  | getNext =>
    rw [← Option.some.inj hs]
    exact ⟨getNext_prio h hC, fun _ hu => .inl (getNext_userdata h hC hu)⟩

/-! ## The result -/

theorem serve_eq_none (prio : τ → Prio) {o : Option τ} {l : List τ} :
    (serve prio o l).1 = none ↔ o = none ∧ l = [] := by
  cases o with
  | none => simp [serve]
  | some c =>
    rw [serve]
    split
    case isTrue => simp
    case isFalse hne =>
      have hl : l ≠ [] := by
        rintro rfl
        exact hne (by simp)
      simp [hl]

/-- **Priority scheduling.** In every run the ready queues are the list of arrivals by priority, the tasks
that wait are those that are ready and were not removed, each once, and `prs_sched_swprio_get_next` returns
`PRS_FALSE` exactly when the current task is in `removeq`. Otherwise it returns the task that `serve` names,
and leaves the list that `serve` leaves: the current task stays if it is running and nothing more urgent
waits; if it does not stay but is running, it waits at the end of the list. A task that was removed is never
returned. -/
theorem priority_scheduling (h : (sys τ).Reachable s) :
    s.sched.readyq = onPrio s.prio s.arrivals ∧ s.waiting.Nodup ∧
    (∀ t, t ∈ s.waiting ↔ s.state t = .ready ∧ t ∉ s.sched.removeq) ∧
    (s.getNext.1 = false ↔ ∃ c ∈ s.sched.removeq, s.current = some c) ∧
    (s.getNext.1 = false → s.getNext.2.1 = none ∧ s.getNext.2.2.waiting = s.waiting) ∧
    (s.getNext.1 = true → (s.getNext.2.1, s.getNext.2.2.waiting) = serve s.prio s.goesOn s.waiting ∧
      (s.getNext.2.1 = none ↔ s.goesOn = none ∧ s.waiting = [])) ∧
    ∀ t, s.getNext.2.1 = some t → s.getNext.2.2.state t = .running ∧ t ∉ s.removed := by
  obtain ⟨hI, hC⟩ := inv_of_reachable h
  have hg := getNext_spec hI hC
  refine ⟨hI.queue, hI.nodup.filter _, fun t => ?_, hg.result, hg.refused, fun htrue => ?_, hg.running⟩
  · rw [St.waiting, List.mem_filter, decide_eq_true_eq]
    refine and_congr_left fun ht => ?_
    exact hI.ready t ht
  · have hserve := hg.order htrue
    refine ⟨hserve, ?_⟩
    rw [← serve_eq_none s.prio, ← hserve]

/-- A task of priority 5 is running when one of priority 3 is added: it is preempted. -/
theorem priority_scheduling_preempt : ∃ s, (sys (Fin 2)).Reachable s ∧ s.goesOn = some 0 ∧ s.waiting = [1] ∧
    s.getNext.2.1 = some 1 ∧ s.getNext.2.2.waiting = [0] := by
  obtain ⟨s, hs, hg, hw, hp, hn⟩ := System.exists_of_check (sys (Fin 2)) (fun _ _ => True)
    (fun s => s.goesOn = some 0 ∧ s.waiting = [1] ∧ (∀ t, s.prio t = if t = 0 then 5 else 3) ∧ s.getNext.1 = true)
    (.init fun t => if t = 0 then 5 else 3) ⟨_, rfl⟩ [.add 0, .getNext, .add 1] (by decide +kernel)
  obtain ⟨-, -, -, -, -, horder, -⟩ := priority_scheduling hs
  have hserve := (horder hn).1
  have hcase : serve (fun t : Fin 2 => if t = 0 then (5 : Prio) else 3) (some 0) [1] = (some 1, [0]) := by
    decide +kernel
  rw [hg, hw, funext hp, hcase] at hserve
  exact ⟨s, hs, hg, hw, congrArg Prod.fst hserve, congrArg Prod.snd hserve⟩

end Prs.Swprio
