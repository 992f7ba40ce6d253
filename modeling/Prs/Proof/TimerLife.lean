import Prs.Proof.TimerTick

/-!
# The life of a timer request

An entry is at one place at a time: with its caller, in `timer->queued`, or in one slot of the wheels
(`Life`). A tick passes over it in one of three ways (`Passage`).

* `expired_signaled_iff`: an entry that is drained when its deadline is not in the future is signaled exactly
  when the deadline is now.
* `expired_not_signaled`: a request for no time is not.
-/

namespace Prs.Timer

open Function

variable {s s' : St} {id : ℕ}

/-- The ticks that are complete: the value of `timer->now` since the start. -/
def St.time (s : St) : ℕ := if s.inTick then s.ticks - 1 else s.ticks

/-- The two clocks are the number of ticks in 32 bits. -/
structure Clocks (s : St) : Prop where
  clock : s.clock = s.ticks % 2 ^ 32
  now : s.now = s.time % 2 ^ 32
  pos : s.inTick = true → 0 < s.ticks

/-- The references that an entry has: the caller's and, unless it is out, the tick's. -/
def Caller.refs : Caller → Place → ℕ
  | .none, _ => 0
  | .asked, _ => 2
  | .waiting, p => if p = .out then 1 else 2
  | .canceled, p => if p = .out then 0 else 1

/-- **The life of an entry** that is at `p`. -/
structure Life (s : St) (id : ℕ) (p : Place) : Prop where
  place : At s id p
  entry : s.caller id ≠ .none → s.entry id = ⟨s.asked id % 2 ^ 32, (s.asked id + s.timeout id) % 2 ^ 32⟩
  early : s.caller id = .none ∨ s.caller id = .asked → p = .out ∧ s.drained id = none
  undrained : s.drained id = none → s.signals id = [] ∧
    (s.caller id = .waiting ∨ s.caller id = .canceled → p = .queue)
  drained : s.drained id ≠ none → p ≠ .queue
  refs : s.refcnt id = (s.caller id).refs p

/-- Queueing an entry that is in no list puts it in a slot, or ends it. -/
theorem queueInternal_place (hl : ∀ q, (s.lists q).count id = 0) :
    ((∀ q, ((s.queueInternal id).lists q).count id = 0) ∧ (s.queueInternal id).refcnt id = s.refcnt id - 1) ∨
    (s.refcnt id ≠ 1 ∧ (∃ q₀, ∀ q, ((s.queueInternal id).lists q).count id = if q = q₀ then 1 else 0) ∧
      (s.queueInternal id).refcnt id = s.refcnt id) := by
  rcases queueInternal_cases s id with ⟨-, h⟩ | ⟨-, hr, h⟩ | ⟨-, hr, h⟩ <;> rw [h]
  · exact Or.inl ⟨hl, update_self _ _ _⟩
  · exact Or.inl ⟨hl, by rw [hr]; exact update_self _ _ _⟩
  · refine Or.inr ⟨hr, ⟨(wheelOf (s.delay id), slotOf (s.entry id).deadline (wheelOf (s.delay id))),
      fun q => ?_⟩, rfl⟩
    exact count_insert hl _ q

theorem lists_of_slot {q₀ : ℕ × ℕ} (h : At s id (.slot q₀)) (q : ℕ × ℕ) :
    (s.lists q).count id = if q = q₀ then 1 else 0 := by
  rw [h.slot q]
  by_cases hq : q = q₀
  · subst hq; simp
  · rw [if_neg hq, if_neg]
    intro h; cases h; exact hq rfl

/-! ## One tick -/

/-- The ways an entry can go through a tick. -/
inductive Passage (s : St) (id : ℕ) : Place → Prop
  /-- It is not touched. -/
  | keep {p : Place} (hp : p ≠ .queue) (hq : ∀ q₀, p = .slot q₀ → q₀ ∉ tickSlots s.now s.clock)
      (h : Same id s s.timerTick) : Passage s id p
  /-- Its slot comes up, and it is queued at the old time. -/
  | again {q₀ : ℕ × ℕ} (hq : q₀ ∈ tickSlots s.now s.clock) (s₁ : St) (hf : Frame s s₁)
      (hr : s₁.refcnt id = s.refcnt id) (hs : s₁.signals id = s.signals id) (hl : ∀ q, (s₁.lists q).count id = 0)
      (h : Same id (s₁.queueInternal id) s.timerTick) : Passage s id (.slot q₀)
  /-- It is drained, and queued at the new time. -/
  | drain (s₁ : St) (hn : s₁.now = s.clock) (ht : s₁.ticks = s.ticks) (he : s₁.entry = s.entry)
      (hr : s₁.refcnt id = s.refcnt id) (hs : s₁.signals id = s.signals id) (hl : ∀ q, (s₁.lists q).count id = 0)
      (h : Same id (s₁.queueInternal id) s.timerTick) : Passage s id .queue

theorem passage {p : Place} (h : At s id p) : Passage s id p := by
  have hq : s.tickWheels.queued = s.queued := (tickWheels_frame s).queued
  cases p with
  | out =>
    have h0 : id ∉ s.tickWheels.queued := by rw [hq]; exact List.count_eq_zero.1 (by rw [h.queue]; rfl)
    refine .keep (by simp) (by simp) ?_
    exact (tickWheels_none (h.lists_zero (by simp))).trans (tickQueued_other h0)
  | queue =>
    have h1 := tickWheels_none (h.lists_zero (by simp))
    have hc : s.tickWheels.queued.count id = 1 := by rw [hq, h.queue]; rfl
    have hz : ∀ q, (s.tickWheels.lists q).count id = 0 := fun q => (h1.lists q).trans (h.lists_zero (by simp) q)
    obtain ⟨s₁, hf, hr, hs, hl, hrest⟩ := tickQueued_take hc hz
    have hw := tickWheels_frame s
    exact .drain s₁ (hf.now.trans hw.clock) (hf.ticks.trans hw.ticks) (hf.entry.trans hw.entry)
      (hr.trans h1.refcnt)
      (hs.trans h1.signals) hl hrest
  | slot q₀ =>
    have h0 : id ∉ s.tickWheels.queued := by rw [hq]; exact List.count_eq_zero.1 (by rw [h.queue]; rfl)
    by_cases hm : q₀ ∈ tickSlots s.now s.clock
    · obtain ⟨s₁, hf, hr, hs, hl, hrest⟩ := tickWheels_take (lists_of_slot h) hm
      exact .again hm s₁ hf hr hs hl (hrest.trans (tickQueued_other h0))
    · refine .keep (by simp) ?_ ((tickWheels_keep (lists_of_slot h) hm).trans (tickQueued_other h0))
      rintro _ ⟨⟩
      exact hm

/-- What a tick leaves alone, and what it sets. -/
theorem timerTick_frame (s : St) :
    s.timerTick.clock = s.clock ∧ s.timerTick.now = s.clock ∧ s.timerTick.queued = [] ∧
      s.timerTick.entry = s.entry ∧ s.timerTick.caller = s.caller ∧ s.timerTick.inTick = false ∧
      s.timerTick.ticks = s.ticks ∧ s.timerTick.asked = s.asked ∧ s.timerTick.timeout = s.timeout ∧
      s.timerTick.drained = fun id => if id ∈ s.queued then some s.ticks else s.drained id := by
  have h1 := tickWheels_frame s
  have h2 := tickQueued_frame s.tickWheels
  refine ⟨h2.clock.trans h1.clock, h2.now.trans h1.clock, h2.queued, h2.entry.trans h1.entry,
    h2.caller.trans h1.caller, h2.inTick, h2.ticks.trans h1.ticks, h2.asked.trans h1.asked,
      h2.timeout.trans h1.timeout, ?_⟩
  show s.tickWheels.tickQueued.drained = _
  rw [h2.drained]
  simp only [St.draining, h1.queued, h1.drained, h1.ticks]

/-- The place of an entry after a tick. -/
theorem at_timerTick {p' : Place} (hp : p' ≠ .queue)
    (h : ∀ q, (s.timerTick.lists q).count id = if p' = .slot q then 1 else 0) : At s.timerTick id p' :=
  ⟨by rw [(timerTick_frame s).2.2.1, if_neg hp]; rfl, h⟩

theorem At.unique {p p' : Place} (h : At s id p) (h' : At s id p') : p = p' := by
  cases p with
  | out =>
    cases p' with
    | out => rfl
    | queue => have := h.queue.symm.trans h'.queue; simp at this
    | slot q => have := (h.slot q).symm.trans (h'.slot q); simp at this
  | queue =>
    cases p' with
    | out => have := h.queue.symm.trans h'.queue; simp at this
    | queue => rfl
    | slot q => have := h.queue.symm.trans h'.queue; simp at this
  | slot q =>
    have h1 := (h.slot q).symm.trans (h'.slot q)
    by_cases hp : p' = .slot q
    · exact hp.symm
    · rw [if_pos rfl, if_neg hp] at h1; cases h1

theorem mem_queued_iff {p : Place} (h : At s id p) : id ∈ s.queued ↔ p = .queue := by
  rw [← List.count_pos_iff, h.queue]
  split <;> simp_all

/-- An entry that has been drained is in the hands of the tick. -/
theorem Life.slot_caller {p : Place} (h : Life s id p) (hp : p ≠ .out) :
    s.caller id = .waiting ∨ s.caller id = .canceled := by
  cases hc : s.caller id with
  | none => exact absurd (h.early (Or.inl hc)).1 hp
  | asked => exact absurd (h.early (Or.inr hc)).1 hp
  | waiting => exact Or.inl rfl
  | canceled => exact Or.inr rfl

theorem Life.slot_drained {q : ℕ × ℕ} (h : Life s id (.slot q)) : s.drained id ≠ none := by
  intro hd
  have := (h.undrained hd).2 (h.slot_caller (by simp))
  cases this

/-- The life of an entry goes on after it was queued by the tick at `s₁`. -/
theorem Life.queued {p : Place} (h : Life s id p) (hp : p ≠ .out) {s₁ : St} (hr : s₁.refcnt id = s.refcnt id)
    (hl : ∀ q, (s₁.lists q).count id = 0) (hsame : Same id (s₁.queueInternal id) s.timerTick)
    (hd : s.timerTick.drained id ≠ none) : ∃ p', Life s.timerTick id p' := by
  obtain ⟨-, -, -, hent, hcal, -, -, hask, htmo, -⟩ := timerTick_frame s
  have hc := h.slot_caller hp
  have hne : s.caller id ≠ .none := by rcases hc with h | h <;> rw [h] <;> simp
  have hna : s.caller id ≠ .asked := by rcases hc with h | h <;> rw [h] <;> simp
  have hrefs := h.refs
  -- the references after the tick has kept or dropped its own
  have hfin : ∀ p', p' ≠ .queue → (∀ q, (s.timerTick.lists q).count id = if p' = .slot q then 1 else 0) →
      s.timerTick.refcnt id = (s.caller id).refs p' → Life s.timerTick id p' := by
    intro p' hp' hcount href
    refine ⟨at_timerTick hp' hcount, fun _ => ?_, fun h' => ?_, fun h' => absurd h' hd, fun _ => hp', ?_⟩
    · rw [hent, hask, htmo]; exact h.entry hne
    · rw [hcal] at h'; exact absurd h' (by simp [hne, hna])
    · rw [hcal]; exact href
  rcases queueInternal_place hl with ⟨h1, h2⟩ | ⟨-, ⟨q₀, h1⟩, h2⟩
  · refine ⟨.out, hfin .out (by simp) (fun q => ?_) ?_⟩
    · rw [hsame.lists q, h1 q]; rfl
    · rw [hsame.refcnt, h2, hr, hrefs]
      rcases hc with hc | hc <;> simp [hc, Caller.refs, hp]
  · refine ⟨.slot q₀, hfin (.slot q₀) (by simp) (fun q => ?_) ?_⟩
    · rw [hsame.lists q, h1 q]
      by_cases hq : q = q₀
      · subst hq; simp
      · rw [if_neg hq, if_neg]
        intro h'; cases h'; exact hq rfl
    · rw [hsame.refcnt, h2, hr, hrefs]
      rcases hc with hc | hc <;> simp [hc, Caller.refs, hp]

theorem Life.timerTick {p : Place} (h : Life s id p) : ∃ p', Life s.timerTick id p' := by
  obtain ⟨-, -, -, hent, hcal, -, -, hask, htmo, hdr⟩ := timerTick_frame s
  have hd : s.timerTick.drained id = if p = .queue then some s.ticks else s.drained id := by
    rw [hdr]; simp only [mem_queued_iff h.place]
  cases passage h.place with
  | keep hp hq hsame =>
    rw [if_neg hp] at hd
    refine ⟨p, at_timerTick hp fun q => (hsame.lists q).trans (h.place.slot q), ?_, ?_, ?_, ?_, ?_⟩
    · rw [hcal, hent, hask, htmo]; exact h.entry
    · rw [hcal, hd]; exact h.early
    · rw [hcal, hd, hsame.signals]; exact h.undrained
    · rw [hd]; exact h.drained
    · rw [hcal, hsame.refcnt]; exact h.refs
  | again hq s₁ hf hr hs hl hsame =>
    rw [if_neg (by simp)] at hd
    exact h.queued (by simp) hr hl hsame (by rw [hd]; exact h.slot_drained)
  | drain s₁ hn ht he hr hs hl hsame => exact h.queued (by simp) hr hl hsame (by rw [hd]; simp)

/-! ## Every step -/

/-- The step of a caller on another entry. -/
theorem Life.frame {p : Place} (h : Life s id p) (hq : s'.queued.count id = s.queued.count id)
    (hl : s'.lists = s.lists) (he : s'.entry id = s.entry id) (hr : s'.refcnt id = s.refcnt id)
    (hc : s'.caller id = s.caller id) (ha : s'.asked id = s.asked id) (ht : s'.timeout id = s.timeout id)
    (hd : s'.drained id = s.drained id) (hs : s'.signals id = s.signals id) : Life s' id p where
  place := ⟨hq.trans h.place.queue, by rw [hl]; exact h.place.slot⟩
  entry := by rw [hc, he, ha, ht]; exact h.entry
  early := by rw [hc, hd]; exact h.early
  undrained := by rw [hd, hs, hc]; exact h.undrained
  drained := by rw [hd]; exact h.drained
  refs := by rw [hr, hc]; exact h.refs

/-- The clocks are right and every entry has its life. -/
structure Inv (s : St) : Prop where
  clocks : Clocks s
  life : ∀ id, ∃ p, Life s id p

theorem inv_init : Inv .init where
  clocks := ⟨rfl, rfl, by simp [St.init]⟩
  life id := ⟨.out,
    ⟨⟨rfl, fun _ => rfl⟩, by simp [St.init], fun _ => ⟨rfl, rfl⟩, by simp [St.init], by simp [St.init],
    rfl⟩⟩

theorem clocks_step {a : Act} (h : Clocks s) (hs : s.step a = some s') : Clocks s' := by
  cases a with
  | request x t =>
    simp only [St.step] at hs
    split at hs
    · exact Option.some.inj hs ▸ ⟨h.clock, h.now, h.pos⟩
    · cases hs
  | push x =>
    simp only [St.step] at hs
    split at hs
    · exact Option.some.inj hs ▸ ⟨h.clock, h.now, h.pos⟩
    · cases hs
  | cancel x =>
    simp only [St.step] at hs
    split at hs
    · exact Option.some.inj hs ▸ ⟨h.clock, h.now, h.pos⟩
    · cases hs
  | clock =>
    simp only [St.step] at hs
    split at hs
    · cases hs
    · rename_i hi
      obtain rfl := Option.some.inj hs
      have h1 := h.clock
      have h2 := h.now
      refine ⟨?_, ?_, fun _ => Nat.succ_pos _⟩
      · show (s.clock + 1) % 2 ^ 32 = (s.ticks + 1) % 2 ^ 32
        omega
      · simp only [St.time, hi, if_false, Bool.false_eq_true] at h2
        simp only [St.time, if_true, Nat.add_sub_cancel]
        exact h2
  | tick =>
    simp only [St.step] at hs
    split at hs
    · obtain rfl := Option.some.inj hs
      obtain ⟨h1, h2, -, -, -, hin, h3, -⟩ := timerTick_frame s
      refine ⟨?_, ?_, by simp [hin]⟩
      · rw [h1, h3]; exact h.clock
      · simp only [St.time, hin, Bool.false_eq_true, if_false]
        rw [h2, h3]; exact h.clock
    · cases hs

theorem life_step {a : Act} (hck : Clocks s) {p : Place} (h : Life s id p) (hs : s.step a = some s') :
    ∃ p', Life s' id p' := by
  cases a with
  | request x t =>
    simp only [St.step] at hs
    split at hs
    · rename_i hx
      obtain rfl := Option.some.inj hs
      by_cases hid : id = x
      · subst hid
        obtain ⟨rfl, hd⟩ := h.early (Or.inl hx.1)
        refine ⟨.out, ⟨h.place.queue, h.place.slot⟩, fun _ => ?_, fun _ => ⟨rfl, hd⟩,
          fun _ => ⟨(h.undrained hd).1, ?_⟩, fun hd' => absurd hd hd', ?_⟩
        · simp only [update_self]
          have := hck.clock
          congr 1
          omega
        · simp
        · simp [Caller.refs]
      · exact ⟨p, h.frame rfl rfl (update_of_ne hid _ _) (update_of_ne hid _ _) (update_of_ne hid _ _)
          (update_of_ne hid _ _) (update_of_ne hid _ _) rfl rfl⟩
    · cases hs
  | push x =>
    simp only [St.step] at hs
    split at hs
    · rename_i hx
      obtain rfl := Option.some.inj hs
      by_cases hid : id = x
      · subst hid
        obtain ⟨rfl, hd⟩ := h.early (Or.inr hx)
        have hq : s.queued.count id = 0 := h.place.queue
        have hr := h.refs
        refine ⟨.queue, ⟨?_, fun q => h.place.lists_zero (by simp) q⟩, fun _ => h.entry (by rw [hx]; simp),
          fun h' => ?_, fun _ => ⟨(h.undrained hd).1, fun _ => rfl⟩, fun hd' => absurd hd hd', ?_⟩
        · rw [List.count_append, hq, List.count_singleton_self]; rfl
        · simp at h'
        · rw [hx] at hr; simp [hr, Caller.refs]
      · refine ⟨p, h.frame ?_ rfl rfl rfl (update_of_ne hid _ _) rfl rfl rfl rfl⟩
        rw [List.count_append, List.count_singleton, if_neg (by simpa using Ne.symm hid), Nat.add_zero]
    · cases hs
  | cancel x =>
    simp only [St.step] at hs
    split at hs
    · rename_i hx
      obtain rfl := Option.some.inj hs
      by_cases hid : id = x
      · subst hid
        have hr := h.refs
        refine ⟨p, ⟨h.place.queue, h.place.slot⟩, fun _ => h.entry (by rw [hx]; simp), fun h' => by simp at h',
          fun hd => ⟨(h.undrained hd).1, fun _ => (h.undrained hd).2 (Or.inl hx)⟩, h.drained, ?_⟩
        rw [hx] at hr
        simp only [update_self, hr, Caller.refs]
        split <;> rfl
      · exact ⟨p, h.frame rfl rfl rfl (update_of_ne hid _ _) (update_of_ne hid _ _) rfl rfl rfl rfl⟩
    · cases hs
  | clock =>
    simp only [St.step] at hs
    split at hs
    · cases hs
    · exact Option.some.inj hs ▸ ⟨p, h.frame rfl rfl rfl rfl rfl rfl rfl rfl rfl⟩
  | tick =>
    simp only [St.step] at hs
    split at hs
    · exact Option.some.inj hs ▸ h.timerTick
    · cases hs

theorem step_inv {a : Act} (h : Inv s) (hs : s.step a = some s') : Inv s' where
  clocks := clocks_step h.clocks hs
  life id := by
    obtain ⟨p, hp⟩ := h.life id
    exact life_step h.clocks hp hs

theorem reachable_inv (h : sys.Reachable s) : Inv s := h.inv (fun _ h => h ▸ inv_init) fun _ _ _ => step_inv

/-! ## Expired requests -/

/-- The signed 32-bit difference of two tick values. -/
def sdiff32 (a b : ℕ) : ℤ := ((a : ℤ) - b).bmod (2 ^ 32)

/-- **An expired request fires at the drain exactly when its deadline is now.** When a tick drains a request
`k` ticks after the clock was read, and the deadline is not in the future, it signals the event and releases
its reference if the timeout is `k` modulo `2 ^ 32`, and only then: it takes the others for requests far in
the future. -/
theorem expired_signaled_iff (h : sys.Reachable s) (hid : id ∈ s.queued) {k : ℕ} (hk : s.asked id + k = s.ticks)
    (hs : s.step .tick = some s') :
    (sdiff32 (s.entry id).deadline s.clock ≤ 0 →
      s'.signals id = s.signals id ++ [s.ticks] ∧ s'.refcnt id = s.refcnt id - 1) ↔
    (sdiff32 (s.entry id).deadline s.clock ≤ 0 → s.timeout id ≡ k [MOD 2 ^ 32]) := by
  obtain ⟨hck, hlife⟩ := reachable_inv h
  obtain ⟨p, hp⟩ := hlife id
  obtain rfl : p = .queue := (mem_queued_iff hp.place).1 hid
  simp only [St.step] at hs
  split at hs
  swap
  · cases hs
  obtain rfl := Option.some.inj hs
  have hne : s.caller id ≠ .none := by rcases hp.slot_caller (by simp) with h | h <;> rw [h] <;> simp
  cases passage hp.place with
  | keep hq => exact absurd rfl hq
  | drain s₁ hn ht he hr hsig hl hsame =>
    have hdl : (s₁.entry id).deadline = (s.asked id + s.timeout id) % 2 ^ 32 := by rw [he, hp.entry hne]
    have hnow : s₁.now = (s.asked id + k) % 2 ^ 32 := by rw [hn, hck.clock, hk]
    have hdelay : s₁.delay id = 0 ↔ s.timeout id ≡ k [MOD 2 ^ 32] := by
      rw [St.delay, hdl, hnow, Nat.ModEq]
      unfold sub32
      omega
    refine imp_congr_right fun _ => ?_
    rw [← hdelay, hsame.signals, hsame.refcnt, ← hsig, ← hr, ← ht]
    constructor
    · intro h'
      by_contra hd
      have := h'.1
      rw [queueInternal_not_due hd] at this
      simp at this
    · intro hd
      exact ⟨(queueInternal_due hd).1, (queueInternal_due hd).2.1⟩

/-- A request for one tick, drained by the next one. -/
theorem expired_signaled_next : ∃ s s', (sys.Reachable s ∧ 1 ∈ s.queued ∧ s.asked 1 + 1 = s.ticks ∧
    s.step .tick = some s') ∧ (sdiff32 (s.entry 1).deadline s.clock ≤ 0 ∧ s'.signals 1 = [1]) ∧
    ((sdiff32 (s.entry 1).deadline s.clock ≤ 0 →
      s'.signals 1 = s.signals 1 ++ [s.ticks] ∧ s'.refcnt 1 = s.refcnt 1 - 1) ↔
    (sdiff32 (s.entry 1).deadline s.clock ≤ 0 → s.timeout 1 ≡ 1 [MOD 2 ^ 32])) := by
  obtain ⟨s, hs, hq, hk, he, s', hs', hsig⟩ := System.exists_of_check sys (fun _ _ => True)
    (fun s => 1 ∈ s.queued ∧ s.asked 1 + 1 = s.ticks ∧ sdiff32 (s.entry 1).deadline s.clock ≤ 0 ∧
      ∃ s' ∈ s.step .tick, s'.signals 1 = [1])
    .init rfl [.request 1 1, .push 1, .clock] (by decide +kernel)
  exact ⟨s, s', ⟨hs, hq, hk, hs'⟩, ⟨he, hsig⟩, expired_signaled_iff hs hq hk hs'⟩

/-- A request for no time at all: at the drain its deadline is one tick ago, and it is not signaled. -/
theorem expired_not_signaled : ∃ s s', sys.Reachable s ∧ 1 ∈ s.queued ∧ s.step .tick = some s' ∧
    ¬ (sdiff32 (s.entry 1).deadline s.clock ≤ 0 →
      s'.signals 1 = s.signals 1 ++ [s.ticks] ∧ s'.refcnt 1 = s.refcnt 1 - 1) := by
  obtain ⟨s, hs, hq, s', hs', he⟩ := System.exists_of_check sys (fun _ _ => True)
    (fun s => 1 ∈ s.queued ∧ ∃ s' ∈ s.step .tick, ¬ (sdiff32 (s.entry 1).deadline s.clock ≤ 0 →
      s'.signals 1 = s.signals 1 ++ [s.ticks] ∧ s'.refcnt 1 = s.refcnt 1 - 1))
    .init rfl [.request 1 0, .push 1, .clock] (by decide +kernel)
  exact ⟨s, s', hs, hq, hs', he⟩

end Prs.Timer
