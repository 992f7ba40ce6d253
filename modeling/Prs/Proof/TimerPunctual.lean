import Prs.Proof.TimerLife

/-!
# Punctual timer requests

While an entry waits in the wheels its slot comes up in time, or just has (`Waits`). An entry that moves to a
lower wheel is placed with the time before the tick; when its deadline is the last tick of a period of that
wheel, this is the slot that the tick has just emptied, and the entry is missed.

* `signaled_on_time_iff`: an entry that was drained by the next tick is signaled in the tick of its deadline
  exactly when its timeout is at most 256 or its deadline is not congruent to 255 modulo 256.
* `missed_511`: a request for 511 ticks at clock 0 is missed.
-/

namespace Prs.Timer

open Function

variable {s s' : St} {id : ℕ}

/-- The tick of the deadline, since the start. -/
def St.due (s : St) (id : ℕ) : ℕ := s.asked id + s.timeout id

/-- A request that its caller waits for, drained by the first tick after the clock was read. -/
structure Tracked (s : St) (id : ℕ) : Prop where
  waiting : s.caller id = .waiting
  drained : s.drained id = some (s.asked id + 1)
  two_le : 2 ≤ s.timeout id
  lt : s.timeout id < 2 ^ 31

/-- The timeouts and deadlines for which the wheels are right. -/
def St.Punctual (s : St) (id : ℕ) : Prop := s.timeout id ≤ 256 ∨ s.due id % 256 ≠ 255

/-- **How a request waits.** Up to its deadline it is in the slot of its deadline on some wheel. If it is
punctual, that slot comes up in time, and after the deadline it has been signaled once and is out. If not, it
is never on the lowest wheel, and is not signaled in the tick of its deadline. -/
structure Waits (s : St) (id : ℕ) (p : Place) : Prop where
  begun : s.asked id < s.time
  before : s.time ≤ s.due id → s.signals id = [] ∧ ∃ w, p = .slot (w, Wheel.slot 256 w (s.due id)) ∧ w < 4 ∧
    ((s.Punctual id ∧ Wheel.InTime 256 w (s.due id) s.time ∧ (w ≠ 0 → s.due id % 256 ≠ 255)) ∨
      (¬ s.Punctual id ∧ w ≠ 0 ∧ (Wheel.InTime 256 w (s.due id) s.time ∨ Wheel.Missed 256 w (s.due id) s.time)))
  after : s.due id < s.time → (s.Punctual id → s.signals id = [s.due id + 1] ∧ p = .out) ∧
    (¬ s.Punctual id → s.due id + 1 ∉ s.signals id)

theorem timerTick_due (s : St) (id : ℕ) : s.timerTick.due id = s.due id ∧
    (s.timerTick.Punctual id ↔ s.Punctual id) ∧ s.timerTick.time = s.ticks ∧ s.timerTick.asked = s.asked := by
  obtain ⟨-, -, -, -, -, hin, htk, hak, htm, -⟩ := timerTick_frame s
  have hdue : s.timerTick.due id = s.due id := by simp only [St.due, hak, htm]
  exact ⟨hdue, by simp only [St.Punctual, hdue, htm], by simp [St.time, hin, htk], hak⟩

/-- A request that has just been drained. -/
theorem waits_drained (hck : Clocks s) (h : Life s id .queue)
    (hask : s.asked id + 1 = s.ticks) (h2 : 2 ≤ s.timeout id) (h31 : s.timeout id < 2 ^ 31)
    (hc : s.caller id = .waiting) (hd : s.drained id = none) :
    ∃ p, At s.timerTick id p ∧ Waits s.timerTick id p := by
  obtain ⟨hdue, hpun, htime, hak⟩ := timerTick_due s id
  cases passage h.place with
  | keep hq => exact absurd rfl hq
  | drain s₁ hn ht he hr hsig hl hsame =>
    have href : s₁.refcnt id = 2 := by rw [hr, h.refs, hc]; rfl
    have hdl : (s₁.entry id).deadline = s.due id % 2 ^ 32 := by rw [he, h.entry (by rw [hc]; simp)]; rfl
    have hnow : s₁.now = s.ticks % 2 ^ 32 := by rw [hn, hck.clock]
    have hlt : s.ticks < s.due id := by unfold St.due; omega
    obtain ⟨hw, -, hlists⟩ := queueInternal_deadline hnow hdl hlt (by unfold St.due; omega) (by omega) hl
    have hsig' : s.timerTick.signals id = [] := by
      have hdelay : s₁.delay id ≠ 0 := by
        rw [delay_eq hnow hdl hlt.le (by unfold St.due; omega)]; omega
      rw [hsame.signals, queueInternal_not_due hdelay, hsig, (h.undrained hd).1]
    have hin := Wheel.inTime_log (by norm_num : 1 < 256) hlt
    refine ⟨.slot (Nat.log 256 (s.due id - s.ticks),
      Wheel.slot 256 (Nat.log 256 (s.due id - s.ticks)) (s.due id)),
      at_timerTick (by simp) fun q => ?_, ?_, fun _ => ⟨hsig', ?_⟩, fun h' => ?_⟩
    · rw [hsame.lists q, hlists q]
      by_cases hq : q = (Nat.log 256 (s.due id - s.ticks),
        Wheel.slot 256 (Nat.log 256 (s.due id - s.ticks)) (s.due id))
      · rw [if_pos hq, if_pos (by rw [hq])]
      · rw [if_neg hq, if_neg]
        intro h'; cases h'; exact hq rfl
    · rw [htime, hak]; omega
    · refine ⟨_, by rw [hdue], hw, ?_⟩
      rw [hpun, hdue, htime]
      by_cases hp : s.Punctual id
      · refine Or.inl ⟨hp, hin, fun hw0 => ?_⟩
        -- a timeout of at most 256 leaves a distance below 256, which is for the lowest wheel
        rcases hp with hp | hp
        · exact absurd (Nat.log_of_lt (by unfold St.due; omega)) hw0
        · exact hp
      · refine Or.inr ⟨hp, ?_, Or.inl hin⟩
        have hp' : ¬ s.timeout id ≤ 256 := fun h => hp (Or.inl h)
        exact (Nat.log_pos (by norm_num) (by unfold St.due; omega)).ne'
    · rw [hdue, htime] at h'; omega

/-- The clock is one tick ahead while a tick is handled. -/
theorem Clocks.ticks_eq (h : Clocks s) (hi : s.inTick = true) : s.ticks = s.time + 1 := by
  have hpos := h.pos hi
  simp only [St.time, hi, if_true]
  omega

theorem slot_count_iff {q₀ : ℕ × ℕ} {l : ℕ × ℕ → ℕ} (h : ∀ q, l q = if q = q₀ then 1 else 0) (q : ℕ × ℕ) :
    l q = if Place.slot q₀ = .slot q then 1 else 0 := by
  rw [h q]
  by_cases hq : q = q₀
  · subst hq; simp
  · rw [if_neg hq, if_neg]
    intro h'; cases h'; exact hq rfl

/-- A request whose slot comes up before its deadline moves to a lower wheel. -/
theorem Waits.moveDown (hck : Clocks s) (hi : s.inTick = true) (hT : Tracked s id) {w : ℕ}
    (h : Life s id (.slot (w, Wheel.slot 256 w (s.due id))))
    (hW : Waits s id (.slot (w, Wheel.slot 256 w (s.due id)))) (hlt : s.time < s.due id) (hw : w ≠ 0)
    (hup : s.time + 1 = Wheel.periodStart 256 w (s.due id)) {s₁ : St} (hf : Frame s s₁)
    (hr : s₁.refcnt id = s.refcnt id) (hs : s₁.signals id = s.signals id)
    (hl : ∀ q, (s₁.lists q).count id = 0) (hsame : Same id (s₁.queueInternal id) s.timerTick) :
    ∃ p, At s.timerTick id p ∧ Waits s.timerTick id p := by
  obtain ⟨hdue, hpun, htime, hak⟩ := timerTick_due s id
  have hticks := hck.ticks_eq hi
  have hbegun := hW.begun
  obtain ⟨hsig, v, -, -, hpos⟩ := hW.before hlt.le
  have hT2 := hT.lt
  have hspan : s.due id < s.time + 2 ^ 32 := by unfold St.due at hlt ⊢; omega
  have href : s₁.refcnt id = 2 := by rw [hr, h.refs, hT.waiting]; rfl
  have hdl : (s₁.entry id).deadline = s.due id % 2 ^ 32 := by
    rw [hf.entry, h.entry (by rw [hT.waiting]; simp)]; rfl
  have hnow : s₁.now = s.time % 2 ^ 32 := by rw [hf.now, hck.now]
  obtain ⟨hw4, -, hlists⟩ := queueInternal_deadline hnow hdl hlt hspan (by omega) hl
  have hsig' : s.timerTick.signals id = [] := by
    have hdelay : s₁.delay id ≠ 0 := by rw [delay_eq hnow hdl hlt.le hspan]; omega
    rw [hsame.signals, queueInternal_not_due hdelay, hs, hsig]
  refine ⟨.slot (Nat.log 256 (s.due id - s.time), Wheel.slot 256 (Nat.log 256 (s.due id - s.time)) (s.due id)),
    at_timerTick (by simp) fun q => ?_, ?_, fun _ => ⟨hsig', _, by rw [hdue], hw4, ?_⟩, fun h' => ?_⟩
  · rw [hsame.lists q]; exact slot_count_iff hlists q
  · rw [htime, hak, hticks]; omega
  · rw [hpun, hdue, htime, hticks]
    have hdown := Wheel.inTime_or_missed (by norm_num : 1 < 256) hlt
    by_cases hp : s.Punctual id
    · -- the deadline is not the last tick of a period, so the slot is still to come up
      have h255 : s.due id % 256 ≠ 255 := by
        rcases hpos with ⟨-, hin, hne⟩ | ⟨hn, -⟩
        · rcases hp with h256 | h255
          · by_contra hcon
            have hlow := Wheel.periodStart_le 256 w (s.due id)
            have hd : 256 ∣ Wheel.periodStart 256 w (s.due id) := Wheel.dvd_periodStart hw
            unfold St.due at *
            omega
          · exact h255
        · exact absurd hp hn
      rcases hdown with hdown | hdown
      · exact Or.inl ⟨hp, hdown, fun _ => h255⟩
      · have := hdown.dvd
        omega
    · have h255 : 256 ∣ s.due id + 1 := by
        have : ¬ s.due id % 256 ≠ 255 := fun h => hp (Or.inr h)
        omega
      have hd : 256 ∣ s.time + 1 := by rw [hup]; exact Wheel.dvd_periodStart hw
      exact Or.inr ⟨hp, Wheel.log_ne_zero_of_dvd (by norm_num) h255 hd hlt, hdown⟩
  · rw [hdue, htime, hticks] at h'; omega

theorem mem_tickSlots_iff (hck : Clocks s) (hi : s.inTick = true) (w k : ℕ) :
    (w, k) ∈ tickSlots s.now s.clock ↔ w < 4 ∧ Wheel.ComesUp 256 w k s.time := by
  have hticks := hck.ticks_eq hi
  rw [hck.now, hck.clock, hticks]
  exact mem_tickSlots s.time w k

/-- A request whose slot does not come up waits on. -/
theorem Waits.stay (hck : Clocks s) (hi : s.inTick = true) {w : ℕ} (hw : w < 4)
    (hW : Waits s id (.slot (w, Wheel.slot 256 w (s.due id)))) (hle : s.time ≤ s.due id)
    (hno : ¬ Wheel.ComesUp 256 w (Wheel.slot 256 w (s.due id)) s.time) (hsame : Same id s s.timerTick) :
    Waits s.timerTick id (.slot (w, Wheel.slot 256 w (s.due id))) := by
  obtain ⟨hdue, hpun, htime, hak⟩ := timerTick_due s id
  have hticks := hck.ticks_eq hi
  obtain ⟨hsig, v, hv, -, hpos⟩ := hW.before hle
  obtain rfl : w = v := by cases hv; rfl
  have hbegun := hW.begun
  refine ⟨by rw [htime, hak, hticks]; omega, fun hle' => ?_, fun hlt => ?_⟩
  · rw [hdue, htime, hticks] at hle'
    refine ⟨by rw [hsame.signals, hsig], w, by rw [hdue], hw, ?_⟩
    rw [hpun, hdue, htime, hticks]
    rcases hpos with ⟨hp, hin, hne⟩ | ⟨hp, hw0, hin | hmiss⟩
    · exact Or.inl ⟨hp, hin.next (by norm_num) hno, hne⟩
    · exact Or.inr ⟨hp, hw0, Or.inl (hin.next (by norm_num) hno)⟩
    · exact Or.inr ⟨hp, hw0, Or.inr ((hmiss.next (by norm_num)).2 (by omega))⟩
  · -- the deadline has passed without a signal: it was missed
    rw [hdue, htime, hticks] at hlt
    rw [hpun, hdue, hsame.signals, hsig]
    refine ⟨fun hp => ?_, fun _ => by simp⟩
    rcases hpos with ⟨-, hin, -⟩ | ⟨hn, -⟩
    · have := (hin.next (by norm_num) hno).1
      omega
    · exact absurd hp hn

/-- A request whose slot comes up at its deadline is signaled. -/
theorem Waits.fire (hck : Clocks s) (hi : s.inTick = true) (hT : Tracked s id) {p : Place} (h : Life s id p)
    (hW : Waits s id p) (heq : s.time = s.due id) (hp : s.Punctual id) {s₁ : St} (hf : Frame s s₁)
    (hs : s₁.signals id = s.signals id) (hl : ∀ q, (s₁.lists q).count id = 0)
    (hsame : Same id (s₁.queueInternal id) s.timerTick) :
    ∃ p', At s.timerTick id p' ∧ Waits s.timerTick id p' := by
  obtain ⟨hdue, hpun, htime, hak⟩ := timerTick_due s id
  have hticks := hck.ticks_eq hi
  obtain ⟨hsig, -⟩ := hW.before heq.le
  have hbegun := hW.begun
  have hdl : (s₁.entry id).deadline = s.due id % 2 ^ 32 := by
    rw [hf.entry, h.entry (by rw [hT.waiting]; simp)]; rfl
  have hnow : s₁.now = s.time % 2 ^ 32 := by rw [hf.now, hck.now]
  have hdelay : s₁.delay id = 0 := by
    rw [delay_eq hnow hdl heq.le (by omega)]; omega
  obtain ⟨hs1, -, hs3⟩ := queueInternal_due hdelay
  refine ⟨.out, at_timerTick (by simp) fun q => ?_, by rw [htime, hak, hticks]; omega, fun hle => ?_, fun _ => ?_⟩
  · rw [hsame.lists q, hs3, hl q]; rfl
  · rw [hdue, htime, hticks] at hle; omega
  · rw [hpun, hdue]
    refine ⟨fun _ => ⟨?_, rfl⟩, fun hn => absurd hp hn⟩
    rw [hsame.signals, hs1, hs, hsig, hf.ticks, hticks, heq]; rfl

theorem Waits.timerTick (hck : Clocks s) (hi : s.inTick = true) (hT : Tracked s id) {p : Place} (h : Life s id p)
    (hW : Waits s id p) : ∃ p', At s.timerTick id p' ∧ Waits s.timerTick id p' := by
  obtain ⟨hdue, hpun, htime, hak⟩ := timerTick_due s id
  have hticks := hck.ticks_eq hi
  have hbegun := hW.begun
  by_cases hle : s.time ≤ s.due id
  · obtain ⟨hsig, w, rfl, hw, hpos⟩ := hW.before hle
    cases passage h.place with
    | keep hpq hq hsame =>
      have hno : ¬ Wheel.ComesUp 256 w (Wheel.slot 256 w (s.due id)) s.time := fun hc =>
        hq _ rfl ((mem_tickSlots_iff hck hi _ _).2 ⟨hw, hc⟩)
      exact ⟨_, at_timerTick hpq fun q => (hsame.lists q).trans (h.place.slot q), hW.stay hck hi hw hle hno hsame⟩
    | again hq s₁ hf hr hs hl hsame =>
      have hup := ((mem_tickSlots_iff hck hi _ _).1 hq).2
      -- a request that was missed has no slot that comes up before its deadline
      have hin : Wheel.InTime 256 w (s.due id) s.time := by
        rcases hpos with ⟨-, hin, -⟩ | ⟨-, -, hin | hmiss⟩
        · exact hin
        · exact hin
        · exact absurd hup (hmiss.next (by norm_num)).1
      have hcome := hin.comesUp (by norm_num) hup
      by_cases hw0 : w = 0
      · rw [if_pos hw0] at hcome
        rcases hpos with ⟨hp, -⟩ | ⟨-, hw1, -⟩
        · exact hW.fire hck hi hT h hcome hp hf hs hl hsame
        · exact absurd hw0 hw1
      · rw [if_neg hw0] at hcome
        have hlow := Wheel.periodStart_le 256 w (s.due id)
        exact hW.moveDown hck hi hT h (by omega) hw0 hcome hf hr hs hl hsame
  · -- after the deadline
    have hlt : s.due id < s.time := by omega
    obtain ⟨hyes, hno⟩ := hW.after hlt
    obtain ⟨p', hp'⟩ := h.timerTick
    refine ⟨p', hp'.place, by rw [htime, hak, hticks]; omega, fun h' => ?_, fun _ => ?_⟩
    · rw [hdue, htime, hticks] at h'; omega
    · rw [hpun, hdue]
      have hsignals : s.timerTick.signals id = s.signals id ∨
          s.timerTick.signals id = s.signals id ++ [s.ticks] := by
        cases passage h.place with
        | keep hpq hq hsame => exact Or.inl hsame.signals
        | again hq s₁ hf hr hs hl hsame =>
          rw [hsame.signals]
          by_cases hd : s₁.delay id = 0
          · rw [(queueInternal_due hd).1, hs, hf.ticks]; exact Or.inr rfl
          · rw [queueInternal_not_due hd, hs]; exact Or.inl rfl
        | drain s₁ hn ht he hr hs hl hsame =>
          rw [hsame.signals]
          by_cases hd : s₁.delay id = 0
          · rw [(queueInternal_due hd).1, hs, ht]; exact Or.inr rfl
          · rw [queueInternal_not_due hd, hs]; exact Or.inl rfl
      refine ⟨fun hp => ?_, fun hn => ?_⟩
      · obtain ⟨hsig, rfl⟩ := hyes hp
        cases passage h.place with
        | keep hpq hq hsame =>
          have : At s.timerTick id .out := at_timerTick hpq fun q => (hsame.lists q).trans (h.place.slot q)
          exact ⟨by rw [hsame.signals, hsig], hp'.place.unique this⟩
      · rcases hsignals with hs | hs <;> rw [hs]
        · exact hno hn
        · rw [List.mem_append, List.mem_singleton, hticks]
          rintro (hm | hm)
          · exact hno hn hm
          · omega

theorem Waits.frame {p : Place} (h : Waits s id p) (ha : s'.asked id = s.asked id)
    (ht : s'.timeout id = s.timeout id) (hs : s'.signals id = s.signals id) (htime : s'.time = s.time) :
    Waits s' id p := by
  have hdue : s'.due id = s.due id := by rw [St.due, ha, ht]; rfl
  have hpun : s'.Punctual id ↔ s.Punctual id := by rw [St.Punctual, hdue, ht]; rfl
  refine ⟨by rw [ha, htime]; exact h.begun, ?_, ?_⟩
  · rw [hdue, htime, hs, hpun]; exact h.before
  · rw [hdue, htime, hs, hpun]; exact h.after

/-- Every request that is tracked waits as it should. -/
def Watch (s : St) : Prop := ∀ id, Tracked s id → ∃ p, At s id p ∧ Waits s id p

theorem watch_tick (hI : Inv s) (h : Watch s) (hi : s.inTick = true) : Watch s.timerTick := by
  intro id hT
  obtain ⟨-, -, -, -, hcal, -, -, hask, htmo, hdr⟩ := timerTick_frame s
  obtain ⟨p, hp⟩ := hI.life id
  have hc := hT.waiting
  have hd := hT.drained
  have h2 := hT.two_le
  have h31 := hT.lt
  rw [hcal] at hc
  rw [htmo] at h2 h31
  rw [hdr, hask] at hd
  simp only [mem_queued_iff hp.place] at hd
  split at hd
  · rename_i hq
    subst hq
    have hn : s.drained id = none := by
      by_contra hne
      exact hp.drained hne rfl
    exact waits_drained hI.clocks hp (Option.some.inj hd).symm h2 h31 hc hn
  · have hT' : Tracked s id := ⟨hc, hd, h2, h31⟩
    obtain ⟨p', hp', hW⟩ := h id hT'
    obtain rfl := hp.place.unique hp'
    exact hW.timerTick hI.clocks hi hT' hp

theorem watch_step {a : Act} (hI : Inv s) (h : Watch s) (hs : s.step a = some s') : Watch s' := by
  intro id hT
  cases a with
  | request x t =>
    simp only [St.step] at hs
    split at hs
    · obtain rfl := Option.some.inj hs
      have hid : id ≠ x := by rintro rfl; have := hT.waiting; simp at this
      have hc := hT.waiting
      have hd := hT.drained
      have h2 := hT.two_le
      have h31 := hT.lt
      simp only [update_of_ne hid] at hc hd h2 h31
      obtain ⟨p, hp, hW⟩ := h id ⟨hc, hd, h2, h31⟩
      exact ⟨p, ⟨hp.queue, hp.slot⟩, hW.frame (update_of_ne hid _ _) (update_of_ne hid _ _) rfl rfl⟩
    · cases hs
  | push x =>
    simp only [St.step] at hs
    split at hs
    · rename_i hx
      obtain rfl := Option.some.inj hs
      have hid : id ≠ x := by
        rintro rfl
        obtain ⟨p, hp⟩ := hI.life id
        have hd := hT.drained
        rw [show _ = _ from (hp.early (Or.inr hx)).2] at hd
        cases hd
      have hc := hT.waiting
      simp only [update_of_ne hid] at hc
      obtain ⟨p, hp, hW⟩ := h id ⟨hc, hT.drained, hT.two_le, hT.lt⟩
      refine ⟨p, ⟨?_, hp.slot⟩, hW.frame rfl rfl rfl rfl⟩
      rw [List.count_append, List.count_singleton, if_neg (by simpa using Ne.symm hid), Nat.add_zero]
      exact hp.queue
    · cases hs
  | cancel x =>
    simp only [St.step] at hs
    split at hs
    · obtain rfl := Option.some.inj hs
      have hid : id ≠ x := by rintro rfl; have := hT.waiting; simp at this
      have hc := hT.waiting
      simp only [update_of_ne hid] at hc
      obtain ⟨p, hp, hW⟩ := h id ⟨hc, hT.drained, hT.two_le, hT.lt⟩
      exact ⟨p, ⟨hp.queue, hp.slot⟩, hW.frame rfl rfl rfl rfl⟩
    · cases hs
  | clock =>
    simp only [St.step] at hs
    split at hs
    · cases hs
    · rename_i hi
      obtain rfl := Option.some.inj hs
      obtain ⟨p, hp, hW⟩ := h id ⟨hT.waiting, hT.drained, hT.two_le, hT.lt⟩
      refine ⟨p, ⟨hp.queue, hp.slot⟩, hW.frame rfl rfl rfl ?_⟩
      simp [St.time, hi]
  | tick =>
    simp only [St.step] at hs
    split at hs
    · rename_i hi
      obtain rfl := Option.some.inj hs
      exact watch_tick hI h hi id hT
    · cases hs

theorem reachable_watch (h : sys.Reachable s) : Inv s ∧ Watch s := by
  refine h.inv (I := fun s => Inv s ∧ Watch s) ?_ ?_
  · rintro s rfl
    refine ⟨inv_init, fun id hT => ?_⟩
    have := hT.waiting
    simp [St.init] at this
  · rintro s a s' ⟨hI, hW⟩ hs
    exact ⟨step_inv hI hs, watch_step hI hW hs⟩

theorem punctual_iff (hI : Inv s) (hc : s.caller id = .waiting) :
    s.Punctual id ↔ s.timeout id ≤ 256 ∨ ((s.entry id).start + s.timeout id) % 256 ≠ 255 := by
  obtain ⟨p, hp⟩ := hI.life id
  rw [hp.entry (by rw [hc]; simp), St.Punctual, St.due]
  dsimp only
  omega

/-- **Which requests are punctual.** Take any run, and in any state of it a request that was made at clock `c`
with timeout `T`, `2 ≤ T < 2 ^ 31`, drained by the tick that advanced the clock to `c + 1` and not canceled.
It has not been signaled up to the tick of its deadline. After that it has been signaled once, in that tick,
exactly when `T ≤ 256` or `c + T` is not congruent to 255 modulo 256. -/
theorem signaled_on_time_iff (h : sys.Reachable s) (hc : s.caller id = .waiting)
    (hd : s.drained id = some (s.asked id + 1)) (h2 : 2 ≤ s.timeout id) (h31 : s.timeout id < 2 ^ 31) :
    (s.time ≤ s.due id → s.signals id = []) ∧
    (s.due id < s.time → (s.signals id = [s.due id + 1] ↔
      s.timeout id ≤ 256 ∨ ((s.entry id).start + s.timeout id) % 256 ≠ 255)) := by
  obtain ⟨hI, hW⟩ := reachable_watch h
  obtain ⟨p, -, hw⟩ := hW id ⟨hc, hd, h2, h31⟩
  refine ⟨fun hle => (hw.before hle).1, fun hlt => ?_⟩
  rw [← punctual_iff hI hc]
  obtain ⟨hyes, hno⟩ := hw.after hlt
  constructor
  · intro hs
    by_contra hp
    exact hno hp (by rw [hs]; simp)
  · exact fun hp => (hyes hp).1

/-- The clock can go on for any number of ticks. -/
theorem exists_ticks (h : sys.Reachable s) (hi : s.inTick = false) (n : ℕ) :
    ∃ s', sys.Reachable s' ∧ s'.inTick = false ∧ s'.ticks = s.ticks + n ∧ s'.caller = s.caller ∧
      s'.asked = s.asked ∧ s'.timeout = s.timeout ∧ ∀ id, s.drained id ≠ none → s'.drained id = s.drained id := by
  induction n with
  | zero => exact ⟨s, h, hi, rfl, rfl, rfl, rfl, fun _ _ => rfl⟩
  | succ n ih =>
    obtain ⟨s₁, h1, hi1, htk, hcal, hask, htmo, hdr⟩ := ih
    have hclock : sys.step s₁ .clock = some { s₁ with
        clock := (s₁.clock + 1) % 2 ^ 32, ticks := s₁.ticks + 1, inTick := true } := by
      simp [sys, St.step, hi1]
    have h2 := System.Reach.step h1 trivial hclock
    have h3 := System.Reach.step h2 trivial (a := .tick) rfl
    obtain ⟨-, -, -, -, hcal', hin', htk', hask', htmo', hdr'⟩ := timerTick_frame
      { s₁ with clock := (s₁.clock + 1) % 2 ^ 32, ticks := s₁.ticks + 1, inTick := true }
    refine ⟨_, h3, hin', ?_, hcal'.trans hcal, hask'.trans hask, htmo'.trans htmo, fun id hd => ?_⟩
    · rw [htk']; dsimp only; omega
    · -- an entry that has been drained is not in the queue again
      obtain ⟨p, hp⟩ := (reachable_inv h1).life id
      have hq : id ∉ s₁.queued := by
        rw [mem_queued_iff hp.place]
        exact hp.drained (by rw [hdr id hd]; exact hd)
      rw [hdr']
      simp only [hq, if_false]
      exact hdr id hd

/-- A request for two ticks. -/
theorem signaled_on_time_two : ∃ s, (sys.Reachable s ∧ s.caller 1 = .waiting ∧
    s.drained 1 = some (s.asked 1 + 1) ∧ 2 ≤ s.timeout 1 ∧ s.timeout 1 < 2 ^ 31) ∧
    (s.due 1 < s.time ∧ s.signals 1 = [3]) ∧
    (s.time ≤ s.due 1 → s.signals 1 = []) ∧
    (s.due 1 < s.time → (s.signals 1 = [s.due 1 + 1] ↔
      s.timeout 1 ≤ 256 ∨ ((s.entry 1).start + s.timeout 1) % 256 ≠ 255)) := by
  obtain ⟨s, hs, hc, hd, h2, h31, ht, hsig⟩ := System.exists_of_check sys (fun _ _ => True)
    (fun s => s.caller 1 = .waiting ∧ s.drained 1 = some (s.asked 1 + 1) ∧ 2 ≤ s.timeout 1 ∧
      s.timeout 1 < 2 ^ 31 ∧ s.due 1 < s.time ∧ s.signals 1 = [3])
    .init rfl [.request 1 2, .push 1, .clock, .tick, .clock, .tick, .clock, .tick] (by decide +kernel)
  exact ⟨s, ⟨hs, hc, hd, h2, h31⟩, ⟨ht, hsig⟩, signaled_on_time_iff hs hc hd h2 h31⟩

/-- A request made at clock 0 for 511 ticks is not signaled in the tick from 511 to 512: in the tick from 255
to 256 it goes back to the slot it came from. -/
theorem missed_511 : ∃ s, sys.Reachable s ∧ s.caller 1 = .waiting ∧ s.drained 1 = some (s.asked 1 + 1) ∧
    (s.entry 1).start = 0 ∧ s.timeout 1 = 511 ∧ s.due 1 < s.time ∧ s.signals 1 ≠ [s.due 1 + 1] := by
  obtain ⟨s₀, h0, hc0, hd0, ha0, hm0, hi0, hk0⟩ := System.exists_of_check sys (fun _ _ => True)
    (fun s => s.caller 1 = .waiting ∧ s.drained 1 = some 1 ∧ s.asked 1 = 0 ∧ s.timeout 1 = 511 ∧
      s.inTick = false ∧ s.ticks = 1)
    .init rfl [.request 1 511, .push 1, .clock, .tick] (by decide +kernel)
  obtain ⟨s, hs, hi, hk, hc, ha, hm, hd⟩ := exists_ticks h0 hi0 511
  have hask : s.asked 1 = 0 := by rw [ha, ha0]
  have htmo : s.timeout 1 = 511 := by rw [hm, hm0]
  have hcal : s.caller 1 = .waiting := by rw [hc, hc0]
  have hdr : s.drained 1 = some (s.asked 1 + 1) := by rw [hd 1 (by rw [hd0]; simp), hd0, hask]
  have hdue : s.due 1 = 511 := by rw [St.due, hask, htmo]
  have htime : s.time = 512 := by simp [St.time, hi, hk, hk0]
  obtain ⟨hI, hW⟩ := reachable_watch hs
  obtain ⟨p, hp⟩ := hI.life 1
  obtain ⟨q, -, hw⟩ := hW 1 ⟨hcal, hdr, by omega, by omega⟩
  refine ⟨s, hs, hcal, hdr, ?_, htmo, by omega, fun hsig => ?_⟩
  · rw [hp.entry (by rw [hcal]; simp), hask]; rfl
  · have hn : ¬ s.Punctual 1 := by rw [St.Punctual, hdue, htmo]; decide
    refine (hw.after (by omega)).2 hn ?_
    rw [hsig]; simp

end Prs.Timer
