import Mathlib.Data.Nat.Log
import Mathlib.Data.Nat.ModEq
import Mathlib.Tactic.Ring

/-!
# Arithmetic of timing wheels

A hierarchical timing wheel in base `B` keeps a request for time `e` on level `w` in one of `B` slots. On
level zero the slot is the last digit of `e`, and it comes up at time `e`. On a higher level the slot comes up
when time goes from `periodStart B w e - 1` to `periodStart B w e`, the start of the period of length `B ^ w`
that `e` is in, and then the request moves to a lower level. A slot comes up again after `B` periods.

* `comesUp_zero`, `comesUp_iff`: within one turn of the wheel, the slot of a request comes up exactly once.
* `not_comesUp`: a request put in after its slot has come up has to wait for a full turn.
* `inTime_log`: a request is in time when its level is the logarithm of its distance.
* `inTime_or_missed`: one that moves down stays in time unless it is for the last time of a period.
-/

namespace Prs.Wheel

variable {B w e n : ℕ}

/-- The start of the period of level `w` that `e` is in. -/
def periodStart (B w e : ℕ) : ℕ := e / B ^ w * B ^ w

/-- The slot of a request for time `e` on level `w`: its digit on level zero, and one before it above. -/
def slot (B w e : ℕ) : ℕ := (e / B ^ w + if w = 0 then 0 else B - 1) % B

/-- Slot `k` of level `w` comes up as time goes from `n` to `n + 1`. -/
def ComesUp (B w k n : ℕ) : Prop := B ^ w ∣ n + 1 ∧ n / B ^ w % B = k

theorem periodStart_le (B w e : ℕ) : periodStart B w e ≤ e := Nat.div_mul_le_self e (B ^ w)

theorem lt_periodStart_add (hB : 0 < B) (w e : ℕ) : e < periodStart B w e + B ^ w := by
  have h1 := Nat.div_add_mod e (B ^ w)
  have h2 := Nat.mod_lt e (Nat.pow_pos (n := w) hB)
  rw [Nat.mul_comm] at h1
  unfold periodStart
  omega

theorem eq_of_modEq_of_lt {a b : ℕ} (h : a ≡ b [MOD B]) (h1 : a ≤ b) (h2 : b < a + B) : a = b := by
  have h3 : B ∣ b - a := (Nat.modEq_iff_dvd' h1).1 h
  have h4 := Nat.eq_zero_of_dvd_of_lt h3 (by omega)
  omega

/-- On level zero the slot comes up when the time is `e`. -/
theorem comesUp_zero (h1 : n ≤ e) (h2 : e < n + B) : ComesUp B 0 (slot B 0 e) n ↔ n = e := by
  constructor
  · rintro ⟨-, h⟩
    simp only [slot, pow_zero, Nat.div_one, if_true, Nat.add_zero] at h
    exact eq_of_modEq_of_lt h h1 h2
  · rintro rfl
    exact ⟨by simp, by simp [slot]⟩

/-- The time at which a slot of a higher level comes up, as a multiple of the period. -/
theorem comesUp_mul (hB : 0 < B) (hw : w ≠ 0) :
    ComesUp B w (slot B w e) n ↔ ∃ k, n + 1 = k * B ^ w ∧ k ≡ e / B ^ w [MOD B] := by
  have hp : 0 < B ^ w := Nat.pow_pos hB
  have hdiv : ∀ k, n + 1 = k * B ^ w → 0 < k ∧ n / B ^ w = k - 1 := by
    intro k hk
    have hk0 : 0 < k := by
      rcases Nat.eq_zero_or_pos k with rfl | h
      · simp at hk
      · exact h
    obtain ⟨j, rfl⟩ := Nat.exists_eq_add_of_le hk0
    rw [Nat.add_mul, Nat.one_mul] at hk
    exact ⟨hk0, Nat.div_eq_of_lt_le (by rw [Nat.add_sub_cancel_left]; omega)
      (by rw [Nat.add_sub_cancel_left, Nat.add_mul, Nat.one_mul]; omega)⟩
  -- both sides of the slot equation, one slot further
  have hmod : ∀ k, 0 < k → ((k - 1) % B = slot B w e ↔ k ≡ e / B ^ w [MOD B]) := by
    intro k hk
    simp only [slot, hw, if_false]
    constructor
    · intro h
      have h1 : k - 1 + 1 ≡ e / B ^ w + (B - 1) + 1 [MOD B] := Nat.ModEq.add_right 1 h
      rw [Nat.sub_add_cancel hk, Nat.add_assoc, Nat.sub_add_cancel hB] at h1
      simpa [Nat.ModEq] using h1
    · intro h
      have h1 : k - 1 + 1 ≡ e / B ^ w + (B - 1) + 1 [MOD B] := by
        rw [Nat.sub_add_cancel hk, Nat.add_assoc, Nat.sub_add_cancel hB]
        simpa [Nat.ModEq] using h
      exact Nat.ModEq.add_right_cancel' 1 h1
  constructor
  · rintro ⟨⟨k, hk⟩, hs⟩
    rw [Nat.mul_comm] at hk
    obtain ⟨hk0, hd⟩ := hdiv k hk
    rw [hd] at hs
    exact ⟨k, hk, (hmod k hk0).1 hs⟩
  · rintro ⟨k, hk, hm⟩
    obtain ⟨hk0, hd⟩ := hdiv k hk
    exact ⟨⟨k, by rw [hk, Nat.mul_comm]⟩, by rw [hd]; exact (hmod k hk0).2 hm⟩

/-- **On a higher level the slot comes up at the start of the period**, within the turn before it. -/
theorem comesUp_iff (hB : 0 < B) (hw : w ≠ 0) (h1 : periodStart B w e ≤ n + B ^ (w + 1))
    (h2 : n < periodStart B w e) :
    ComesUp B w (slot B w e) n ↔ n + 1 = periodStart B w e := by
  have hp : 0 < B ^ w := Nat.pow_pos hB
  rw [comesUp_mul hB hw]
  constructor
  · rintro ⟨k, hk, hm⟩
    rw [pow_succ] at h1
    rw [periodStart] at h1 h2 ⊢
    have hle : k ≤ e / B ^ w := Nat.le_of_mul_le_mul_right (by omega) hp
    have hlt : e / B ^ w < k + B := by
      refine Nat.lt_of_mul_lt_mul_right (a := B ^ w) ?_
      rw [Nat.add_mul, Nat.mul_comm B]
      omega
    rw [hk, eq_of_modEq_of_lt hm hle hlt]
  · intro h
    exact ⟨e / B ^ w, h, Nat.ModEq.refl _⟩

/-- **After the slot has come up it stays down for the rest of the turn.** -/
theorem not_comesUp (hB : 0 < B) (hw : w ≠ 0) (h1 : periodStart B w e ≤ n)
    (h2 : n + 1 < periodStart B w e + B ^ (w + 1)) : ¬ ComesUp B w (slot B w e) n := by
  rw [comesUp_mul hB hw]
  rintro ⟨k, hk, hm⟩
  rw [periodStart, pow_succ] at h2
  rw [periodStart] at h1
  have hlt : e / B ^ w < k := Nat.lt_of_mul_lt_mul_right (a := B ^ w) (by omega)
  have hlt' : k < e / B ^ w + B := by
    refine Nat.lt_of_mul_lt_mul_right (a := B ^ w) ?_
    rw [Nat.add_mul, Nat.mul_comm B]
    omega
  have heq := eq_of_modEq_of_lt hm.symm hlt.le hlt'
  omega

/-- A request for time `e` on level `w` whose slot is still to come up, at time `n`. -/
def InTime (B w e n : ℕ) : Prop :=
  n ≤ e ∧ (w = 0 → e < n + B) ∧ (w ≠ 0 → n < periodStart B w e ∧ periodStart B w e ≤ n + B ^ (w + 1))

/-- A request for time `e` on level `w` whose slot has come up before it was put there: it waits for a full
turn, and `e` is the last time of the period. -/
def Missed (B w e n : ℕ) : Prop := w ≠ 0 ∧ n ≤ e ∧ periodStart B w e ≤ n ∧ e + 1 = periodStart B w e + B ^ w

/-- **A request is in time** when its level is the logarithm of its distance. -/
theorem inTime_log (hB : 1 < B) (h : n < e) : InTime B (Nat.log B (e - n)) e n := by
  have hd : e - n ≠ 0 := by omega
  have h1 : B ^ Nat.log B (e - n) ≤ e - n := Nat.pow_log_le_self B hd
  have h2 : e - n < B ^ (Nat.log B (e - n) + 1) := Nat.lt_pow_succ_log_self hB _
  have h3 := lt_periodStart_add (by omega : 0 < B) (Nat.log B (e - n)) e
  have h4 := periodStart_le B (Nat.log B (e - n)) e
  refine ⟨h.le, fun h0 => ?_, fun _ => ⟨by omega, by omega⟩⟩
  rw [h0, Nat.zero_add, pow_one] at h2
  omega

/-- When the slot of a request in time comes up, the request is due or its period starts. -/
theorem InTime.comesUp (hB : 0 < B) (h : InTime B w e n) (hc : ComesUp B w (slot B w e) n) :
    if w = 0 then n = e else n + 1 = periodStart B w e := by
  obtain ⟨h1, h2, h3⟩ := h
  by_cases hw : w = 0
  · subst hw; rw [if_pos rfl]; exact (comesUp_zero h1 (h2 rfl)).1 hc
  · rw [if_neg hw]; exact (comesUp_iff hB hw (h3 hw).2 (h3 hw).1).1 hc

/-- As long as its slot does not come up, a request stays in time. -/
theorem InTime.next (hB : 0 < B) (h : InTime B w e n) (hc : ¬ ComesUp B w (slot B w e) n) :
    InTime B w e (n + 1) := by
  obtain ⟨h1, h2, h3⟩ := h
  have h4 := periodStart_le B w e
  by_cases hw : w = 0
  · subst hw
    have hne : n ≠ e := fun he => hc ((comesUp_zero h1 (h2 rfl)).2 he)
    exact ⟨by omega, fun _ => by have := h2 rfl; omega, fun h => absurd rfl h⟩
  · obtain ⟨h5, h6⟩ := h3 hw
    have hne : n + 1 ≠ periodStart B w e := fun he => hc ((comesUp_iff hB hw h6 h5).2 he)
    exact ⟨by omega, fun h => absurd h hw, fun _ => ⟨by omega, by omega⟩⟩

/-- **A request that moves down** at the start of its period stays in time, unless it is for the last time of
a period: then it can be put in a slot that has just come up. -/
theorem inTime_or_missed (hB : 1 < B) (hn : n < e) :
    InTime B (Nat.log B (e - n)) e (n + 1) ∨ Missed B (Nat.log B (e - n)) e (n + 1) := by
  obtain ⟨-, h2, h3⟩ := inTime_log hB hn
  have h4 := periodStart_le B (Nat.log B (e - n)) e
  have h5 : B ^ Nat.log B (e - n) ≤ e - n := Nat.pow_log_le_self B (by omega)
  have h6 := lt_periodStart_add (by omega : 0 < B) (Nat.log B (e - n)) e
  by_cases hw : Nat.log B (e - n) = 0
  · exact Or.inl ⟨hn, fun h0 => by have := h2 h0; omega, fun h => absurd hw h⟩
  · obtain ⟨h7, h8⟩ := h3 hw
    by_cases hlow : n + 1 < periodStart B (Nat.log B (e - n)) e
    · exact Or.inl ⟨hn, fun h => absurd h hw, fun _ => ⟨hlow, by omega⟩⟩
    · exact Or.inr ⟨hw, hn, by omega, by omega⟩

theorem dvd_periodStart (hw : w ≠ 0) : B ∣ periodStart B w e :=
  (dvd_pow_self B hw).trans (Nat.dvd_mul_left _ _)

/-- A request is missed only if it is for the last time of a period. -/
theorem Missed.dvd (h : Missed B w e n) : B ∣ e + 1 := by
  rw [h.2.2.2]
  exact Nat.dvd_add (dvd_periodStart h.1) (dvd_pow_self B h.1)

/-- A request for the last time of a period does not reach level zero. -/
theorem log_ne_zero_of_dvd (hB : 1 < B) (h1 : B ∣ e + 1) (h2 : B ∣ n + 1) (hn : n < e) :
    Nat.log B (e - n) ≠ 0 := by
  have hd : B ∣ e - n := by
    have h3 := Nat.dvd_sub h1 h2
    rwa [Nat.add_sub_add_right] at h3
  have hle : B ≤ e - n := Nat.le_of_dvd (by omega) hd
  exact (Nat.log_pos hB hle).ne'

/-- **A request that is missed stays so up to its time.** -/
theorem Missed.next (hB : 1 < B) (h : Missed B w e n) :
    ¬ ComesUp B w (slot B w e) n ∧ (n < e → Missed B w e (n + 1)) := by
  obtain ⟨hw, h1, h2, h3⟩ := h
  have h4 : B ^ w < B ^ (w + 1) := Nat.pow_lt_pow_right hB (by omega)
  exact ⟨not_comesUp (by omega) hw h2 (by omega), fun hn => ⟨hw, hn, by omega, h3⟩⟩

end Prs.Wheel
