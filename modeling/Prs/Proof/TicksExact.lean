import Prs.Model.Ticks
import Mathlib.Tactic.ByContra

/-!
# When a sleep has the right number of ticks

A conversion multiplies before it divides, in 32 bits.

* `ofUnits_toNat`: what is computed.
* `ofUnits_exact_iff`: a product that wraps always gives too few ticks.
* `sleep_exact_iff`: so a sleep is exact exactly when its product with `PRS_HZ` is below `2 ^ 32`, and longer
  sleeps have no fewer ticks up to there.
* `sleep_wraps`: with `PRS_HZ` of 1000, a sleep of 4294968 ms or us is one of no ticks.
-/

namespace Prs.Ticks

variable {hz unit n m : ℕ}

theorem ofUnits_toNat (hu : unit < 2 ^ 32) : (ofUnits hz unit n).toNat = n * hz % 2 ^ 32 / unit := by
  unfold ofUnits
  rw [BitVec.toNat_udiv, BitVec.toNat_mul, BitVec.toNat_ofNat, BitVec.toNat_ofNat, BitVec.toNat_ofNat,
    ← Nat.mul_mod, Nat.mod_eq_of_lt hu]

/-- **A conversion is exact exactly when its product does not wrap.** -/
theorem ofUnits_exact_iff (hpos : 0 < unit) (hu : unit < 2 ^ 32) :
    (ofUnits hz unit n).toNat = n * hz / unit ↔ n * hz < 2 ^ 32 := by
  rw [ofUnits_toNat hu]
  constructor
  · intro heq
    by_contra hle
    -- what is lost is at least one tick
    have hlost : n * hz % 2 ^ 32 + unit ≤ n * hz := by
      have hdm := Nat.div_add_mod (n * hz) (2 ^ 32)
      have hq : 1 ≤ n * hz / 2 ^ 32 := (Nat.le_div_iff_mul_le (by decide)).2 (by omega)
      omega
    have hlt : n * hz % 2 ^ 32 / unit + 1 ≤ n * hz / unit := by
      rw [← Nat.add_div_right _ hpos]
      exact Nat.div_le_div_right hlost
    omega
  · intro hlt
    rw [Nat.mod_eq_of_lt hlt]

/-- Up to the limit, a longer duration has no fewer ticks. -/
theorem ofUnits_mono (hpos : 0 < unit) (hu : unit < 2 ^ 32) (hnm : n ≤ m) (hm : m * hz < 2 ^ 32) :
    ofUnits hz unit n ≤ ofUnits hz unit m := by
  have hle : n * hz ≤ m * hz := Nat.mul_le_mul_right hz hnm
  rw [BitVec.le_def, (ofUnits_exact_iff hpos hu).2 (Nat.lt_of_le_of_lt hle hm), (ofUnits_exact_iff hpos hu).2 hm]
  exact Nat.div_le_div_right hle

/-- **A sleep is exact exactly when its product with `PRS_HZ` has 32 bits.** -/
theorem sleep_exact_iff (hz : ℕ) :
    (∀ ms, (sleepMs hz ms).toNat = ms * hz / 1000 ↔ ms * hz < 2 ^ 32) ∧
    (∀ us, (sleepUs hz us).toNat = us * hz / 1000000 ↔ us * hz < 2 ^ 32) ∧
    (∀ ms ms', ms ≤ ms' → ms' * hz < 2 ^ 32 → sleepMs hz ms ≤ sleepMs hz ms') ∧
    ∀ us us', us ≤ us' → us' * hz < 2 ^ 32 → sleepUs hz us ≤ sleepUs hz us' := by
  refine ⟨fun ms => ?_, fun us => ?_, fun ms ms' h h' => ?_, fun us us' h h' => ?_⟩
  · exact ofUnits_exact_iff (by decide) (by decide)
  · exact ofUnits_exact_iff (by decide) (by decide)
  · exact ofUnits_mono (by decide) (by decide) h h'
  · exact ofUnits_mono (by decide) (by decide) h h'

theorem sleep_exact_iff_config :
    (∀ ms, (sleepMs configHz ms).toNat = ms * configHz / 1000 ↔ ms * configHz < 2 ^ 32) ∧
    (∀ us, (sleepUs configHz us).toNat = us * configHz / 1000000 ↔ us * configHz < 2 ^ 32) ∧
    sleepMs configHz 7 ≤ sleepMs configHz 8 ∧ sleepUs configHz 7 ≤ sleepUs configHz 8 :=
  ⟨(sleep_exact_iff configHz).1, (sleep_exact_iff configHz).2.1,
    (sleep_exact_iff configHz).2.2.1 7 8 (by decide) (by decide),
    (sleep_exact_iff configHz).2.2.2 7 8 (by decide) (by decide)⟩

/-- A sleep of 4294968 ms or us is one of no ticks, and one that is a ms shorter is not. -/
theorem sleep_wraps :
    (sleepMs configHz 4294968).toNat = 0 ∧ 4294968 * configHz / 1000 = 4294968 ∧
    (sleepUs configHz 4294968).toNat = 0 ∧ 4294968 * configHz / 1000000 = 4294 ∧
    (sleepMs configHz 4294967).toNat = 4294967 ∧ 4294968 < 2 ^ 31 := by decide

end Prs.Ticks
