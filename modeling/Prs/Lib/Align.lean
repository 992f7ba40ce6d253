import Mathlib.Algebra.Group.Nat.Defs

/-!
# Rounding up to a multiple

* `le_roundUp`, `dvd_roundUp`, `roundUp_le`: `roundUp x a` is the least multiple of `a` from `x` on.
* `toNat_and_not`: a word without its low bits.
* `toNat_roundUp`, `roundUp_wraps`: rounding up to a power of two by a mask, in words that do not wrap and
  that do.
-/

namespace Prs

/-- The least multiple of `a` from `x` on. -/
def roundUp (x a : ℕ) : ℕ := (x + (a - 1)) / a * a

variable {x a m k w : ℕ}

theorem roundUp_add_mod (x a : ℕ) : roundUp x a + (x + (a - 1)) % a = x + (a - 1) := by
  have h := Nat.div_add_mod (x + (a - 1)) a
  unfold roundUp
  rwa [Nat.mul_comm]

theorem le_roundUp (x : ℕ) (ha : 0 < a) : x ≤ roundUp x a := by
  have h := roundUp_add_mod x a
  have hlt := Nat.mod_lt (x + (a - 1)) ha
  omega

theorem dvd_roundUp (x a : ℕ) : a ∣ roundUp x a := Nat.dvd_mul_left ..

/-- It is the least multiple. -/
theorem roundUp_le (hx : x ≤ m) (ha : 0 < a) (hm : a ∣ m) : roundUp x a ≤ m := by
  obtain ⟨q, rfl⟩ := hm
  have hlt : (x + (a - 1)) / a < q + 1 := by
    apply Nat.div_lt_of_lt_mul
    rw [Nat.mul_add, Nat.mul_one]
    omega
  unfold roundUp
  rw [Nat.mul_comm]
  exact Nat.mul_le_mul_left a (Nat.le_of_lt_succ hlt)

section Words

/-- A word without its `k` low bits. -/
theorem toNat_and_not (v mask : BitVec w) (hmask : mask.toNat = 2 ^ k - 1) :
    (v &&& ~~~mask).toNat = v.toNat / 2 ^ k * 2 ^ k := by
  apply Nat.eq_of_testBit_eq
  intro i
  have hm : mask.getLsbD i = decide (i < k) := by
    rw [BitVec.getLsbD, hmask, Nat.testBit_two_pow_sub_one]
  have hv : v.toNat.testBit i = v.getLsbD i := rfl
  rw [BitVec.testBit_toNat, BitVec.getLsbD_and, BitVec.getLsbD_not, hm, Nat.testBit_mul_two_pow,
    Nat.testBit_div_two_pow]
  by_cases hi : k ≤ i
  · have hsub : i - k + k = i := by omega
    have hge : ¬ i < k := by omega
    rw [hsub, hv]
    by_cases hw : i < w
    · simp [hi, hge, hw]
    · rw [BitVec.getLsbD_of_ge v i (Nat.le_of_not_lt hw), Bool.false_and, Bool.and_false]
  · have hlt : i < k := by omega
    simp [hi, hlt]

variable {v mask : BitVec w}

/-- **Rounding up by a mask.** -/
theorem toNat_roundUp (hmask : mask.toNat = 2 ^ k - 1) (hv : v.toNat + (2 ^ k - 1) < 2 ^ w) :
    ((v + mask) &&& ~~~mask).toNat = roundUp v.toNat (2 ^ k) := by
  rw [toNat_and_not _ _ hmask, BitVec.toNat_add, hmask, Nat.mod_eq_of_lt hv]
  rfl

/-- A sum that wraps is rounded to zero. -/
theorem roundUp_wraps (hmask : mask.toNat = 2 ^ k - 1) (hv : 2 ^ w ≤ v.toNat + (2 ^ k - 1)) :
    (v + mask) &&& ~~~mask = 0 := by
  have hlt := v.isLt
  have hlt' := mask.isLt
  rw [hmask] at hlt'
  have hmod : (v.toNat + (2 ^ k - 1)) % 2 ^ w = v.toNat + (2 ^ k - 1) - 2 ^ w := by
    rw [Nat.mod_eq_sub_mod hv, Nat.mod_eq_of_lt (by omega)]
  apply BitVec.eq_of_toNat_eq
  rw [toNat_and_not _ _ hmask, BitVec.toNat_add, hmask, hmod, Nat.div_eq_of_lt (by omega), Nat.zero_mul]
  exact (BitVec.toNat_zero ..).symm

end Words

end Prs
