import Mathlib.Data.Int.Notation
import Mathlib.Data.Nat.Notation

/-!
# The lowest and the highest set bit

* `LowestBit`, `HighestBit`: the position of the bit, or `-1` of a word without bits.
* `LowestBit.unique`, `HighestBit.unique`: there is one such number.
* `lowestBit_ctz`, `highestBit_clz`: it is read off the zeros below the bit, or above it.
-/

namespace Prs

variable {w : ℕ} {v : BitVec w} {r r' : ℤ}

/-- `r` is the position of the lowest set bit of `v`, or `-1` if there is none. -/
def LowestBit (v : BitVec w) (r : ℤ) : Prop :=
  v = 0#w ∧ r = -1 ∨ ∃ p : ℕ, r = p ∧ v.getLsbD p = true ∧ ∀ i < p, v.getLsbD i = false

/-- `r` is the position of the highest set bit of `v`, or `-1` if there is none. -/
def HighestBit (v : BitVec w) (r : ℤ) : Prop :=
  v = 0#w ∧ r = -1 ∨ ∃ p : ℕ, r = p ∧ v.getLsbD p = true ∧ ∀ i, p < i → v.getLsbD i = false

theorem ne_zero_of_bit {p : ℕ} (hp : v.getLsbD p = true) : v ≠ 0#w := by
  rintro rfl
  rw [BitVec.getLsbD_zero] at hp
  exact Bool.false_ne_true hp

/-- A word whose bits are all clear. -/
theorem eq_zero_of_bits (h : ∀ i < w, v.getLsbD i = false) : v = 0#w := by
  apply BitVec.eq_of_getLsbD_eq
  intro i hi
  rw [h i hi, BitVec.getLsbD_zero]

theorem LowestBit.unique (h : LowestBit v r) (h' : LowestBit v r') : r = r' := by
  obtain ⟨hz, rfl⟩ | ⟨p, rfl, hp, hmin⟩ := h
  · obtain ⟨-, rfl⟩ | ⟨p', -, hp', -⟩ := h'
    · rfl
    · exact absurd hz (ne_zero_of_bit hp')
  · obtain ⟨hz, -⟩ | ⟨p', rfl, hp', hmin'⟩ := h'
    · exact absurd hz (ne_zero_of_bit hp)
    · -- neither position is below the other
      have hle : ¬ p' < p := fun hlt => Bool.false_ne_true ((hmin p' hlt).symm.trans hp')
      have hge : ¬ p < p' := fun hlt => Bool.false_ne_true ((hmin' p hlt).symm.trans hp)
      omega

theorem HighestBit.unique (h : HighestBit v r) (h' : HighestBit v r') : r = r' := by
  obtain ⟨hz, rfl⟩ | ⟨p, rfl, hp, hmax⟩ := h
  · obtain ⟨-, rfl⟩ | ⟨p', -, hp', -⟩ := h'
    · rfl
    · exact absurd hz (ne_zero_of_bit hp')
  · obtain ⟨hz, -⟩ | ⟨p', rfl, hp', hmax'⟩ := h'
    · exact absurd hz (ne_zero_of_bit hp)
    · have hle : ¬ p < p' := fun hlt => Bool.false_ne_true ((hmax p' hlt).symm.trans hp')
      have hge : ¬ p' < p := fun hlt => Bool.false_ne_true ((hmax' p hlt).symm.trans hp)
      omega

/-- A power of two has one bit. -/
theorem lowestBit_twoPow {p : ℕ} (hp : p < w) : LowestBit (BitVec.twoPow w p) p := by
  refine .inr ⟨p, rfl, ?_, ?_⟩
  · rw [BitVec.getLsbD_twoPow, decide_eq_true hp, decide_eq_true rfl]
    rfl
  · intro i hi
    have hne : decide (p = i) = false := decide_eq_false (by omega)
    rw [BitVec.getLsbD_twoPow, hne, Bool.and_false]

/-- The lowest bit stands above the trailing zeros. -/
theorem lowestBit_ctz (hv : v ≠ 0#w) : LowestBit v v.ctz.toNat := by
  refine .inr ⟨v.ctz.toNat, rfl, BitVec.getLsbD_true_ctz_of_ne_zero hv, ?_⟩
  intro i hi
  exact BitVec.getLsbD_false_of_lt_ctz hi

theorem toNat_clz_lt (hv : v ≠ 0#w) : v.clz.toNat < w := by
  have h : v.clz < BitVec.ofNat w w := BitVec.clz_lt_iff_ne_zero.2 hv
  have hlt : v.clz.toNat < (BitVec.ofNat w w).toNat := h
  have hw : w < 2 ^ w := Nat.lt_two_pow_self
  rwa [BitVec.toNat_ofNat, Nat.mod_eq_of_lt hw] at hlt

/-- The highest bit stands below the leading zeros. -/
theorem highestBit_clz (hv : v ≠ 0#w) : HighestBit v (w - v.clz.toNat - 1 : ℤ) := by
  have hlt := toNat_clz_lt hv
  have hw : 0 < w := by omega
  refine .inr ⟨w - 1 - v.clz.toNat, by omega, BitVec.getLsbD_true_clz_of_ne_zero hw hv, ?_⟩
  intro i hi
  have hbound : v.toNat < 2 ^ i :=
    Nat.lt_of_lt_of_le BitVec.toNat_lt_two_pow_sub_clz (Nat.pow_le_pow_right (by decide) (by omega))
  exact Nat.testBit_lt_two_pow hbound

end Prs
