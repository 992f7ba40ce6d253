import Mathlib.Algebra.Group.Nat.Defs
import Mathlib.Logic.Function.Basic

/-!
# Words in a memory of bytes

A memory has a byte at each address. A word of `n` bytes is stored low byte first.

* `store_apart`: a store writes its own bytes only.
* `load_store`, `load_store_apart`: what a load finds after a store.
* `load_lt`, `load_zero`: a load of `n` bytes, and of bytes that are zero.
* `load_mod`: the first byte is what is left of the word by 256.
-/

namespace Prs.Bytes

open Function

abbrev Mem : Type := ℕ → BitVec 8

/-- The word of `n` bytes at an address. -/
def load (m : Mem) (a : ℕ) : ℕ → ℕ
  | 0 => 0
  | n + 1 => (m a).toNat + 256 * load m (a + 1) n

/-- A word is stored in the `n` bytes at an address. -/
def store (m : Mem) (a : ℕ) : ℕ → ℕ → Mem
  | 0, _ => m
  | n + 1, v => update (store m (a + 1) n (v / 256)) a (BitVec.ofNat 8 v)

variable {m m' : Mem} {a b n l v x : ℕ}

/-- **A store writes its own bytes only.** -/
theorem store_apart (h : x < a ∨ a + n ≤ x) : store m a n v x = m x := by
  induction n generalizing a v with
  | zero => rfl
  | succ n ih =>
    have hne : x ≠ a := by omega
    unfold store
    rw [update_of_ne hne]
    apply ih
    omega

theorem load_congr (h : ∀ x, a ≤ x → x < a + n → m x = m' x) : load m a n = load m' a n := by
  induction n generalizing a with
  | zero => rfl
  | succ n ih =>
    unfold load
    rw [h a (Nat.le_refl a) (by omega), ih fun x hx hlt => h x (by omega) (by omega)]

/-- **A load of what was stored.** -/
theorem load_store (hv : v < 256 ^ n) : load (store m a n v) a n = v := by
  induction n generalizing a v with
  | zero =>
    rw [pow_zero] at hv
    unfold load
    omega
  | succ n ih =>
    have hlt : v / 256 < 256 ^ n := by
      rw [pow_succ] at hv
      omega
    have hrest : load (store m a (n + 1) v) (a + 1) n = load (store m (a + 1) n (v / 256)) (a + 1) n := by
      apply load_congr
      intro x hx _
      have hne : x ≠ a := by omega
      exact update_of_ne hne _ _
    have hbyte : store m a (n + 1) v a = BitVec.ofNat 8 v := update_self ..
    unfold load
    rw [hrest, ih hlt, hbyte, BitVec.toNat_ofNat]
    omega

/-- **A load of other bytes.** -/
theorem load_store_apart (h : a + n ≤ b ∨ b + l ≤ a) : load (store m a n v) b l = load m b l := by
  apply load_congr
  intro x hx hlt
  apply store_apart
  omega

theorem load_lt (m : Mem) (a n : ℕ) : load m a n < 256 ^ n := by
  induction n generalizing a with
  | zero => exact Nat.one_pos
  | succ n ih =>
    have hlt := (m a).isLt
    have hrest := ih (a + 1)
    unfold load
    rw [pow_succ]
    omega

theorem load_zero (a n : ℕ) : load (fun _ => 0#8) a n = 0 := by
  induction n generalizing a with
  | zero => rfl
  | succ n ih =>
    unfold load
    rw [ih]
    rfl

theorem load_mod (m : Mem) (a n : ℕ) : load m a (n + 1) % 256 = (m a).toNat := by
  have hlt := (m a).isLt
  unfold load
  omega

end Prs.Bytes
