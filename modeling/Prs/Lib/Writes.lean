import Mathlib.Data.List.Basic
import Prs.Lib.Bytes

/-!
# Writes one after the other

A write gives values to some addresses of a memory, and the others keep theirs. The memory after a list of
writes is told by the last one at each address.

* `writes_of_none`: an address that no write gives a value to.
* `writes_of_last`: the value of the last write that gives one.
* `writes_of_apart`: the value of any of them, when no address is written twice.
* `fill`: the write of consecutive addresses; `store_eq`: the store of a word as one.
-/

namespace Prs

variable {A V : Type*} {m : A → V} {w : A → Option V} {ws l r : List (A → Option V)} {a : A} {v : V}

/-- The memory after a write. -/
def write (m : A → V) (w : A → Option V) : A → V := fun a => (w a).getD (m a)

/-- The memory after a list of writes. -/
def writes (m : A → V) (ws : List (A → Option V)) : A → V := ws.foldl write m

theorem write_of_none (h : w a = none) : write m w a = m a := by
  unfold write
  rw [h, Option.getD_none]

theorem write_of_some (h : w a = some v) : write m w a = v := by
  unfold write
  rw [h, Option.getD_some]

theorem writes_cons (m : A → V) (w : A → Option V) (ws : List (A → Option V)) :
    writes m (w :: ws) = writes (write m w) ws := rfl

theorem writes_append (m : A → V) (l r : List (A → Option V)) : writes m (l ++ r) = writes (writes m l) r :=
  List.foldl_append

/-- **An address that is not written** keeps its value. -/
theorem writes_of_none (h : ∀ w ∈ ws, w a = none) : writes m ws a = m a := by
  induction ws generalizing m with
  | nil => rfl
  | cons w ws ih =>
    rw [writes_cons, ih fun w' hw' => h w' (List.mem_cons_of_mem w hw')]
    exact write_of_none (h w List.mem_cons_self)

/-- **The last write counts.** -/
theorem writes_of_last (hw : w a = some v) (hr : ∀ w' ∈ r, w' a = none) : writes m (l ++ w :: r) a = v := by
  rw [writes_append, writes_cons, writes_of_none hr]
  exact write_of_some hw

/-- **Where no two writes meet**, each counts. -/
theorem writes_of_apart (hws : ws.Pairwise fun w w' => w a = none ∨ w' a = none) (hmem : w ∈ ws)
    (hw : w a = some v) :
    writes m ws a = v := by
  obtain ⟨l, r, rfl⟩ := List.append_of_mem hmem
  apply writes_of_last hw
  intro w' hw'
  have hmeet := (List.pairwise_cons.1 (List.pairwise_append.1 hws).2.1).1 w' hw'
  obtain hnone | hnone := hmeet
  · exact absurd (hw.symm.trans hnone) (Option.some_ne_none v)
  · exact hnone

section Fill

variable {b n x i : ℕ} {f : ℕ → V}

/-- The write of `n` consecutive addresses. -/
def fill (b n : ℕ) (f : ℕ → V) : ℕ → Option V := fun x => if b ≤ x ∧ x < b + n then some (f (x - b)) else none

theorem fill_of_lt (hi : i < n) : fill b n f (b + i) = some (f i) := by
  unfold fill
  rw [if_pos ⟨Nat.le_add_right b i, Nat.add_lt_add_left hi b⟩, Nat.add_sub_cancel_left]

theorem fill_of_mem (hle : b ≤ x) (hlt : x < b + n) : fill b n f x = some (f (x - b)) := if_pos ⟨hle, hlt⟩

theorem fill_of_not (h : ¬ (b ≤ x ∧ x < b + n)) : fill b n f x = none := if_neg h

theorem mem_of_fill (h : fill b n f x ≠ none) : b ≤ x ∧ x < b + n := by
  by_contra hnot
  exact h (fill_of_not hnot)

variable {m : ℕ → V} {g : ℕ → V}

/-- The memory after a write of consecutive addresses. -/
theorem write_fill (m : ℕ → V) (b n : ℕ) (f : ℕ → V) (x : ℕ) :
    write m (fill b n f) x = if b ≤ x ∧ x < b + n then f (x - b) else m x := by
  unfold write fill
  split <;> rfl

/-- Of two writes of the same addresses the second counts. -/
theorem write_fill_fill : write (write m (fill b n f)) (fill b n g) = write m (fill b n g) := by
  funext x
  rw [write_fill, write_fill, write_fill]
  split <;> rfl

/-- A write and the write of the addresses after it. -/
theorem write_fill_append {p : ℕ} :
    write (write m (fill b n f)) (fill (b + n) p g) =
      write m (fill b (n + p) fun i => if i < n then f i else g (i - n)) := by
  funext x
  rw [write_fill, write_fill, write_fill]
  have hsub : x - (b + n) = x - b - n := by omega
  by_cases hin : b ≤ x ∧ x < b + n
  · rw [if_neg (by omega), if_pos hin, if_pos (by omega), if_pos (by omega)]
  · by_cases hnext : b + n ≤ x ∧ x < b + n + p
    · rw [if_pos hnext, if_pos (by omega), if_neg (by omega), hsub]
    · rw [if_neg hnext, if_neg hin, if_neg (by omega)]

end Fill

/-- **The store of a word** writes its bytes. -/
theorem store_eq (m : Bytes.Mem) (b n v : ℕ) :
    Bytes.store m b n v = write m (fill b n fun i => BitVec.ofNat 8 (v / 256 ^ i)) := by
  induction n generalizing b v with
  | zero =>
    funext x
    rw [write_fill, if_neg (by omega)]
    rfl
  | succ n ih =>
    funext x
    unfold Bytes.store
    rw [ih, write_fill]
    obtain rfl | hne := eq_or_ne x b
    · rw [Function.update_self, if_pos (by omega), Nat.sub_self, pow_zero, Nat.div_one]
    · rw [Function.update_of_ne hne, write_fill]
      by_cases hx : b ≤ x ∧ x < b + (n + 1)
      · have hsub : x - b = x - (b + 1) + 1 := by omega
        rw [if_pos (by omega), if_pos hx, hsub, pow_succ', Nat.div_div_eq_div_mul]
      · rw [if_neg (by omega), if_neg hx]

end Prs
