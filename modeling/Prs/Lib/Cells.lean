import Mathlib.Data.Nat.Notation
import Mathlib.Data.Set.Defs
import Mathlib.Logic.Function.Basic

/-!
# A memory that remembers where it was written

The contents of a memory do not tell of a store that puts back what was there. `Cells` has the contents, and
the places that were written so far, the latest first.

* `Within s m m'`: all that was written from `m` to `m'` is in `s`, and the rest is as it was. It is reflexive and
  transitive, and `Within.set` is its one step.
* `puts`, `slice`: a list is stored at an address, and read.
* `slice_puts`, `puts_within`: what `puts` leaves there, and where it writes.
* `eq_of_prefix_mark`: a list that ends with a mark is told by the mark.
-/

namespace Prs

open Function

structure Cells (ι β : Type*) where
  get : ι → β
  written : List ι

namespace Cells

variable {ι β : Type*}

/-- Nothing was written yet. -/
def start (get : ι → β) : Cells ι β := ⟨get, []⟩

section Set

variable [DecidableEq ι]

def set (m : Cells ι β) (a : ι) (b : β) : Cells ι β := ⟨update m.get a b, a :: m.written⟩

@[simp] theorem get_set_self (m : Cells ι β) (a : ι) (b : β) : (m.set a b).get a = b := update_self ..

theorem get_set_of_ne {a x : ι} (m : Cells ι β) (b : β) (h : x ≠ a) : (m.set a b).get x = m.get x :=
  update_of_ne h ..

end Set

/-- All that was written from `m` to `m'` is in `s`. -/
structure Within (s : Set ι) (m m' : Cells ι β) : Prop where
  written : ∃ new, m'.written = new ++ m.written ∧ ∀ a ∈ new, a ∈ s
  get_eq : ∀ a ∉ s, m'.get a = m.get a

variable {s t : Set ι} {m m' m'' : Cells ι β} {a : ι}

theorem Within.refl (s : Set ι) (m : Cells ι β) : Within s m m := by
  refine ⟨⟨[], rfl, ?_⟩, fun a _ => rfl⟩
  intro a ha
  cases ha

theorem Within.trans (h : Within s m m') (h' : Within s m' m'') : Within s m m'' := by
  obtain ⟨new, hw, hn⟩ := h.written
  obtain ⟨new', hw', hn'⟩ := h'.written
  refine ⟨⟨new' ++ new, by rw [hw', hw, List.append_assoc], ?_⟩,
    fun a ha => (h'.get_eq a ha).trans (h.get_eq a ha)⟩
  intro a ha
  obtain ha | ha := List.mem_append.1 ha
  · exact hn' a ha
  · exact hn a ha

theorem Within.mono (h : Within s m m') (hst : ∀ a ∈ s, a ∈ t) : Within t m m' := by
  obtain ⟨new, hw, hn⟩ := h.written
  exact ⟨⟨new, hw, fun a ha => hst a (hn a ha)⟩, fun a ha => h.get_eq a fun hs => ha (hst a hs)⟩

theorem Within.set [DecidableEq ι] (m : Cells ι β) (b : β) (ha : a ∈ s) : Within s m (m.set a b) := by
  refine ⟨⟨[a], rfl, ?_⟩, ?_⟩
  · intro x hx
    rwa [List.mem_singleton.1 hx]
  · intro x hx
    have hne : x ≠ a := by rintro rfl; exact hx ha
    exact get_set_of_ne m b hne

/-- From a start, all that was written is in `s`. -/
theorem Within.mem {get : ι → β} (h : Within s (start get) m) (ha : a ∈ m.written) : a ∈ s := by
  obtain ⟨new, hw, hn⟩ := h.written
  have hnew : m.written = new := hw.trans (List.append_nil new)
  rw [hnew] at ha
  exact hn a ha

/-- What was written stays so. -/
theorem Within.written_mono (h : Within s m m') (ha : a ∈ m.written) : a ∈ m'.written := by
  obtain ⟨new, hw, -⟩ := h.written
  rw [hw]
  exact List.mem_append_right new ha

section Lists

/-- A list is stored from an address on. -/
def puts (m : Cells ℕ β) (a : ℕ) : List β → Cells ℕ β
  | [] => m
  | b :: l => puts (m.set a b) (a + 1) l

/-- The `n` cells from an address on. -/
def slice (m : Cells ℕ β) (a : ℕ) : ℕ → List β
  | 0 => []
  | n + 1 => m.get a :: slice m (a + 1) n

variable {m m' : Cells ℕ β} {a b n k x : ℕ} {l : List β}

@[simp] theorem length_slice (m : Cells ℕ β) (a n : ℕ) : (m.slice a n).length = n := by
  induction n generalizing a with
  | zero => rfl
  | succ n ih => exact congrArg (· + 1) (ih (a + 1))

theorem slice_congr (h : ∀ x, a ≤ x → x < a + n → m'.get x = m.get x) : m'.slice a n = m.slice a n := by
  induction n generalizing a with
  | zero => rfl
  | succ n ih =>
    unfold slice
    rw [h a (Nat.le_refl a) (by omega), ih fun x hx hlt => h x (by omega) (by omega)]

theorem slice_add (m : Cells ℕ β) (a n k : ℕ) : m.slice a (n + k) = m.slice a n ++ m.slice (a + n) k := by
  induction n generalizing a with
  | zero => rw [Nat.zero_add, Nat.add_zero]; rfl
  | succ n ih =>
    have hs : m.slice a (n + k + 1) = m.get a :: m.slice (a + 1) (n + k) := rfl
    rw [Nat.succ_add, hs, ih, Nat.add_right_comm, Nat.add_assoc]
    rfl

theorem take_slice (m : Cells ℕ β) (a : ℕ) (h : k ≤ n) : (m.slice a n).take k = m.slice a k := by
  obtain ⟨d, rfl⟩ := Nat.exists_eq_add_of_le h
  rw [slice_add]
  exact List.take_left' (length_slice m a k)

/-- `puts` writes the cells of the list. -/
theorem puts_within (m : Cells ℕ β) (a : ℕ) (l : List β) :
    Within {x | a ≤ x ∧ x < a + l.length} m (m.puts a l) := by
  induction l generalizing m a with
  | nil => exact Within.refl _ m
  | cons b l ih =>
    have hset : Within {x | a ≤ x ∧ x < a + (b :: l).length} m (m.set a b) := by
      apply Within.set
      exact ⟨Nat.le_refl a, by rw [List.length_cons]; omega⟩
    apply hset.trans
    apply (ih (m.set a b) (a + 1)).mono
    rintro x ⟨hx, hlt⟩
    refine ⟨by omega, ?_⟩
    rw [List.length_cons]
    omega

/-- **A list that was stored is read back.** -/
theorem slice_puts (m : Cells ℕ β) (a : ℕ) (l : List β) : (m.puts a l).slice a l.length = l := by
  induction l generalizing m a with
  | nil => rfl
  | cons b l ih =>
    have hb : ((m.set a b).puts (a + 1) l).get a = b := by
      rw [(puts_within (m.set a b) (a + 1) l).get_eq a fun h => absurd h.1 (Nat.not_succ_le_self a), get_set_self]
    unfold puts
    rw [List.length_cons, slice, hb, ih]

/-- A list is stored behind another. -/
theorem slice_puts_append (h : m.slice 0 n = l) (k : List β) :
    (m.puts n k).slice 0 (n + k.length) = l ++ k := by
  have hkeep : (m.puts n k).slice 0 n = m.slice 0 n := by
    apply slice_congr
    intro x _ hlt
    exact (puts_within m n k).get_eq x fun hx => absurd hx.1 (by omega)
  rw [slice_add, hkeep, h, Nat.zero_add, slice_puts]

end Lists

end Cells

/-- Two lists with the same start are the same before the first place of a mark. -/
theorem eq_of_prefix_mark {α : Type*} {x : α} {l s k k' : List α} (hl : x ∉ l) (hs : x ∉ s)
    (h : l ++ x :: k <+: s ++ x :: k') : l = s := by
  induction l generalizing s with
  | nil =>
    cases s with
    | nil => rfl
    | cons c s =>
      have hc : x = c := (List.cons_prefix_cons.1 h).1
      exact absurd (hc ▸ List.mem_cons_self) hs
  | cons c l ih =>
    cases s with
    | nil =>
      have hc : c = x := (List.cons_prefix_cons.1 h).1
      exact absurd (hc ▸ List.mem_cons_self) hl
    | cons d s =>
      obtain ⟨hcd, ht⟩ := List.cons_prefix_cons.1 h
      rw [List.mem_cons, not_or] at hl hs
      rw [hcd, ih hl.2 hs.2 ht]

end Prs
