import Mathlib.Algebra.Order.BigOperators.Group.Finset
import Mathlib.Data.Fintype.BigOperators

/-!
# Counting over threads

A party's program counter and locals are the value of a map at the party. An invariant that ties a shared
counter to all parties at once (a reference count, the number of calls at some place) adds up what each party
has, and a step moves one party. `tally f pc m` is how often `m` occurs in the lists `f (pc j)`; `tally_update`
says how it changes in a step. `headcount P pc` is how many parties are where `P` says.
-/

namespace Prs

open Function

variable {ι β γ : Type*} [Fintype ι] [DecidableEq γ]

theorem count_cons_eq (n m : γ) (l : List γ) : (n :: l).count m = [n].count m + l.count m := by
  rw [← List.count_append, List.singleton_append]

/-- A predicate that has come to hold of one element of the list counts one more. -/
theorem countP_flip {l : List γ} {e : γ} {f g : γ → Bool} (hl : l.Nodup) (he : e ∈ l) (hf : f e = false)
    (hg : g e = true) (h : ∀ v, v ≠ e → g v = f v) : l.countP g = l.countP f + 1 := by
  have hp : l.Perm (e :: l.erase e) := List.perm_cons_erase he
  have hrest : (l.erase e).countP g = (l.erase e).countP f := by
    refine List.countP_congr fun v hv => ?_
    rw [h v ((List.Nodup.mem_erase_iff hl).1 hv).1]
  rw [hp.countP_eq, hp.countP_eq, List.countP_cons, List.countP_cons, hrest, hf, hg]
  rfl

/-- How often `m` occurs in what all threads have. -/
def tally (f : β → List γ) (pc : ι → β) (m : γ) : ℕ := ∑ j, (f (pc j)).count m

theorem count_le_tally (f : β → List γ) (pc : ι → β) (i : ι) (m : γ) :
    (f (pc i)).count m ≤ tally f pc m :=
  Finset.single_le_sum (fun j _ => Nat.zero_le ((f (pc j)).count m)) (Finset.mem_univ i)

theorem not_mem_of_tally_eq_zero {f : β → List γ} {pc : ι → β} {m : γ} (h : tally f pc m = 0) (i : ι) :
    m ∉ f (pc i) := by
  have := count_le_tally f pc i m
  exact List.count_eq_zero.1 (by omega)

theorem tally_eq_zero {f : β → List γ} {pc : ι → β} {m : γ} (h : ∀ i, m ∉ f (pc i)) :
    tally f pc m = 0 :=
  Finset.sum_eq_zero fun i _ => List.count_eq_zero.2 (h i)

/-- One thread has `m` in `g` and not in `f`, and none has it more often in `f`. -/
theorem tally_lt_tally {f g : β → List γ} {pc : ι → β} {m : γ} (h : ∀ b, (f b).count m ≤ (g b).count m) (i : ι)
    (hi : (f (pc i)).count m < (g (pc i)).count m) : tally f pc m < tally g pc m :=
  Finset.sum_lt_sum (fun j _ => h (pc j)) ⟨i, Finset.mem_univ i, hi⟩

/-- Two threads that have `m` are one if it occurs once. -/
theorem eq_of_tally_le_one {f : β → List γ} {pc : ι → β} {m : γ} (h : tally f pc m ≤ 1) {i j : ι}
    (hi : m ∈ f (pc i)) (hj : m ∈ f (pc j)) : i = j := by
  classical
  by_contra hij
  have hle : ∑ x ∈ {i, j}, (f (pc x)).count m ≤ tally f pc m :=
    Finset.sum_le_sum_of_subset (Finset.subset_univ _)
  rw [Finset.sum_pair hij] at hle
  have h1 := List.count_pos_iff.2 hi
  have h2 := List.count_pos_iff.2 hj
  omega

variable [DecidableEq ι]

/-- **How a tally changes** when thread `i` moves to `b`. -/
theorem tally_update (f : β → List γ) (pc : ι → β) (i : ι) (b : β) (m : γ) :
    tally f (update pc i b) m + (f (pc i)).count m = tally f pc m + (f b).count m := by
  have hu : (fun j => (f (update pc i b j)).count m) =
      update (fun j => (f (pc j)).count m) i ((f b).count m) :=
    funext fun j => apply_update (fun _ x => (f x).count m) pc i b j
  have hpc : tally f pc m = (f (pc i)).count m + ∑ j ∈ Finset.univ \ {i}, (f (pc j)).count m :=
    Finset.sum_eq_add_sum_sdiff_singleton_of_mem (Finset.mem_univ i) fun j => (f (pc j)).count m
  rw [hpc, tally, hu, Finset.sum_update_of_mem (Finset.mem_univ i)]
  omega

/-- A move that keeps how often thread `i` has `m` keeps its tally. -/
theorem tally_of_count {f : β → List γ} {pc : ι → β} {i : ι} {b : β} {m : γ}
    (h : (f b).count m = (f (pc i)).count m) : tally f (update pc i b) m = tally f pc m := by
  have hu := tally_update f pc i b m
  omega

/-- A move that keeps what thread `i` has keeps the tally. -/
theorem tally_congr {f : β → List γ} {pc : ι → β} {i : ι} {b : β} (h : f b = f (pc i)) (m : γ) :
    tally f (update pc i b) m = tally f pc m :=
  tally_of_count (by rw [h])

/-- **How a sum over the threads changes** when thread `i` moves to `b`. -/
theorem sum_update (f : β → ℤ) (pc : ι → β) (i : ι) (b : β) :
    ∑ j, f (update pc i b j) = ∑ j, f (pc j) - f (pc i) + f b := by
  have hu : (fun j => f (update pc i b j)) = update (fun j => f (pc j)) i (f b) :=
    funext fun j => apply_update (fun _ x => f x) pc i b j
  have hpc : ∑ j, f (pc j) = f (pc i) + ∑ j ∈ Finset.univ \ {i}, f (pc j) :=
    Finset.sum_eq_add_sum_sdiff_singleton_of_mem (Finset.mem_univ i) fun j => f (pc j)
  rw [hpc, hu, Finset.sum_update_of_mem (Finset.mem_univ i)]
  omega

section Headcount

variable (P : β → Prop) [DecidablePred P]

/-- How many threads are at a place with `P`. -/
def headcount (pc : ι → β) : ℕ := ∑ j, if P (pc j) then 1 else 0

/-- **How a headcount changes** when thread `i` moves to `b`. -/
theorem headcount_update (pc : ι → β) (i : ι) (b : β) :
    headcount P (update pc i b) + (if P (pc i) then 1 else 0) = headcount P pc + if P b then 1 else 0 := by
  have hu : (fun j => if P (update pc i b j) then 1 else 0) =
      update (fun j => if P (pc j) then 1 else 0) i (if P b then 1 else 0) :=
    funext fun j => apply_update (fun _ x => if P x then 1 else 0) pc i b j
  have hpc : headcount P pc = (if P (pc i) then 1 else 0) + ∑ j ∈ Finset.univ \ {i}, if P (pc j) then 1 else 0 :=
    Finset.sum_eq_add_sum_sdiff_singleton_of_mem (Finset.mem_univ i) fun j => if P (pc j) then 1 else 0
  rw [hpc, headcount, hu, Finset.sum_update_of_mem (Finset.mem_univ i)]
  omega

end Headcount

omit [Fintype ι] in
/-- What holds of every thread and of thread `i`'s new place holds of every thread after the move. -/
theorem forall_update {P : β → Prop} {pc : ι → β} {i : ι} {b : β} (h : ∀ j, P (pc j)) (hb : P b) (j : ι) :
    P (update pc i b j) := by
  by_cases hj : j = i
  · subst hj; rwa [update_self]
  · rw [update_of_ne hj]; exact h j

end Prs
