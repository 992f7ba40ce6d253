import Prs.Proof.GodTable

/-!
# When an object is refused

* `alloc_invalid_iff`: `prs_god_alloc_and_lock` is refused with an entry to spare exactly when
  `write_index + max_entries` has no 32 bits. The loop of the allocation ends before it starts then, for good
  (`alloc_invalid_after`).
* `alloc_refused`: a table of two entries in which objects are created and destroyed one after the other gets
  there.
-/

namespace Prs.GodSeq

open Function God

variable {P : Type} {k i n : ℕ} {d : Dir P}

section Full

/-- Every entry but the first is reserved. -/
def Dir.Full (k : ℕ) (d : Dir P) : Prop := ∀ e, 0 < e → e < 2 ^ k → (d.header e).reserved = true

/-- The end of the loop has no 32 bits: nothing is tried. -/
theorem alloc_of_wrap (hk : k ≤ 31) (hw : d.writeIndex < 2 ^ 32) (h : 2 ^ 32 ≤ d.writeIndex + 2 ^ k) (o : P) :
    d.alloc k o = (invalid, d) := by
  have hm : 2 ^ k ≤ 2 ^ 32 := Nat.pow_le_pow_right Nat.two_pos (by omega)
  unfold Dir.alloc Prs.probe
  rw [window_wrap hm hw h]
  rfl

/-- With an end of 32 bits, an allocation is refused in a full table. -/
theorem Sane.alloc_of_fits (h : Sane k d) (hk : k ≤ 31) (hfit : d.writeIndex + 2 ^ k < 2 ^ 32) (o : P) :
    (d.alloc k o).1 = invalid ↔ d.Full k := by
  have hnone := probe_eq_none_iff (fun e => !(d.header e).reserved) hfit h.old
  constructor
  · intro hinv e _ he
    unfold Dir.alloc at hinv
    obtain hp | ⟨i, hp⟩ := Option.eq_none_or_eq_some
      (Prs.probe 32 (2 ^ k) d.writeIndex (fun e => !(d.header e).reserved) (fun e => (d.header e).id))
    · have hres := hnone.1 hp e he
      rwa [Bool.not_eq_false'] at hres
    · obtain ⟨hpos, -⟩ := h.probe hk hp
      rw [hp] at hinv
      obtain rfl : i = 0 := hinv
      rw [Nat.zero_mod] at hpos
      omega
  · intro hfull
    have hp := hnone.2 fun e he => by
      rw [Bool.not_eq_false']
      by_cases hz : e = 0
      · rw [hz, h.zero]
      · exact hfull e (by omega) he
    unfold Dir.alloc
    rw [hp]

/-- **When an object is refused.** After any calls, that an allocation is refused means that every entry is
reserved exactly when the end of the loop has 32 bits, or the table is full. -/
theorem alloc_invalid_iff (k : ℕ) (hk : k ≤ 31) (P : Type) (as : List (Act P)) (o : P) :
    ((((Dir.create.after k as).alloc k o).1 = invalid → (Dir.create.after k as).Full k) ↔
      (Dir.create.after k as).writeIndex + 2 ^ k < 2 ^ 32 ∨ (Dir.create.after k as).Full k) := by
  have h := (sane_create k).after hk as
  by_cases hfit : (Dir.create.after k as).writeIndex + 2 ^ k < 2 ^ 32
  · exact iff_of_true (h.alloc_of_fits hk hfit o).1 (.inl hfit)
  · rw [alloc_of_wrap hk h.bound (by omega) o, or_iff_right hfit]
    exact forall_prop_of_true rfl

theorem alloc_invalid_iff_two :
    ((((Dir.create.after 1 [.alloc 7]).alloc 1 8).1 = invalid → (Dir.create.after 1 [.alloc 7]).Full 1) ↔
      (Dir.create.after 1 [.alloc 7]).writeIndex + 2 ^ 1 < 2 ^ 32 ∨ (Dir.create.after 1 [.alloc 7]).Full 1) ∧
    ((Dir.create.after 1 [.alloc 7]).alloc 1 8).1 = invalid :=
  ⟨alloc_invalid_iff 1 (by omega) ℕ [.alloc 7] 8, by decide⟩

/-- No call moves `write_index` when the end of the loop has no 32 bits. -/
theorem writeIndex_of_wrap (hk : k ≤ 31) (h : Sane k d) (hwrap : 2 ^ 32 ≤ d.writeIndex + 2 ^ k) (a : Act P) :
    (d.exec k a).writeIndex = d.writeIndex := by
  cases a with
  | alloc o =>
    have heq := alloc_of_wrap hk h.bound hwrap o
    exact congrArg (fun x => x.2.writeIndex) heq
  | lock id =>
    unfold Dir.exec Dir.lock
    dsimp only
    repeat' split
    all_goals rfl
  | unlock id =>
    unfold Dir.exec Dir.unlock
    dsimp only
    repeat' split
    all_goals rfl

/-- **For good**: no object is created any more, whatever is destroyed. -/
theorem Sane.alloc_invalid_after (h : Sane k d) (hk : k ≤ 31) (hwrap : 2 ^ 32 ≤ d.writeIndex + 2 ^ k)
    (as : List (Act P)) (o : P) : ((d.after k as).alloc k o).1 = invalid := by
  induction as generalizing d with
  | nil =>
    have heq := alloc_of_wrap hk h.bound hwrap o
    exact congrArg Prod.fst heq
  | cons a as ih =>
    apply ih (h.exec hk a)
    rw [writeIndex_of_wrap hk h hwrap a]
    exact hwrap

end Full

section Churn

/-- Objects have been created and destroyed in a table of two entries, one after the other. -/
structure Churned (d : Dir ℕ) (n : ℕ) : Prop where
  zero : d.header 0 = ⟨0, true, true, false, 0⟩
  one : ∃ i, i < 2 * n ∧ d.header 1 = ⟨i, false, false, false, 0⟩
  writeIndex : d.writeIndex = 2 * n

/-- One more. -/
theorem Churned.succ {d : Dir ℕ} (h : Churned d n) (hn : 2 * n + 2 < 2 ^ 32) :
    Churned (d.after 1 [.alloc 0, .unlock (2 * n + 1)]) (n + 1) := by
  obtain ⟨i, hi, hone⟩ := h.one
  have hzero := h.zero
  have hmod₁ : (2 * n + 1) % 2 ^ 1 = 1 := by omega
  have hne : i ≠ 2 * n + 1 := by omega
  have hwin : window 32 (2 ^ 1) (2 * n) = [2 * n, 2 * n + 1] := window_eq hn
  have halloc : d.alloc 1 0 = (2 * n + 1,
      ⟨update d.header 1 ⟨2 * n + 1, true, true, false, 1⟩, update d.object 1 (some 0), 2 * n + 2⟩) := by
    have hsucc : God.succ (2 * n + 1) = 2 * n + 2 := Nat.mod_eq_of_lt hn
    have hp : probe 32 (2 ^ 1) d.writeIndex (fun e => !(d.header e).reserved) (fun e => (d.header e).id) =
        some (2 * n + 1) := by
      unfold probe
      rw [h.writeIndex, hwin]
      simp [hzero, hone, hne]
    unfold Dir.alloc
    rw [hp]
    simp only [hmod₁, hsucc]
  have hid : 2 * n + 1 ≠ invalid := Nat.succ_ne_zero _
  refine ⟨?_, ⟨2 * n + 1, by omega, ?_⟩, ?_⟩
  · simp [Dir.after, Dir.exec, halloc, Dir.unlock, hid, Header.unlocked, Header.mark, hzero]
  · simp [Dir.after, Dir.exec, halloc, Dir.unlock, hid, Header.unlocked, Header.mark, Header.onlyId]
  · simp [Dir.after, Dir.exec, halloc, Dir.unlock, hid, Header.unlocked, Header.mark]
    omega

theorem churned (n : ℕ) (hn : 2 * n + 2 < 2 ^ 32) : ∃ as :
    List (Act ℕ), Churned (Dir.create.after 1 as) (n + 1) := by
  induction n with
  | zero => exact ⟨[.alloc 0, .unlock 1], by decide, ⟨1, by decide, by decide⟩, by decide⟩
  | succ n ih =>
    obtain ⟨as, has⟩ := ih (by omega)
    refine ⟨as ++ [.alloc 0, .unlock (2 * (n + 1) + 1)], ?_⟩
    have hsucc := has.succ (by omega)
    unfold Dir.after at hsucc ⊢
    rwa [List.foldl_append]

/-- **An object is refused** in a table that has none, after some two thousand million others. -/
theorem alloc_refused :
    ¬ ∀ (k : ℕ) (as : List (Act ℕ)) (o : ℕ), 1 ≤ k → k ≤ 31 → ((Dir.create.after k as).alloc k o).1 = invalid →
      (Dir.create.after k as).Full k := by
  intro hall
  obtain ⟨n, hn⟩ : ∃ n, n + 1 = 2 ^ 31 - 1 := ⟨2 ^ 31 - 2, by omega⟩
  obtain ⟨as, has⟩ := churned n (by omega)
  have hsane := (sane_create (P := ℕ) 1).after (by omega) as
  have hwrap : 2 ^ 32 ≤ (Dir.create.after 1 as).writeIndex + 2 ^ 1 := by
    rw [has.writeIndex]
    omega
  have hinv := alloc_of_wrap (by omega) hsane.bound hwrap 0
  have hfull := hall 1 as 0 le_rfl (by omega) (congrArg Prod.fst hinv) 1 Nat.one_pos (by omega)
  obtain ⟨i, -, hone⟩ := has.one
  rw [hone] at hfull
  cases hfull

end Churn

end Prs.GodSeq
