import Mathlib.Tactic.IntervalCases
import Prs.Model.Frame

/-!
# The layout of a call frame

Everything is told by its index from the new top of the stack on.

* `top_frame`, `top_context`: the two corrections of the alignment, and where the old top of the stack is.
* `fillArgs_within`, `fillArgs_get`, `fillArgs_reg`: where the arguments go.
* `saveContext_within`, `saveContext_saved`: the copy of a context.
-/

namespace Prs.Frame

open Function

variable {a b : Word} {i j k n lo hi : ℕ} {m : Memory} {reg : Reg}

section Slots

@[simp] theorem slot_zero (a : Word) : slot a 0 = a := BitVec.add_zero a

@[simp] theorem slot_slot (a : Word) (i j : ℕ) : slot (slot a i) j = slot a (i + j) := by
  unfold slot
  rw [Nat.mul_add, BitVec.ofNat_add, BitVec.add_assoc]

theorem slot_add_eight (a : Word) (i : ℕ) : slot a i + 8 = slot a (i + 1) := slot_slot a i 1

/-- Words with different indices are apart, below the size of the address space. -/
theorem slot_inj (hi : i < 2 ^ 61) (hj : j < 2 ^ 61) (h : slot a i = slot a j) : i = j := by
  have hij := congrArg BitVec.toNat (BitVec.add_right_inj a |>.1 h)
  rw [BitVec.toNat_ofNat, BitVec.toNat_ofNat] at hij
  omega

theorem slot_ne (hi : i < 2 ^ 61) (hj : j < 2 ^ 61) (h : i ≠ j) : slot a i ≠ slot a j :=
  fun he => h (slot_inj hi hj he)

/-- The words with an index from `lo` on and before `hi`. -/
def Area (a : Word) (lo hi : ℕ) : Set Word := {x | ∃ k, lo ≤ k ∧ k < hi ∧ x = slot a k}

theorem slot_mem_area (hlo : lo ≤ k) (hhi : k < hi) : slot a k ∈ Area a lo hi := ⟨k, hlo, hhi, rfl⟩

/-- A word outside of an area by its index. -/
theorem slot_notMem_area (hk : k < 2 ^ 61) (hhi : hi ≤ 2 ^ 61) (h : k < lo ∨ hi ≤ k) :
    slot a k ∉ Area a lo hi := by
  rintro ⟨j, hlo, hlt, he⟩
  have hkj := slot_inj hk (by omega) he
  omega

/-- An area that is told from another of its words on. -/
theorem area_slot (hlo : lo ≤ i) (hhi : i + n ≤ hi) : ∀ x ∈ Area (slot a i) 0 n, x ∈ Area a lo hi := by
  rintro x ⟨k, -, hk, rfl⟩
  rw [slot_slot]
  exact slot_mem_area (by omega) (by omega)

theorem area_mono {lo' hi' : ℕ} (hlo : lo' ≤ lo) (hhi : hi ≤ hi') : ∀ x ∈ Area a lo hi, x ∈ Area a lo' hi' := by
  rintro x ⟨k, hk, hk', rfl⟩
  exact slot_mem_area (by omega) (by omega)

end Slots

section Top

/-- The test of the alignment. -/
theorem and_15_eq_zero (x : Word) : x &&& 0xF = 0 ↔ x.toNat % 16 = 0 := by
  have hand : (x &&& 0xF).toNat = x.toNat % 16 := by
    rw [BitVec.toNat_and]
    exact Nat.and_two_pow_sub_one_eq_mod x.toNat 4
  rw [← hand]
  exact BitVec.toNat_eq (y := (0 : Word))

/-- **The frame under an address**, with its correction of the alignment. -/
theorem top_frame (hb : b.toNat % 8 = 0) {sp : Word}
    (hsp : sp = b - 2 * 8 - BitVec.ofNat 64 n * 8 - 8) {align : Bool} (ha : align = decide (sp &&& 0xF = 0)) :
    (if align then sp - 8 else sp).toNat % 16 = 8 ∧
      b = slot (if align then sp - 8 else sp) (n + 3 + align.toNat) := by
  have hw : BitVec.ofNat 64 n * 8 = BitVec.ofNat 64 (8 * n) := by
    rw [Nat.mul_comm, BitVec.ofNat_mul]
    rfl
  rw [hw] at hsp
  have hmod : sp.toNat % 8 = 0 := by
    rw [hsp]
    bv_omega
  by_cases h : sp &&& 0xF = 0
  · have h16 := (and_15_eq_zero sp).1 h
    rw [ha, decide_eq_true h]
    refine ⟨?_, ?_⟩
    · rw [if_pos rfl]
      bv_omega
    · rw [if_pos rfl, hsp]
      unfold slot
      have he : 8 * (n + 3 + true.toNat) = 8 * n + 32 := by rw [Bool.toNat_true]; omega
      rw [he]
      bv_omega
  · have h16 := mt (and_15_eq_zero sp).2 h
    rw [ha, decide_eq_false h]
    refine ⟨?_, ?_⟩
    · rw [if_neg Bool.false_ne_true]
      omega
    · rw [if_neg Bool.false_ne_true, hsp]
      unfold slot
      have he : 8 * (n + 3 + false.toNat) = 8 * n + 24 := by rw [Bool.toNat_false]; omega
      rw [he]
      bv_omega

/-- **The copy of a context under the red zone**, with its correction of the alignment. -/
theorem top_context (L : Layout) (h8 : a.toNat % 8 = 0) {sp : Word}
    (hsp : sp = a - redZoneSize - BitVec.ofNat 64 L.size) {align : Bool} (ha : align = decide (sp &&& 0xF ≠ 0)) :
    (if align then sp - 8 else sp).toNat % 16 = 0 ∧
      a = slot (if align then sp - 8 else sp) (L.size / 8 + 16 + align.toNat) := by
  have hsize := L.aligned
  have hlt := L.size_lt
  have hmod : sp.toNat % 8 = 0 := by
    rw [hsp, redZoneSize]
    bv_omega
  by_cases h : sp &&& 0xF = 0
  · have h16 := (and_15_eq_zero sp).1 h
    rw [ha, decide_eq_false (not_not_intro h), if_neg Bool.false_ne_true]
    refine ⟨h16, ?_⟩
    have he : 8 * (L.size / 8 + 16 + false.toNat) = L.size + 128 := by rw [Bool.toNat_false]; omega
    rw [hsp, slot, he, redZoneSize]
    bv_omega
  · have h16 := mt (and_15_eq_zero sp).2 h
    rw [ha, decide_eq_true h, if_pos rfl]
    refine ⟨by bv_omega, ?_⟩
    have he : 8 * (L.size / 8 + 16 + true.toNat) = L.size + 136 := by rw [Bool.toNat_true]; omega
    rw [hsp, slot, he, redZoneSize]
    bv_omega

end Top

section Args

/-- Arguments from the seventh on go to the stack. -/
theorem argReg_of_le (h : 6 ≤ i) : argReg i = none := by
  obtain ⟨d, rfl⟩ := Nat.exists_eq_add_of_le' h
  rfl

theorem argReg_of_lt (h : i < 6) : ∃ r, argReg i = some r := by
  interval_cases i <;> exact ⟨_, rfl⟩

theorem lt_of_argReg (h : argReg i = some reg) : i < 6 := by
  by_contra hi
  rw [argReg_of_le (Nat.le_of_not_lt hi)] at h
  cases h

/-- The registers that a frame sets are not for arguments. -/
theorem argReg_ne (h : argReg i = some reg) : reg ≠ .rip ∧ reg ≠ .rsp ∧ reg ≠ .rbp := by
  have hi := lt_of_argReg h
  interval_cases i <;> obtain rfl := Option.some.inj h <;> decide

/-- No two arguments go to the same register. -/
theorem argReg_inj (hi : argReg i = some reg) (hj : argReg j = some reg) : i = j := by
  have hi6 := lt_of_argReg hi
  have hj6 := lt_of_argReg hj
  rw [← hj] at hi
  interval_cases i <;> interval_cases j <;> first | rfl | exact absurd hi (by decide)

variable {new : Reg → Word} {args : List Word} {arg psp : Word}

theorem fillArgs_cons_lt (arg : Word) (args : List Word) (new : Reg → Word) (m : Memory) (psp : Word)
    (h : i < 6) :
    ∃ r, argReg i = some r ∧
      fillArgs i (arg :: args) new m psp = fillArgs (i + 1) args (update new r arg) m psp := by
  obtain ⟨r, hr⟩ := argReg_of_lt h
  refine ⟨r, hr, ?_⟩
  rw [fillArgs, hr]

theorem fillArgs_cons_le (h : 6 ≤ i) :
    fillArgs i (arg :: args) new m psp = fillArgs (i + 1) args new (m.set psp arg) (slot psp 1) := by
  rw [fillArgs, argReg_of_le h]
  rfl

/-- Where the arguments on the stack end, and what is written before it. -/
theorem fillArgs_within (i : ℕ) (args : List Word) (new : Reg → Word) (m : Memory) (psp : Word) :
    (fillArgs i args new m psp).2.2 = slot psp (args.length - (6 - i)) ∧
      Cells.Within (Area psp 0 (args.length - (6 - i))) m (fillArgs i args new m psp).2.1 := by
  induction args generalizing i new m psp with
  | nil =>
    refine ⟨?_, Cells.Within.refl _ m⟩
    rw [List.length_nil, Nat.zero_sub, slot_zero]
    rfl
  | cons arg args ih =>
    by_cases h : i < 6
    · obtain ⟨r, -, he⟩ := fillArgs_cons_lt arg args new m psp h
      have hlen : (arg :: args).length - (6 - i) = args.length - (6 - (i + 1)) := by
        rw [List.length_cons]
        omega
      rw [he, hlen]
      exact ih (i + 1) (update new r arg) m psp
    · have hi : 6 ≤ i := Nat.le_of_not_lt h
      have hlen : (arg :: args).length - (6 - i) = args.length - (6 - (i + 1)) + 1 := by
        rw [List.length_cons]
        omega
      -- this argument is stored, and the others go behind it
      obtain ⟨hend, hw⟩ := ih (i + 1) new (m.set psp arg) (slot psp 1)
      rw [fillArgs_cons_le hi, hlen]
      refine ⟨?_, ?_⟩
      · rw [hend, slot_slot, Nat.add_comm]
      · have hset : Cells.Within (Area psp 0 (args.length - (6 - (i + 1)) + 1)) m (m.set psp arg) := by
          apply Cells.Within.set
          exact ⟨0, Nat.le_refl 0, Nat.succ_pos _, (slot_zero psp).symm⟩
        apply hset.trans
        apply hw.mono
        exact area_slot (Nat.zero_le 1) (Nat.add_comm .. |>.le)

/-- **The arguments on the stack are in order**, from the first that has no register on. -/
theorem fillArgs_get (hargs : args.length < 2 ^ 61) (hk : k + (6 - i) < args.length) :
    (fillArgs i args new m psp).2.1.get (slot psp k) = args[k + (6 - i)] := by
  induction args generalizing i k new m psp with
  | nil => exact absurd hk (Nat.not_lt_zero _)
  | cons arg args ih =>
    rw [List.length_cons] at hargs hk
    by_cases h : i < 6
    · obtain ⟨r, -, he⟩ := fillArgs_cons_lt arg args new m psp h
      have hsub : k + (6 - i) = k + (6 - (i + 1)) + 1 := by omega
      have hk' : k + (6 - (i + 1)) < args.length := by omega
      rw [he, ih (by omega) hk']
      simp only [hsub, List.getElem_cons_succ]
    · have hi : 6 ≤ i := Nat.le_of_not_lt h
      have hsub : 6 - i = 0 := by omega
      have hsub' : 6 - (i + 1) = 0 := by omega
      rw [fillArgs_cons_le hi]
      simp only [hsub, Nat.add_zero] at hk ⊢
      cases k with
      | zero =>
        -- the rest is written behind it
        have hout : slot psp 0 ∉ Area psp 1 (args.length + 1) :=
          slot_notMem_area (by omega) (by omega) (.inl (Nat.lt_succ_self 0))
        have hw := (fillArgs_within (i + 1) args new (m.set psp arg) (slot psp 1)).2
        rw [hsub', Nat.sub_zero] at hw
        have hrest := hw.mono (area_slot (Nat.le_refl 1) (Nat.add_comm 1 _).le)
        rw [hrest.get_eq _ hout, slot_zero, Cells.get_set_self]
        rfl
      | succ k =>
        have hk' : k + (6 - (i + 1)) < args.length := by omega
        have hget := @ih (i + 1) k (m.set psp arg) new (slot psp 1) (by omega) hk'
        rw [slot_slot, Nat.add_comm 1 k] at hget
        rw [hget]
        simp only [hsub', Nat.add_zero, List.getElem_cons_succ]

/-- A register that no argument goes to keeps its value. -/
theorem fillArgs_other (h : ∀ j, i ≤ j → j < i + args.length → argReg j ≠ some reg) :
    (fillArgs i args new m psp).1 reg = new reg := by
  induction args generalizing i new m psp with
  | nil => rfl
  | cons arg args ih =>
    rw [List.length_cons] at h
    have hrest : ∀ j, i + 1 ≤ j → j < i + 1 + args.length → argReg j ≠ some reg :=
      fun j hj hlt => h j (by omega) (by omega)
    by_cases hi : i < 6
    · obtain ⟨r, hr, he⟩ := fillArgs_cons_lt arg args new m psp hi
      have hne : reg ≠ r := by
        rintro rfl
        exact h i (Nat.le_refl i) (by omega) hr
      rw [he, ih hrest, update_of_ne hne]
    · rw [fillArgs_cons_le (Nat.le_of_not_lt hi), ih hrest]

/-- **The arguments in registers.** -/
theorem fillArgs_reg (hk : k < args.length) (hr : argReg (i + k) = some reg) :
    (fillArgs i args new m psp).1 reg = args[k] := by
  induction args generalizing i k new m psp with
  | nil => exact absurd hk (Nat.not_lt_zero k)
  | cons arg args ih =>
    rw [List.length_cons] at hk
    have hi : i < 6 := lt_of_le_of_lt (Nat.le_add_right i k) (lt_of_argReg hr)
    obtain ⟨r, hri, he⟩ := fillArgs_cons_lt arg args new m psp hi
    rw [he]
    cases k with
    | zero =>
      obtain rfl : r = reg := Option.some.inj (hri.symm.trans hr)
      -- no later argument goes there
      have hlater : ∀ j, i + 1 ≤ j → j < i + 1 + args.length → argReg j ≠ some r := by
        intro j hj _ hrj
        have hij := argReg_inj hri hrj
        omega
      rw [fillArgs_other hlater, update_self]
      rfl
    | succ k =>
      have hr' : argReg (i + 1 + k) = some reg := by rwa [Nat.add_right_comm, Nat.add_assoc]
      rw [ih (by omega) hr']
      rfl

end Args

section Save

variable {src : ℕ → Word} {L : Layout} {c : Context}

theorem copyWords_within (m : Memory) (a : Word) (src : ℕ → Word) (n : ℕ) :
    Cells.Within (Area a 0 n) m (copyWords m a src n) := by
  induction n with
  | zero => exact Cells.Within.refl _ m
  | succ n ih =>
    apply (ih.mono (area_mono (Nat.le_refl 0) (Nat.le_succ n))).trans
    apply Cells.Within.set
    exact slot_mem_area (Nat.zero_le n) (Nat.lt_succ_self n)

/-- The words of a copy. -/
theorem copyWords_get (hn : n < 2 ^ 61) (hk : k < n) : (copyWords m a src n).get (slot a k) = src k := by
  induction n with
  | zero => exact absurd hk (Nat.not_lt_zero k)
  | succ n ih =>
    rw [copyWords]
    by_cases h : k = n
    · rw [h, Cells.get_set_self]
    · rw [Cells.get_set_of_ne _ _ (slot_ne (by omega) (by omega) h), ih (by omega) (by omega)]

theorem Layout.words_lt (L : Layout) : 8 * (L.fpOffset + L.fpWords) < 2 ^ 63 :=
  lt_of_le_of_lt L.fpstate_le L.size_lt

/-- A copy of a context: its registers, and its floating point state behind them. -/
structure Saved (L : Layout) (c : Context) (m : Memory) (a : Word) : Prop where
  aligned : a.toNat % 16 = 0
  words : ∀ i < L.words, i ≠ L.fpregs → m.get (slot a i) = c.word L i
  fpregs : m.get (slot a L.fpregs) = slot a L.fpOffset
  fpstate : c.fpregs ≠ 0 → ∀ i < L.fpWords, m.get (slot a (L.fpOffset + i)) = c.fpstate i

/-- A copy writes inside of its place. -/
theorem saveContext_within (L : Layout) (m : Memory) (a : Word) (c : Context) :
    Cells.Within (Area a 0 (L.size / 8)) m (saveContext L m a c) := by
  have hwords := L.words_le
  have hfp := L.fpregs_lt
  have hsize := L.fpstate_le
  have hcopy := (copyWords_within m a (c.word L) L.words).mono
    (area_mono (Nat.le_refl 0) (by omega : _ ≤ L.size / 8))
  have hset := Cells.Within.set (copyWords m a (c.word L) L.words) (slot a L.fpOffset)
    (slot_mem_area (a := a) (Nat.zero_le L.fpregs) (by omega : _ < L.size / 8))
  unfold saveContext
  dsimp only
  by_cases h : c.fpregs ≠ 0
  · rw [if_pos h]
    apply (hcopy.trans hset).trans
    apply (copyWords_within _ (slot a L.fpOffset) c.fpstate L.fpWords).mono
    apply area_slot (Nat.zero_le L.fpOffset)
    omega
  · rw [if_neg h]
    exact hcopy.trans hset

/-- **The copy of a context.** -/
theorem saveContext_saved (ha : a.toNat % 16 = 0) : Saved L c (saveContext L m a c) a := by
  have hwords := L.words_le
  have hfp := L.fpregs_lt
  have hlt := L.words_lt
  -- the floating point state is behind the registers
  have hkeep : ∀ i < L.words, (saveContext L m a c).get (slot a i) =
      ((copyWords m a (c.word L) L.words).set (slot a L.fpregs) (slot a L.fpOffset)).get (slot a i) := by
    intro i hi
    unfold saveContext
    dsimp only
    by_cases h : c.fpregs ≠ 0
    · rw [if_pos h]
      have hw := (copyWords_within ((copyWords m a (c.word L) L.words).set (slot a L.fpregs) (slot a L.fpOffset))
        (slot a L.fpOffset) c.fpstate L.fpWords).mono (area_slot (Nat.le_refl L.fpOffset) (Nat.le_refl _))
      apply hw.get_eq
      exact slot_notMem_area (by omega) (by omega) (.inl (by omega))
    · rw [if_neg h]
  refine ⟨ha, ?_, ?_, ?_⟩
  · intro i hi hne
    rw [hkeep i hi, Cells.get_set_of_ne _ _ (slot_ne (by omega) (by omega) hne), copyWords_get (by omega) hi]
  · rw [hkeep L.fpregs hfp, Cells.get_set_self]
  · intro h i hi
    unfold saveContext
    dsimp only
    rw [if_pos h, ← slot_slot, copyWords_get (by omega) hi]

end Save

end Prs.Frame
