import Prs.Lib.BitScan
import Prs.Model.Bitops
import Prs.Model.Timer
import Prs.Proof.SwprioOrder

/-!
# The loops and the builtins

The loop of `_PRS_BITOPS_HSB` is the builtin scan. The loop of `_PRS_BITOPS_LSB` ends one position early, so
it does not see the highest bit: it is the builtin scan except on the word with that bit only, where it
returns `-1`. For a `ready_mask` that is the word in which `PRS_MAX_TASK_PRIO - 1` is the only priority.

* `hsbFallback_highest`, `lsbFallback_lowest`: what the loops return.
* `timer_hsb`: the scan that the timer wheel uses is the same on every compiler.
* `scans_agree`: the exact words on which the branches agree.
* `searchBy_stops`: when the assertion after the scan fails in `prs_sched_swprio_get_next`.
-/

namespace Prs.Bitops

variable {w : ℕ} {v : BitVec w}

theorem test_eq (v : BitVec w) (pos : ℕ) : test v pos = v.getLsbD pos := by
  have hand : v &&& (1#w <<< pos) = if v.getLsbD pos then BitVec.twoPow w pos else 0#w := by
    rw [← BitVec.and_twoPow, BitVec.twoPow_eq]
  unfold test
  rw [hand]
  cases hb : v.getLsbD pos with
  | false => simp
  | true =>
    have hlt : pos < w := BitVec.lt_of_getLsbD hb
    have hne : BitVec.twoPow w pos ≠ 0#w := by
      apply ne_zero_of_bit
      rw [BitVec.getLsbD_twoPow, decide_eq_true hlt, decide_eq_true rfl]
      rfl
    simpa using hne

/-! ## The loops -/

/-- The loop down finds the highest of the `n` low bits. -/
theorem hsbLoop_spec (n : ℕ) (hbound : ∀ i, n ≤ i → v.getLsbD i = false) : HighestBit v (hsbLoop v n) := by
  induction n with
  | zero => exact .inl ⟨eq_zero_of_bits fun i _ => hbound i (Nat.zero_le i), rfl⟩
  | succ n ih =>
    unfold hsbLoop
    rw [test_eq]
    cases hb : v.getLsbD n with
    | true => exact .inr ⟨n, rfl, hb, fun i hi => hbound i hi⟩
    | false =>
      apply ih
      intro i hi
      obtain rfl | hlt := Nat.eq_or_lt_of_le hi
      · exact hb
      · exact hbound i hlt

/-- The loop up finds the lowest bit, if there is one among the `n` positions that it visits. -/
theorem lsbLoop_spec (n pos : ℕ) (hbelow : ∀ i < pos, v.getLsbD i = false) :
    lsbLoop v n pos = -1 ∧ (∀ i < pos + n, v.getLsbD i = false) ∨
      LowestBit v (lsbLoop v n pos) ∧ lsbLoop v n pos < pos + n := by
  induction n generalizing pos with
  | zero => exact .inl ⟨rfl, hbelow⟩
  | succ n ih =>
    unfold lsbLoop
    rw [test_eq]
    cases hb : v.getLsbD pos with
    | true =>
      refine .inr ⟨.inr ⟨pos, rfl, hb, hbelow⟩, ?_⟩
      have hlt : (pos : ℤ) < pos + (n + 1 : ℕ) := by omega
      exact hlt
    | false =>
      have hnext : ∀ i < pos + 1, v.getLsbD i = false := by
        intro i hi
        obtain rfl | hlt := Nat.eq_or_lt_of_le (Nat.le_of_lt_succ hi)
        · exact hb
        · exact hbelow i hlt
      obtain ⟨hr, hclear⟩ | ⟨hr, hlt⟩ := ih (pos + 1) hnext
      · exact .inl ⟨hr, fun i hi => hclear i (by omega)⟩
      · refine .inr ⟨hr, ?_⟩
        have hlt' : lsbLoop v n (pos + 1) < pos + (n + 1 : ℕ) := by omega
        exact hlt'

/-- **The loop of `_PRS_BITOPS_HSB` is right for every word.** -/
theorem hsbFallback_highest (v : BitVec w) : HighestBit v (hsbFallback v) := by
  apply hsbLoop_spec
  intro i hi
  exact BitVec.getLsbD_of_ge v i hi

/-- **The loop of `_PRS_BITOPS_LSB`** is right for every word but the one with the highest bit only. -/
theorem lsbFallback_lowest (hv : v ≠ BitVec.twoPow w (w - 1)) : LowestBit v (lsbFallback v) := by
  obtain ⟨hr, hclear⟩ | h := @lsbLoop_spec w v (w - 1) 0 fun i hi => absurd hi (Nat.not_lt_zero i)
  · -- no position that the loop visits is set, and the one that it leaves out is not set alone
    refine .inl ⟨?_, hr⟩
    apply eq_zero_of_bits
    intro i hi
    obtain hlt | rfl : i < w - 1 ∨ i = w - 1 := by omega
    · exact hclear i (by omega)
    · by_contra hb
      apply hv
      apply BitVec.eq_of_getLsbD_eq
      intro j hj
      rw [BitVec.getLsbD_twoPow, decide_eq_true hi, Bool.true_and]
      obtain hlt | rfl : j < w - 1 ∨ j = w - 1 := by omega
      · rw [hclear j (by omega), decide_eq_false (by omega)]
      · rw [decide_eq_true rfl]
        exact Bool.eq_true_of_not_eq_false hb
  · exact h.1

/-- On the word with the highest bit only, the loop finds no bit. -/
theorem lsbFallback_twoPow (w : ℕ) : lsbFallback (BitVec.twoPow w (w - 1)) = -1 := by
  obtain ⟨hr, -⟩ | ⟨h, hlt⟩ := @lsbLoop_spec w (BitVec.twoPow w (w - 1)) (w - 1) 0 fun i hi =>
    absurd hi (Nat.not_lt_zero i)
  · exact hr
  · obtain ⟨-, hr⟩ | ⟨p, hr, hp, -⟩ := h
    · exact hr
    · -- a bit below the highest one is not set
      rw [hr] at hlt
      have hne : decide (w - 1 = p) = false := decide_eq_false (by omega)
      rw [BitVec.getLsbD_twoPow, hne, Bool.and_false] at hp
      exact absurd hp Bool.false_ne_true

/-! ## The builtins -/

theorem hsbBuiltin_highest (v : BitVec w) : HighestBit v (hsbBuiltin v) := by
  unfold hsbBuiltin
  split
  case isTrue hz => exact .inl ⟨hz, rfl⟩
  case isFalse hz => exact highestBit_clz hz

theorem lsbBuiltin_lowest (v : BitVec w) : LowestBit v (lsbBuiltin v) := by
  unfold lsbBuiltin
  split
  case isTrue hz => exact .inl ⟨hz, rfl⟩
  case isFalse hz => exact lowestBit_ctz hz

/-- The loop is right for exactly the words that are not the highest bit alone. -/
theorem lsbFallback_iff (hw : 0 < w) : LowestBit v (lsbFallback v) ↔ v ≠ BitVec.twoPow w (w - 1) := by
  constructor
  · rintro h rfl
    rw [lsbFallback_twoPow] at h
    have hp := h.unique (lowestBit_twoPow (Nat.sub_lt hw Nat.one_pos))
    omega
  · exact lsbFallback_lowest

/-- The scan of the timer wheel is `prs_bitops_hsb_uint32` on every compiler. -/
theorem timer_hsb (c : Compiler) (v : BitVec 32) : Timer.hsb v.toNat = hsbUint32 c v := by
  have hlog : HighestBit v (Timer.hsb v.toNat) := by
    unfold Timer.hsb
    split
    case isTrue hz => exact .inl ⟨BitVec.eq_of_toNat_eq hz, rfl⟩
    case isFalse hz =>
      refine .inr ⟨v.toNat.log2, rfl, Nat.testBit_log2 hz, ?_⟩
      intro i hi
      exact Nat.testBit_lt_two_pow (Nat.lt_of_lt_of_le Nat.lt_log2_self (Nat.pow_le_pow_right (by decide) hi))
  cases c with
  | gcc => exact hlog.unique (hsbBuiltin_highest v)
  | other => exact hlog.unique (hsbFallback_highest v)

/-! ## The two branches -/

/-- The branches return the same lowest and highest bit of `v`, and return what they are said to return. -/
structure Agree (lsb hsb : Compiler → BitVec w → ℤ) (v : BitVec w) : Prop where
  lsb_eq : lsb .other v = lsb .gcc v
  hsb_eq : hsb .other v = hsb .gcc v
  lowest : ∀ c, LowestBit v (lsb c v)
  highest : ∀ c, HighestBit v (hsb c v)

/-- What the branches of the two scans at one width have in common. -/
theorem agree_iff {lsb hsb : Compiler → BitVec w → ℤ} (hw : 0 < w)
    (hlg : ∀ v, lsb .gcc v = lsbBuiltin v) (hlo : ∀ v, lsb .other v = lsbFallback v)
    (hhg : ∀ v, hsb .gcc v = hsbBuiltin v) (hho : ∀ v, hsb .other v = hsbFallback v) :
    Agree lsb hsb v ↔ v ≠ BitVec.twoPow w (w - 1) := by
  constructor
  · intro h
    have hl := h.lowest .other
    rw [hlo] at hl
    exact (lsbFallback_iff hw).1 hl
  · intro hv
    have hl := lsbFallback_lowest hv
    have hh := hsbFallback_highest v
    refine ⟨?_, ?_, ?_, ?_⟩
    · rw [hlo, hlg]
      exact hl.unique (lsbBuiltin_lowest v)
    · rw [hho, hhg]
      exact hh.unique (hsbBuiltin_highest v)
    · intro c
      cases c with
      | gcc => rw [hlg]; exact lsbBuiltin_lowest v
      | other => rwa [hlo]
    · intro c
      cases c with
      | gcc => rw [hhg]; exact hsbBuiltin_highest v
      | other => rwa [hho]

end Prs.Bitops

namespace Prs.Swprio

open Bitops

/-! ## The scheduler -/

/-- The priority of the lowest bit passes the assertion. -/
theorem checkPrio_lowest {mask : BitVec 32} {r : ℤ} (h : LowestBit mask r) : checkPrio r = lsb mask := by
  obtain ⟨rfl, rfl⟩ | ⟨p, rfl, hp, hmin⟩ := h
  · have hnone : lsb 0#32 = none := lsb_eq_none.2 fun p => BitVec.getLsbD_zero
    rw [hnone]
    rfl
  · have hlt : p < 32 := BitVec.lt_of_getLsbD hp
    have hsome : lsb mask = some ⟨p, hlt⟩ := lsb_eq_some.2 ⟨hp, fun p' hp' => hmin p' hp'⟩
    have hrange : (0 : ℤ) ≤ p ∧ (p : ℤ) < 32 := by omega
    rw [hsome, checkPrio, dif_pos hrange]
    rfl

/-- The mask in which the lowest priority is the only one. -/
theorem lsb_eq_last {mask : BitVec 32} : lsb mask = some 31 ↔ mask = 0x80000000#32 := by
  constructor
  · intro h
    obtain ⟨hp, hmin⟩ := lsb_eq_some.1 h
    apply BitVec.eq_of_getLsbD_eq
    intro i hi
    obtain hlt | rfl : i < 31 ∨ i = 31 := by omega
    · rw [hmin ⟨i, hi⟩ hlt]
      have hclear : (BitVec.twoPow 32 31).getLsbD i = false := by
        have hne : decide (31 = i) = false := decide_eq_false (by omega)
        rw [BitVec.getLsbD_twoPow, hne, Bool.and_false]
      exact hclear.symm
    · exact hp
  · rintro rfl
    rw [lsb_eq_some]
    decide

/-- The loop finds the lowest bit of exactly the masks in which the lowest priority is not the only one. -/
theorem checkPrio_other_iff (mask : BitVec 32) :
    checkPrio (lsbUint32 .other mask) = lsb mask ↔ mask ≠ 0x80000000#32 := by
  constructor
  · rintro h rfl
    have hr : lsbUint32 .other 0x80000000#32 = -1 := lsbFallback_twoPow 32
    have hnone : checkPrio (-1) = none := rfl
    rw [hr, hnone, lsb_eq_last.2 rfl] at h
    exact absurd h (Option.some_ne_none 31).symm
  · intro h
    exact checkPrio_lowest (lsbFallback_lowest h)

theorem checkPrio_gcc (mask : BitVec 32) : checkPrio (lsbUint32 .gcc mask) = lsb mask :=
  checkPrio_lowest (lsbBuiltin_lowest mask)

variable {τ : Type} {q : Sched τ} {n : ℕ} {mask : BitVec 32}

theorem lsb_zero : lsb 0#32 = none := lsb_eq_none.2 fun _ => BitVec.getLsbD_zero

theorem exists_lsb (hm : mask ≠ 0#32) : ∃ p, lsb mask = some p := by
  cases hl : lsb mask with
  | some p => exact ⟨p, rfl⟩
  | none =>
    have hz := eq_zero_of_bits fun i hi => lsb_eq_none.1 hl ⟨i, hi⟩
    exact absurd hz hm

/-- With the builtin, the loop over the mask is the one of `Sched.search`. -/
theorem searchBy_gcc : q.searchBy (lsbUint32 .gcc) n mask = some (q.search n mask) := by
  induction n generalizing mask q with
  | zero => rfl
  | succ n ih =>
    unfold Sched.searchBy Sched.search
    rw [checkPrio_gcc]
    by_cases hm : mask = 0#32
    · rw [if_pos hm, hm, lsb_zero]
    · obtain ⟨p, hp⟩ := exists_lsb hm
      rw [if_neg hm, hp]
      simp only [ih]
      split
      · split <;> rfl
      · rfl

/-- The mask has no priority below `32 - n` after the lowest one is cleared. -/
theorem low_clear {p : Prio} (hp : lsb mask = some p)
    (hlow : ∀ p : Prio, p.val < 32 - (n + 1) → mask.getLsbD p = false) (p' : Prio) (hp' : p'.val < 32 - n) :
    (mask &&& ~~~bit p).getLsbD p' = false := by
  obtain ⟨hbit, hmin⟩ := lsb_eq_some.1 hp
  rw [getLsbD_clear]
  have hge : 32 - (n + 1) ≤ p.val := by
    by_contra hlt
    exact Bool.false_ne_true ((hlow p (Nat.lt_of_not_le hlt)).symm.trans hbit)
  by_cases hpp : p = p'
  · rw [decide_eq_false (not_not_intro hpp), Bool.and_false]
  · have hne : p'.val ≠ p.val := fun h => hpp (Fin.ext h.symm)
    have hlt : p'.val < p.val := by omega
    rw [hmin p' hlt, Bool.false_and]

/-- The mask has the lowest priority, and nothing waits at the other priorities that it has. -/
def Sched.OnlyLast (q : Sched τ) (mask : BitVec 32) : Prop :=
  mask.getLsbD 31 = true ∧ ∀ p : Prio, p.val ≠ 31 → mask.getLsbD p = true → q.readyq p = []

theorem onlyLast_clear {p : Prio} (hlast : p.val ≠ 31) (hempty : q.readyq p = []) :
    (q.clearMask p).OnlyLast (mask &&& ~~~bit p) ↔ q.OnlyLast mask := by
  have hbit31 : (mask &&& ~~~bit p).getLsbD 31 = mask.getLsbD 31 := by
    have hne : p ≠ 31 := by
      rintro rfl
      exact hlast rfl
    have hclear := getLsbD_clear mask p 31
    rw [decide_eq_true hne, Bool.and_true] at hclear
    exact hclear
  unfold Sched.OnlyLast
  rw [hbit31]
  apply and_congr_right
  intro _
  constructor
  · intro h p' hp' hset
    by_cases hpp : p = p'
    · rwa [← hpp]
    · apply h p' hp'
      rw [getLsbD_clear, hset, decide_eq_true hpp]
      rfl
  · intro h p' hp' hset
    rw [getLsbD_clear, Bool.and_eq_true] at hset
    exact h p' hp' hset.1

/-- **With the loop, the assertion after the scan fails** in exactly the calls in which no task waits above
the lowest priority and the mask has that priority. -/
theorem searchBy_stops (hlow : ∀ p : Prio, p.val < 32 - n → mask.getLsbD p = false) :
    q.searchBy (lsbUint32 .other) n mask = none ↔ q.OnlyLast mask := by
  induction n generalizing mask q with
  | zero =>
    have hclear : mask.getLsbD (31 : Prio) = false := hlow 31 (by decide)
    have hno : ¬ q.OnlyLast mask := fun h => Bool.false_ne_true (hclear.symm.trans h.1)
    unfold Sched.searchBy
    simp only [hno, reduceCtorEq]
  | succ n ih =>
    unfold Sched.searchBy
    by_cases hz : mask = 0#32
    · have hno : ¬ q.OnlyLast mask := fun h => ne_zero_of_bit h.1 hz
      simp only [hz, if_true, reduceCtorEq, false_iff]
      exact hz ▸ hno
    · obtain ⟨p, hp⟩ := exists_lsb hz
      obtain ⟨hbit, hmin⟩ := lsb_eq_some.1 hp
      rw [if_neg hz]
      by_cases hlast : p.val = 31
      · -- the only bit is the one that the loop does not visit
        obtain rfl : p = 31 := Fin.ext hlast
        obtain rfl := lsb_eq_last.1 hp
        have hr : lsbUint32 .other 0x80000000#32 = -1 := lsbFallback_twoPow 32
        have hnone : checkPrio (-1) = none := rfl
        have hyes : q.OnlyLast 0x80000000#32 := by
          refine ⟨hbit, fun p' hp' hset => ?_⟩
          have hlt : p'.val < 31 := by omega
          exact absurd (hmin p' hlt ▸ hset) Bool.false_ne_true
        simp only [hr, hnone, hyes]
      · have hm : mask ≠ 0x80000000#32 := by
          intro hm
          have heq : p = 31 := Option.some.inj (hp.symm.trans (lsb_eq_last.2 hm))
          exact hlast (congrArg Fin.val heq)
        rw [(checkPrio_other_iff mask).2 hm, hp]
        by_cases hempty : q.readyq p = []
        · have hempty' : (q.clearMask p).readyq p = [] := hempty
          simp only [hempty, hempty', if_true]
          rw [ih]
          · -- the turn takes out of the mask a priority at which nothing waits
            exact onlyLast_clear hlast hempty
          · exact low_clear hp hlow
        · have hno : ¬ q.OnlyLast mask := fun h => hempty (h.2 p hlast hbit)
          simp only [hempty, hno, if_false, reduceCtorEq]

end Prs.Swprio

namespace Prs.Bitops

open Prs.Swprio (lsb checkPrio)

/-- **The two branches of the scans**, for every word of each width: they agree on the highest bit, and they
agree on the lowest bit except on the word with the highest bit only. That is the only `ready_mask` whose
lowest bit the scheduler does not find. -/
theorem scans_agree (v : BitVec 32) (v' : BitVec 64) :
    (Agree lsbUint32 hsbUint32 v ↔ v ≠ 0x80000000#32) ∧
    (Agree lsbUint64 hsbUint64 v' ↔ v' ≠ 0x8000000000000000#64) ∧
    hsbUint32 .other v = hsbUint32 .gcc v ∧
    hsbUint64 .other v' = hsbUint64 .gcc v' ∧
    ((∀ c, checkPrio (lsbUint32 c v) = lsb v) ↔ v ≠ 0x80000000#32) := by
  refine ⟨?_, ?_, ?_, ?_, ?_⟩
  · exact agree_iff (by decide) (fun _ => rfl) (fun _ => rfl) (fun _ => rfl) fun _ => rfl
  · exact agree_iff (by decide) (fun _ => rfl) (fun _ => rfl) (fun _ => rfl) fun _ => rfl
  · exact (hsbFallback_highest v).unique (hsbBuiltin_highest v)
  · exact (hsbFallback_highest v').unique (hsbBuiltin_highest v')
  · rw [← Swprio.checkPrio_other_iff v]
    constructor
    · intro h
      exact h .other
    · intro h c
      cases c with
      | gcc => exact Swprio.checkPrio_gcc v
      | other => exact h

/-- With only the last priority ready, the loop finds nothing and the builtin finds the priority. -/
theorem last_priority_missed :
    lsbUint32 .other 0x80000000#32 = -1 ∧ lsbUint32 .gcc 0x80000000#32 = 31 ∧
      checkPrio (lsbUint32 .other 0x80000000#32) = none ∧ lsb 0x80000000#32 = some 31 ∧
      lsbUint64 .other 0x8000000000000000#64 = -1 ∧ lsbUint64 .gcc 0x8000000000000000#64 = 63 := by
  have h32 : lsbUint32 .other 0x80000000#32 = -1 := lsbFallback_twoPow 32
  have h64 : lsbUint64 .other 0x8000000000000000#64 = -1 := lsbFallback_twoPow 64
  have hl32 : LowestBit (BitVec.twoPow 32 31) (31 : ℕ) := lowestBit_twoPow (by decide)
  have hb32 : lsbUint32 .gcc 0x80000000#32 = 31 := (lsbBuiltin_lowest (BitVec.twoPow 32 31)).unique hl32
  have hl64 : LowestBit (BitVec.twoPow 64 63) (63 : ℕ) := lowestBit_twoPow (by decide)
  have hb64 : lsbUint64 .gcc 0x8000000000000000#64 = 63 := (lsbBuiltin_lowest (BitVec.twoPow 64 63)).unique hl64
  refine ⟨h32, hb32, ?_, Swprio.lsb_eq_last.2 rfl, h64, hb64⟩
  rw [h32]
  rfl

end Prs.Bitops
