import Mathlib.Data.Nat.Bitwise
import Mathlib.Tactic.IntervalCases
import Prs.Lib.Wheel
import Prs.Model.Timer

/-!
# What a tick does to one entry

The 32-bit arithmetic of `prs_timer_queue_internal` and `prs_timer_tick` is that of a timing wheel in base 256
with four levels, over the time since the start (`queueInternal_deadline`, `mem_tickSlots`). A tick treats the
entries one at a time and each independently of the others (`foldl_once`, `flush_count`), so what becomes of
an entry is a matter of its own place and deadline.
-/

namespace Prs.Timer

open Function

/-! ## The arithmetic -/

theorem log2_div_eight (d : ℕ) : Nat.log2 d / 8 = Nat.log 256 d := by
  rcases Nat.eq_zero_or_pos d with rfl | hd
  · simp
  rw [Nat.log2_eq_log_two]
  symm
  have h1 : 2 ^ Nat.log 2 d ≤ d := Nat.pow_log_le_self 2 (by omega)
  have h2 : d < 2 ^ (Nat.log 2 d + 1) := Nat.lt_pow_succ_log_self (by omega) d
  refine Nat.log_eq_of_pow_le_of_lt_pow ?_ ?_
  · rw [show 256 = 2 ^ 8 from rfl, ← Nat.pow_mul]
    exact (Nat.pow_le_pow_right (by omega) (by omega)).trans h1
  · rw [show 256 = 2 ^ 8 from rfl, ← Nat.pow_mul]
    exact h2.trans_le (Nat.pow_le_pow_right (by omega) (by omega))

theorem shift_eq_div (a w : ℕ) : a >>> (w * 8) = a / 256 ^ w := by
  rw [Nat.shiftRight_eq_div_pow, Nat.mul_comm, Nat.pow_mul]

theorem and_255 (a : ℕ) : a &&& 255 = a % 256 := Nat.and_two_pow_sub_one_eq_mod a 8

theorem sub32_eq {n e : ℕ} (h1 : n ≤ e) (h2 : e < n + 2 ^ 32) : sub32 (e % 2 ^ 32) (n % 2 ^ 32) = e - n := by
  unfold sub32
  omega

/-- The slot that `prs_timer_queue_internal` computes is that of the wheel. -/
theorem slot_eq (e : ℕ) {w : ℕ} (hw : w < 4) :
    slotOf (e % 2 ^ 32) w = Wheel.slot 256 w e := by
  rw [slotOf, and_255, shift_eq_div]
  unfold sub32 Wheel.slot
  interval_cases w <;> simp only [Nat.reducePow, if_true, reduceCtorEq, if_false] <;> omega

theorem maxWheel_gt {v : ℕ} (h0 : v ≠ 0) (hv : v < 2 ^ 32) (w : ℕ) : w < maxWheel v ↔ 256 ^ w ≤ v := by
  have hlog : Nat.log 256 v < 4 := Nat.log_lt_of_lt_pow h0 (by omega)
  have hm : maxWheel v = Nat.log 256 v + 1 := by
    unfold maxWheel hsb
    rw [if_neg h0]
    have h1 := log2_div_eight v
    have h2 : ((Nat.log2 v : ℤ) % 2 ^ 64 / 8 + 1) = ((Nat.log 256 v + 1 : ℕ) : ℤ) := by
      have : Nat.log2 v < 64 := by omega
      omega
    rw [h2, Int.bmod_eq_of_le (by omega) (by omega)]
    rfl
  rw [hm, Nat.lt_succ_iff, Nat.le_log_iff_pow_le (by omega) h0]

theorem elapsedSlots_one (w : ℕ) : elapsedSlots 1 w = 1 := by
  unfold elapsedSlots
  have h : w * 256 % 32 = 0 := by omega
  rw [h]
  decide

/-- Two times differ above the digits of level `w` exactly when their difference shows there. -/
theorem xor_ge_pow (a b w : ℕ) : 256 ^ w ≤ a ^^^ b ↔ a / 256 ^ w ≠ b / 256 ^ w := by
  have hp : 0 < 256 ^ w := Nat.pow_pos (by omega)
  have h1 : 256 ^ w ≤ a ^^^ b ↔ 0 < (a ^^^ b) / 256 ^ w := by
    rw [Nat.div_pos_iff]; exact ⟨fun h => ⟨hp, h⟩, fun h => h.2⟩
  rw [h1, ← shift_eq_div, Nat.shiftRight_xor_distrib, shift_eq_div, shift_eq_div, Nat.pos_iff_ne_zero, Ne,
    Nat.xor_eq_zero_iff]

/-- **The slots that a tick empties are those that come up.** -/
theorem mem_tickSlots (n w k : ℕ) :
    (w, k) ∈ tickSlots (n % 2 ^ 32) ((n + 1) % 2 ^ 32) ↔ w < 4 ∧ Wheel.ComesUp 256 w k n := by
  have hel : sub32 ((n + 1) % 2 ^ 32) (n % 2 ^ 32) = 1 := by
    rw [sub32_eq (by omega) (by omega)]; omega
  have hne : (n + 1) % 2 ^ 32 ^^^ n % 2 ^ 32 ≠ 0 := by
    rw [Ne, Nat.xor_eq_zero_iff]; omega
  have hlt : (n + 1) % 2 ^ 32 ^^^ n % 2 ^ 32 < 2 ^ 32 :=
    Nat.xor_lt_two_pow (Nat.mod_lt _ (by omega)) (Nat.mod_lt _ (by omega))
  have hmax : ∀ v, v < maxWheel ((n + 1) % 2 ^ 32 ^^^ n % 2 ^ 32) ↔ v < 4 ∧ 256 ^ v ∣ n + 1 := by
    intro v
    rw [maxWheel_gt hne hlt]
    constructor
    · intro h
      have hv : v < 4 := by
        by_contra hv
        have h4 : 256 ^ 4 ≤ 256 ^ v := Nat.pow_le_pow_right (by omega) (by omega)
        omega
      refine ⟨hv, ?_⟩
      rw [xor_ge_pow] at h
      interval_cases v <;> simp only [Nat.reducePow] at h ⊢ <;> omega
    · rintro ⟨hv, hd⟩
      rw [xor_ge_pow]
      interval_cases v <;> simp only [Nat.reducePow] at hd ⊢ <;> omega
  simp only [tickSlots, hel, elapsedSlots_one, List.range_one, List.map_cons, List.map_nil, List.mem_flatMap,
    List.mem_range, List.mem_singleton, Nat.add_zero, and_255, shift_eq_div, Prod.mk.injEq, hmax, Wheel.ComesUp]
  constructor
  · rintro ⟨v, ⟨hv, hd⟩, rfl, rfl⟩
    refine ⟨hv, hd, ?_⟩
    interval_cases w <;> simp only [Nat.reducePow] <;> omega
  · rintro ⟨hw, hd, rfl⟩
    refine ⟨w, ⟨hw, hd⟩, rfl, ?_⟩
    interval_cases w <;> simp only [Nat.reducePow] <;> omega

/-! ## One entry at a time -/

variable {s s' : St} {id x : ℕ}

theorem delay_nonneg (s : St) (id : ℕ) : 0 ≤ s.delay id := Int.natCast_nonneg _

/-- **What `prs_timer_queue_internal` can do.** -/
theorem queueInternal_cases (s : St) (id : ℕ) :
    (s.delay id = 0 ∧ s.queueInternal id = s.signalEntry id) ∨
    (s.delay id ≠ 0 ∧ s.refcnt id = 1 ∧ s.queueInternal id = s.freeEntry id) ∨
    (s.delay id ≠ 0 ∧ s.refcnt id ≠ 1 ∧ s.queueInternal id =
      s.insert id (wheelOf (s.delay id)) (slotOf (s.entry id).deadline (wheelOf (s.delay id)))) := by
  have h0 := delay_nonneg s id
  by_cases hd : s.delay id = 0
  · exact Or.inl ⟨hd, if_pos hd.le⟩
  · have hn : ¬ s.delay id ≤ 0 := by omega
    by_cases hr : s.refcnt id = 1
    · exact Or.inr (Or.inl ⟨hd, hr, (if_neg hn).trans (if_pos hr)⟩)
    · exact Or.inr (Or.inr ⟨hd, hr, (if_neg hn).trans (if_neg hr)⟩)

/-- `prs_timer_queue_internal` changes the wheels, the reference counts and the signals only. -/
structure Frame (s s' : St) : Prop where
  clock : s'.clock = s.clock
  now : s'.now = s.now
  queued : s'.queued = s.queued
  entry : s'.entry = s.entry
  caller : s'.caller = s.caller
  inTick : s'.inTick = s.inTick
  ticks : s'.ticks = s.ticks
  asked : s'.asked = s.asked
  timeout : s'.timeout = s.timeout
  drained : s'.drained = s.drained

theorem Frame.refl (s : St) : Frame s s := ⟨rfl, rfl, rfl, rfl, rfl, rfl, rfl, rfl, rfl, rfl⟩

theorem Frame.trans {s'' : St} (h : Frame s s') (h' : Frame s' s'') : Frame s s'' :=
  ⟨h'.clock.trans h.clock, h'.now.trans h.now, h'.queued.trans h.queued, h'.entry.trans h.entry,
    h'.caller.trans h.caller, h'.inTick.trans h.inTick, h'.ticks.trans h.ticks, h'.asked.trans h.asked,
    h'.timeout.trans h.timeout, h'.drained.trans h.drained⟩

theorem queueInternal_frame (s : St) (id : ℕ) : Frame s (s.queueInternal id) := by
  rcases queueInternal_cases s id with ⟨-, h⟩ | ⟨-, -, h⟩ | ⟨-, -, h⟩ <;> rw [h] <;>
    exact ⟨rfl, rfl, rfl, rfl, rfl, rfl, rfl, rfl, rfl, rfl⟩

theorem foldl_frame (l : List ℕ) (s : St) : Frame s (l.foldl St.queueInternal s) := by
  induction l generalizing s with
  | nil => exact Frame.refl s
  | cons x l ih => exact (queueInternal_frame s x).trans (ih _)

/-- Nothing about the entry `id` has changed. -/
structure Same (id : ℕ) (s s' : St) : Prop where
  refcnt : s'.refcnt id = s.refcnt id
  signals : s'.signals id = s.signals id
  lists : ∀ q, (s'.lists q).count id = (s.lists q).count id

theorem Same.refl (id : ℕ) (s : St) : Same id s s := ⟨rfl, rfl, fun _ => rfl⟩

theorem Same.trans {s'' : St} (h : Same id s s') (h' : Same id s' s'') : Same id s s'' :=
  ⟨h'.refcnt.trans h.refcnt, h'.signals.trans h.signals, fun q => (h'.lists q).trans (h.lists q)⟩

theorem count_append_other {lists : ℕ × ℕ → List ℕ} {q₀ : ℕ × ℕ} (hx : x ≠ id) (q : ℕ × ℕ) :
    (update lists q₀ (lists q₀ ++ [x]) q).count id = (lists q).count id := by
  by_cases hq : q = q₀
  · subst hq
    rw [update_self, List.count_append, List.count_singleton, if_neg (by simpa using hx), Nat.add_zero]
  · rw [update_of_ne hq]

theorem count_insert {lists : ℕ × ℕ → List ℕ} (hl : ∀ q, (lists q).count id = 0) (q₀ q : ℕ × ℕ) :
    (update lists q₀ (lists q₀ ++ [id]) q).count id = if q = q₀ then 1 else 0 := by
  by_cases hq : q = q₀
  · subst hq; rw [if_pos rfl, update_self, List.count_append, hl, List.count_singleton_self]
  · rw [if_neg hq, update_of_ne hq]; exact hl q

theorem queueInternal_other (hx : x ≠ id) : Same id s (s.queueInternal x) := by
  rcases queueInternal_cases s x with ⟨-, h⟩ | ⟨-, -, h⟩ | ⟨-, -, h⟩ <;> rw [h]
  · exact ⟨update_of_ne (Ne.symm hx) _ _, update_of_ne (Ne.symm hx) _ _, fun _ => rfl⟩
  · exact ⟨update_of_ne (Ne.symm hx) _ _, rfl, fun _ => rfl⟩
  · exact ⟨rfl, rfl, fun q => count_append_other hx q⟩

theorem foldl_other {l : List ℕ} (h : id ∉ l) : Same id s (l.foldl St.queueInternal s) := by
  induction l generalizing s with
  | nil => exact Same.refl id s
  | cons x l ih =>
    rw [List.mem_cons, not_or] at h
    exact (queueInternal_other (Ne.symm h.1)).trans (ih h.2)

/-- **An entry that occurs once is treated once.** -/
theorem foldl_once {l : List ℕ} (h : l.count id = 1) :
    ∃ s₁, Frame s s₁ ∧ Same id s s₁ ∧ Same id (s₁.queueInternal id) (l.foldl St.queueInternal s) := by
  obtain ⟨pre, post, rfl⟩ := List.append_of_mem (List.count_pos_iff.1 (by omega : 0 < l.count id))
  rw [List.count_append, List.count_cons_self] at h
  have hpre : id ∉ pre := List.count_eq_zero.1 (by omega)
  have hpost : id ∉ post := List.count_eq_zero.1 (by omega)
  refine ⟨pre.foldl St.queueInternal s, foldl_frame pre s, foldl_other hpre, ?_⟩
  rw [List.foldl_append, List.foldl_cons]
  exact foldl_other hpost

/-- What `flush` does to an entry that is in no slot. -/
theorem flush_none (qs : List (ℕ × ℕ)) {lists : ℕ × ℕ → List ℕ} (h : ∀ q, (lists q).count id = 0) :
    (flush qs lists).2.count id = 0 ∧ ∀ q, ((flush qs lists).1 q).count id = 0 := by
  induction qs generalizing lists with
  | nil => exact ⟨rfl, h⟩
  | cons p qs ih =>
    have h' : ∀ q, (update lists p [] q).count id = 0 := by
      intro q
      by_cases hq : q = p
      · subst hq; simp
      · rw [update_of_ne hq]; exact h q
    obtain ⟨h1, h2⟩ := ih h'
    exact ⟨by simp only [flush, List.count_append, h p, h1], h2⟩

/-- **What `flush` does to an entry in slot `q₀`**: it takes it out if the slot is among those it empties. -/
theorem flush_count (qs : List (ℕ × ℕ)) {lists : ℕ × ℕ → List ℕ} {q₀ : ℕ × ℕ}
    (h : ∀ q, (lists q).count id = if q = q₀ then 1 else 0) :
    if q₀ ∈ qs then (flush qs lists).2.count id = 1 ∧ ∀ q, ((flush qs lists).1 q).count id = 0
    else (flush qs lists).2.count id = 0 ∧ ∀ q, ((flush qs lists).1 q).count id = if q = q₀ then 1 else 0 := by
  induction qs generalizing lists with
  | nil => exact ⟨rfl, h⟩
  | cons p qs ih =>
    by_cases hp : p = q₀
    · subst hp
      have h' : ∀ q, (update lists p [] q).count id = 0 := by
        intro q
        by_cases hq : q = p
        · subst hq; simp
        · rw [update_of_ne hq, h q, if_neg hq]
      obtain ⟨h1, h2⟩ := flush_none qs h'
      rw [if_pos List.mem_cons_self]
      exact ⟨by simp only [flush, List.count_append, h p, h1, if_true], h2⟩
    · have h' : ∀ q, (update lists p [] q).count id = if q = q₀ then 1 else 0 := by
        intro q
        by_cases hq : q = p
        · subst hq; simp [hp]
        · rw [update_of_ne hq]; exact h q
      have hih := ih h'
      have hmem : q₀ ∈ p :: qs ↔ q₀ ∈ qs := by simp [Ne.symm hp]
      have hz : (lists p).count id = 0 := by rw [h p, if_neg hp]
      simp only [hmem, flush, List.count_append, hz, Nat.zero_add]
      exact hih

/-! ## `prs_timer_queue_internal` -/

/-- **An entry whose deadline is now is signaled** and loses the reference of the tick. -/
theorem queueInternal_due (h : s.delay id = 0) :
    (s.queueInternal id).signals id = s.signals id ++ [s.ticks] ∧
      (s.queueInternal id).refcnt id = s.refcnt id - 1 ∧ (s.queueInternal id).lists = s.lists := by
  rcases queueInternal_cases s id with ⟨-, hq⟩ | ⟨hd, -⟩ | ⟨hd, -⟩
  · rw [hq]; exact ⟨update_self _ _ _, update_self _ _ _, rfl⟩
  · exact absurd h hd
  · exact absurd h hd

/-- An entry whose deadline is not now is not signaled. -/
theorem queueInternal_not_due (h : s.delay id ≠ 0) : (s.queueInternal id).signals = s.signals := by
  rcases queueInternal_cases s id with ⟨hd, -⟩ | ⟨-, -, hq⟩ | ⟨-, -, hq⟩
  · exact absurd hd h
  · rw [hq]; rfl
  · rw [hq]; rfl

theorem wheelOf_eq (d : ℕ) (hd : d ≠ 0) : wheelOf (d : ℤ) = Nat.log 256 d := by
  have h8 := log2_div_eight d
  rw [wheelOf, Int.toNat_natCast, hsb, if_neg hd]
  omega

theorem delay_eq {n e : ℕ} (hnow : s.now = n % 2 ^ 32) (hdl : (s.entry id).deadline = e % 2 ^ 32) (h1 : n ≤ e)
    (h2 : e < n + 2 ^ 32) : s.delay id = ((e - n : ℕ) : ℤ) := by
  rw [St.delay, hnow, hdl, sub32_eq h1 h2]

/-- **An entry that is not due goes to the wheel of its distance**, in the slot of its deadline. -/
theorem queueInternal_deadline {n e : ℕ} (hnow : s.now = n % 2 ^ 32) (hdl : (s.entry id).deadline = e % 2 ^ 32)
    (h1 : n < e) (h2 : e < n + 2 ^ 32) (hr : s.refcnt id ≠ 1) (hl : ∀ q, (s.lists q).count id = 0) :
    Nat.log 256 (e - n) < 4 ∧ (s.queueInternal id).refcnt id = s.refcnt id ∧
      ∀ q, ((s.queueInternal id).lists q).count id =
        if q = (Nat.log 256 (e - n), Wheel.slot 256 (Nat.log 256 (e - n)) e) then 1 else 0 := by
  have hd := delay_eq hnow hdl h1.le h2
  have hlt : Nat.log 256 (e - n) < 4 := Nat.log_lt_of_lt_pow (by omega) (by omega)
  have hq : s.queueInternal id = s.insert id (Nat.log 256 (e - n)) (Wheel.slot 256 (Nat.log 256 (e - n)) e) := by
    rcases queueInternal_cases s id with ⟨h0, -⟩ | ⟨-, h0, -⟩ | ⟨-, -, hq⟩
    · omega
    · exact absurd h0 hr
    · rw [hq, hd, wheelOf_eq _ (by omega), hdl, slot_eq e hlt]
  rw [hq]
  exact ⟨hlt, rfl, fun q => count_insert hl _ q⟩

/-! ## `prs_timer_tick` -/

/-- Where an entry is. -/
inductive Place
  | out | queue | slot (q : ℕ × ℕ)
  deriving DecidableEq

/-- The entry is at `p`, once, and nowhere else. -/
structure At (s : St) (id : ℕ) (p : Place) : Prop where
  queue : s.queued.count id = if p = .queue then 1 else 0
  slot : ∀ q, (s.lists q).count id = if p = .slot q then 1 else 0

theorem At.lists_zero {p : Place} (h : At s id p) (hp : ∀ q, p ≠ .slot q) (q : ℕ × ℕ) :
    (s.lists q).count id = 0 := by
  rw [h.slot q, if_neg (hp q)]

theorem tickWheels_frame (s : St) : Frame s s.tickWheels := by
  have h := foldl_frame (flush (tickSlots s.now s.clock) s.lists).2
    { s with lists := (flush (tickSlots s.now s.clock) s.lists).1 }
  exact ⟨h.clock, h.now, h.queued, h.entry, h.caller, h.inTick, h.ticks, h.asked, h.timeout, h.drained⟩

/-- The state in which a tick drains `timer->queued`. -/
def St.draining (s : St) : St :=
  { s with
    now := s.clock, queued := [], inTick := false
    drained := fun id => if id ∈ s.queued then some s.ticks else s.drained id }

theorem tickQueued_frame (s : St) : Frame s.draining s.tickQueued := foldl_frame s.queued s.draining

/-- An entry that is in no slot is not touched by the first half of a tick. -/
theorem tickWheels_none (h : ∀ q, (s.lists q).count id = 0) : Same id s s.tickWheels := by
  obtain ⟨h1, h2⟩ := flush_none (tickSlots s.now s.clock) h
  have h3 := foldl_other (s := { s with lists := (flush (tickSlots s.now s.clock) s.lists).1 })
    (List.count_eq_zero.1 h1)
  exact ⟨h3.refcnt, h3.signals, fun q => (h3.lists q).trans ((h2 q).trans (h q).symm)⟩

/-- An entry in a slot that does not come up is not touched either. -/
theorem tickWheels_keep {q₀ : ℕ × ℕ} (h : ∀ q, (s.lists q).count id = if q = q₀ then 1 else 0)
    (hq : q₀ ∉ tickSlots s.now s.clock) : Same id s s.tickWheels := by
  have hf := flush_count (tickSlots s.now s.clock) h
  rw [if_neg hq] at hf
  have h3 := foldl_other (s := { s with lists := (flush (tickSlots s.now s.clock) s.lists).1 })
    (List.count_eq_zero.1 hf.1)
  exact ⟨h3.refcnt, h3.signals, fun q => (h3.lists q).trans ((hf.2 q).trans (h q).symm)⟩

/-- **An entry in a slot that comes up is queued again**, in a state that agrees on it with the one before. -/
theorem tickWheels_take {q₀ : ℕ × ℕ} (h : ∀ q, (s.lists q).count id = if q = q₀ then 1 else 0)
    (hq : q₀ ∈ tickSlots s.now s.clock) :
    ∃ s₁, Frame s s₁ ∧ s₁.refcnt id = s.refcnt id ∧ s₁.signals id = s.signals id ∧
      (∀ q, (s₁.lists q).count id = 0) ∧ Same id (s₁.queueInternal id) s.tickWheels := by
  have hf := flush_count (tickSlots s.now s.clock) h
  rw [if_pos hq] at hf
  obtain ⟨s₁, hs, hsame, hrest⟩ := foldl_once
    (s := { s with lists := (flush (tickSlots s.now s.clock) s.lists).1 }) hf.1
  exact ⟨s₁, ⟨hs.clock, hs.now, hs.queued, hs.entry, hs.caller, hs.inTick, hs.ticks, hs.asked, hs.timeout,
    hs.drained⟩, hsame.refcnt, hsame.signals, fun q => (hsame.lists q).trans (hf.2 q), hrest⟩

theorem tickQueued_other (h : id ∉ s.queued) : Same id s s.tickQueued := by
  have h1 := foldl_other (s := s.draining) h
  exact ⟨h1.refcnt, h1.signals, h1.lists⟩

/-- **An entry of `timer->queued` is queued at the new time.** -/
theorem tickQueued_take (h : s.queued.count id = 1) (hl : ∀ q, (s.lists q).count id = 0) :
    ∃ s₁, Frame s.draining s₁ ∧ s₁.refcnt id = s.refcnt id ∧ s₁.signals id = s.signals id ∧
      (∀ q, (s₁.lists q).count id = 0) ∧ Same id (s₁.queueInternal id) s.tickQueued := by
  obtain ⟨s₁, hs, hsame, hrest⟩ := foldl_once (s := s.draining) h
  exact ⟨s₁, hs, hsame.refcnt, hsame.signals, fun q => (hsame.lists q).trans (hl q), hrest⟩

end Prs.Timer
