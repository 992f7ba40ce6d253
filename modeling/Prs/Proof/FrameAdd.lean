import Prs.Proof.FrameLayout

/-!
# Adding a call frame

* `isTop`: the two corrections of the alignment together.
* `addInternal_eq`: the memory and the registers that `addInternal` makes, and the one assertion that is in doubt.
* `framed`: what it makes is a call frame, whatever the assertions say.
* `misses_iff`: when the assertion of the second alignment fails. It is for a fresh context with a top of the
  stack that is not a multiple of 16, and an even number of arguments on the stack.
* `framed_iff`: a call frame is made exactly when that is not so, or assertions are off.
* `make_framed`: it is never so for a stack whose top is a multiple of 16.
-/

namespace Prs.Frame

open Function

variable {L : Layout} {assertions : Bool} {trampoline function sp a : Word} {args : List Word} {mem : Word → Word}
  {m : Memory} {c : Context} {t : Top} {r : Result} {reg : Reg} {i k argc : ℕ}

/-- What may not be written under the top of a stack. -/
def redZone (c : Context) : ℕ := if c.greg .rip = 0 then 0 else 128

/-- A call frame on a saved context. -/
structure Framed (L : Layout) (trampoline function : Word) (args : List Word) (c : Context) (r : Result) :
    Prop where
  rip : r.context.greg .rip = function
  aligned : (r.context.greg .rsp).toNat % 16 = 8
  ret : r.mem.get (r.context.greg .rsp) = if c.greg .rip = 0 then 0 else trampoline
  reg_args : ∀ i (h : i < args.length) reg, argReg i = some reg → r.context.greg reg = args[i]
  stack_args : ∀ i (h : i < args.length), 6 ≤ i → r.mem.get (slot (r.context.greg .rsp) (i - 6 + 1)) = args[i]
  kept : ∀ reg, reg ≠ .rip → reg ≠ .rsp → reg ≠ .rbp → (∀ i < args.length, argReg i ≠ some reg) →
    r.context.greg reg = c.greg reg
  saved : c.greg .rip ≠ 0 → Saved L c r.mem (r.context.greg .rbp + 16)
  last : r.last = c.greg .rsp
  /-- Each word that is written is above the new top of the stack, and under the old one and its red zone. -/
  written : ∀ a ∈ r.mem.written, ∃ d, redZone c + 8 ≤ d ∧ d ≤ (c.greg .rsp - r.context.greg .rsp).toNat ∧
    a = c.greg .rsp - BitVec.ofNat 64 d
  /-- So its bytes have lower addresses, where the stack does not wrap. -/
  below : r.context.greg .rsp ≤ c.greg .rsp → ∀ a ∈ r.mem.written, a.toNat + 8 + redZone c ≤ (c.greg .rsp).toNat

section Top

/-- The words of a frame under the saved context. -/
def frameWords (argc : ℕ) (t : Top) : ℕ := argc - 6 + 3 + t.frameAlign.toNat

/-- The words from a saved context on, to the old top of the stack. -/
def contextWords (L : Layout) (c : Context) (t : Top) : ℕ :=
  if c.greg .rip = 0 then 0 else L.size / 8 + 16 + t.contextAlign.toNat

structure IsTop (L : Layout) (c : Context) (argc : ℕ) (t : Top) : Prop where
  aligned : t.sp.toNat % 16 = 8
  rsp : c.greg .rsp = slot t.sp (frameWords argc t + contextWords L c t)
  fresh : c.greg .rip = 0 → t.contextAlign = false
  saved : c.greg .rip ≠ 0 → (slot t.sp (frameWords argc t)).toNat % 16 = 0

/-- **The new top of the stack.** -/
theorem isTop (L : Layout) (argc : ℕ) (h8 : (c.greg .rsp).toNat % 8 = 0) : IsTop L c argc (top L c argc) := by
  have hargc : (if 6 < argc then argc - 6 else 0) = argc - 6 := by
    split <;> omega
  unfold top
  dsimp only
  rw [hargc]
  by_cases hrip : c.greg .rip = 0
  · -- a fresh context: the frame is right under the old top of the stack
    rw [if_neg (not_not_intro hrip)]
    obtain ⟨h16, hb⟩ := top_frame (n := argc - 6) h8 rfl rfl
    refine ⟨h16, ?_, fun _ => rfl, fun h => absurd hrip h⟩
    rw [contextWords, if_pos hrip]
    exact hb
  · -- the frame is under the copy of the context, whose address is a multiple of 16
    rw [if_pos hrip]
    obtain ⟨h16, ha⟩ := top_context L h8 rfl rfl
    have hdvd := (by decide : 8 ∣ 16).trans (Nat.dvd_of_mod_eq_zero h16)
    obtain ⟨hsp, hb⟩ := top_frame (n := argc - 6) (Nat.mod_eq_zero_of_dvd hdvd) rfl rfl
    refine ⟨hsp, ?_, fun h => absurd h hrip, fun _ => ?_⟩
    · rw [contextWords, if_neg hrip, ← slot_slot]
      conv_lhs => rw [ha, hb]
      rfl
    · dsimp only [frameWords]
      rw [← hb]
      exact h16

theorem toNat_slot_mod (a : Word) (i : ℕ) : (slot a i).toNat % 16 = (a.toNat + 8 * i) % 16 := by
  unfold slot
  rw [BitVec.toNat_add, BitVec.toNat_ofNat]
  omega

/-- The assertion of the second alignment fails. -/
def Misses (c : Context) (argc : ℕ) : Prop :=
  c.greg .rip = 0 ∧ (c.greg .rsp).toNat % 16 = 8 ∧ (argc - 6) % 2 = 0

/-- **When the assertion of the second alignment fails.** -/
theorem misses_iff (ht : IsTop L c argc t) (h8 : (c.greg .rsp).toNat % 8 = 0) :
    ¬ (t.frameAlign = true → slot t.sp (argc - 6 + 1) &&& 0xF ≠ 0) ↔ Misses c argc := by
  have h16 := ht.aligned
  have hs := toNat_slot_mod t.sp (argc - 6 + 1)
  have hf := toNat_slot_mod t.sp (frameWords argc t)
  rw [Classical.not_imp, not_not, and_15_eq_zero, hs]
  unfold frameWords at hf
  by_cases hrip : c.greg .rip = 0
  · have hrsp := ht.rsp
    rw [contextWords, if_pos hrip, Nat.add_zero, frameWords] at hrsp
    rw [← hrsp] at hf
    -- the old top of the stack and the number of words under it decide if there is a word for the alignment
    cases ha : t.frameAlign with
    | true =>
      rw [ha, Bool.toNat_true] at hf
      constructor
      · rintro ⟨-, hz⟩
        exact ⟨hrip, by omega, by omega⟩
      · rintro ⟨-, hmod, heven⟩
        exact ⟨rfl, by omega⟩
    | false =>
      rw [ha, Bool.toNat_false] at hf
      constructor
      · rintro ⟨h, -⟩
        cases h
      · rintro ⟨-, hmod, heven⟩
        omega
  · -- the copy is at a multiple of 16, and three words above the place in question
    have hsaved := ht.saved hrip
    rw [frameWords] at hsaved
    rw [hsaved] at hf
    constructor
    · rintro ⟨ha, hz⟩
      rw [ha, Bool.toNat_true] at hf
      omega
    · rintro ⟨h, -⟩
      exact absurd h hrip

end Top

section Add

@[simp] theorem check_of {p : Prop} [Decidable p] (h : p) : check assertions p = some () := by
  unfold check
  rw [decide_eq_true h, Bool.not_true, Bool.and_false, if_neg Bool.false_ne_true]

/-- A failed assertion. -/
theorem check_of_not {p : Prop} [Decidable p] (h : ¬ p) :
    check assertions p = if assertions then none else some () := by
  unfold check
  rw [decide_eq_false h, Bool.not_false, Bool.and_true]

/-- The return address, and the arguments behind it. -/
def pushArgs (trampoline : Word) (args : List Word) (m : Memory) (c : Context) (sp : Word) :
    (Reg → Word) × Memory × Word :=
  fillArgs 0 args c.greg (m.set sp (if c.greg .rip ≠ 0 then trampoline else 0)) (slot sp 1)

/-- The frame under a saved context. -/
def pushFrame (trampoline : Word) (args : List Word) (m : Memory) (c : Context) (t : Top) : Memory :=
  let n := args.length - 6 + 1 + t.frameAlign.toNat
  ((pushArgs trampoline args m c t.sp).2.1.set (slot t.sp n) (c.greg .rbp)).set (slot t.sp (n + 1)) (c.greg .rip)

/-- A frame, and the saved context above it. -/
def push (L : Layout) (trampoline : Word) (args : List Word) (m : Memory) (c : Context) (t : Top) : Memory :=
  let m := pushFrame trampoline args m c t
  if c.greg .rip ≠ 0 then saveContext L m (slot t.sp (frameWords args.length t)) c else m

/-- What `addInternal` returns. -/
def pushed (L : Layout) (trampoline function : Word) (args : List Word) (m : Memory) (c : Context) (t : Top) :
    Result :=
  let newRbp := slot t.sp (args.length - 6 + 1 + t.frameAlign.toNat)
  let new := (pushArgs trampoline args m c t.sp).1
  ⟨push L trampoline args m c t,
    { c with greg := update (update (update new .rip function) .rbp newRbp) .rsp t.sp },
    c.greg .rsp⟩

theorem ite_slot (a : Word) (i : ℕ) (b : Bool) :
    (if b = true then slot a i + 8 else slot a i) = slot a (i + b.toNat) := by
  cases b with
  | true => exact slot_add_eight a i
  | false => rfl

/-- **All assertions but one hold.** -/
theorem addInternal_eq (hf : function ≠ 0) (ht : IsTop L c args.length (top L c args.length)) :
    addInternal L assertions trampoline function args m c =
      (check assertions ((top L c args.length).frameAlign = true →
        slot (top L c args.length).sp (args.length - 6 + 1) &&& 0xF ≠ 0)).map fun _ =>
          pushed L trampoline function args m c (top L c args.length) := by
  obtain ⟨t, htop⟩ : ∃ t, t = top L c args.length := ⟨_, rfl⟩
  rw [← htop] at ht ⊢
  have hpsp : (pushArgs trampoline args m c t.sp).2.2 = slot t.sp (args.length - 6 + 1) := by
    rw [pushArgs, (fillArgs_within 0 args c.greg _ (slot t.sp 1)).1, slot_slot, Nat.add_comm]
  have h16 : t.sp &&& 0xF ≠ 0 := by
    rw [Ne, and_15_eq_zero, ht.aligned]
    decide
  have hfill : fillArgs 0 args c.greg (m.set t.sp (if c.greg .rip ≠ 0 then trampoline else 0)) (t.sp + 8) =
      pushArgs trampoline args m c t.sp := rfl
  unfold addInternal
  rw [check_of hf, ← htop]
  dsimp only [Option.bind_eq_bind, Option.bind_some]
  rw [check_of h16]
  dsimp only [Option.bind_some]
  simp only [hfill, hpsp, ite_slot]
  simp only [slot_add_eight]
  have hwords : args.length - 6 + 1 + t.frameAlign.toNat + 1 + 1 = frameWords args.length t := by
    unfold frameWords
    omega
  rw [hwords]
  unfold pushed push pushFrame
  by_cases hrip : c.greg .rip = 0
  · -- there is no copy, and no second correction
    have hlast : slot t.sp (frameWords args.length t) = c.greg .rsp := by
      rw [ht.rsp, contextWords, if_pos hrip, Nat.add_zero]
    simp only [ht.fresh hrip, if_neg (not_not_intro hrip), if_neg Bool.false_ne_true, hlast]
    rw [check_of trivial, Option.map_eq_bind]
    rfl
  · have hcopy : slot t.sp (frameWords args.length t) + BitVec.ofNat 64 (L.size / 8) * 8 + redZoneSize =
        slot t.sp (frameWords args.length t + (L.size / 8 + 16)) := by
      have hw : BitVec.ofNat 64 (L.size / 8) * 8 = BitVec.ofNat 64 (8 * (L.size / 8)) := by
        rw [Nat.mul_comm, BitVec.ofNat_mul]
        rfl
      rw [hw, ← slot_slot, ← slot_slot]
      rfl
    have hlast : (if t.contextAlign = true then slot t.sp (frameWords args.length t + (L.size / 8 + 16)) + 8
        else slot t.sp (frameWords args.length t + (L.size / 8 + 16))) = c.greg .rsp := by
      rw [ite_slot, ht.rsp, contextWords, if_neg hrip, Nat.add_assoc]
    simp only [if_pos hrip, hcopy, hlast]
    rw [check_of trivial, Option.map_eq_bind]
    rfl

end Add

section Written

theorem contextWords_le (L : Layout) (c : Context) (t : Top) : contextWords L c t ≤ L.size / 8 + 17 := by
  have hle := Bool.toNat_le t.contextAlign
  unfold contextWords
  split <;> omega

theorem frameWords_le (argc : ℕ) (t : Top) : frameWords argc t ≤ argc + 4 := by
  have hle := Bool.toNat_le t.frameAlign
  unfold frameWords
  omega

theorem pushArgs_within (trampoline : Word) (args : List Word) (m : Memory) (c : Context) (sp : Word) :
    Cells.Within (Area sp 0 (args.length - 6 + 1)) m (pushArgs trampoline args m c sp).2.1 := by
  have hset : Cells.Within (Area sp 0 (args.length - 6 + 1)) m
      (m.set sp (if c.greg .rip ≠ 0 then trampoline else 0)) := by
    apply Cells.Within.set
    exact ⟨0, Nat.le_refl 0, Nat.succ_pos _, (slot_zero sp).symm⟩
  apply hset.trans
  apply (fillArgs_within 0 args c.greg _ (slot sp 1)).2.mono
  exact area_slot (Nat.zero_le 1) (Nat.add_comm .. |>.le)

/-- The return address stays on the top. -/
theorem pushArgs_ret (hargs : args.length < 2 ^ 31) :
    (pushArgs trampoline args m c sp).2.1.get sp = if c.greg .rip = 0 then 0 else trampoline := by
  have hw := (fillArgs_within 0 args c.greg (m.set sp (if c.greg .rip ≠ 0 then trampoline else 0))
    (slot sp 1)).2.mono
    (area_slot (Nat.le_refl 1) (Nat.le_refl _))
  have hout : sp ∉ Area sp 1 (1 + (args.length - (6 - 0))) := by
    have h0 : slot sp 0 ∉ Area sp 1 (1 + (args.length - (6 - 0))) :=
      slot_notMem_area (by omega) (by omega) (.inl Nat.one_pos)
    rwa [slot_zero] at h0
  rw [pushArgs, hw.get_eq sp hout, Cells.get_set_self, ite_not]

/-- An argument on the stack is above the return address. -/
theorem pushArgs_get (hi : i < args.length) (h6 : 6 ≤ i) (hargs : args.length < 2 ^ 61) :
    (pushArgs trampoline args m c sp).2.1.get (slot sp (i - 6 + 1)) = args[i] := by
  have hidx : i - 6 + (6 - 0) = i := by omega
  have hget : (pushArgs trampoline args m c sp).2.1.get (slot (slot sp 1) (i - 6)) = args[i - 6 + (6 - 0)] :=
    fillArgs_get hargs (by omega)
  rw [slot_slot, Nat.add_comm 1] at hget
  simp only [hidx] at hget
  exact hget

theorem pushFrame_within (trampoline : Word) (args : List Word) (m : Memory) (c : Context) (t : Top) :
    Cells.Within (Area t.sp 0 (frameWords args.length t)) m (pushFrame trampoline args m c t) := by
  have hargs := (pushArgs_within trampoline args m c t.sp).mono
    (area_mono (Nat.le_refl 0) (by unfold frameWords; omega : _ ≤ frameWords args.length t))
  apply hargs.trans
  apply (Cells.Within.set _ (c.greg .rbp) ?_).trans
  · apply Cells.Within.set
    apply slot_mem_area (Nat.zero_le _)
    unfold frameWords
    omega
  · apply slot_mem_area (Nat.zero_le _)
    unfold frameWords
    omega

/-- The return address and the arguments are not written again. -/
theorem pushFrame_get (hargs : args.length < 2 ^ 31) (hk : k < args.length - 6 + 1) :
    (pushFrame trampoline args m c t).get (slot t.sp k) = (pushArgs trampoline args m c t.sp).2.1.get
    (slot t.sp k) := by
  have hle := Bool.toNat_le t.frameAlign
  unfold pushFrame
  dsimp only
  rw [Cells.get_set_of_ne _ _ (slot_ne (by omega) (by omega) (by omega)),
    Cells.get_set_of_ne _ _ (slot_ne (by omega) (by omega) (by omega))]

/-- Nor is the frame, by the copy of the context. -/
theorem push_get (hargs : args.length < 2 ^ 31) (hk : k < frameWords args.length t) :
    (push L trampoline args m c t).get (slot t.sp k) = (pushFrame trampoline args m c t).get (slot t.sp k) := by
  have hlt := L.size_lt
  have hframe := frameWords_le args.length t
  unfold push
  dsimp only
  by_cases hrip : c.greg .rip ≠ 0
  · rw [if_pos hrip]
    have hw := saveContext_within L (pushFrame trampoline args m c t) (slot t.sp (frameWords args.length t)) c
    replace hw := hw.mono (area_slot (Nat.le_refl _) (Nat.le_refl _))
    apply hw.get_eq
    exact slot_notMem_area (by omega) (by omega) (.inl hk)
  · rw [if_neg hrip]

theorem push_within (L : Layout) (trampoline : Word) (args : List Word) (m : Memory) (c : Context) (t : Top) :
    Cells.Within (Area t.sp 0 (frameWords args.length t + if c.greg .rip = 0 then 0 else L.size / 8)) m
      (push L trampoline args m c t) := by
  have hframe := (pushFrame_within trampoline args m c t).mono (area_mono (Nat.le_refl 0)
    (Nat.le_add_right (frameWords args.length t) (if c.greg .rip = 0 then 0 else L.size / 8)))
  unfold push
  dsimp only
  by_cases hrip : c.greg .rip = 0
  · rw [if_neg (not_not_intro hrip)]
    exact hframe
  · apply hframe.trans
    rw [if_pos hrip, if_neg hrip]
    apply (saveContext_within L _ (slot t.sp (frameWords args.length t)) c).mono
    exact area_slot (Nat.zero_le _) (Nat.le_refl _)

/-- **How far under the old top of the stack** a word of an area is. -/
theorem area_below {x rsp : Word} {lo hi total : ℕ} (hx : x ∈ Area sp lo hi) (hrsp : rsp = slot sp total)
    (hhi : hi ≤ total) (ht : total < 2 ^ 61) :
    ∃ d, 8 * (total - hi) + 8 ≤ d ∧ d ≤ (rsp - sp).toNat ∧ x = rsp - BitVec.ofNat 64 d := by
  obtain ⟨k, -, hk, rfl⟩ := hx
  refine ⟨8 * (total - k), by omega, ?_, ?_⟩
  · rw [hrsp, slot, BitVec.add_comm, BitVec.add_sub_cancel, BitVec.toNat_ofNat, Nat.mod_eq_of_lt (by omega)]
    omega
  · have hsum : slot sp total = slot sp k + BitVec.ofNat 64 (8 * (total - k)) := by
      have hadd := slot_slot sp k (total - k)
      rw [Nat.add_sub_cancel' (by omega)] at hadd
      exact hadd.symm
    rw [hrsp, hsum, BitVec.add_sub_cancel]

end Written

section Framed

/-- What is written is under the old top of the stack, and its red zone. -/
theorem push_written (ht : IsTop L c args.length t) (hargs : args.length < 2 ^ 31)
    (ha : a ∈ (push L trampoline args (Cells.start mem) c t).written) :
    ∃ d, redZone c + 8 ≤ d ∧ d ≤ (c.greg .rsp - t.sp).toNat ∧ a = c.greg .rsp - BitVec.ofNat 64 d := by
  have hlt := L.size_lt
  have hframe := frameWords_le args.length t
  have hctx := contextWords_le L c t
  have harea := (push_within L trampoline args (Cells.start mem) c t).mem ha
  have hhi : (frameWords args.length t + if c.greg .rip = 0 then 0 else L.size / 8) ≤
      frameWords args.length t + contextWords L c t := by
    unfold contextWords
    split <;> omega
  obtain ⟨d, hd, hd', he⟩ := area_below harea ht.rsp hhi (by omega)
  refine ⟨d, ?_, hd', he⟩
  -- above the copy of a context there is the red zone, and the correction of its alignment
  unfold redZone
  unfold contextWords at hd
  by_cases hrip : c.greg .rip = 0
  · rw [if_pos hrip] at hd ⊢
    omega
  · rw [if_neg hrip, if_neg hrip] at hd
    rw [if_neg hrip]
    omega

/-- The distance from the top of a stack that does not wrap, as an address. -/
theorem toNat_sub_ofNat {rsp : Word} {d n : ℕ} (hle : sp ≤ rsp) (hd : n + 8 ≤ d) (hd' : d ≤ (rsp - sp).toNat) :
    (rsp - BitVec.ofNat 64 d).toNat + 8 + n ≤ rsp.toNat := by
  rw [BitVec.toNat_sub_of_le hle] at hd'
  have hd64 : (BitVec.ofNat 64 d).toNat = d := by
    rw [BitVec.toNat_ofNat]
    omega
  have hsub : BitVec.ofNat 64 d ≤ rsp := by
    rw [BitVec.le_def, hd64]
    omega
  rw [BitVec.toNat_sub_of_le hsub, hd64]
  omega

theorem push_get_args (hargs : args.length < 2 ^ 31) (hk : k < args.length - 6 + 1) :
    (push L trampoline args m c t).get (slot t.sp k) = (pushArgs trampoline args m c t.sp).2.1.get
    (slot t.sp k) := by
  have hwords : args.length - 6 + 3 ≤ frameWords args.length t := Nat.le_add_right ..
  rw [push_get hargs (by omega), pushFrame_get hargs hk]

theorem pushed_rsp : (pushed L trampoline function args m c t).context.greg .rsp = t.sp := by
  unfold pushed
  dsimp only
  rw [update_self]

/-- The copy of a context is 16 bytes above the saved `rbp`. -/
theorem pushed_rbp :
    (pushed L trampoline function args m c t).context.greg .rbp + 16 = slot t.sp (frameWords args.length t) := by
  have hadd := slot_slot t.sp (args.length - 6 + 1 + t.frameAlign.toNat) 2
  have hidx : args.length - 6 + 1 + t.frameAlign.toNat + 2 = frameWords args.length t := by
    unfold frameWords
    omega
  rw [hidx] at hadd
  unfold pushed
  dsimp only
  rw [update_of_ne (by decide), update_self]
  exact hadd

theorem pushed_reg (h1 : reg ≠ .rip) (h2 : reg ≠ .rsp) (h3 : reg ≠ .rbp) :
    (pushed L trampoline function args m c t).context.greg reg = (pushArgs trampoline args m c t.sp).1 reg := by
  unfold pushed
  dsimp only
  rw [update_of_ne h2, update_of_ne h3, update_of_ne h1]

/-- **What is made is a call frame.** -/
theorem framed (ht : IsTop L c args.length t) (hargs : args.length < 2 ^ 31) :
    Framed L trampoline function args c (pushed L trampoline function args (Cells.start mem) c t) where
  rip := by
    unfold pushed
    dsimp only
    rw [update_of_ne (by decide), update_of_ne (by decide), update_self]
  aligned := by rw [pushed_rsp, ht.aligned]
  ret := by
    have h0 : (push L trampoline args (Cells.start mem) c t).get (slot t.sp 0) = _ := push_get_args hargs
      (Nat.succ_pos _)
    rw [slot_zero] at h0
    rw [pushed_rsp]
    exact h0.trans (pushArgs_ret hargs)
  reg_args := by
    intro i hi reg hr
    obtain ⟨h1, h2, h3⟩ := argReg_ne hr
    rw [pushed_reg h1 h2 h3]
    apply fillArgs_reg hi
    rwa [Nat.zero_add]
  stack_args := by
    intro i hi h6
    rw [pushed_rsp]
    exact (push_get_args hargs (by omega)).trans (pushArgs_get hi h6 (by omega))
  kept := by
    intro reg h1 h2 h3 hkept
    rw [pushed_reg h1 h2 h3]
    apply fillArgs_other
    intro j _ hj
    exact hkept j (by omega)
  saved := by
    intro hrip
    rw [pushed_rbp]
    unfold pushed push
    dsimp only
    rw [if_pos hrip]
    exact saveContext_saved (ht.saved hrip)
  last := rfl
  written := by
    rw [pushed_rsp]
    intro a ha
    exact push_written ht hargs ha
  below := by
    rw [pushed_rsp]
    intro hle a ha
    obtain ⟨d, hd, hd', rfl⟩ := push_written ht hargs ha
    exact toNat_sub_ofNat hle hd hd'

/-- **When a frame is made.** -/
theorem addInternal_some (hf : function ≠ 0) (h8 : (c.greg .rsp).toNat % 8 = 0)
    (h : assertions = true → ¬ Misses c args.length) :
    addInternal L assertions trampoline function args m c =
      some (pushed L trampoline function args m c (top L c args.length)) := by
  have ht := isTop L args.length h8
  have hmiss := misses_iff ht h8
  rw [addInternal_eq hf ht]
  cases assertions with
  | true => rw [check_of (not_not.1 (mt hmiss.1 (h rfl))), Option.map_some]
  | false => rfl

/-- A frame that misses the alignment is not made. -/
theorem addInternal_none (hf : function ≠ 0) (h8 : (c.greg .rsp).toNat % 8 = 0) (h : Misses c args.length) :
    addInternal L true trampoline function args m c = none := by
  have ht := isTop L args.length h8
  rw [addInternal_eq hf ht, check_of_not ((misses_iff ht h8).2 h), if_pos rfl, Option.map_none]

/-- **A call frame is made exactly when the alignment is not missed, or assertions are off.** -/
theorem framed_iff (L : Layout) (assertions : Bool) (trampoline function : Word) (args : List Word)
    (mem : Word → Word) (c : Context) (hf : function ≠ 0) (h8 : (c.greg .rsp).toNat % 8 = 0)
    (hargs : args.length < 2 ^ 31) :
    (∃ r, addInternal L assertions trampoline function args (Cells.start mem) c = some r ∧
      Framed L trampoline function args c r) ↔ ¬ (assertions = true ∧ Misses c args.length) := by
  constructor
  · rintro ⟨r, hr, -⟩ ⟨rfl, hmiss⟩
    rw [addInternal_none hf h8 hmiss] at hr
    cases hr
  · intro h
    exact ⟨_, addInternal_some hf h8 fun ha hm => h ⟨ha, hm⟩, framed (isTop L args.length h8) hargs⟩

/-- Three words of registers, and two of floating point state. -/
def smallLayout : Layout where
  words := 3
  field := fun i => if i = 0 then .greg .rip else if i = 1 then .greg .rdi else .fpregs
  fpregs := 2
  field_fpregs := rfl
  fpOffset := 4
  fpWords := 2
  size := 48
  fpregs_lt := by decide
  words_le := by decide
  fpstate_le := by decide
  aligned := by decide
  size_lt := by decide

/-- A context, with its top of the stack. -/
def contextAt (rip rsp : Word) : Context where
  greg := update (update (fun _ => 7) .rip rip) .rsp rsp
  fpregs := 0x9000
  other := fun _ => 0
  fpstate := fun i => BitVec.ofNat 64 i

/-- An interrupted context. -/
theorem framed_iff_interrupted :
    (∃ r, addInternal smallLayout true 0x400 0x500 [1, 2, 3, 4, 5, 6, 7] (Cells.start fun _ => 0)
        (contextAt 0x600 0x8008) = some r ∧
      Framed smallLayout 0x400 0x500 [1, 2, 3, 4, 5, 6, 7] (contextAt 0x600 0x8008) r) ↔
    ¬ (true = true ∧ Misses (contextAt 0x600 0x8008) 7) :=
  framed_iff smallLayout true 0x400 0x500 [1, 2, 3, 4, 5, 6, 7] (fun _ => 0) (contextAt 0x600 0x8008) (by decide)
    (by decide) (by decide)

/-- A fresh context whose top of the stack is not a multiple of 16. -/
theorem frame_misses :
    ¬ (∀ (L : Layout) (assertions : Bool) (trampoline function : Word) (args : List Word) (mem : Word → Word)
      (c : Context), function ≠ 0 → (c.greg .rsp).toNat % 8 = 0 → args.length < 2 ^ 31 →
        ∃ r, addInternal L assertions trampoline function args (Cells.start mem) c = some r ∧
          Framed L trampoline function args c r) ∧
    (addInternal smallLayout true 0x400 0x500 [1] (Cells.start fun _ => 0) (contextAt 0 0x1008)).isNone =
    true := by
  have hnone : (addInternal smallLayout true 0x400 0x500 [1] (Cells.start fun _ => 0)
      (contextAt 0 0x1008)).isNone = true := by decide
  refine ⟨fun h => ?_, hnone⟩
  obtain ⟨r, hr, -⟩ := h smallLayout true 0x400 0x500 [1] (fun _ => 0) (contextAt 0 0x1008) (by decide)
    (by decide)
    (by decide)
  rw [hr] at hnone
  cases hnone

/-- **A fresh context** on a stack whose top is a multiple of 16 always gets its frame, at the top of the
stack. -/
theorem make_framed {stack : Word} (hf : function ≠ 0) (hstack : stack ≠ 0) (h16 : stack.toNat % 16 = 0)
    (hargs : args.length < 2 ^ 31) :
    ∃ r, make L assertions trampoline function args stack (Cells.start mem) c = some r ∧
      Framed L trampoline function args
        { c with greg := update (update (update c.greg .rip 0) .rsp stack) .rbp 0 } r := by
  obtain ⟨c', hc'⟩ : ∃ c' :
    Context, c' = { c with greg := update (update (update c.greg .rip 0) .rsp stack) .rbp 0 } :=
    ⟨_, rfl⟩
  have hrsp : c'.greg .rsp = stack := by
    rw [hc']
    dsimp only
    rw [update_of_ne (by decide), update_self]
  rw [← hrsp] at h16
  have h8 : (c'.greg .rsp).toNat % 8 = 0 := by omega
  have hmiss : ¬ Misses c' args.length := by
    rintro ⟨-, h, -⟩
    omega
  unfold make
  rw [check_of hstack, ← hc']
  exact ⟨_, addInternal_some hf h8 fun _ => hmiss, framed (isTop L args.length h8) hargs⟩

end Framed

end Prs.Frame
