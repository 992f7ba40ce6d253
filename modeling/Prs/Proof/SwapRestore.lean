import Mathlib.Data.List.Nodup
import Prs.Model.Swap
import Prs.Proof.FrameAdd

/-!
# What is saved of a context, and what is restored

* `underCode_spec`, `finishCode_spec`: the registers that are restored last go over the stack of the context.
* `restore_spec`: all registers are restored, `rip` and `rflags` with them. Three words under the top of the
  stack of the context are written, which are in its red zone.
* `save_spec`: the registers that a function has to preserve are saved. `mxcsr` is not.
-/

namespace Prs.Swap

open Prs.Frame (Layout Context slot slot_slot slot_inj slot_add_eight slot_ne toNat_slot_mod)
open Function Amd64

variable {L : Layout} {O : Offsets L} {alu : Word → Word → Word} {ripRef swapReturn a fp sp : Word}
    {m m' : Machine}
  {mem mem' : Amd64.Memory} {i : ℕ}

/-- The three words under the top of a stack. -/
def under (sp : Word) : Set Word := {x | x = sp - 8 ∨ x = sp - 0x10 ∨ x = sp - 0x18}

/-- A word above the three words, or under them. -/
theorem slot_notMem_under {j : ℕ} (hi : i + 3 < 2 ^ 61) (hj : j < 2 ^ 61) (h : j ≤ i ∨ i + 3 < j) :
    slot a i ∉ under (slot a j) := by
  -- some words up it would be the top of the stack
  have hup : ∀ k, 0 < k → k ≤ 3 → slot a i ≠ slot a j - BitVec.ofNat 64 (8 * k) := by
    intro k h0 hk he
    have hk' : slot a (i + k) = slot a j := by
      rw [← slot_slot, he, slot, BitVec.sub_add_cancel]
    have hinj := slot_inj (by omega) (by omega) hk'
    omega
  rintro (h | h | h)
  · exact hup 1 (by omega) (by omega) h
  · exact hup 2 (by omega) (by omega) h
  · exact hup 3 (by omega) (by omega) h

/-- A context in memory can be restored. -/
structure Restorable (O : Offsets L) (mem : Amd64.Memory) (a fp : Word) : Prop where
  fpregs : mem.get (slot a L.fpregs) = fp
  aligned : fp.toNat % 16 = 0
  mxcsr : (mem.get (slot fp O.mxcsr)).setWidth 32 &&& ~~~mxcsrMask = 0
  /-- It is not right under the top of its stack. -/
  clear : ∀ i < L.words, slot a i ∉ under (mem.get (slot a (O.general .rsp)))

/-- A machine goes on in a context in memory. -/
structure Resumed (O : Offsets L) (mem : Amd64.Memory) (a fp : Word) (m : Machine) : Prop where
  reg : ∀ r, m.reg r = mem.get (slot a (O.general r))
  rip : m.rip = mem.get (slot a O.rip)
  rflags : m.rflags = low (mem.get (slot a O.eflags))
  xmm : ∀ i < 16, m.xmm i = (mem.get (slot fp (O.xmm + 2 * i)), mem.get (slot fp (O.xmm + 2 * i + 1)))
  mxcsr : m.mxcsr = (mem.get (slot fp O.mxcsr)).setWidth 32

section Restore

/-- **What is put under the new top of the stack.** -/
theorem underCode_spec (hsi : m.reg .rsi = a) (hsp : m.mem.get (slot a (O.general .rsp)) = sp)
    (hclear : ∀ i < L.words, slot a i ∉ under sp) :
    ∃ reg flags mem, exec alu (underCode O) m = some { m with reg := reg, rflags := flags, mem := mem } ∧
      (∀ r, r ≠ .rax → r ≠ .rbx → reg r = m.reg r) ∧
      mem.get (sp - 8) = m.mem.get (slot a O.rip) ∧ mem.get (sp - 0x10) = low (m.mem.get (slot a O.eflags)) ∧
      mem.get (sp - 0x18) = m.mem.get (slot a (O.general .rsi)) ∧ Cells.Within (under sp) m.mem mem := by
  have hslot : ∀ i, m.reg .rsi + off i = slot a i := fun i => congrArg (· + off i) hsi
  obtain ⟨rip, hrip⟩ : ∃ v, m.mem.get (slot a O.rip) = v := ⟨_, rfl⟩
  obtain ⟨flags, heq⟩ : ∃ v, m.mem.get (slot a O.eflags) = v := ⟨_, rfl⟩
  obtain ⟨rsi, hrsi⟩ : ∃ v, m.mem.get (slot a (O.general .rsi)) = v := ⟨_, rfl⟩
  -- none of the three stores is to the context
  obtain ⟨m1, hm1⟩ : ∃ m1, m1 = m.mem.set (sp - 8) rip := ⟨_, rfl⟩
  obtain ⟨m2, hm2⟩ : ∃ m2, m2 = m1.set (sp - 0x10) (low flags) := ⟨_, rfl⟩
  have h1 : Cells.Within (under sp) m.mem m1 := hm1 ▸ Cells.Within.set _ _ (.inl rfl)
  have h2 : Cells.Within (under sp) m.mem m2 := h1.trans (hm2 ▸ Cells.Within.set _ _ (.inr (.inl rfl)))
  have h3 : Cells.Within (under sp) m.mem (m2.set (sp - 0x18) rsi) :=
    h2.trans (Cells.Within.set _ _ (.inr (.inr rfl)))
  have hflags : m1.get (slot a O.eflags) = flags := (h1.get_eq _ (hclear _ O.eflags_lt)).trans heq
  have hrsi2 : m2.get (slot a (O.general .rsi)) = rsi := (h2.get_eq _ (hclear _ (O.general_lt _))).trans hrsi
  have hrun : exec alu (underCode O) m = some { m with
      reg := update (update (update m.reg .rax sp) .rbx 0) .rbx rsi
      rflags := alu 0 m.rflags
      mem := m2.set (sp - 0x18) rsi } := by
    unfold underCode
    simp only [exec_load, exec_store, exec_xor, exec_load32, exec_nil, Machine.set, update_of_ne, ne_eq,
      reduceCtorEq, not_false_eq_true, update_self, hslot, hsp, hrip, BitVec.xor_self, ← BitVec.sub_eq_add_neg,
      ← hm1, hflags, ← hm2, hrsi2, update_idem]
    rfl
  refine ⟨_, _, _, hrun, ?_, ?_, ?_, ?_, h3⟩
  · intro r hax hbx
    rw [update_of_ne hbx, update_of_ne hbx, update_of_ne hax]
  · rw [Cells.get_set_of_ne _ _ (by bv_omega), hm2, Cells.get_set_of_ne _ _ (by bv_omega), hm1,
      Cells.get_set_self, hrip]
  · rw [Cells.get_set_of_ne _ _ (by bv_omega), hm2, Cells.get_set_self, heq]
  · rw [Cells.get_set_self, hrsi]

/-- **What is taken from there.** -/
theorem finishCode_spec {rip flags rsi : Word} (hsi : m.reg .rsi = a)
    (hsp : m.mem.get (slot a (O.general .rsp)) = sp) (hrip : m.mem.get (sp - 8) = rip)
    (hflags : m.mem.get (sp - 0x10) = flags) (hrsi : m.mem.get (sp - 0x18) = rsi) :
    ∃ reg, exec alu (finishCode O) m = some { m with reg := reg, rip := rip, rflags := flags } ∧
      reg .rsp = sp ∧ reg .rsi = rsi ∧ (∀ r, r = .rax ∨ r = .rbx → reg r = m.mem.get (slot a (O.general r))) ∧
      ∀ r, r ≠ .rsp → r ≠ .rsi → r ≠ .rax → r ≠ .rbx → reg r = m.reg r := by
  have hslot : ∀ i, m.reg .rsi + off i = slot a i := fun i => congrArg (· + off i) hsi
  have h1 : sp - 0x18 + 8 = sp - 0x10 := by bv_omega
  have h2 : sp - 0x10 + 8 = sp - 8 := by bv_omega
  have h3 : sp - 8 + 8 = sp := by bv_omega
  have hrun : exec alu (finishCode O) m = some { m with
      reg := update (update (update (update m.reg .rax (m.mem.get (slot a (O.general .rax)))) .rbx
        (m.mem.get (slot a (O.general .rbx)))) .rsi rsi) .rsp sp
      rip := rip
      rflags := flags } := by
    unfold finishCode
    simp only [exec_load, exec_sub, exec_mov, exec_pop, exec_popfq, exec_ret, exec_nil, Machine.set,
      update_of_ne, ne_eq, reduceCtorEq, not_false_eq_true, update_self, hslot, hsp, h1, hrsi, hflags, h2, hrip,
      h3]
    congr 2
    -- the last value of each register
    funext r
    cases r <;> rfl
  refine ⟨_, hrun, update_self .., ?_, ?_, ?_⟩
  · rw [update_of_ne (by decide), update_self]
  · rintro r (rfl | rfl) <;> rfl
  · intro r h1 h2 h3 h4
    rw [update_of_ne h1, update_of_ne h2, update_of_ne h4, update_of_ne h3]

/-- `movaps` reaches an `xmm` register in an aligned `struct _libc_fpstate`. -/
theorem xmm_aligned (O : Offsets L) (h16 : fp.toNat % 16 = 0) (i : ℕ) :
    (slot fp (O.xmm + 2 * i)).toNat % 16 = 0 := by
  have heven := O.xmm_aligned
  rw [toNat_slot_mod]
  omega

theorem map_snd {α β : Type*} (f : α → β) (l : List α) : (l.map fun x => (f x, x)).map Prod.snd = l := by
  rw [List.map_map]
  exact List.map_id l

/-- The floating point state comes first. -/
theorem restoreFp_spec (hsi : m.reg .rsi = a) (hr : Restorable O m.mem a fp) :
    ∃ m1, exec alu ([.load (off L.fpregs) .rsi .rax, .ldmxcsr (off O.mxcsr) .rax] ++
        (List.range 16).map fun i => .movapsLoad (off (O.xmm + 2 * i)) .rax i) m = some m1 ∧
      m1.mem = m.mem ∧ m1.reg .rsi = a ∧ m1.mxcsr = (m.mem.get (slot fp O.mxcsr)).setWidth 32 ∧
      ∀ i < 16, m1.xmm i = (m.mem.get (slot fp (O.xmm + 2 * i)), m.mem.get (slot fp (O.xmm + 2 * i + 1))) := by
  have hfp : m.mem.get (m.reg .rsi + off L.fpregs) = fp := by
    rw [hsi]
    exact hr.fpregs
  obtain ⟨m0, hm0⟩ : ∃ m0 : Machine,
      m0 = { m.set .rax fp with mxcsr := (m.mem.get (slot fp O.mxcsr)).setWidth 32 } := ⟨_, rfl⟩
  have hax : m0.reg .rax = fp := by
    rw [hm0]
    exact set_reg_self m .rax fp
  have hmem : m0.mem = m.mem := by
    rw [hm0]
    rfl
  have hmx : step alu (m.set .rax fp) (.ldmxcsr (off O.mxcsr) .rax) = some m0 := by
    rw [hm0]
    exact if_pos hr.mxcsr
  obtain ⟨xmm, hrun, hxmm, -⟩ := @exec_movapsLoads alu m0 .rax
    ((List.range 16).map fun i => (off (O.xmm + 2 * i), i))
    (by
      intro x hx
      obtain ⟨i, -, rfl⟩ := List.mem_map.1 hx
      rw [hax]
      exact xmm_aligned O hr.aligned i)
    (by
      rw [map_snd]
      exact List.nodup_range)
  rw [List.map_map] at hrun
  refine ⟨{ m0 with xmm := xmm }, ?_, hmem, ?_, ?_, ?_⟩
  · rw [List.cons_append, exec_load, hfp, List.cons_append, exec_cons_of hmx, List.nil_append]
    exact hrun
  · rw [hm0, ← hsi]
    exact set_reg_of_ne (by decide : Amd64.Reg.rsi ≠ .rax) m fp
  · rw [hm0]
  · intro i hi
    have hx := hxmm _ (List.mem_map_of_mem (List.mem_range.2 hi))
    rw [hax, hmem] at hx
    rw [← slot_add_eight]
    exact hx

/-- The registers that the rest does not need. -/
theorem restoreGeneral_spec (hsi : m.reg .rsi = a) :
    ∃ reg, exec alu (restoreRegs.map fun r => .load (off (O.general r)) .rsi r) m = some { m with reg := reg } ∧
      reg .rsi = a ∧ ∀ r ∈ restoreRegs, reg r = m.mem.get (slot a (O.general r)) := by
  obtain ⟨reg, hrun, hreg, hother⟩ := @exec_loads alu m .rsi (restoreRegs.map fun r => (off (O.general r), r))
    (by rw [map_snd]; decide) (by rw [map_snd]; decide)
  rw [map_snd] at hother
  rw [List.map_map] at hrun
  refine ⟨reg, hrun, (hother .rsi (by decide)).trans hsi, ?_⟩
  intro r hr
  have h := hreg _ (List.mem_map_of_mem hr)
  rw [hsi] at h
  exact h

theorem restoreRegs_ne : ∀ r ∈ restoreRegs, r ≠ .rsp ∧ r ≠ .rsi ∧ r ≠ .rax ∧ r ≠ .rbx := by decide

theorem eq_of_notMem_restoreRegs (r : Amd64.Reg) (h : r ∉ restoreRegs) :
    r = .rsp ∨ r = .rsi ∨ r = .rax ∨ r = .rbx := by
  cases r <;> first | exact absurd (by decide) h | simp

/-- **All that a context has is restored.** -/
theorem restore_spec (hsi : m.reg .rsi = a) (hr : Restorable O m.mem a fp) :
    ∃ m', exec alu (restoreCode O) m = some m' ∧ Resumed O m.mem a fp m' ∧
      Cells.Within (under (m.mem.get (slot a (O.general .rsp)))) m.mem m'.mem := by
  obtain ⟨sp, hsp⟩ : ∃ sp, m.mem.get (slot a (O.general .rsp)) = sp := ⟨_, rfl⟩
  have hclear := hr.clear
  rw [hsp] at hclear
  obtain ⟨m1, hfp, hmem1, hsi1, hmx, hxmm⟩ := @restoreFp_spec L O alu a fp m hsi hr
  obtain ⟨reg2, hgen, hsi2, hreg2⟩ := @restoreGeneral_spec L O alu a m1 hsi1
  obtain ⟨m2, hm2⟩ : ∃ m2 : Machine, m2 = { m1 with reg := reg2 } := ⟨_, rfl⟩
  have hmem2 : m2.mem = m.mem := by
    rw [hm2]
    exact hmem1
  rw [← hm2] at hgen
  obtain ⟨reg3, flags, mem3, hund, hkeep, hrip, hflags, hrsi, hw⟩ :=
    @underCode_spec L O alu a sp m2 (by rw [hm2]; exact hsi2) (by rw [hmem2, hsp]) hclear
  rw [hmem2] at hrip hflags hrsi hw
  -- the context is not written
  have hctx : ∀ r, mem3.get (slot a (O.general r)) = m.mem.get (slot a (O.general r)) :=
    fun r => hw.get_eq _ (hclear _ (O.general_lt r))
  obtain ⟨reg4, hfin, hrsp4, hrsi4, hab, hkeep4⟩ :=
    @finishCode_spec L O alu a sp { m2 with reg := reg3, rflags := flags, mem := mem3 } _ _ _
      ((hkeep .rsi (by decide) (by decide)).trans (by rw [hm2]; exact hsi2))
        ((hctx .rsp).trans hsp) hrip hflags hrsi
  refine ⟨_, (exec_append_of ((exec_append_of ((exec_append_of hfp).trans hgen)).trans hund)).trans hfin,
    ⟨?_, rfl, rfl, ?_, ?_⟩, ?_⟩
  · intro r
    by_cases hr : r ∈ restoreRegs
    · obtain ⟨h1, h2, h3, h4⟩ := restoreRegs_ne r hr
      dsimp only
      rw [hkeep4 r h1 h2 h3 h4]
      dsimp only
      rw [hkeep r h3 h4, hm2, ← hmem1]
      exact hreg2 r hr
    · obtain rfl | rfl | hab' := eq_of_notMem_restoreRegs r hr
      · exact hrsp4.trans hsp.symm
      · exact hrsi4
      · exact (hab r hab').trans (hctx r)
  · intro i hi
    rw [hm2]
    exact hxmm i hi
  · rw [hm2]
    exact hmx
  · rw [hsp]
    exact hw

end Restore

section Save

/-- The registers that a context has to keep in any case. -/
def preserved : List Amd64.Reg := .rsp :: saveRegs

theorem greg_injective : Injective greg := by
  intro r r' h
  cases r <;> cases r' <;> first | rfl | cases h

theorem Offsets.general_inj (O : Offsets L) {r r' : Amd64.Reg} (h : O.general r = O.general r') : r = r' := by
  have hf := O.field_general r
  rw [h, O.field_general] at hf
  exact greg_injective (Frame.Field.greg.inj hf).symm

theorem Offsets.general_ne_rip (O : Offsets L) (r : Amd64.Reg) : O.general r ≠ O.rip := by
  intro h
  have hf := O.field_general r
  rw [h, O.field_rip] at hf
  cases r <;> cases hf

theorem Offsets.general_ne_eflags (O : Offsets L) (r : Amd64.Reg) : O.general r ≠ O.eflags := by
  intro h
  have hf := O.field_general r
  rw [h, O.field_eflags] at hf
  cases r <;> cases hf

theorem Offsets.rip_ne_eflags (O : Offsets L) : O.rip ≠ O.eflags := by
  intro h
  have hf := O.field_rip
  rw [h, O.field_eflags] at hf
  cases hf

theorem Offsets.general_ne_fpregs (O : Offsets L) (r : Amd64.Reg) : O.general r ≠ L.fpregs := by
  intro h
  have hf := O.field_general r
  rw [h, L.field_fpregs] at hf
  cases hf

theorem Offsets.rip_ne_fpregs (O : Offsets L) : O.rip ≠ L.fpregs := by
  intro h
  have hf := O.field_rip
  rw [h, L.field_fpregs] at hf
  cases hf

theorem Offsets.eflags_ne_fpregs (O : Offsets L) : O.eflags ≠ L.fpregs := by
  intro h
  have hf := O.field_eflags
  rw [h, L.field_fpregs] at hf
  cases hf

/-- A context in memory can be saved to, with a top of the stack. -/
structure Savable (O : Offsets L) (mem : Amd64.Memory) (a fp sp : Word) : Prop where
  fpregs : mem.get (slot a L.fpregs) = fp
  aligned : fp.toNat % 16 = 0
  push : ∀ i < L.words, slot a i ≠ sp - 8
  fpstate : ∀ i < L.words, ∀ j < 32, slot a i ≠ slot fp (O.xmm + j)

/-- What is written to save a context. -/
def Saves (O : Offsets L) (a fp sp : Word) : Set Word :=
  {x | (∃ i < L.words, i ≠ L.fpregs ∧ x = slot a i) ∨ (∃ j < 32, x = slot fp (O.xmm + j)) ∨ x = sp - 8}

/-- What is in a context that was saved. -/
structure Saved (O : Offsets L) (mem : Amd64.Memory) (a fp rip flags : Word) (m : Machine) : Prop where
  reg : ∀ r ∈ preserved, mem.get (slot a (O.general r)) = m.reg r
  rip : mem.get (slot a O.rip) = rip
  flags : low (mem.get (slot a O.eflags)) = low flags
  xmm : ∀ i, 8 ≤ i → i < 16 → (mem.get (slot fp (O.xmm + 2 * i)), mem.get (slot fp (O.xmm + 2 * i + 1))) = m.xmm i

theorem low_setLow (old v : Word) : low (setLow old v) = low v := by
  unfold setLow low
  rw [BitVec.and_or_distrib_right, BitVec.and_assoc, BitVec.and_assoc, BitVec.and_self]
  exact (congrArg (· ||| v &&& 0xFFFFFFFF) BitVec.and_zero).trans BitVec.zero_or

theorem saveHead_spec (hdi : m.reg .rdi = a) :
    exec alu [.store .rsp (off (O.general .rsp)) .rdi, .movImm ripRef .rax, .add (swapReturn - ripRef) .rax,
      .store .rax (off O.rip) .rdi] m = some { m.set .rax swapReturn with
        rflags := alu swapReturn m.rflags
        mem := (m.mem.set (slot a (O.general .rsp)) (m.reg .rsp)).set (slot a O.rip) swapReturn } := by
  have hslot : ∀ i, m.reg .rdi + off i = slot a i := fun i => congrArg (· + off i) hdi
  have hadd : ripRef + (swapReturn - ripRef) = swapReturn := by bv_omega
  simp only [exec_store, exec_movImm, exec_add, exec_nil, Machine.set, update_of_ne, ne_eq, reduceCtorEq,
      not_false_eq_true, update_self, hslot, hadd, update_idem]

theorem slot_ne_words {j : ℕ} (L : Layout) (a : Word) (hi : i < L.words) (hj : j < L.words) (h : i ≠ j) :
    slot a i ≠ slot a j := by
  have hlt := L.words_lt
  have hle := L.words_le
  exact slot_ne (by omega) (by omega) h

theorem Offsets.off_general_injective (O : Offsets L) : Injective fun r => off (O.general r) := by
  intro r r' h
  by_contra hne
  exact slot_ne_words L 0 (O.general_lt r) (O.general_lt r') (fun he => hne (O.general_inj he))
    (congrArg (0 + ·) h)

theorem Offsets.off_xmm_inj (O : Offsets L) {j : ℕ} (hi : i < 16) (hj : j < 16)
    (h : off (O.xmm + 2 * i) = off (O.xmm + 2 * j)) : i = j := by
  have hlt := L.words_lt
  have hle := O.xmm_le
  by_contra hne
  exact slot_ne (by omega) (by omega) (by omega)
    (congrArg (0 + ·) h : slot 0 (O.xmm + 2 * i) = slot 0 (O.xmm + 2 * j))

/-- `rflags` go over the stack to the context. -/
theorem saveFlags_spec (hdi : m.reg .rdi = a) (hpush : ∀ i < L.words, slot a i ≠ m.reg .rsp - 8)
    (hfp : m.mem.get (slot a L.fpregs) = fp) :
    ∃ old, exec alu [.pushfq, .pop .rax, .store32 .rax (off O.eflags) .rdi, .load (off L.fpregs) .rdi .rdi] m =
      some { (m.set .rax m.rflags).set .rdi fp with
        mem := (m.mem.set (m.reg .rsp - 8) m.rflags).set (slot a O.eflags) (setLow old m.rflags) } := by
  have hslot : ∀ i, m.reg .rdi + off i = slot a i := fun i => congrArg (· + off i) hdi
  have hsp : m.reg .rsp - 8 + 8 = m.reg .rsp := by bv_omega
  obtain ⟨m1, hm1⟩ : ∃ m1, m1 = m.mem.set (m.reg .rsp - 8) m.rflags := ⟨_, rfl⟩
  have hne := slot_ne_words L a L.fpregs_lt O.eflags_lt O.eflags_ne_fpregs.symm
  have hfp1 : ∀ v, (m1.set (slot a O.eflags) v).get (slot a L.fpregs) = fp := by
    intro v
    rw [hm1, Cells.get_set_of_ne _ _ hne, Cells.get_set_of_ne _ _ (hpush _ L.fpregs_lt), hfp]
  have htop : m1.get (m.reg .rsp - 8) = m.rflags := by
    rw [hm1, Cells.get_set_self]
  refine ⟨m1.get (slot a O.eflags), ?_⟩
  simp only [exec_pushfq, exec_pop, exec_store32, exec_load, exec_nil, Machine.set, Machine.push,
    update_of_ne, ne_eq, reduceCtorEq, not_false_eq_true, update_self, hslot, hsp, update_idem, ← hm1, htop,
    hfp1]
  congr 2
  funext r
  cases r <;> rfl

/-- `rsp`, `rip`, and the other registers. -/
theorem saveGeneral_spec (hdi : m.reg .rdi = a) :
    ∃ m', exec alu
    ([.store .rsp (off (O.general .rsp)) .rdi, .movImm ripRef .rax, .add (swapReturn - ripRef) .rax,
        .store .rax (off O.rip) .rdi] ++ saveRegs.map fun r => .store r (off (O.general r)) .rdi) m = some m' ∧
      (∀ r, r ≠ .rax → m'.reg r = m.reg r) ∧ m'.rflags = alu swapReturn m.rflags ∧ m'.xmm = m.xmm ∧
      (∀ r ∈ preserved, m'.mem.get (slot a (O.general r)) = m.reg r) ∧ m'.mem.get (slot a O.rip) = swapReturn ∧
      Cells.Within {x | ∃ i < L.words, i ≠ L.fpregs ∧ x = slot a i} m.mem m'.mem := by
  obtain ⟨m1, hm1⟩ : ∃ m1 : Machine, m1 = { m.set .rax swapReturn with
    rflags := alu swapReturn m.rflags
    mem := (m.mem.set (slot a (O.general .rsp)) (m.reg .rsp)).set (slot a O.rip) swapReturn } := ⟨_, rfl⟩
  have hhead := @saveHead_spec L O alu ripRef swapReturn a m hdi
  rw [← hm1] at hhead
  have hreg : ∀ r, r ≠ .rax → m1.reg r = m.reg r := by
    intro r hr
    rw [hm1]
    exact set_reg_of_ne hr m swapReturn
  obtain ⟨mem, hstores, hget, hw⟩ := @exec_stores alu m1 .rdi (saveRegs.map fun r => (r, off (O.general r)))
    (by
      rw [List.map_map]
      exact List.Nodup.map O.off_general_injective (by decide))
  rw [List.map_map] at hstores
  rw [hreg .rdi (by decide), hdi] at hget hw
  -- neither `rsp` nor `rip` is written again
  have hkeep : ∀ i < L.words, (∀ r ∈ saveRegs, i ≠ O.general r) → mem.get (slot a i) = m1.mem.get (slot a i) := by
    intro i hi hne
    apply hw.get_eq
    rintro ⟨x, hx, he⟩
    obtain ⟨r, hr, rfl⟩ := List.mem_map.1 hx
    exact slot_ne_words L a hi (O.general_lt r) (hne r hr) he
  refine ⟨{ m1 with mem := mem }, (exec_append_of hhead).trans hstores, hreg, ?_, ?_, ?_, ?_, ?_⟩
  · rw [hm1]
  · rw [hm1]
    rfl
  · intro r hr
    obtain rfl | hr := List.mem_cons.1 hr
    · have hne := slot_ne_words L a (O.general_lt .rsp) O.rip_lt (O.general_ne_rip .rsp)
      dsimp only
      rw [hkeep _ (O.general_lt .rsp) fun r hr he =>
        ne_of_mem_of_not_mem hr (by decide) (O.general_inj he).symm, hm1]
      dsimp only
      rw [Cells.get_set_of_ne _ _ hne, Cells.get_set_self]
    · refine (hget _ (List.mem_map_of_mem hr)).trans (hreg r ?_)
      rintro rfl
      exact absurd hr (by decide)
  · dsimp only
    rw [hkeep _ O.rip_lt fun r _ => (O.general_ne_rip r).symm, hm1]
    exact Cells.get_set_self ..
  · have hhead : Cells.Within {x | ∃ i < L.words, i ≠ L.fpregs ∧ x = slot a i} m.mem m1.mem := by
      rw [hm1]
      apply (Cells.Within.set m.mem (m.reg .rsp) ?_).trans (Cells.Within.set _ swapReturn ?_)
      · exact ⟨_, O.general_lt .rsp, O.general_ne_fpregs .rsp, rfl⟩
      · exact ⟨_, O.rip_lt, O.rip_ne_fpregs, rfl⟩
    apply hhead.trans
    apply hw.mono
    rintro x ⟨y, hy, rfl⟩
    obtain ⟨r, -, rfl⟩ := List.mem_map.1 hy
    exact ⟨_, O.general_lt r, O.general_ne_fpregs r, rfl⟩

/-- **All that has to be preserved is saved.** -/
theorem save_spec (hdi : m.reg .rdi = a) (hs : Savable O m.mem a fp (m.reg .rsp)) :
    ∃ m', exec alu (saveCode O ripRef swapReturn) m = some m' ∧ m'.reg .rsi = m.reg .rsi ∧
      Saved O m'.mem a fp swapReturn (alu swapReturn m.rflags) m ∧
      Cells.Within (Saves O a fp (m.reg .rsp)) m.mem m'.mem := by
  obtain ⟨m1, hgen, hreg1, hflags1, hxmm1, hget1, hrip1, hw1⟩ :=
    @saveGeneral_spec L O alu ripRef swapReturn a m hdi
  have hsp1 : m1.reg .rsp = m.reg .rsp := hreg1 .rsp (by decide)
  have hfp1 : m1.mem.get (slot a L.fpregs) = fp := by
    rw [hw1.get_eq, hs.fpregs]
    rintro ⟨i, hi, hne, he⟩
    exact slot_ne_words L a L.fpregs_lt hi hne.symm he
  -- the flags
  obtain ⟨old, hflags⟩ := @saveFlags_spec L O alu a fp m1 ((hreg1 .rdi (by decide)).trans hdi)
    (hsp1 ▸ hs.push) hfp1
  rw [hflags1, hsp1] at hflags
  obtain ⟨m2, hm2⟩ : ∃ m2 : Machine, m2 = { (m1.set .rax (alu swapReturn m.rflags)).set .rdi fp with
    mem := (m1.mem.set (m.reg .rsp - 8) (alu swapReturn m.rflags)).set (slot a O.eflags)
      (setLow old (alu swapReturn m.rflags)) } := ⟨_, rfl⟩
  rw [← hm2] at hflags
  have hdi2 : m2.reg .rdi = fp := by
    rw [hm2]
    exact set_reg_self (m1.set .rax (alu swapReturn m.rflags)) .rdi fp
  have hxmm2 : m2.xmm = m.xmm := by
    rw [hm2]
    exact hxmm1
  -- the floating point state
  obtain ⟨mem, hmov, hget, hw⟩ := @exec_movapsStores alu m2 .rdi
    ((List.range 8).map fun i => (8 + i, off (O.xmm + 2 * (8 + i))))
    (by
      intro x hx
      obtain ⟨i, -, rfl⟩ := List.mem_map.1 hx
      rw [hdi2]
      exact xmm_aligned O hs.aligned (8 + i))
    (by
      rw [List.map_map]
      apply List.nodup_range.map_on
      intro i hi j hj h
      have hij := O.off_xmm_inj (by have := List.mem_range.1 hi; omega) (by have := List.mem_range.1 hj; omega) h
      omega)
  rw [List.map_map] at hmov
  rw [hdi2] at hget hw
  -- no `xmm` register is in the words of the registers
  have hkeep : ∀ i < L.words, mem.get (slot a i) = m2.mem.get (slot a i) := by
    intro i hi
    apply hw.get_eq
    rintro ⟨x, hx, he⟩
    obtain ⟨j, hj, rfl⟩ := List.mem_map.1 hx
    have hj8 := List.mem_range.1 hj
    obtain he | he := he
    · exact hs.fpstate i hi _ (by omega) he
    · exact hs.fpstate i hi (2 * (8 + j) + 1) (by omega) (he.trans (slot_add_eight fp _))
  have hkeep2 : ∀ i < L.words, i ≠ O.eflags → m2.mem.get (slot a i) = m1.mem.get (slot a i) := by
    intro i hi hne
    rw [hm2]
    dsimp only
    rw [Cells.get_set_of_ne _ _ (slot_ne_words L a hi O.eflags_lt hne), Cells.get_set_of_ne _ _ (hs.push i hi)]
  refine ⟨{ m2 with mem := mem }, (exec_append_of ((exec_append_of hgen).trans hflags)).trans hmov, ?_,
    ⟨?_, ?_, ?_, ?_⟩, ?_⟩
  · rw [hm2]
    exact hreg1 .rsi (by decide)
  · intro r hr
    rw [hkeep _ (O.general_lt r), hkeep2 _ (O.general_lt r) (O.general_ne_eflags r), hget1 r hr]
  · rw [hkeep _ O.rip_lt, hkeep2 _ O.rip_lt O.rip_ne_eflags, hrip1]
  · rw [hkeep _ O.eflags_lt, hm2]
    dsimp only
    rw [Cells.get_set_self, low_setLow]
  · intro i hi hlt
    obtain ⟨k, rfl⟩ := Nat.exists_eq_add_of_le hi
    have hx := hget _ (List.mem_map_of_mem (List.mem_range.2 (by omega : k < 8)))
    rw [hxmm2] at hx
    rw [← slot_add_eight]
    exact hx
  · have h2 : Cells.Within (Saves O a fp (m.reg .rsp)) m1.mem m2.mem := by
      rw [hm2]
      apply (Cells.Within.set m1.mem (alu swapReturn m.rflags) (.inr (.inr rfl))).trans (Cells.Within.set _ _ ?_)
      exact .inl ⟨_, O.eflags_lt, O.eflags_ne_fpregs, rfl⟩
    apply ((hw1.mono fun x hx => .inl hx).trans h2).trans
    apply hw.mono
    rintro x ⟨y, hy, he⟩
    obtain ⟨j, hj, rfl⟩ := List.mem_map.1 hy
    have hj8 := List.mem_range.1 hj
    obtain rfl | rfl := he
    · exact .inr (.inl ⟨2 * (8 + j), by omega, rfl⟩)
    · exact .inr (.inl ⟨2 * (8 + j) + 1, by omega, slot_add_eight fp _⟩)

end Save

section Swap

variable {b fpb : Word}

theorem swapSave_null (hdi : m.reg .rdi = 0) :
    ∃ flags, swapSave O alu ripRef swapReturn m = some { m with rflags := flags } :=
  ⟨_, if_pos hdi⟩

theorem swapSave_spec (hdi : m.reg .rdi = a) (ha : a ≠ 0) (hs : Savable O m.mem a fp (m.reg .rsp)) :
    ∃ m', swapSave O alu ripRef swapReturn m = some m' ∧ m'.reg .rsi = m.reg .rsi ∧
      Saved O m'.mem a fp swapReturn (alu swapReturn (alu (a &&& a) m.rflags)) m ∧
      Cells.Within (Saves O a fp (m.reg .rsp)) m.mem m'.mem := by
  obtain ⟨m', hrun, hsi, hsaved, hw⟩ := @save_spec L O alu ripRef swapReturn a fp
    { m with rflags := alu (m.reg .rdi &&& m.reg .rdi) m.rflags } hdi hs
  refine ⟨m', (if_neg (hdi ▸ ha)).trans hrun, hsi, ?_, hw⟩
  rw [← hdi]
  rw [← hdi] at hsaved
  exact ⟨hsaved.reg, hsaved.rip, hsaved.flags, hsaved.xmm⟩

theorem swapRestore_spec (hsi : m.reg .rsi = b) (hb : b ≠ 0) (hr : Restorable O m.mem b fpb) :
    ∃ m', swapRestore O alu swapReturn m = some m' ∧ Resumed O m.mem b fpb m' ∧
      Cells.Within (under (m.mem.get (slot b (O.general .rsp)))) m.mem m'.mem := by
  obtain ⟨m', hrun, hresumed, hw⟩ := @restore_spec L O alu b fpb
    { m with rflags := alu (m.reg .rsi &&& m.reg .rsi) m.rflags } hsi hr
  exact ⟨m', (if_neg (hsi ▸ hb)).trans hrun, hresumed, hw⟩

end Swap

end Prs.Swap
