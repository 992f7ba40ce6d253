import Prs.Proof.FrameAdd
import Prs.Proof.SwapRestore

/-!
# An interrupted context goes on as it was

A signal handler puts a call frame on the context that it interrupted, with a copy of the context behind the
frame. When the function returns, `_prs_pal_context_return_trampoline` restores the copy.

* `saved_restorable`: the copy can be restored, whatever there is on the rest of the stack.
* `framed_enters`: whoever goes on in a context with a call frame enters the function, with all of its arguments.
* `interrupted_resumes`: when it returns, everything is restored, for each register. The call and the three
  words that are put under the top of the interrupted stack, in its red zone, are all that the way back
  writes.
* `make_starts`: a fresh context is restored in the same way. Its function has no address to return to.
-/

namespace Prs.Swap

open Prs.Frame
  (Layout Context Framed IsTop addInternal slot slot_slot slot_ne slot_add_eight toNat_slot_mod frameWords
  contextWords)
open Function Amd64

variable {L : Layout} {O : Offsets L} {alu : Word → Word → Word} {assertions : Bool}
  {trampolineEntry function ripRef swapReturn swapEntry back a sp : Word} {args : List Word} {mem : Word → Word}
  {c : Context} {m m' : Machine} {memory : Amd64.Memory} {t : Frame.Top} {i : ℕ}

/-- A machine goes on in a context, with all of its registers. -/
structure Like (O : Offsets L) (c : Context) (m : Machine) : Prop where
  reg : ∀ r, m.reg r = c.greg (greg r)
  rip : m.rip = c.greg .rip
  rflags : m.rflags = low (c.greg eflags)
  xmm : ∀ i < 16, m.xmm i = (c.fpstate (O.xmm + 2 * i), c.fpstate (O.xmm + 2 * i + 1))
  mxcsr : m.mxcsr = (c.fpstate O.mxcsr).setWidth 32

/-- A machine enters a function, as a call leaves it: the stack has the address to return to, and above it the
arguments that are not in registers. -/
structure Enters (function ret : Word) (args : List Word) (m : Machine) : Prop where
  rip : m.rip = function
  aligned : (m.reg .rsp).toNat % 16 = 8
  ret : m.mem.get (m.reg .rsp) = ret
  reg_args : ∀ i (h : i < args.length) (r : Amd64.Reg), Frame.argReg i = some (greg r) → m.reg r = args[i]
  stack_args : ∀ i (h : i < args.length), 6 ≤ i → m.mem.get (slot (m.reg .rsp) (i - 6 + 1)) = args[i]

/-- **A call frame is entered** by a machine that goes on in the context, on the stack that has it. -/
theorem framed_enters {r : Frame.Result} {c' : Context} (h : Framed L trampolineEntry function args c r)
    (hgreg : c'.greg = r.context.greg) (hlike : Like O c' m)
    (hstk : ∀ i ≤ args.length, m.mem.get (slot (r.context.greg .rsp) i) =
      r.mem.get (slot (r.context.greg .rsp) i)) :
    Enters function (if c.greg .rip = 0 then 0 else trampolineEntry) args m := by
  have hrsp : m.reg .rsp = r.context.greg .rsp := (hlike.reg .rsp).trans (congrFun hgreg _)
  refine ⟨hlike.rip.trans ((congrFun hgreg _).trans h.rip), ?_, ?_, ?_, ?_⟩
  · rw [hrsp]
    exact h.aligned
  · have hret := hstk 0 (Nat.zero_le _)
    rw [Frame.slot_zero] at hret
    rw [hrsp, hret]
    exact h.ret
  · intro i hi r hr
    exact (hlike.reg r).trans ((congrFun hgreg _).trans (h.reg_args i hi _ hr))
  · intro i hi h6
    rw [hrsp, hstk _ (by omega)]
    exact h.stack_args i hi h6

/-- A word of a register. -/
theorem saved_greg {r : Frame.Reg} (h : Frame.Saved L c memory a) (hi : i < L.words) (hf : L.field i = .greg r) :
    memory.get (slot a i) = c.greg r := by
  have hne : i ≠ L.fpregs := by
    rintro rfl
    rw [L.field_fpregs] at hf
    cases hf
  rw [h.words i hi hne, Context.word, hf]

/-- **A copy of a context can be restored**, when it is not right under the top of its stack. -/
theorem saved_restorable (h : Frame.Saved L c memory a) (hfp : c.fpregs ≠ 0)
    (hmx : (c.fpstate O.mxcsr).setWidth 32 &&& ~~~mxcsrMask = 0)
    (hclear : ∀ i < L.words, slot a i ∉ under (c.greg .rsp)) : Restorable O memory a (slot a L.fpOffset) := by
  have hmxlt := O.mxcsr_lt
  have hxmm := O.xmm_le
  have hodd := O.fpstate_aligned
  refine ⟨h.fpregs, ?_, ?_, ?_⟩
  · have h16 := h.aligned
    rw [toNat_slot_mod]
    omega
  · rw [slot_slot, h.fpstate hfp _ (by omega)]
    exact hmx
  · rw [saved_greg h (O.general_lt .rsp) (O.field_general .rsp)]
    exact hclear

/-- What is restored of a copy is what was copied. -/
theorem Resumed.like (hr : Resumed O memory a (slot a L.fpOffset) m) (h : Frame.Saved L c memory a)
    (hfp : c.fpregs ≠ 0) : Like O c m := by
  have hmxlt := O.mxcsr_lt
  have hxmm := O.xmm_le
  refine ⟨?_, ?_, ?_, ?_, ?_⟩
  · intro r
    rw [hr.reg, saved_greg h (O.general_lt r) (O.field_general r)]
  · rw [hr.rip, saved_greg h O.rip_lt O.field_rip]
  · rw [hr.rflags, saved_greg h O.eflags_lt O.field_eflags]
  · intro i hi
    rw [hr.xmm i hi, slot_slot, slot_slot, h.fpstate hfp _ (by omega), h.fpstate hfp _ (by omega)]
  · rw [hr.mxcsr, slot_slot, h.fpstate hfp _ (by omega)]

/-- A copy is read in its own words. -/
theorem saved_congr {memory' : Amd64.Memory} (h : Frame.Saved L c memory a)
    (heq : ∀ i < L.size / 8, memory'.get (slot a i) = memory.get (slot a i)) : Frame.Saved L c memory' a := by
  have hw := L.words_le
  have hs := L.fpstate_le
  have hfp := L.fpregs_lt
  refine ⟨h.aligned, ?_, ?_, ?_⟩
  · intro i hi hne
    rw [heq i (by omega), h.words i hi hne]
  · rw [heq _ (by omega), h.fpregs]
  · intro hne i hi
    rw [heq _ (by omega), h.fpstate hne i hi]

section Place

theorem contextWords_eq (hrip : c.greg .rip ≠ 0) :
    contextWords L c t = L.size / 8 + 16 + t.contextAlign.toNat := if_neg hrip

theorem total_lt (L : Layout) (c : Context) (t : Frame.Top) (hargs : args.length < 2 ^ 31) :
    frameWords args.length t + contextWords L c t + 2 < 2 ^ 61 := by
  have hlt := L.size_lt
  have hframe := Frame.frameWords_le args.length t
  have hctx := Frame.contextWords_le L c t
  omega

/-- The copy is above the return address, and under the red zone. -/
theorem copy_clear (ht : IsTop L c args.length t) (hrip : c.greg .rip ≠ 0) (hargs : args.length < 2 ^ 31)
    (hi : i < L.size / 8) :
    slot (slot t.sp (frameWords args.length t)) i ≠ t.sp ∧
      slot (slot t.sp (frameWords args.length t)) i ∉ under (c.greg .rsp) := by
  have htotal := total_lt L c t hargs
  have hrsp := ht.rsp
  rw [contextWords_eq hrip] at htotal hrsp
  have hframe : 3 ≤ frameWords args.length t := by
    unfold frameWords
    omega
  rw [slot_slot]
  constructor
  · have hne : slot t.sp (frameWords args.length t + i) ≠ slot t.sp 0 := slot_ne (by omega) (by omega) (by omega)
    rwa [Frame.slot_zero] at hne
  · rw [hrsp]
    exact slot_notMem_under (by omega) (by omega) (.inr (by omega))

/-- The copy is not at the null pointer. -/
theorem copy_ne_zero (ht : IsTop L c args.length t) (hroom : L.size + 136 < (c.greg .rsp).toNat) :
    slot t.sp (frameWords args.length t) ≠ 0 := by
  intro h
  have hrsp := ht.rsp
  have hctx := Frame.contextWords_le L c t
  have hlt := L.size_lt
  rw [← slot_slot, h, slot] at hrsp
  have hnat := congrArg BitVec.toNat (hrsp.trans (BitVec.zero_add _))
  rw [BitVec.toNat_ofNat, Nat.mod_eq_of_lt (by omega)] at hnat
  omega

end Place

section Back

/-- Up to the first instruction of `prs_pal_context_swap`. -/
theorem trampolineCode_spec : ∃ m1, exec alu (trampolineCode swapEntry back) m = some m1 ∧ m1.reg .rdi = 0 ∧
    m1.reg .rsi = m.reg .rbp + 0x10 ∧ m1.mem = m.mem.set (m.reg .rsp - 8) back := by
  unfold trampolineCode
  refine ⟨_, exec_movImm.trans (exec_mov.trans (exec_add.trans exec_call)), ?_, ?_, ?_⟩
  all_goals
    simp only [Machine.set, Machine.push, update_of_ne, ne_eq, reduceCtorEq, not_false_eq_true, update_self]

/-- **From the return of the function on.** The copy is at `a`. -/
theorem trampoline_spec (hrbp : m.reg .rbp + 0x10 = a) (ha : a ≠ 0) (h : Frame.Saved L c m.mem a)
    (hfp : c.fpregs ≠ 0) (hmx : (c.fpstate O.mxcsr).setWidth 32 &&& ~~~mxcsrMask = 0)
    (hclear : ∀ i < L.size / 8, slot a i ≠ m.reg .rsp - 8 ∧ slot a i ∉ under (c.greg .rsp)) :
    ∃ m', trampoline O alu ripRef swapReturn swapEntry back m = some m' ∧ Like O c m' ∧
      Cells.Within {x | x = m.reg .rsp - 8 ∨ x ∈ under (c.greg .rsp)} m.mem m'.mem := by
  have hwords := L.words_le
  have hsize := L.fpstate_le
  obtain ⟨m1, hrun, hdi, hsi, hmem⟩ := @trampolineCode_spec alu swapEntry back m
  -- the call does not write to the copy
  have hw1 : Cells.Within {x | x = m.reg .rsp - 8 ∨ x ∈ under (c.greg .rsp)} m.mem m1.mem := by
    rw [hmem]
    exact Cells.Within.set _ _ (.inl rfl)
  have h1 : Frame.Saved L c m1.mem a := by
    apply saved_congr h
    intro i hi
    rw [hmem, Cells.get_set_of_ne _ _ (hclear i hi).1]
  obtain ⟨flags, hsave⟩ := @swapSave_null L O alu ripRef swapReturn m1 hdi
  have hrest := saved_restorable (O := O) h1 hfp hmx fun i hi => (hclear i (by omega)).2
  obtain ⟨m', hrun', hres, hw⟩ :=
    @swapRestore_spec L O alu swapReturn { m1 with rflags := flags } a _ (hsi.trans hrbp) ha hrest
  refine ⟨m', ?_, hres.like h1 hfp, hw1.trans (hw.mono ?_)⟩
  · unfold trampoline swap
    rw [hrun]
    exact (congrArg (Option.bind · (swapRestore O alu swapReturn)) hsave).trans hrun'
  · intro x hx
    rw [saved_greg h1 (O.general_lt .rsp) (O.field_general .rsp)] at hx
    exact .inr hx

/-- **An interrupted context goes on as it was**, when the function that was put on it returns. `m₀` is the
machine at the first instruction of the function, and `m` at its last one. -/
theorem interrupted_resumes (O : Offsets L) (alu : Word → Word → Word) (assertions : Bool)
    (trampolineEntry function ripRef swapReturn swapEntry back : Word) (args : List Word) (mem : Word → Word)
    (c : Context) (hf : function ≠ 0) (hrip : c.greg .rip ≠ 0) (h8 : (c.greg .rsp).toNat % 8 = 0)
    (hargs : args.length < 2 ^ 31) (hroom : L.size + 136 < (c.greg .rsp).toNat) (hfp : c.fpregs ≠ 0)
    (hmx : (c.fpstate O.mxcsr).setWidth 32 &&& ~~~mxcsrMask = 0) :
    ∃ r, addInternal L assertions trampolineEntry function args (Cells.start mem) c = some r ∧
      (∀ m₀ : Machine, Like O r.context m₀ → (∀ i ≤ args.length,
        m₀.mem.get (slot (r.context.greg .rsp) i) = r.mem.get (slot (r.context.greg .rsp) i)) →
        Enters function trampolineEntry args m₀) ∧
      ∀ m : Machine, m.reg .rsp = r.context.greg .rsp → m.reg .rbp = r.context.greg .rbp →
        m.mem.get (m.reg .rsp) = r.mem.get (m.reg .rsp) →
        (∀ i < L.size / 8, m.mem.get (slot (m.reg .rbp + 0x10) i) = r.mem.get (slot (m.reg .rbp + 0x10) i)) →
        ∃ m1 m', step alu m .ret = some m1 ∧ m1.rip = trampolineEntry ∧
          trampoline O alu ripRef swapReturn swapEntry back m1 = some m' ∧ Like O c m' ∧
          Cells.Within {x | x = m.reg .rsp ∨ x ∈ under (c.greg .rsp)} m.mem m'.mem := by
  have hmiss : assertions = true → ¬ Frame.Misses c args.length := fun _ h => hrip h.1
  have ht := Frame.isTop L args.length h8
  have hframed := @Frame.framed L trampolineEntry function args mem c _ ht hargs
  refine ⟨_, Frame.addInternal_some hf h8 hmiss, ?_, ?_⟩
  · intro m₀ hlike hstk
    have henters := framed_enters hframed rfl hlike hstk
    rwa [if_neg hrip] at henters
  intro m hsp hbp hret hcopy
  have hsaved := hframed.saved hrip
  have hentry := hframed.ret
  rw [← hsp, ← hret, if_neg hrip] at hentry
  rw [hbp] at hcopy
  rw [Frame.pushed_rbp] at hcopy hsaved
  rw [Frame.pushed_rsp] at hsp
  obtain ⟨m1, hm1⟩ : ∃ m1 : Machine,
      m1 = { m.set .rsp (m.reg .rsp + 8) with rip := m.mem.get (m.reg .rsp) } := ⟨_, rfl⟩
  have hmem1 : m1.mem = m.mem := by
    rw [hm1]
    rfl
  have hsp1 : m1.reg .rsp - 8 = m.reg .rsp := by
    rw [hm1]
    dsimp only
    rw [set_reg_self, BitVec.add_sub_cancel]
  have hbp1 : m1.reg .rbp + 0x10 =
      slot (Frame.top L c args.length).sp (frameWords args.length (Frame.top L c args.length)) := by
    rw [hm1]
    dsimp only
    rw [set_reg_of_ne (by decide), hbp]
    exact Frame.pushed_rbp
  have hsaved1 : Frame.Saved L _ m1.mem _ := saved_congr hsaved (by rw [hmem1]; exact hcopy)
  obtain ⟨m', hrun, hlike, hw⟩ := @trampoline_spec L O alu ripRef swapReturn swapEntry back _ c m1 hbp1
    (copy_ne_zero ht hroom) hsaved1 hfp hmx (by
      intro i hi
      rw [hsp1, hsp]
      exact copy_clear ht hrip hargs hi)
  rw [hsp1, hmem1] at hw
  refine ⟨m1, m', by rw [hm1]; rfl, ?_, hrun, hlike, hw⟩
  rw [hm1]
  exact hentry

/-- A thread is interrupted at `0x600`, and `0x500` returns at once. -/
theorem interrupted_resumes_gnu :
    ∃ r, addInternal gnu true 0x400 0x500 [1, 2, 3, 4, 5, 6, 7] (Cells.start fun _ => 0)
        (Frame.contextAt 0x600 0x80008) = some r ∧
      (∀ m₀ : Machine, Like gnuOffsets r.context m₀ → (∀ i ≤ 7,
        m₀.mem.get (slot (r.context.greg .rsp) i) = r.mem.get (slot (r.context.greg .rsp) i)) →
        Enters 0x500 0x400 [1, 2, 3, 4, 5, 6, 7] m₀) ∧
      ∀ m : Machine, m.reg .rsp = r.context.greg .rsp → m.reg .rbp = r.context.greg .rbp →
        m.mem.get (m.reg .rsp) = r.mem.get (m.reg .rsp) →
        (∀ i < gnu.size / 8, m.mem.get (slot (m.reg .rbp + 0x10) i) = r.mem.get (slot (m.reg .rbp + 0x10) i)) →
        ∃ m1 m', step (fun _ f => f) m .ret = some m1 ∧ m1.rip = 0x400 ∧
          trampoline gnuOffsets (fun _ f => f) 0x700 0x800 0x900 0x410 m1 = some m' ∧
          Like gnuOffsets (Frame.contextAt 0x600 0x80008) m' ∧
          Cells.Within {x | x = m.reg .rsp ∨ x ∈ under 0x80008} m.mem m'.mem :=
  interrupted_resumes gnuOffsets (fun _ f => f) true 0x400 0x500 0x700 0x800 0x900 0x410 [1, 2, 3, 4, 5, 6, 7]
    (fun _ => 0) (Frame.contextAt 0x600 0x80008)
    (by decide) (by decide) (by decide) (by decide) (by decide) (by decide) (by decide)

end Back

section Start

/-- The registers that `prs_pal_context_make` starts from. -/
def blank (stack : Word) (c : Context) : Context :=
  { c with greg := update (update (update c.greg .rip 0) .rsp stack) .rbp 0 }

theorem blank_rsp (stack : Word) (c : Context) : (blank stack c).greg .rsp = stack := by
  unfold blank
  dsimp only
  rw [update_of_ne (by decide), update_self]

theorem blank_aligned {stack : Word} (c : Context) (h16 : stack.toNat % 16 = 0) :
    ((blank stack c).greg .rsp).toNat % 8 = 0 := by
  rw [blank_rsp]
  omega

theorem frame_make_eq {stack : Word} {memory : Frame.Memory} (hf : function ≠ 0) (hstack : stack ≠ 0)
    (h16 : stack.toNat % 16 = 0) :
    Frame.make L assertions trampolineEntry function args stack memory c =
      some (Frame.pushed L trampolineEntry function args memory (blank stack c)
        (Frame.top L (blank stack c) args.length)) := by
  have hmiss : assertions = true → ¬ Frame.Misses (blank stack c) args.length := by
    rintro - ⟨-, h, -⟩
    rw [blank_rsp] at h
    omega
  unfold Frame.make
  rw [Frame.check_of hstack]
  exact Frame.addInternal_some hf (blank_aligned c h16) hmiss

theorem setWidth_setLow (old v : Word) : (setLow old v).setWidth 32 = v.setWidth 32 := by
  unfold setLow low
  rw [BitVec.setWidth_or, BitVec.setWidth_and, BitVec.setWidth_and]
  have h1 : (0xFFFFFFFF00000000 : Word).setWidth 32 = 0#32 := by decide
  have h2 : (0xFFFFFFFF : Word).setWidth 32 = BitVec.allOnes 32 := by decide
  rw [h1, h2, BitVec.and_zero, BitVec.and_allOnes, BitVec.zero_or]

/-- **A fresh context starts its function**, with all of its arguments. -/
theorem make_starts (O : Offsets L) (alu : Word → Word → Word) (assertions : Bool)
    (trampolineEntry function swapReturn stack : Word) (args : List Word) (mem : Word → Word) (c : Context)
    (hf : function ≠ 0) (hstack : stack ≠ 0) (h16 : stack.toNat % 16 = 0) (hargs : args.length < 2 ^ 31)
    (hfp : c.fpregs ≠ 0) :
    ∃ r, make O assertions trampolineEntry function args stack (Cells.start mem) c = some r ∧
      ∀ (m : Machine) (b : Word), m.reg .rsi = b → b ≠ 0 → Frame.Saved L r.context m.mem b →
        (∀ i < L.words, slot b i ∉ under (r.context.greg .rsp)) →
        (∀ i ≤ args.length, m.mem.get (slot (r.context.greg .rsp) i) = r.mem.get (slot (r.context.greg .rsp) i)) →
        ∃ m', swapRestore O alu swapReturn m = some m' ∧ Enters function 0 args m' ∧ m'.mxcsr = 0x1f80 := by
  obtain ⟨r0, hr0⟩ : ∃ r0, r0 = Frame.pushed L trampolineEntry function args (Cells.start mem) (blank stack c)
    (Frame.top L (blank stack c) args.length) := ⟨_, rfl⟩
  have hmake := @frame_make_eq L assertions trampolineEntry function args c stack (Cells.start mem) hf hstack h16
  rw [← hr0] at hmake
  have h8 := blank_aligned c h16
  have hframed := @Frame.framed L trampolineEntry function args mem _ _ (Frame.isTop L args.length h8) hargs
  rw [← hr0] at hframed
  have hfp0 : r0.context.fpregs ≠ 0 := by
    rw [hr0]
    exact hfp
  refine ⟨_, congrArg (Option.map _) hmake, ?_⟩
  intro m b hsi hb hsaved hclear hstk
  dsimp only [Option.map] at hsaved hclear hstk
  have hmx : ((update r0.context.fpstate O.mxcsr (setLow (r0.context.fpstate O.mxcsr) 0x1f80))
      O.mxcsr).setWidth 32 = (0x1f80 : BitVec 32) := by
    rw [update_self, setWidth_setLow]
    rfl
  obtain ⟨m', hrun, hres, hw⟩ := @swapRestore_spec L O alu swapReturn m b _ hsi hb
    (saved_restorable hsaved hfp0 (by dsimp only; rw [hmx]; decide) hclear)
  have hlike := hres.like hsaved hfp0
  rw [saved_greg hsaved (O.general_lt .rsp) (O.field_general .rsp)] at hw
  -- what the restore writes is under the frame
  have hframe : ∀ i ≤ args.length,
      m'.mem.get (slot (r0.context.greg .rsp) i) = r0.mem.get (slot (r0.context.greg .rsp) i) := by
    intro i hi
    have hout := slot_notMem_under (a := r0.context.greg .rsp) (i := i) (j := 0) (by omega) (by omega)
      (.inl (Nat.zero_le _))
    rw [Frame.slot_zero] at hout
    rw [hw.get_eq _ hout]
    exact hstk i hi
  have hgreg : ({ r0.context with
    fpstate := update r0.context.fpstate O.mxcsr (setLow (r0.context.fpstate O.mxcsr) 0x1f80) } : Context).greg =
      r0.context.greg := rfl
  have henters := framed_enters hframed hgreg hlike hframe
  exact ⟨m', hrun, henters, hlike.mxcsr.trans hmx⟩

/-- A function with eight arguments, on a stack under `0x8000`. -/
theorem make_starts_gnu :
    ∃ r, make gnuOffsets true 0x400 0x500 [1, 2, 3, 4, 5, 6, 7, 8] 0x8000 (Cells.start fun _ => 0)
        (Frame.contextAt 0 0) = some r ∧
      ∀ (m : Machine) (b : Word), m.reg .rsi = b → b ≠ 0 → Frame.Saved gnu r.context m.mem b →
        (∀ i < gnu.words, slot b i ∉ under (r.context.greg .rsp)) →
        (∀ i ≤ 8, m.mem.get (slot (r.context.greg .rsp) i) = r.mem.get (slot (r.context.greg .rsp) i)) →
        ∃ m', swapRestore gnuOffsets (fun _ f => f) 0x800 m = some m' ∧
          Enters 0x500 0 [1, 2, 3, 4, 5, 6, 7, 8] m' ∧ m'.mxcsr = 0x1f80 :=
  make_starts gnuOffsets (fun _ f => f) true 0x400 0x500 0x800 0x8000 [1, 2, 3, 4, 5, 6, 7, 8] (fun _ => 0)
    (Frame.contextAt 0 0) (by decide) (by decide) (by decide) (by decide) (by decide)

end Start

end Prs.Swap
