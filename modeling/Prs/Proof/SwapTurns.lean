import Prs.Model.SwapSteps
import Prs.Proof.SwapRestore

/-!
# A context goes on where it was left

* `Ready.step`: what is in memory of the contexts that do not run is kept by every step.
* `swap_resumes`: so in every run, in whatever order the contexts take turns, `prs_pal_context_swap` succeeds,
  and goes on where the context was left, with the registers that a function has to preserve. The control bits
  of `rflags` are among them. `mxcsr` is not: it is what the context was made with.
-/

namespace Prs.SwapSteps

open Prs.Frame (Layout slot slot_slot slot_ne slot_add_eight toNat_slot_mod)
open Function Amd64 Swap

variable {L : Layout} {O : Offsets L} {alu : Word → Word → Word} {ripRef swapReturn ctl a b sp : Word}
  {contexts : Set Word} {mem mem' : Memory} {m : Machine} {s s' : St} {act : Act} {p : Point} {i : ℕ}

/-- The contexts are in different places. -/
def Apart (L : Layout) (contexts : Set Word) : Prop :=
  ∀ a ∈ contexts, ∀ b ∈ contexts, a ≠ b → ∀ i < L.size / 8, ∀ j < L.size / 8, slot a i ≠ slot b j

/-- No context is right under the top of a stack. -/
def Clear (L : Layout) (contexts : Set Word) (sp : Word) : Prop :=
  ∀ a ∈ contexts, ∀ i < L.size / 8, slot a i ∉ under sp

/-- A context in memory, with the `mxcsr` that it was made with. -/
structure Sound (O : Offsets L) (mx : BitVec 32) (mem : Memory) (a : Word) : Prop where
  ne : a ≠ 0
  aligned : a.toNat % 16 = 0
  fpregs : mem.get (slot a L.fpregs) = slot a L.fpOffset
  mxcsr : (mem.get (slot (slot a L.fpOffset) O.mxcsr)).setWidth 32 = mx
  reserved : mx &&& ~~~mxcsrMask = 0

/-- A context in memory says where to go on. `ctl` has the bits of `rflags` in question. -/
structure Held (O : Offsets L) (ctl : Word) (mem : Memory) (a : Word) (p : Point) : Prop where
  reg : ∀ r ∈ preserved, mem.get (slot a (O.general r)) = p.reg r
  rip : mem.get (slot a O.rip) = p.rip
  rflags : low (mem.get (slot a O.eflags)) &&& ctl = p.rflags &&& ctl
  xmm : ∀ i, 8 ≤ i → i < 16 → (mem.get (slot (slot a L.fpOffset) (O.xmm + 2 * i)),
    mem.get (slot (slot a L.fpOffset) (O.xmm + 2 * i + 1))) = p.xmm i

/-- A machine goes on at a point. -/
structure GoesOn (ctl : Word) (p : Point) (m : Machine) : Prop where
  reg : ∀ r ∈ preserved, m.reg r = p.reg r
  rip : m.rip = p.rip
  rflags : m.rflags &&& ctl = p.rflags &&& ctl
  xmm : ∀ i, 8 ≤ i → i < 16 → m.xmm i = p.xmm i

/-- The contexts are made, and those that do not run say where to go on. -/
structure Ready (O : Offsets L) (ctl : Word) (mx : Word → BitVec 32) (contexts : Set Word) (s : St) : Prop where
  sound : ∀ a ∈ contexts, Sound O (mx a) s.machine.mem a
  held : ∀ a p, s.suspended a = some p → a ∈ contexts ∧ Held O ctl s.machine.mem a p ∧
    Clear L contexts (p.reg .rsp)

/-- What the code on the contexts keeps to: it does not write to a context, and what `prs_pal_context_swap` is
called with is a context to save to, which is not suspended, and one that is, on a stack that is not in a
context. -/
def Proper (L : Layout) (contexts : Set Word) (s : St) : Act → Prop
  | .run m => ∀ a ∈ contexts, ∀ i < L.size / 8, m.mem.get (slot a i) = s.machine.mem.get (slot a i)
  | .swap => (s.machine.reg .rdi ≠ 0 → s.machine.reg .rdi ∈ contexts ∧ s.suspended (s.machine.reg .rdi) = none) ∧
    (s.suspended (s.machine.reg .rsi)).isSome ∧ Clear L contexts (s.machine.reg .rsp)

section Words

theorem words_lt (L : Layout) :
    L.words ≤ L.size / 8 ∧ L.fpOffset + L.fpWords ≤ L.size / 8 ∧ L.size / 8 < 2 ^ 60 := by
  have h1 := L.words_le
  have h2 := L.fpstate_le
  have h3 := L.size_lt
  omega

/-- What is written to save a context is in it, and under the top of the stack. -/
theorem saves_sub {x : Word} (hx : x ∈ Saves O a (slot a L.fpOffset) sp) :
    (∃ i < L.size / 8, i ≠ L.fpregs ∧ i ≠ L.fpOffset + O.mxcsr ∧ x = slot a i) ∨ x ∈ under sp := by
  have hlt := words_lt L
  have hw := L.words_le
  have hmx := O.mxcsr_lt
  have hxmm := O.xmm_le
  have hfp := L.fpregs_lt
  obtain ⟨i, hi, hne, rfl⟩ | ⟨j, hj, rfl⟩ | rfl := hx
  · exact .inl ⟨i, by omega, hne, by omega, rfl⟩
  · exact .inl ⟨L.fpOffset + (O.xmm + j), by omega, by omega, by omega, slot_slot ..⟩
  · exact .inr (.inl rfl)

theorem Sound.savable {mx : BitVec 32} (h : Sound O mx mem a) (ha : a ∈ contexts) (hc : Clear L contexts sp) :
    Savable O mem a (slot a L.fpOffset) sp := by
  have hlt := words_lt L
  have hw := L.words_le
  have hxmm := O.xmm_le
  refine ⟨h.fpregs, ?_, ?_, ?_⟩
  · have h16 := h.aligned
    have hfp := O.fpstate_aligned
    rw [toNat_slot_mod]
    omega
  · intro i hi he
    exact hc a ha i (by omega) (.inl he)
  · intro i hi j hj
    rw [slot_slot]
    exact slot_ne (by omega) (by omega) (by omega)

theorem Sound.restorable {mx : BitVec 32} (h : Sound O mx mem a) (ha : a ∈ contexts) (hc : Clear L contexts sp)
    (hsp : mem.get (slot a (O.general .rsp)) = sp) : Restorable O mem a (slot a L.fpOffset) := by
  have hlt := words_lt L
  refine ⟨h.fpregs, (h.savable ha hc).aligned, h.mxcsr ▸ h.reserved, ?_⟩
  intro i hi
  rw [hsp]
  exact hc a ha i (by omega)

/-- Nothing else is read of a context than its words. -/
theorem Held.congr (h : Held O ctl mem a p) (heq : ∀ i < L.size / 8, mem'.get (slot a i) = mem.get (slot a i)) :
    Held O ctl mem' a p := by
  have hlt := words_lt L
  have hw : ∀ i < L.words, mem'.get (slot a i) = mem.get (slot a i) := fun i hi => heq i (by omega)
  have hf : ∀ i < L.fpWords, mem'.get (slot (slot a L.fpOffset) i) = mem.get (slot (slot a L.fpOffset) i) := by
    intro i hi
    rw [slot_slot]
    exact heq _ (by omega)
  have hxmm := O.xmm_le
  refine ⟨?_, ?_, ?_, ?_⟩
  · intro r hr
    rw [hw _ (O.general_lt r), h.reg r hr]
  · rw [hw _ O.rip_lt, h.rip]
  · rw [hw _ O.eflags_lt, h.rflags]
  · intro i hi hlt
    rw [hf _ (by omega), hf _ (by omega), h.xmm i hi hlt]

theorem Sound.congr {mx : BitVec 32} (h : Sound O mx mem a)
    (heq : ∀ i < L.size / 8, i = L.fpregs ∨ i = L.fpOffset + O.mxcsr →
    mem'.get (slot a i) = mem.get (slot a i)) : Sound O mx mem' a := by
  have hlt := words_lt L
  have hfp := L.fpregs_lt
  have hmx := O.mxcsr_lt
  have hxmm := O.xmm_le
  refine ⟨h.ne, h.aligned, ?_, ?_, h.reserved⟩
  · rw [heq _ (by omega) (.inl rfl), h.fpregs]
  · have h' := h.mxcsr
    rw [slot_slot] at h' ⊢
    rw [heq _ (by omega) (.inr rfl), h']

end Words

section Step

variable {mx : Word → BitVec 32}

/-- What is written to save a context is not in another, nor is it what stays in the context. -/
theorem Ready.of_saves (hapart : Apart L contexts) (ha : a ∈ contexts) (hc : Clear L contexts sp)
    (hw : Cells.Within (Saves O a (slot a L.fpOffset) sp) mem mem') (hb : b ∈ contexts) (hi : i < L.size / 8)
    (h : b = a → i = L.fpregs ∨ i = L.fpOffset + O.mxcsr) : mem'.get (slot b i) = mem.get (slot b i) := by
  have hlt := words_lt L
  apply hw.get_eq
  intro hx
  obtain ⟨j, hj, h1, h2, he⟩ | hx := saves_sub hx
  · by_cases hab : b = a
    · subst hab
      have hij := Frame.slot_inj (by omega) (by omega) he
      have h := h rfl
      omega
    · exact hapart b hb a ha hab i hi j hj he
  · exact hc b hb i hi hx

/-- **The first half of a switch** leaves the other contexts alone. -/
theorem Ready.save (h : Ready O ctl mx contexts s) (hp : Proper L contexts s .swap) (hapart : Apart L contexts)
    (hctl : ∀ x f, alu x f &&& ctl = f &&& ctl) (hlow : low ctl = ctl) :
    ∃ m1, swapSave O alu ripRef swapReturn s.machine = some m1 ∧ m1.reg .rsi = s.machine.reg .rsi ∧
      (∀ c ∈ contexts, Sound O (mx c) m1.mem c) ∧
      (∀ c ∈ contexts, c ≠ s.machine.reg .rdi → ∀ i < L.size / 8,
        m1.mem.get (slot c i) = s.machine.mem.get (slot c i)) ∧
      (s.machine.reg .rdi ≠ 0 → Held O ctl m1.mem (s.machine.reg .rdi) (leave swapReturn s.machine)) := by
  obtain ⟨hsave, -, hclear⟩ := hp
  by_cases ha : s.machine.reg .rdi = 0
  · obtain ⟨flags, hrun⟩ := @swapSave_null L O alu ripRef swapReturn s.machine ha
    exact ⟨_, hrun, rfl, h.sound, fun _ _ _ _ _ => rfl, fun hne => absurd ha hne⟩
  · obtain ⟨hmem, -⟩ := hsave ha
    obtain ⟨m1, hrun, hsi, hsaved, hw⟩ :=
      @swapSave_spec L O alu ripRef swapReturn _ _ s.machine rfl ha ((h.sound _ hmem).savable hmem hclear)
    refine ⟨m1, hrun, hsi, ?_, ?_, fun _ => ⟨hsaved.reg, hsaved.rip, ?_, hsaved.xmm⟩⟩
    · intro c hc
      apply (h.sound c hc).congr
      intro i hi hstay
      exact Ready.of_saves hapart hmem hclear hw hc hi fun _ => hstay
    · intro c hc hne i hi
      exact Ready.of_saves hapart hmem hclear hw hc hi fun he => absurd he hne
    · -- the control bits are in the low half, and arithmetic does not change them
      have hand : ∀ v, low v &&& ctl = v &&& ctl := by
        intro v
        conv_lhs => rw [low, BitVec.and_assoc, BitVec.and_comm _ ctl]
        exact congrArg (v &&& ·) hlow
      rw [hsaved.flags, hand, hctl, hctl]
      rfl

/-- **A switch goes on where the context was left**, and what is in memory of the others stays so. -/
theorem Ready.swap (h : Ready O ctl mx contexts s) (hp : Proper L contexts s .swap) (hapart : Apart L contexts)
    (hctl : ∀ x f, alu x f &&& ctl = f &&& ctl) (hlow : low ctl = ctl)
    (hs : s.suspended (s.machine.reg .rsi) = some p) :
    ∃ m', swap O alu ripRef swapReturn s.machine = some m' ∧ GoesOn ctl p m' ∧
      m'.mxcsr = mx (s.machine.reg .rsi) ∧
      Ready O ctl mx contexts (s.swapped swapReturn m') := by
  have hlt := words_lt L
  obtain ⟨m1, hrun1, hsi, hsound, hother, hheld⟩ :=
    @Ready.save L O alu ripRef swapReturn ctl contexts s mx h hp hapart hctl hlow
  obtain ⟨hsave, -, hclear⟩ := hp
  obtain ⟨hb, hheldb, hclearb⟩ := h.held _ p hs
  -- the two contexts are not the same
  have hne : s.machine.reg .rsi ≠ s.machine.reg .rdi := by
    intro he
    have ha : s.machine.reg .rdi ≠ 0 := he ▸ (h.sound _ hb).ne
    rw [he, (hsave ha).2] at hs
    cases hs
  have hb1 := hheldb.congr (hother _ hb hne)
  obtain ⟨m', hrun2, hres, hw⟩ := @swapRestore_spec L O alu swapReturn m1 _ _ hsi (hsound _ hb |>.ne)
    ((hsound _ hb).restorable hb hclearb (hb1.reg .rsp (by decide)))
  rw [hb1.reg .rsp (by decide)] at hw
  -- the second half writes under the stack of the context only
  have hkeep : ∀ c ∈ contexts, ∀ i < L.size / 8, m'.mem.get (slot c i) = m1.mem.get (slot c i) :=
    fun c hc i hi => hw.get_eq _ (hclearb c hc i hi)
  refine ⟨m', ?_, ⟨?_, ?_, ?_, ?_⟩, ?_, ?_, ?_⟩
  · rw [Swap.swap, hrun1, Option.bind_some, hrun2]
  · intro r hr
    rw [hres.reg, hb1.reg r hr]
  · rw [hres.rip, hb1.rip]
  · rw [hres.rflags, hb1.rflags]
  · intro i hi hlt
    rw [hres.xmm i hlt, hb1.xmm i hi hlt]
  · rw [hres.mxcsr, (hsound _ hb).mxcsr]
  · intro c hc
    exact (hsound c hc).congr fun i hi _ => hkeep c hc i hi
  · intro c q hq
    dsimp only [St.swapped] at hq ⊢
    by_cases hcb : c = s.machine.reg .rsi
    · rw [hcb, update_self] at hq
      cases hq
    · rw [update_of_ne hcb] at hq
      by_cases ha : s.machine.reg .rdi = 0
      · rw [if_pos ha] at hq
        obtain ⟨hc, hheldc, hclearc⟩ := h.held c q hq
        have hca : c ≠ s.machine.reg .rdi := fun he => (h.sound c hc).ne (he.trans ha)
        exact ⟨hc, (hheldc.congr (hother c hc hca)).congr (hkeep c hc), hclearc⟩
      · rw [if_neg ha] at hq
        by_cases hca : c = s.machine.reg .rdi
        · subst hca
          rw [update_self] at hq
          obtain rfl := Option.some.inj hq
          have hc := (hsave ha).1
          exact ⟨hc, (hheld ha).congr (hkeep _ hc), hclear⟩
        · rw [update_of_ne hca] at hq
          obtain ⟨hc, hheldc, hclearc⟩ := h.held c q hq
          exact ⟨hc, (hheldc.congr (hother c hc hca)).congr (hkeep c hc), hclearc⟩

theorem Ready.step (hapart : Apart L contexts) (hctl : ∀ x f, alu x f &&& ctl = f &&& ctl) (hlow : low ctl = ctl)
    (h : Ready O ctl mx contexts s) (hp : Proper L contexts s act)
    (hs : s.step O alu ripRef swapReturn act = some s') :
    Ready O ctl mx contexts s' := by
  cases act with
  | run m =>
    obtain rfl := Option.some.inj hs
    refine ⟨fun a ha => (h.sound a ha).congr fun i hi _ => hp a ha i hi, fun a p hq => ?_⟩
    obtain ⟨ha, hheld, hclear⟩ := h.held a p hq
    exact ⟨ha, hheld.congr (hp a ha), hclear⟩
  | swap =>
    obtain ⟨p, hq⟩ := Option.isSome_iff_exists.1 hp.2.1
    obtain ⟨m', hrun, -, -, hready⟩ :=
      @Ready.swap L O alu ripRef swapReturn ctl contexts s p mx h hp hapart hctl hlow hq
    unfold St.step at hs
    rw [hrun, Option.map_some] at hs
    obtain rfl := Option.some.inj hs
    exact hready

/-- **In every run a context goes on where it was left.** -/
theorem swap_resumes (O : Offsets L) (alu : Word → Word → Word) (ripRef swapReturn ctl : Word)
    (contexts : Set Word) (mx : Word → BitVec 32) (hapart : Apart L contexts)
    (hctl : ∀ x f, alu x f &&& ctl = f &&& ctl) (hlow : low ctl = ctl) (s : St)
    (h : (sys O alu ripRef swapReturn (Ready O ctl mx contexts)).Reach (Proper L contexts) s)
    (hp : Proper L contexts s .swap) (p : Point) (hs : s.suspended (s.machine.reg .rsi) = some p) :
    ∃ m', swap O alu ripRef swapReturn s.machine = some m' ∧ GoesOn ctl p m' ∧
      m'.mxcsr = mx (s.machine.reg .rsi) := by
  have hready : Ready O ctl mx contexts s :=
    System.Reach.inv (fun _ h => h) (fun _ _ _ h hp hs => Ready.step hapart hctl hlow h hp hs) h
  obtain ⟨m', hrun, hgo, hmx, -⟩ := hready.swap hp hapart hctl hlow hs
  exact ⟨m', hrun, hgo, hmx⟩

/-- Two contexts. The second is suspended, with its stack at `0x40000`. -/
def turnsStart : St where
  machine := {
    reg := fun r =>
      match r with
      | .rdi => 0x10000
      | .rsi => 0x20000
      | .rsp => 0x30000
      | _ => 0
    rip := 0x400
    rflags := 0
    xmm := fun _ => (0, 0)
    mxcsr := 0x1f80
    mem := Cells.start fun x =>
      if x = slot 0x10000 28 then slot 0x10000 122
      else if x = slot 0x20000 28 then slot 0x20000 122
      else if x = slot 0x20000 20 then 0x40000
      else if x = slot 0x20000 21 then 0x500
      else 0 }
  suspended :=
    update (fun _ => none) 0x20000 (some ⟨fun r => if r = .rsp then 0x40000 else 0, 0x500, 0, fun _ => (0, 0)⟩)

theorem turnsStart_apart : Apart gnu {0x10000, 0x20000} := by
  have hslot : ∀ i < 186, ∀ j < 186, slot 0x10000 i ≠ slot 0x20000 j := by
    intro i hi j hj
    unfold slot
    bv_omega
  rintro a (rfl | rfl) b (rfl | rfl) hab i hi j hj
  · exact absurd rfl hab
  · exact hslot i hi j hj
  · exact (hslot j hj i hi).symm
  · exact absurd rfl hab

theorem turnsStart_clear (h : sp = 0x30000 ∨ sp = 0x40000) : Clear gnu {0x10000, 0x20000} sp := by
  have hslot : ∀ a, a = 0x10000 ∨ a = 0x20000 → ∀ i < 186, slot a i ∉ under sp := by
    intro a ha i hi hu
    have hlt : (slot a i).toNat < 0x30000 - 0x18 := by
      unfold slot
      obtain rfl | rfl := ha <;> bv_omega
    obtain rfl | rfl := h <;> obtain hu | hu | hu := hu <;> bv_omega
  exact hslot

theorem turnsStart_ready :
    Ready gnuOffsets 0x400 (fun _ => 0) {0x10000, 0x20000} turnsStart := by
  refine ⟨?_, ?_⟩
  · rintro a (rfl | rfl)
    · exact ⟨by decide, by decide, by decide, by decide, by decide⟩
    · exact ⟨by decide, by decide, by decide, by decide, by decide⟩
  · intro a p hp
    by_cases ha : a = 0x20000
    · subst ha
      obtain rfl := Option.some.inj hp
      refine ⟨.inr rfl, ⟨by decide, by decide, by decide, by decide⟩, ?_⟩
      exact turnsStart_clear (.inr rfl)
    · dsimp only [turnsStart] at hp
      rw [update_of_ne ha] at hp
      cases hp

/-- A switch from the first to the second. -/
theorem swap_resumes_second :
    ∃ m', swap gnuOffsets (fun _ f => f) 0x700 0x800 turnsStart.machine = some m' ∧
      GoesOn 0x400 ⟨fun r => if r = .rsp then 0x40000 else 0, 0x500, 0, fun _ => (0, 0)⟩ m' ∧ m'.mxcsr = 0 :=
  swap_resumes gnuOffsets (fun _ f => f) 0x700 0x800 0x400 {0x10000, 0x20000} (fun _ => 0) turnsStart_apart
    (fun _ _ => rfl) (by decide) turnsStart (.init turnsStart_ready)
    ⟨fun _ => ⟨.inl rfl, rfl⟩, rfl, turnsStart_clear (.inl rfl)⟩ _ rfl

end Step

end Prs.SwapSteps
