import Mathlib.Data.Nat.Notation
import Prs.Lib.Cells

/-!
# A part of the AMD64 instruction set

A machine has the sixteen general registers, `rip`, `rflags`, the `xmm` registers as two words each, `mxcsr`,
and a memory of words of eight bytes. The addresses that a program uses are multiples of eight, so that two
words never overlap. What arithmetic leaves in `rflags` is a parameter. An access of `movaps` that is not
aligned, and a load of reserved bits into `mxcsr`, are faults: there is no machine after them.

* `exec_append`: a program is run in parts.
* `exec_loads`, `exec_stores`: runs of loads from one base, and of stores to one.
* `exec_movapsLoads`, `exec_movapsStores`: the same for `xmm` registers.
-/

namespace Prs.Amd64

open Function

abbrev Word : Type := BitVec 64

abbrev Memory : Type := Cells Word Word

/-- The general registers. -/
inductive Reg
  | rax | rbx | rcx | rdx | rsi | rdi | rbp | rsp
  | r8 | r9 | r10 | r11 | r12 | r13 | r14 | r15
  deriving DecidableEq

/-- The state of a machine. -/
structure Machine where
  reg : Reg → Word
  rip : Word
  rflags : Word
  /-- The low and the high word. -/
  xmm : ℕ → Word × Word
  mxcsr : BitVec 32
  mem : Memory

/-- The operands are in the order of the source: what is read, then what is written. -/
inductive Instr
  | mov (src dst : Reg)
  | movImm (v : Word) (dst : Reg)
  | load (off : Word) (base dst : Reg)
  | store (src : Reg) (off : Word) (base : Reg)
  | load32 (off : Word) (base dst : Reg)
  | store32 (src : Reg) (off : Word) (base : Reg)
  | add (v : Word) (dst : Reg)
  | sub (v : Word) (dst : Reg)
  | xor (src dst : Reg)
  | test (src dst : Reg)
  | pop (dst : Reg)
  | pushfq
  | popfq
  | call (target back : Word)
  | ret
  | movapsLoad (off : Word) (base : Reg) (i : ℕ)
  | movapsStore (i : ℕ) (off : Word) (base : Reg)
  | ldmxcsr (off : Word) (base : Reg)

/-- A register with another value. -/
def Machine.set (m : Machine) (r : Reg) (v : Word) : Machine := { m with reg := update m.reg r v }

/-- A word goes under the top of the stack. -/
def Machine.push (m : Machine) (v : Word) : Machine :=
  { m with reg := update m.reg .rsp (m.reg .rsp - 8), mem := m.mem.set (m.reg .rsp - 8) v }

/-- The two words at an address go to an `xmm` register. -/
def Machine.loadXmm (m : Machine) (i : ℕ) (a : Word) : Machine :=
  { m with xmm := update m.xmm i (m.mem.get a, m.mem.get (a + 8)) }

/-- An `xmm` register goes to the two words at an address. -/
def Machine.storeXmm (m : Machine) (i : ℕ) (a : Word) : Machine :=
  { m with mem := (m.mem.set a (m.xmm i).1).set (a + 8) (m.xmm i).2 }

/-- The low half of a word. -/
def low (v : Word) : Word := v &&& 0xFFFFFFFF

/-- A word with another low half. -/
def setLow (old v : Word) : Word := (old &&& 0xFFFFFFFF00000000) ||| low v

/-- The bits of `mxcsr` that are not reserved. -/
def mxcsrMask : BitVec 32 := 0xFFFF

/-- An instruction. `alu` is what arithmetic leaves in `rflags`, from its result and the flags before. -/
def step (alu : Word → Word → Word) (m : Machine) : Instr → Option Machine
  | .mov src dst => some (m.set dst (m.reg src))
  | .movImm v dst => some (m.set dst v)
  | .load off base dst => some (m.set dst (m.mem.get (m.reg base + off)))
  | .store src off base => some { m with mem := m.mem.set (m.reg base + off) (m.reg src) }
  | .load32 off base dst => some (m.set dst (low (m.mem.get (m.reg base + off))))
  | .store32 src off base =>
    let a := m.reg base + off
    some { m with mem := m.mem.set a (setLow (m.mem.get a) (m.reg src)) }
  | .add v dst =>
    let x := m.reg dst + v
    some { m.set dst x with rflags := alu x m.rflags }
  | .sub v dst =>
    let x := m.reg dst - v
    some { m.set dst x with rflags := alu x m.rflags }
  | .xor src dst =>
    let x := m.reg src ^^^ m.reg dst
    some { m.set dst x with rflags := alu x m.rflags }
  | .test src dst => some { m with rflags := alu (m.reg src &&& m.reg dst) m.rflags }
  | .pop dst => some (m.set .rsp (m.reg .rsp + 8) |>.set dst (m.mem.get (m.reg .rsp)))
  | .pushfq => some (m.push m.rflags)
  | .popfq => some { m.set .rsp (m.reg .rsp + 8) with rflags := m.mem.get (m.reg .rsp) }
  | .call target back => some { m.push back with rip := target }
  | .ret => some { m.set .rsp (m.reg .rsp + 8) with rip := m.mem.get (m.reg .rsp) }
  | .movapsLoad off base i =>
    if (m.reg base + off).toNat % 16 = 0 then some (m.loadXmm i (m.reg base + off)) else none
  | .movapsStore i off base =>
    if (m.reg base + off).toNat % 16 = 0 then some (m.storeXmm i (m.reg base + off)) else none
  | .ldmxcsr off base =>
    let v := (m.mem.get (m.reg base + off)).setWidth 32
    if v &&& ~~~mxcsrMask = 0 then some { m with mxcsr := v } else none

/-- The instructions of a program without jumps, one after the other. -/
def exec (alu : Word → Word → Word) (code : List Instr) (m : Machine) : Option Machine := code.foldlM (step alu) m

variable {alu : Word → Word → Word} {code code' : List Instr} {m m' : Machine} {i : Instr}

@[simp] theorem exec_nil : exec alu [] m = some m := rfl

theorem exec_cons : exec alu (i :: code) m = (step alu m i).bind (exec alu code) := rfl

/-- A first instruction that has a result is done. -/
theorem exec_cons_of (h : step alu m i = some m') : exec alu (i :: code) m = exec alu code m' := by
  rw [exec_cons, h, Option.bind_some]

/-- A program is run in two parts. -/
theorem exec_append : exec alu (code ++ code') m = (exec alu code m).bind (exec alu code') := List.foldlM_append

/-- A first part that has a result is done. -/
theorem exec_append_of (h : exec alu code m = some m') : exec alu (code ++ code') m = exec alu code' m' := by
  rw [exec_append, h, Option.bind_some]

@[simp] theorem set_reg_self (m : Machine) (r : Reg) (v : Word) : (m.set r v).reg r = v := update_self ..

theorem set_reg_of_ne {r r' : Reg} (h : r' ≠ r) (m : Machine) (v : Word) : (m.set r v).reg r' = m.reg r' :=
  update_of_ne h ..

section Step

variable {src dst base : Reg} {off v target back : Word}

@[simp] theorem exec_mov : exec alu (.mov src dst :: code) m = exec alu code (m.set dst (m.reg src)) :=
  exec_cons_of rfl

@[simp] theorem exec_movImm : exec alu (.movImm v dst :: code) m = exec alu code (m.set dst v) := exec_cons_of rfl

@[simp] theorem exec_load :
    exec alu (.load off base dst :: code) m = exec alu code (m.set dst (m.mem.get (m.reg base + off))) :=
  exec_cons_of rfl

@[simp] theorem exec_store : exec alu (.store src off base :: code) m =
    exec alu code { m with mem := m.mem.set (m.reg base + off) (m.reg src) } := exec_cons_of rfl

@[simp] theorem exec_load32 : exec alu (.load32 off base dst :: code) m =
    exec alu code (m.set dst (low (m.mem.get (m.reg base + off)))) := exec_cons_of rfl

@[simp] theorem exec_store32 : exec alu (.store32 src off base :: code) m = exec alu code { m with
    mem := m.mem.set (m.reg base + off) (setLow (m.mem.get (m.reg base + off)) (m.reg src)) } := exec_cons_of rfl

@[simp] theorem exec_add : exec alu (.add v dst :: code) m =
    exec alu code { m.set dst (m.reg dst + v) with rflags := alu (m.reg dst + v) m.rflags } := exec_cons_of rfl

@[simp] theorem exec_sub : exec alu (.sub v dst :: code) m =
    exec alu code { m.set dst (m.reg dst - v) with rflags := alu (m.reg dst - v) m.rflags } := exec_cons_of rfl

@[simp] theorem exec_xor : exec alu (.xor src dst :: code) m =
    exec alu code { m.set dst (m.reg src ^^^ m.reg dst) with rflags := alu (m.reg src ^^^ m.reg dst) m.rflags } :=
  exec_cons_of rfl

@[simp] theorem exec_pop : exec alu (.pop dst :: code) m =
    exec alu code (m.set .rsp (m.reg .rsp + 8) |>.set dst (m.mem.get (m.reg .rsp))) := exec_cons_of rfl

@[simp] theorem exec_pushfq : exec alu (.pushfq :: code) m = exec alu code (m.push m.rflags) := exec_cons_of rfl

@[simp] theorem exec_popfq : exec alu (.popfq :: code) m =
    exec alu code { m.set .rsp (m.reg .rsp + 8) with rflags := m.mem.get (m.reg .rsp) } := exec_cons_of rfl

@[simp] theorem exec_call : exec alu (.call target back :: code) m =
    exec alu code { m.push back with rip := target } := exec_cons_of rfl

@[simp] theorem exec_ret : exec alu (.ret :: code) m =
    exec alu code { m.set .rsp (m.reg .rsp + 8) with rip := m.mem.get (m.reg .rsp) } := exec_cons_of rfl

end Step

section Runs

variable {base : Reg}

/-- **A run of loads** from one base, into different registers. -/
theorem exec_loads (l : List (Word × Reg)) (hb : base ∉ l.map Prod.snd) (hn : (l.map Prod.snd).Nodup) :
    ∃ reg, exec alu (l.map fun x => .load x.1 base x.2) m = some { m with reg := reg } ∧
      (∀ x ∈ l, reg x.2 = m.mem.get (m.reg base + x.1)) ∧ ∀ r ∉ l.map Prod.snd, reg r = m.reg r := by
  induction l generalizing m with
  | nil => exact ⟨m.reg, rfl, nofun, fun _ _ => rfl⟩
  | cons x l ih =>
    rw [List.map_cons, List.mem_cons, not_or] at hb
    rw [List.map_cons, List.nodup_cons] at hn
    obtain ⟨reg, hrun, hl, hother⟩ := @ih (m.set x.2 (m.mem.get (m.reg base + x.1))) hb.2 hn.2
    refine ⟨reg, ?_, ?_, ?_⟩
    · rw [List.map_cons, exec_cons_of rfl]
      exact hrun
    · intro y hy
      obtain rfl | hy := List.mem_cons.1 hy
      · -- no later load is to this register
        rw [hother y.2 hn.1, set_reg_self]
      · rw [hl y hy, set_reg_of_ne hb.1]
        rfl
    · intro r hr
      rw [List.map_cons, List.mem_cons, not_or] at hr
      rw [hother r hr.2, set_reg_of_ne hr.1]

/-- **A run of stores** to different places of one base. -/
theorem exec_stores (l : List (Reg × Word)) (hn : (l.map Prod.snd).Nodup) :
    ∃ mem, exec alu (l.map fun x => .store x.1 x.2 base) m = some { m with mem := mem } ∧
      (∀ x ∈ l, mem.get (m.reg base + x.2) = m.reg x.1) ∧
      Cells.Within {a | ∃ x ∈ l, a = m.reg base + x.2} m.mem mem := by
  induction l generalizing m with
  | nil => exact ⟨m.mem, rfl, nofun, Cells.Within.refl _ _⟩
  | cons x l ih =>
    rw [List.map_cons, List.nodup_cons] at hn
    obtain ⟨mem, hrun, hl, hw⟩ := @ih { m with mem := m.mem.set (m.reg base + x.2) (m.reg x.1) } hn.2
    refine ⟨mem, ?_, ?_, ?_⟩
    · rw [List.map_cons, exec_cons_of rfl]
      exact hrun
    · intro y hy
      obtain rfl | hy := List.mem_cons.1 hy
      · -- no later store is to this place
        have hout : m.reg base + y.2 ∉ {a | ∃ z ∈ l, a = m.reg base + z.2} := by
          rintro ⟨z, hz, he⟩
          have hyz : y.2 = z.2 := (BitVec.add_right_inj _).1 he
          exact hn.1 (hyz ▸ List.mem_map_of_mem hz)
        rw [hw.get_eq _ hout, Cells.get_set_self]
      · exact hl y hy
    · have hset : Cells.Within {a | ∃ y ∈ x :: l, a = m.reg base + y.2} m.mem
          (m.mem.set (m.reg base + x.2) (m.reg x.1)) := Cells.Within.set _ _ ⟨x, List.mem_cons_self, rfl⟩
      apply hset.trans
      apply hw.mono
      rintro a ⟨y, hy, rfl⟩
      exact ⟨y, List.mem_cons_of_mem x hy, rfl⟩

/-- **A run of loads of `xmm` registers** from one base. -/
theorem exec_movapsLoads (l : List (Word × ℕ)) (ha : ∀ x ∈ l, (m.reg base + x.1).toNat % 16 = 0)
    (hn : (l.map Prod.snd).Nodup) :
    ∃ xmm, exec alu (l.map fun x => .movapsLoad x.1 base x.2) m = some { m with xmm := xmm } ∧
      (∀ x ∈ l, xmm x.2 = (m.mem.get (m.reg base + x.1), m.mem.get (m.reg base + x.1 + 8))) ∧
      ∀ i ∉ l.map Prod.snd, xmm i = m.xmm i := by
  induction l generalizing m with
  | nil => exact ⟨m.xmm, rfl, nofun, fun _ _ => rfl⟩
  | cons x l ih =>
    rw [List.map_cons, List.nodup_cons] at hn
    have hstep : step alu m (.movapsLoad x.1 base x.2) = some (m.loadXmm x.2 (m.reg base + x.1)) :=
      if_pos (ha x List.mem_cons_self)
    obtain ⟨xmm, hrun, hl, hother⟩ := @ih (m.loadXmm x.2 (m.reg base + x.1))
      (fun y hy => ha y (List.mem_cons_of_mem x hy)) hn.2
    refine ⟨xmm, ?_, ?_, ?_⟩
    · rw [List.map_cons, exec_cons_of hstep]
      exact hrun
    · intro y hy
      obtain rfl | hy := List.mem_cons.1 hy
      · rw [hother y.2 hn.1]
        exact update_self ..
      · exact hl y hy
    · intro i hi
      rw [List.map_cons, List.mem_cons, not_or] at hi
      rw [hother i hi.2]
      exact update_of_ne hi.1 ..

/-- The two words of an `xmm` register. -/
def pair (a : Word) : Set Word := {x | x = a ∨ x = a + 8}

/-- Two `xmm` registers at different aligned addresses have no word in common. -/
theorem notMem_pair {a b : Word} (ha : a.toNat % 16 = 0) (hb : b.toNat % 16 = 0) (h : a ≠ b) :
    a ∉ pair b ∧ a + 8 ∉ pair b := by
  have hne : a.toNat ≠ b.toNat := fun he => h (BitVec.eq_of_toNat_eq he)
  constructor
  · rintro (he | he)
    · exact h he
    · bv_omega
  · rintro (he | he) <;> bv_omega

/-- **A run of stores of `xmm` registers** to different places of one base. -/
theorem exec_movapsStores (l : List (ℕ × Word)) (ha : ∀ x ∈ l, (m.reg base + x.2).toNat % 16 = 0)
    (hn : (l.map Prod.snd).Nodup) :
    ∃ mem, exec alu (l.map fun x => .movapsStore x.1 x.2 base) m = some { m with mem := mem } ∧
      (∀ x ∈ l, (mem.get (m.reg base + x.2), mem.get (m.reg base + x.2 + 8)) = m.xmm x.1) ∧
      Cells.Within {a | ∃ x ∈ l, a ∈ pair (m.reg base + x.2)} m.mem mem := by
  induction l generalizing m with
  | nil => exact ⟨m.mem, rfl, nofun, Cells.Within.refl _ _⟩
  | cons x l ih =>
    rw [List.map_cons, List.nodup_cons] at hn
    have hax := ha x List.mem_cons_self
    have hstep : step alu m (.movapsStore x.1 x.2 base) = some (m.storeXmm x.1 (m.reg base + x.2)) := if_pos hax
    obtain ⟨mem, hrun, hl, hw⟩ := @ih (m.storeXmm x.1 (m.reg base + x.2))
      (fun y hy => ha y (List.mem_cons_of_mem x hy)) hn.2
    refine ⟨mem, ?_, ?_, ?_⟩
    · rw [List.map_cons, exec_cons_of hstep]
      exact hrun
    · intro y hy
      obtain rfl | hy := List.mem_cons.1 hy
      · -- no later store is to these words
        have hout : ∀ z ∈ l,
            m.reg base + y.2 ∉ pair (m.reg base + z.2) ∧ m.reg base + y.2 + 8 ∉ pair (m.reg base + z.2) := by
          intro z hz
          apply notMem_pair hax (ha z (List.mem_cons_of_mem y hz))
          intro he
          have hyz : y.2 = z.2 := (BitVec.add_right_inj _).1 he
          exact hn.1 (hyz ▸ List.mem_map_of_mem hz)
        have hne : m.reg base + y.2 ≠ m.reg base + y.2 + 8 := by
          bv_omega
        have hlow : mem.get (m.reg base + y.2) =
            (m.storeXmm y.1 (m.reg base + y.2)).mem.get (m.reg base + y.2) := by
          apply hw.get_eq
          rintro ⟨z, hz, h⟩
          exact (hout z hz).1 h
        have hhigh : mem.get (m.reg base + y.2 + 8) =
            (m.storeXmm y.1 (m.reg base + y.2)).mem.get (m.reg base + y.2 + 8) := by
          apply hw.get_eq
          rintro ⟨z, hz, h⟩
          exact (hout z hz).2 h
        rw [hlow, hhigh]
        unfold Machine.storeXmm
        dsimp only
        rw [Cells.get_set_self, Cells.get_set_of_ne _ _ hne, Cells.get_set_self]
      · exact hl y hy
    · have hset : Cells.Within {a | ∃ y ∈ x :: l, a ∈ pair (m.reg base + y.2)} m.mem
          (m.storeXmm x.1 (m.reg base + x.2)).mem := by
        have hlow : m.reg base + x.2 ∈ {a | ∃ y ∈ x :: l, a ∈ pair (m.reg base + y.2)} :=
          ⟨x, List.mem_cons_self, .inl rfl⟩
        have hhigh : m.reg base + x.2 + 8 ∈ {a | ∃ y ∈ x :: l, a ∈ pair (m.reg base + y.2)} :=
          ⟨x, List.mem_cons_self, .inr rfl⟩
        exact (Cells.Within.set m.mem _ hlow).trans (Cells.Within.set _ _ hhigh)
      apply hset.trans
      apply hw.mono
      rintro a ⟨y, hy, h⟩
      exact ⟨y, List.mem_cons_of_mem x hy, h⟩

end Runs

end Prs.Amd64
