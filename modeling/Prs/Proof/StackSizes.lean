import Prs.Lib.Align
import Prs.Model.Stack

/-!
# Sizes of stacks

A page size is a power of two that divides `PRS_MAX_STACK_SIZE`.

* `alignSize_eq`, `alignSize_wraps`: a size is rounded up to whole pages, unless that wraps.
* `grow_ok`: an overflow in the area is always handled, with the pages from the end of the stack to the address.
* `create_ok`, `create_wraps`: the size that is available. A size that wraps gets no page at all.
* `honoured_iff`: the sizes of a stack are honoured exactly when the requested size is not in the last page of
  all sizes.
* `create_empty`: the largest size makes a stack of no size.
-/

namespace Prs.Stack

variable {k : ℕ} {pageSize bottom size addr newSize oldSize : Word} {mmap : Option Word} {commit : Commit}
    {c : Created}

/-- A page size. -/
structure IsPage (pageSize : Word) (k : ℕ) : Prop where
  pow : pageSize.toNat = 2 ^ k
  dvd : pageSize.toNat ∣ maxStackSize.toNat

/-- The area that the operating system returns is of whole pages, and does not wrap. -/
structure IsArea (pageSize bottom : Word) : Prop where
  ne_zero : bottom ≠ 0
  aligned : pageSize.toNat ∣ bottom.toNat
  fits : bottom.toNat + maxStackSize.toNat < 2 ^ 64

/-- What a successful `prs_stack_create` should report. -/
structure CreateOK (pageSize size : Word) (c : Created) : Prop where
  pages : pageSize.toNat ∣ c.availableSize.toNat
  requested : size ≤ c.availableSize
  max : c.availableSize ≤ maxStackSize

/-- What a successful `prs_stack_grow` should commit: exactly the pages from `stack - newSize` to `stack`. -/
structure GrowOK (pageSize bottom stack oldSize addr newSize : Word) (commit : Commit) : Prop where
  ptr : commit.ptr.toNat + newSize.toNat = stack.toNat
  size : commit.size = newSize
  pages : pageSize.toNat ∣ commit.ptr.toNat ∧ pageSize.toNat ∣ newSize.toNat
  faulting : commit.ptr.toNat ≤ addr.toNat ∧ addr.toNat < stack.toNat
  previous : oldSize ≤ newSize
  inside : bottom.toNat ≤ commit.ptr.toNat ∧ stack.toNat ≤ bottom.toNat + maxStackSize.toNat

/-- The sizes of a stack are honoured: at its creation, and in every sequence of overflows. -/
def Honoured (pageSize : Word) (mmap : Option Word) (size : Word) : Prop :=
  ∀ c, create pageSize mmap size = some c →
    CreateOK pageSize size c ∧
      ∀ bottom, mmap = some bottom → ∀ last, (sys pageSize bottom c).Reachable last → ∀ addr,
        Overflows bottom last addr →
        ∀ newSize commit, grow pageSize c.stack last addr = some (newSize, commit) →
          GrowOK pageSize bottom c.stack last addr newSize commit

theorem maxStackSize_toNat : maxStackSize.toNat = 1048576 := rfl

section Align

theorem IsPage.le (h : IsPage pageSize k) : 2 ^ k ≤ 1048576 := by
  have hle := Nat.le_of_dvd (by decide) h.dvd
  rwa [h.pow] at hle

theorem IsPage.mask (h : IsPage pageSize k) : (pageSize - 1).toNat = 2 ^ k - 1 := by
  have hpos := Nat.two_pow_pos k
  have hpow := h.pow
  have hlt := pageSize.isLt
  have hone : (1 : Word).toNat = 1 := rfl
  rw [BitVec.toNat_sub, hone, hpow]
  omega

theorem alignSize_eq (h : IsPage pageSize k) (hs : size.toNat + pageSize.toNat ≤ 2 ^ 64) :
    (alignSize size pageSize).toNat = roundUp size.toNat (2 ^ k) := by
  have hpos := Nat.two_pow_pos k
  rw [h.pow] at hs
  apply toNat_roundUp h.mask
  omega

theorem alignSize_wraps (h : IsPage pageSize k) (hs : 2 ^ 64 < size.toNat + pageSize.toNat) :
    alignSize size pageSize = 0 := by
  rw [h.pow] at hs
  apply roundUp_wraps h.mask
  omega

end Align

section Grow

/-- The end of the committed part, from the end of the area. -/
theorem limit_toNat (ha : IsArea pageSize bottom) {aligned : Word} (hle : aligned ≤ maxStackSize) :
    (bottom + (maxStackSize - aligned)).toNat + aligned.toNat = bottom.toNat + 1048576 := by
  have hfits := ha.fits
  have hle' : aligned.toNat ≤ maxStackSize.toNat := hle
  rw [maxStackSize_toNat] at hfits hle'
  have hsub : (maxStackSize - aligned).toNat = 1048576 - aligned.toNat := by
    rw [BitVec.toNat_sub_of_le hle, maxStackSize_toNat]
  rw [BitVec.toNat_add, hsub, Nat.mod_eq_of_lt (by omega)]
  omega

/-- **An overflow in the area is handled.** -/
theorem grow_ok (h : IsPage pageSize k) (ha : IsArea pageSize bottom) (ho : Overflows bottom oldSize addr) :
    ∃ newSize commit, grow pageSize (bottom + maxStackSize) oldSize addr = some (newSize, commit) ∧
      GrowOK pageSize bottom (bottom + maxStackSize) oldSize addr newSize commit := by
  obtain ⟨hlow, hhigh⟩ := ho
  have hfits := ha.fits
  have hple := h.le
  have hdvd := h.dvd
  have hpow := h.pow
  have hpos : 0 < 2 ^ k := Nat.two_pow_pos k
  rw [maxStackSize_toNat] at hfits hhigh hdvd
  have hstack : (bottom + maxStackSize).toNat = bottom.toNat + 1048576 := by
    rw [BitVec.toNat_add, maxStackSize_toNat, Nat.mod_eq_of_lt hfits]
  -- what is required is in the area, so what it is rounded up to is as well
  have hreq : (bottom + maxStackSize - addr).toNat = bottom.toNat + 1048576 - addr.toNat := by
    have hle : addr ≤ bottom + maxStackSize := by
      rw [BitVec.le_def, hstack]
      omega
    rw [BitVec.toNat_sub_of_le hle, hstack]
  have halign : (alignSize (bottom + maxStackSize - addr) pageSize).toNat =
      roundUp (bottom + maxStackSize - addr).toNat (2 ^ k) := by
    apply alignSize_eq h
    rw [hreq, hpow]
    omega
  have hge := le_roundUp (bottom + maxStackSize - addr).toNat hpos
  have hdvdNew := dvd_roundUp (bottom + maxStackSize - addr).toNat (2 ^ k)
  have hmax : roundUp (bottom + maxStackSize - addr).toNat (2 ^ k) ≤ 1048576 := by
    apply roundUp_le _ hpos (hpow ▸ hdvd)
    rw [hreq]
    omega
  rw [← halign] at hge hdvdNew hmax
  have hle : alignSize (bottom + maxStackSize - addr) pageSize ≤ maxStackSize := hmax
  have hbottom : bottom + maxStackSize - maxStackSize = bottom := BitVec.add_sub_cancel bottom maxStackSize
  have hlimit := limit_toNat ha hle
  refine ⟨_, _, (if_neg (BitVec.not_lt.2 hle)).trans rfl, ?_⟩
  rw [hbottom]
  refine ⟨?_, rfl, ⟨?_, hpow ▸ hdvdNew⟩, ⟨?_, ?_⟩, ?_, ?_, ?_⟩
  · exact hlimit.trans hstack.symm
  · have hsum : pageSize.toNat ∣ bottom.toNat + 1048576 := Nat.dvd_add ha.aligned hdvd
    rw [← hlimit] at hsum
    exact (Nat.dvd_add_left (hpow ▸ hdvdNew)).1 hsum
  · dsimp only
    omega
  · omega
  · rw [BitVec.le_def]
    omega
  · dsimp only
    omega
  · rw [hstack]
    exact Nat.le_refl _

end Grow

section Create

/-- The requested size is rounded up, or there is no stack. -/
theorem create_ok (h : IsPage pageSize k) (hs : size.toNat + pageSize.toNat ≤ 2 ^ 64)
    (hc : create pageSize mmap size = some c) : CreateOK pageSize size c := by
  have halign := alignSize_eq h hs
  have hge := le_roundUp size.toNat (Nat.two_pow_pos k)
  unfold create at hc
  dsimp only at hc
  by_cases hmax : alignSize size pageSize > maxStackSize
  · rw [if_pos hmax] at hc
    cases hc
  rw [if_neg hmax] at hc
  by_cases hb : memMap mmap = 0
  · rw [if_pos hb] at hc
    cases hc
  rw [if_neg hb] at hc
  obtain rfl := Option.some.inj hc
  refine ⟨?_, ?_, BitVec.not_lt.1 hmax⟩
  · dsimp only
    rw [halign, h.pow]
    exact dvd_roundUp _ _
  · rw [BitVec.le_def, halign]
    exact hge

theorem create_stack (hc : create pageSize mmap size = some c) : c.stack = memMap mmap + maxStackSize := by
  unfold create at hc
  dsimp only at hc
  split at hc
  · cases hc
  · split at hc
    · cases hc
    · obtain rfl := Option.some.inj hc
      rfl

/-- **A size that wraps** gets no page, and a stack all the same. -/
theorem create_wraps (h : IsPage pageSize k) (ha : ∀ bottom, mmap = some bottom → IsArea pageSize bottom)
    (hs : 2 ^ 64 < size.toNat + pageSize.toNat) :
    ∃ c, create pageSize mmap size = some c ∧ c.availableSize = 0 := by
  have hb : memMap mmap ≠ 0 := by
    cases mmap with
    | none => exact fun hb => absurd hb (by decide)
    | some bottom => exact (ha bottom rfl).ne_zero
  refine ⟨⟨memMap mmap + maxStackSize, 0, ⟨memMap mmap + (maxStackSize - 0), 0⟩⟩, ?_, rfl⟩
  unfold create
  dsimp only
  rw [alignSize_wraps h hs, if_neg (by decide), if_neg hb]

/-- **The sizes of a stack are honoured exactly when the requested size does not wrap.** -/
theorem honoured_iff (h : IsPage pageSize k) (ha : ∀ bottom, mmap = some bottom → IsArea pageSize bottom)
    (hs : size ≠ 0) :
    Honoured pageSize mmap size ↔ size.toNat + pageSize.toNat ≤ 2 ^ 64 := by
  constructor
  · intro hh
    by_contra hwrap
    obtain ⟨c, hc, hzero⟩ := create_wraps h ha (Nat.lt_of_not_le hwrap)
    have hreq := (hh c hc).1.requested
    rw [hzero] at hreq
    exact hs (BitVec.le_zero_iff.1 hreq)
  · intro hfit c hc
    refine ⟨create_ok h hfit hc, ?_⟩
    intro bottom hm last _ addr ho newSize commit hg
    obtain ⟨newSize', commit', hg', hok⟩ := grow_ok h (ha bottom hm) ho
    have hstack : c.stack = bottom + maxStackSize := by
      rw [create_stack hc, hm]
      rfl
    rw [hstack] at hg ⊢
    rw [hg'] at hg
    cases hg
    exact hok

theorem isPage_4096 : IsPage 4096 12 := ⟨by decide, by decide⟩

theorem isArea_low (bottom : Word) (h : some 0x10000000 = some bottom) : IsArea 4096 bottom := by
  obtain rfl := Option.some.inj h
  exact ⟨by decide, by decide, by decide⟩

theorem honoured_iff_5000 : Honoured 4096 (some 0x10000000) 5000 ↔
    (5000 : Word).toNat + (4096 : Word).toNat ≤ 2 ^ 64 :=
  honoured_iff isPage_4096 isArea_low (by decide)

/-- The largest size makes a stack of no size. -/
theorem create_empty :
    ¬ (∀ (k : ℕ) (pageSize : Word) (mmap : Option Word) (size : Word), IsPage pageSize k →
      (∀ bottom, mmap = some bottom → IsArea pageSize bottom) → size ≠ 0 → Honoured pageSize mmap size) ∧
    (create 4096 (some 0x10000000) (BitVec.allOnes 64)).map Created.availableSize = some 0 := by
  have hempty : (create 4096 (some 0x10000000) (BitVec.allOnes 64)).map Created.availableSize = some 0 := by
    decide
  refine ⟨fun h => ?_, hempty⟩
  obtain ⟨c, hc, hzero⟩ := Option.map_eq_some_iff.1 hempty
  have hreq :=
    (h 12 4096 (some 0x10000000) (BitVec.allOnes 64) isPage_4096 isArea_low (by decide) c hc).1.requested
  rw [hzero] at hreq
  exact absurd hreq (by decide)

end Create

end Prs.Stack
