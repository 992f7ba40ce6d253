import Prs.Lib.Align
import Prs.Model.ElfLoad

/-!
# Which segments fit the reserved area

The size of the area is computed again from each `PT_LOAD` entry, so it is that of the last one, relative to
the first. An entry that ends later than the last one, or that starts before the first, is written outside of
the area. The area is the one at `MAP_FAILED` when the operating system has none.

* `extent_loads`: the loop leaves the `p_vaddr` of the first entry and the end of the last.
* `written_iff`: the bytes that the copy loop writes are the bytes of the segments.
* `bytes_inside_iff`: when a range of addresses is in an area.
* `segments_fit_iff`: the exact tables whose segments are in the area.
-/

namespace Prs.ElfLoad

open Prs.Stack (Word alignSize memMap)

variable {os : Os} {f : File} {area : Area} {ph first last : Phdr} {phdrs : List Phdr} {a data size : Word}
    {k : ℕ}

/-- The address is in `[proc->data, proc->data + proc->size)`. -/
def Area.Contains (area : Area) (a : Word) : Prop :=
  area.data.toNat ≤ a.toNat ∧ a.toNat < area.data.toNat + area.size.toNat

/-- The addresses of the segment: `[vbase + p_vaddr, vbase + p_vaddr + p_memsz)`. -/
def Phdr.Byte (ph : Phdr) (vbase a : Word) : Prop :=
  ∃ i < ph.memsz.toNat, a = vbase + ph.vaddr + BitVec.ofNat 64 i

/-- The `PT_LOAD` entries. -/
def loads (phdrs : List Phdr) : List Phdr := phdrs.filter Phdr.isLoad

theorem loads_cons_of_not (hl : ph.isLoad = false) : loads (ph :: phdrs) = loads phdrs :=
  List.filter_cons_of_neg (ne_true_of_eq_false hl)

theorem loads_cons_of_load (hl : ph.isLoad = true) : loads (ph :: phdrs) = ph :: loads phdrs :=
  List.filter_cons_of_pos hl

/-- Where the segment starts in the area, relative to the first. -/
def Phdr.start (ph first : Phdr) : ℕ := (ph.vaddr - first.vaddr).toNat

/-- The size that the entry gives. -/
def Phdr.extentEnd (ph first : Phdr) : Word := ph.vaddr - first.vaddr + ph.memsz

/-! ## The size -/

/-- A loop that has started keeps its `vstart`, and its size is that of the last entry. -/
theorem foldl_extent (vstart : Word) (phdrs : List Phdr) (n : Word) :
    phdrs.foldl Extent.next ⟨some vstart, n⟩ =
      ⟨some vstart, ((loads phdrs).getLast?.map fun ph => ph.vaddr - vstart + ph.memsz).getD n⟩ := by
  induction phdrs generalizing n with
  | nil => rfl
  | cons ph phdrs ih =>
    rw [List.foldl_cons, Extent.next]
    cases hl : ph.isLoad with
    | false =>
      rw [if_neg Bool.false_ne_true, ih, loads_cons_of_not hl]
    | true =>
      rw [if_pos rfl, loads_cons_of_load hl, List.getLast?_cons, Option.getD_some, ih]
      cases (loads phdrs).getLast? <;> rfl

theorem extent_none (h : loads phdrs = []) : extent phdrs = ⟨none, 0⟩ := by
  unfold extent
  induction phdrs with
  | nil => rfl
  | cons ph phdrs ih =>
    have hnot := List.filter_eq_nil_iff.1 h ph List.mem_cons_self
    rw [loads_cons_of_not (eq_false_of_ne_true hnot)] at h
    rw [List.foldl_cons, Extent.next, if_neg hnot]
    exact ih h

/-- **The loop that finds the size** takes the start from the first entry and the end from the last. -/
theorem extent_loads (hf : (loads phdrs).head? = some first) (hl : (loads phdrs).getLast? = some last) :
    extent phdrs = ⟨some first.vaddr, last.extentEnd first⟩ := by
  unfold extent
  induction phdrs with
  | nil => exact absurd hf (Option.some_ne_none first).symm
  | cons ph phdrs ih =>
    rw [List.foldl_cons, Extent.next]
    cases hload : ph.isLoad with
    | false =>
      rw [loads_cons_of_not hload] at hf hl
      rw [if_neg Bool.false_ne_true]
      exact ih hf hl
    | true =>
      rw [loads_cons_of_load hload] at hf hl
      obtain rfl := Option.some.inj hf
      -- the first entry sets `vstart`, and from then on the size is that of the last entry
      rw [if_pos rfl, Option.getD_none, foldl_extent]
      rw [List.getLast?_cons] at hl
      cases hlast : (loads phdrs).getLast? with
      | none =>
        rw [hlast] at hl
        obtain rfl := Option.some.inj hl
        rfl
      | some ph' =>
        rw [hlast] at hl
        obtain rfl := Option.some.inj hl
        rfl

/-! ## The addresses -/

/-- The addresses `data + off + i` for `i < n`, in words, are in an interval from `data` on of `m` numbers. -/
theorem wrapped_inside_iff {data off n m w : ℕ} (hdata : data < w) (hoff : off < w) (hn : n < w) (hm : m < w) :
    (∀ i < n, data ≤ (data + off + i) % w ∧ (data + off + i) % w < data + m) ↔
      n = 0 ∨ off + n ≤ m ∧ data + off + n ≤ w := by
  have hlow : ∀ x, x < w → x % w = x := fun x hx => Nat.mod_eq_of_lt hx
  have hhigh : ∀ x, w ≤ x → x < w + w → x % w = x - w := fun x hx hlt => by
    rw [Nat.mod_eq_sub_mod hx, Nat.mod_eq_of_lt (by omega)]
  constructor
  · intro h
    obtain rfl | hpos := Nat.eq_zero_or_pos n
    · exact .inl rfl
    · have hstart : data + off < w := by
        by_contra hge
        have h0 := h 0 hpos
        rw [Nat.add_zero, hhigh _ (Nat.le_of_not_lt hge) (by omega)] at h0
        omega
      have hend : data + off + n ≤ w := by
        -- else the addresses pass the last one of all and go on at zero
        by_contra hgt
        have hlast := h (w - 1 - (data + off)) (by omega)
        have hzero := h (w - (data + off)) (by omega)
        have he : data + off + (w - 1 - (data + off)) = w - 1 := by omega
        have he' : data + off + (w - (data + off)) = w := by omega
        rw [he, hlow _ (by omega)] at hlast
        rw [he', Nat.mod_self] at hzero
        omega
      -- the last address is below the end
      have hmax := h (n - 1) (by omega)
      rw [hlow _ (by omega)] at hmax
      exact .inr ⟨by omega, hend⟩
  · rintro (rfl | ⟨hfit, hend⟩) i hi
    · exact absurd hi (Nat.not_lt_zero i)
    · rw [hlow _ (by omega)]
      omega

/-- **The segments that are in an area** end before it does. -/
theorem bytes_inside_iff (hvbase : area.vbase = area.data + -first.vaddr) :
    (∀ a, ph.Byte area.vbase a → area.Contains a) ↔
      ph.memsz.toNat = 0 ∨
        ph.start first + ph.memsz.toNat ≤ area.size.toNat ∧
          area.data.toNat + ph.start first + ph.memsz.toNat ≤ 2 ^ 64 := by
  have haddr : ∀ i < ph.memsz.toNat, (area.vbase + ph.vaddr + BitVec.ofNat 64 i).toNat =
      (area.data.toNat + ph.start first + i) % 2 ^ 64 := by
    intro i hi
    have hsum : area.vbase + ph.vaddr = area.data + (ph.vaddr - first.vaddr) := by
      rw [hvbase, BitVec.add_assoc, BitVec.add_comm (-first.vaddr), BitVec.sub_eq_add_neg]
    rw [hsum, BitVec.toNat_add, BitVec.toNat_add, BitVec.toNat_ofNat, Phdr.start]
    omega
  have hoff : ph.start first < 2 ^ 64 := (ph.vaddr - first.vaddr).isLt
  rw [← wrapped_inside_iff area.data.isLt hoff ph.memsz.isLt area.size.isLt]
  constructor
  · intro h i hi
    have hin := h _ ⟨i, hi, rfl⟩
    rw [Area.Contains, haddr i hi] at hin
    exact hin
  · rintro h a ⟨i, hi, rfl⟩
    rw [Area.Contains, haddr i hi]
    exact h i hi

/-! ## What the copy loop writes -/

/-- The effect stores to the address. -/
def Effect.Writes (a : Word) : Effect → Prop
  | .protect .. => False
  | .copy dst _ n => ∃ i < n.toNat, a = dst + BitVec.ofNat 64 i
  | .zero dst n => ∃ i < n.toNat, a = dst + BitVec.ofNat 64 i

/-- A turn that goes on writes the whole segment and nothing else. -/
theorem copySegment_writes {pageSize base vbase : Word} (hsz : ph.filesz ≤ ph.memsz) :
    (∃ e ∈ (copySegment pageSize base vbase ph).1, e.Writes a) ↔ ph.Byte vbase a := by
  have hle : ph.filesz.toNat ≤ ph.memsz.toNat := hsz
  have hsub : (ph.memsz - ph.filesz).toNat = ph.memsz.toNat - ph.filesz.toNat := BitVec.toNat_sub_of_le hsz
  have hgo : ¬ ph.filesz > ph.memsz := BitVec.not_lt.2 hsz
  have haddr : ∀ i, vbase + ph.vaddr + ph.filesz + BitVec.ofNat 64 i =
      vbase + ph.vaddr + BitVec.ofNat 64 (ph.filesz.toNat + i) := by
    intro i
    rw [BitVec.ofNat_add, BitVec.ofNat_toNat, BitVec.setWidth_eq, ← BitVec.add_assoc]
  rw [copySegment, if_neg hgo]
  simp only [List.mem_cons, List.not_mem_nil, or_false, exists_eq_or_imp, exists_eq_left, Effect.Writes,
    false_or, hsub, haddr]
  constructor
  · rintro (⟨i, hi, rfl⟩ | ⟨i, hi, rfl⟩)
    · exact ⟨i, by omega, rfl⟩
    · exact ⟨ph.filesz.toNat + i, by omega, rfl⟩
  · rintro ⟨i, hi, rfl⟩
    by_cases hfile : i < ph.filesz.toNat
    · exact .inl ⟨i, hfile, rfl⟩
    · have hsplit : ph.filesz.toNat + (i - ph.filesz.toNat) = i := by omega
      exact .inr ⟨i - ph.filesz.toNat, by omega, by rw [hsplit]⟩

/-- A turn that `PRS_FATAL_WHEN` stops writes nothing. -/
theorem copySegment_fatal {pageSize base vbase : Word} (hsz : ph.memsz < ph.filesz) :
    ¬ ∃ e ∈ (copySegment pageSize base vbase ph).1, e.Writes a := by
  rw [copySegment, if_pos hsz]
  simp [Effect.Writes]

/-- **The bytes that the copy loop writes** are bytes of the segments. -/
theorem written_segment {pageSize base vbase : Word} {e : Effect} (he : e ∈ copyLoop pageSize base vbase phdrs)
    (hw : e.Writes a) : ∃ ph ∈ loads phdrs, ph.Byte vbase a := by
  induction phdrs with
  | nil => exact absurd he List.not_mem_nil
  | cons ph phdrs ih =>
    rw [copyLoop] at he
    cases hl : ph.isLoad with
    | false =>
      rw [hl, if_neg Bool.false_ne_true] at he
      rw [loads_cons_of_not hl]
      exact ih he
    | true =>
      rw [hl, if_pos rfl, List.mem_append] at he
      rw [loads_cons_of_load hl]
      obtain he | he := he
      · by_cases hsz : ph.filesz ≤ ph.memsz
        · exact ⟨ph, List.mem_cons_self, (copySegment_writes hsz).1 ⟨e, he, hw⟩⟩
        · exact absurd ⟨e, he, hw⟩ (copySegment_fatal (BitVec.not_le.1 hsz))
      · obtain ⟨ph', hph', hbyte⟩ : ∃ ph' ∈ loads phdrs, ph'.Byte vbase a := by
          apply ih
          split at he
          · exact he
          · exact absurd he List.not_mem_nil
        exact ⟨ph', List.mem_cons_of_mem _ hph', hbyte⟩

/-- All of them, when the loop is not stopped. -/
theorem segment_written {pageSize base vbase : Word} (hsz : ∀ ph ∈ loads phdrs, ph.filesz ≤ ph.memsz)
    (hph : ph ∈ loads phdrs) (hbyte : ph.Byte vbase a) :
    ∃ e ∈ copyLoop pageSize base vbase phdrs, e.Writes a := by
  induction phdrs with
  | nil => exact absurd hph List.not_mem_nil
  | cons ph' phdrs ih =>
    rw [copyLoop]
    cases hl : ph'.isLoad with
    | false =>
      rw [loads_cons_of_not hl] at hsz hph
      rw [if_neg Bool.false_ne_true]
      exact ih hsz hph
    | true =>
      rw [loads_cons_of_load hl] at hsz hph
      have hsz' := hsz ph' List.mem_cons_self
      have hgo : (copySegment pageSize base vbase ph').2 = true := by
        rw [copySegment, if_neg (BitVec.not_lt.2 hsz')]
      simp only [if_true, hgo]
      obtain rfl | hph := List.mem_cons.1 hph
      · obtain ⟨e, he, hw⟩ := (copySegment_writes hsz').2 hbyte
        exact ⟨e, List.mem_append_left _ he, hw⟩
      · obtain ⟨e, he, hw⟩ := ih (fun x hx => hsz x (List.mem_cons_of_mem _ hx)) hph
        exact ⟨e, List.mem_append_right _ he, hw⟩

/-! ## The reserved area -/

/-- What `reserve` leaves, from the first and the last entry. -/
structure Reserved (os : Os) (phdrs : List Phdr) (first last : Phdr) (area : Area) : Prop where
  head : (loads phdrs).head? = some first
  getLast : (loads phdrs).getLast? = some last
  size : area.size = alignSize (last.extentEnd first) os.pageSize
  data : area.data = memMap (os.mmap area.size)
  vbase : area.vbase = area.data + -first.vaddr

theorem reserve_spec (h : reserve os f = .ok area) : ∃ first last, Reserved os f.phdrs first last area := by
  unfold reserve at h
  split at h
  case h_1 => exact absurd h (by simp)
  case h_2 =>
    obtain hnil | hne := eq_or_ne (loads f.phdrs) []
    · rw [extent_none hnil] at h
      exact absurd h (by simp)
    · have hfirst := List.head?_eq_some_head hne
      have hlast := List.getLast?_eq_some_getLast hne
      rw [extent_loads hfirst hlast] at h
      simp only at h
      split at h
      case isTrue => exact absurd h (by simp)
      case isFalse =>
        obtain rfl := Except.ok.inj h
        exact ⟨_, _, hfirst, hlast, rfl, rfl, rfl⟩

/-- What the operating system says of page sizes and areas: a page size is a power of two, and an area does
not wrap. -/
structure Os.OK (os : Os) (k : ℕ) : Prop where
  page : os.pageSize.toNat = 2 ^ k
  area : ∀ n a, os.mmap n = some a → a.toNat + n.toNat ≤ 2 ^ 64

/-- The size of an area that covers `n` bytes. -/
theorem alignSize_covers_iff {pageSize n : Word} (hpage : pageSize.toNat = 2 ^ k) {m : ℕ} (hm : 0 < m) :
    m ≤ (alignSize n pageSize).toNat ↔
      n.toNat + (pageSize.toNat - 1) < 2 ^ 64 ∧ m ≤ roundUp n.toNat pageSize.toNat := by
  have hlt := pageSize.isLt
  have hpos : 0 < 2 ^ k := Nat.two_pow_pos k
  have hone : (1 : Word).toNat = 1 := rfl
  have hmask : (pageSize - 1).toNat = 2 ^ k - 1 := by
    rw [BitVec.toNat_sub, hone]
    omega
  rw [alignSize, hpage]
  -- a size that wraps is rounded to zero, which covers nothing
  by_cases hwrap : n.toNat + (2 ^ k - 1) < 2 ^ 64
  · rw [toNat_roundUp hmask hwrap]
    simp only [hwrap, true_and]
  · rw [roundUp_wraps hmask (Nat.le_of_not_lt hwrap)]
    have hzero : ¬ m ≤ (0 : Word).toNat := Nat.not_le.2 hm
    simp only [hwrap, hzero, false_and]

/-- The entry `ph` ends in the pages up to the end of the last entry, which does not wrap; and an area was
found, but for a byte at the place of the first. -/
structure Covered (os : Os) (first last ph : Phdr) : Prop where
  rounds : (last.extentEnd first).toNat + (os.pageSize.toNat - 1) < 2 ^ 64
  ends : ph.start first + ph.memsz.toNat ≤ roundUp (last.extentEnd first).toNat os.pageSize.toNat
  found : os.mmap (alignSize (last.extentEnd first) os.pageSize) = none → ph.start first + ph.memsz.toNat ≤ 1

/-- A segment in the reserved area. -/
theorem Reserved.inside_iff (hr : Reserved os phdrs first last area) (hos : os.OK k) :
    (∀ a, ph.Byte area.vbase a → area.Contains a) ↔ (ph.memsz.toNat ≠ 0 → Covered os first last ph) := by
  rw [bytes_inside_iff hr.vbase, or_iff_not_imp_left, Nat.add_assoc]
  apply imp_congr_right
  intro hne
  have hcovers := @alignSize_covers_iff k os.pageSize (last.extentEnd first) hos.page
    (ph.start first + ph.memsz.toNat)
    (by omega)
  rw [← hr.size] at hcovers
  rw [hcovers]
  constructor
  · rintro ⟨⟨hrounds, hends⟩, hdata⟩
    refine ⟨hrounds, hends, fun hnone => ?_⟩
    -- the area is at `MAP_FAILED`, the last address
    rw [hr.data, hr.size, hnone] at hdata
    have hlast : (memMap none).toNat = 2 ^ 64 - 1 := rfl
    omega
  · intro hc
    refine ⟨⟨hc.rounds, hc.ends⟩, ?_⟩
    have hle := hcovers.2 ⟨hc.rounds, hc.ends⟩
    rw [hr.data]
    cases hm : os.mmap area.size with
    | none =>
      have hone := hc.found (hr.size ▸ hm)
      have hlast : (memMap none).toNat = 2 ^ 64 - 1 := rfl
      omega
    | some a =>
      have harea := hos.area _ _ hm
      have hsome : (memMap (some a)).toNat = a.toNat := rfl
      omega

/-- **The tables whose segments fit the area.** In a call that reaches the copy loop, the segments are in the
area exactly when each `PT_LOAD` entry that has memory is covered by the first and the last. -/
theorem segments_fit_iff (hos : os.OK k) (h : reserve os f = .ok area) :
    (∀ ph ∈ f.phdrs, ph.isLoad = true → ∀ a, ph.Byte area.vbase a → area.Contains a) ↔
      ∀ first last, (loads f.phdrs).head? = some first → (loads f.phdrs).getLast? = some last →
        ∀ ph ∈ f.phdrs, ph.isLoad = true → ph.memsz.toNat ≠ 0 → Covered os first last ph := by
  obtain ⟨first, last, hr⟩ := reserve_spec h
  constructor
  · intro hin first' last' hfirst hlast ph hph hl
    obtain rfl := Option.some.inj (hr.head.symm.trans hfirst)
    obtain rfl := Option.some.inj (hr.getLast.symm.trans hlast)
    exact (hr.inside_iff hos).1 (hin ph hph hl)
  · intro hcov ph hph hl
    exact (hr.inside_iff hos).2 (hcov first last hr.head hr.getLast ph hph hl)

/-- Then the copy loop writes in the area only. -/
theorem written_inside (hos : os.OK k) (hr : Reserved os f.phdrs first last area)
    (hcov : ∀ ph ∈ loads f.phdrs, ph.memsz.toNat ≠ 0 → Covered os first last ph) {e : Effect}
    (he : e ∈ copyLoop os.pageSize f.base area.vbase f.phdrs) (hw : e.Writes a) : area.Contains a := by
  obtain ⟨ph, hph, hbyte⟩ := written_segment he hw
  exact (hr.inside_iff hos).2 (hcov ph hph) a hbyte

/-- An entry that starts after the first and ends before the last is covered, when the addresses do not wrap
and there is an area. -/
theorem covered_of_between (hstart : first.vaddr.toNat ≤ ph.vaddr.toNat)
    (hlast : first.vaddr.toNat ≤ last.vaddr.toNat)
    (hend : ph.vaddr.toNat + ph.memsz.toNat ≤ last.vaddr.toNat + last.memsz.toNat)
    (hpage : 0 < os.pageSize.toNat)
    (hwrap : last.vaddr.toNat + last.memsz.toNat + (os.pageSize.toNat - 1) < 2 ^ 64)
    (hfound : os.mmap (alignSize (last.extentEnd first) os.pageSize) ≠ none) : Covered os first last ph := by
  have hsub : ∀ x : Phdr, first.vaddr.toNat ≤ x.vaddr.toNat → x.start first = x.vaddr.toNat - first.vaddr.toNat :=
    fun x hx => BitVec.toNat_sub_of_le hx
  have hoff := hsub last hlast
  have hext : (last.extentEnd first).toNat = last.start first + last.memsz.toNat := by
    rw [Phdr.extentEnd, BitVec.toNat_add, Nat.mod_eq_of_lt]
    · rfl
    · unfold Phdr.start at hoff
      omega
  have hup := le_roundUp (last.start first + last.memsz.toNat) hpage
  refine ⟨?_, ?_, fun hnone => absurd hnone hfound⟩
  · rw [hext]
    omega
  · rw [hext, hsub ph hstart]
    omega

/-! ## Tables -/

/-- Pages of 4096 bytes, and an area for each size that is not zero and not above `2 ^ 46`. -/
def linux : Os where
  pageSize := 4096
  mmap n := if n = 0 ∨ n > 0x400000000000 then none else some 0x7f0000000000

theorem linux_ok : linux.OK 12 where
  page := rfl
  area n a h := by
    unfold linux at h
    obtain ⟨hn, rfl⟩ : ¬ (n = 0 ∨ n > 0x400000000000) ∧ 0x7f0000000000 = a := by
      simpa using h
    have hle : n.toNat ≤ (0x400000000000 : Word).toNat := BitVec.not_lt.1 fun hlt => hn (.inr hlt)
    have hmax : (0x400000000000 : Word).toNat = 70368744177664 := rfl
    have haddr : (0x7f0000000000 : Word).toNat = 139637976727552 := rfl
    omega

/-- An entry with all its bytes in the file. -/
def segment (vaddr memsz : Word) : Phdr := ⟨1, 6, vaddr, vaddr, memsz, memsz⟩

/-- An ELF file for `x86_64`. -/
def elfFile (phdrs : List Phdr) : File := ⟨0x7e0000000000, ⟨0x7f, 0x45, 0x4c, 0x46, 2, 1, 1, 0⟩, phdrs⟩

theorem segments_fit_iff_ascending :
    (∀ ph ∈ [segment 0x1000 0x1000, segment 0x3000 0x500], ph.isLoad = true →
        ∀ a, ph.Byte (0x7f0000000000 - 0x1000) a →
        Area.Contains ⟨0x7f0000000000, 0x3000, 0x7f0000000000 - 0x1000⟩ a) ↔
      ∀ first last, (loads [segment 0x1000 0x1000, segment 0x3000 0x500]).head? = some first →
        (loads [segment 0x1000 0x1000, segment 0x3000 0x500]).getLast? = some last →
          ∀ ph ∈ [segment 0x1000 0x1000, segment 0x3000 0x500], ph.isLoad = true → ph.memsz.toNat ≠ 0 →
            Covered linux first last ph :=
  @segments_fit_iff linux (elfFile [segment 0x1000 0x1000, segment 0x3000 0x500])
    ⟨0x7f0000000000, 0x3000, 0x7f0000000000 - 0x1000⟩ 12 linux_ok rfl

/-- **A table out of order**: the second segment is written below the area. And a segment for which there is
no area: it is written from `MAP_FAILED` on. -/
theorem segment_outside :
    (∃ area, reserve linux (elfFile [segment 0x1000 0x1000, segment 0 0x1000, segment 0x2000 0x1000]) = .ok area ∧
      ∃ e ∈ copyLoop linux.pageSize 0x7e0000000000 area.vbase
        [segment 0x1000 0x1000, segment 0 0x1000, segment 0x2000 0x1000], ∃ a, e.Writes a ∧ ¬ area.Contains a) ∧
    ∃ area, reserve linux (elfFile [segment 0 0x800000000000]) = .ok area ∧
      ∃ e ∈ copyLoop linux.pageSize 0x7e0000000000 area.vbase [segment 0 0x800000000000],
        ∃ a, e.Writes a ∧ ¬ area.Contains a := by
  constructor
  · refine ⟨⟨0x7f0000000000, 0x2000, 0x7f0000000000 - 0x1000⟩, rfl, ?_⟩
    refine ⟨.copy 0x7efffffff000 0x7e0000000000 0x1000, by decide, 0x7efffffff000, ⟨0, by decide, rfl⟩, ?_⟩
    unfold Area.Contains
    decide
  · refine ⟨⟨BitVec.allOnes 64, 0x800000000000, BitVec.allOnes 64⟩, rfl, ?_⟩
    refine ⟨.copy (BitVec.allOnes 64) 0x7e0000000000 0x800000000000, by decide, 0, ⟨1, by decide, rfl⟩, ?_⟩
    unfold Area.Contains
    decide

end Prs.ElfLoad
