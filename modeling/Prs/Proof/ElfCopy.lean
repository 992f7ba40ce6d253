import Prs.Lib.Writes
import Prs.Model.ElfImage
import Prs.Proof.ElfLoadFits

/-!
# What the copy loop leaves in memory

Each segment makes its pages writable, stores its bytes and gives the pages its own access. A later segment
that meets it wins: at its bytes, and at the whole pages that it touches.

* `copySegment_run`: one turn is a write of bytes and a write of pages.
* `copy_eq`: the loop is the writes of the segments, in the order of the table.
* `segments_copied`: each byte is that of the last segment that has it, and each page has the access of the
  last segment that touches it.
-/

namespace Prs.ElfLoad

open Prs.Stack (Word alignSize memMap)

variable {os : Os} {f : Elf} {area : Area} {ph : Phdr} {phdrs : List Phdr} {m m' : Mem} {pageSize : Word}
    {a k n : ℕ}

/-- An area that was found: whole pages, which do not wrap, and not the page at zero. -/
structure Area.Mapped (area : Area) (k : ℕ) : Prop where
  data : 2 ^ k ∣ area.data.toNat
  size : 2 ^ k ∣ area.size.toNat
  wrap : area.data.toNat + area.size.toNat ≤ 2 ^ 64
  pos : 0 < area.data.toNat

/-- Areas start at a page. -/
def Os.Paged (os : Os) (k : ℕ) : Prop := ∀ n a, os.mmap n = some a → 2 ^ k ∣ a.toNat

theorem data_ne_zero {f : File} (h : reserve os f = .ok area) : area.data ≠ 0 := by
  unfold reserve at h
  split at h
  case h_1 => cases h
  case h_2 =>
    dsimp only at h
    split at h
    case h_1 => cases h
    case h_2 =>
      split at h
      case isTrue => cases h
      case isFalse hne =>
        obtain rfl := Except.ok.inj h
        exact hne

theorem mapped_of_reserve {f : File} (hos : os.OK k) (hpaged : os.Paged k) (h : reserve os f = .ok area)
    (hfound : os.mmap area.size ≠ none) : area.Mapped k := by
  obtain ⟨first, last, hr⟩ := reserve_spec h
  obtain ⟨d, hd⟩ := Option.ne_none_iff_exists'.1 hfound
  have hdata : area.data = d := by rw [hr.data, hd]; rfl
  refine ⟨hdata ▸ hpaged _ _ hd, ?_, hdata ▸ hos.area _ _ hd, ?_⟩
  · have hone : (1 : Word).toNat = 1 := rfl
    have hpos : 0 < 2 ^ k := Nat.two_pow_pos k
    have hpage := hos.page
    have hlt := os.pageSize.isLt
    have hmask : (os.pageSize - 1).toNat = 2 ^ k - 1 := by
      rw [BitVec.toNat_sub, hone]
      omega
    rw [hr.size, alignSize, toNat_and_not _ _ hmask]
    exact Nat.dvd_mul_left ..
  · have hne := data_ne_zero h
    by_contra hzero
    exact hne (BitVec.eq_of_toNat_eq (Nat.eq_zero_of_not_pos hzero))

/-! ## The place of a segment -/

/-- Where the segment starts. -/
def Phdr.place (ph : Phdr) (vbase : Word) : ℕ := (vbase + ph.vaddr).toNat

/-- The segment is in the area. -/
structure Phdr.Placed (ph : Phdr) (area : Area) : Prop where
  le : area.data.toNat ≤ ph.place area.vbase
  fits : ph.place area.vbase + ph.memsz.toNat ≤ area.data.toNat + area.size.toNat

theorem placed_of_bytes {first : Phdr} (hvbase : area.vbase = area.data + -first.vaddr) (hm : ph.memsz ≠ 0)
    (h : ∀ a, ph.Byte area.vbase a → area.Contains a) : ph.Placed area := by
  have hne : ph.memsz.toNat ≠ 0 := fun hzero => hm (BitVec.eq_of_toNat_eq hzero)
  obtain ⟨hfits, hwrap⟩ := ((bytes_inside_iff hvbase).1 h).resolve_left hne
  have hsum : area.vbase + ph.vaddr = area.data + (ph.vaddr - first.vaddr) := by
    rw [hvbase, BitVec.add_assoc, BitVec.add_comm (-first.vaddr), BitVec.sub_eq_add_neg]
  have hplace : ph.place area.vbase = area.data.toNat + ph.start first := by
    unfold Phdr.place Phdr.start
    rw [hsum, BitVec.toNat_add, Nat.mod_eq_of_lt]
    unfold Phdr.start at hwrap
    omega
  constructor <;> omega

/-- The first page of the segment, and the bytes of its pages. -/
def Phdr.pageStart (ph : Phdr) (k : ℕ) (vbase : Word) : ℕ := ph.place vbase - ph.place vbase % 2 ^ k

def Phdr.pageSpan (ph : Phdr) (k : ℕ) (vbase : Word) : ℕ :=
  roundUp (ph.memsz.toNat + ph.place vbase % 2 ^ k) (2 ^ k)

theorem le_pageSpan (ph : Phdr) (k : ℕ) (vbase : Word) :
    ph.place vbase + ph.memsz.toNat ≤ ph.pageStart k vbase + ph.pageSpan k vbase := by
  have hup := le_roundUp (ph.memsz.toNat + ph.place vbase % 2 ^ k) (Nat.two_pow_pos k)
  have hle := Nat.mod_le (ph.place vbase) (2 ^ k)
  unfold Phdr.pageStart Phdr.pageSpan
  omega

/-- The pages of a segment are in the area. -/
theorem pages_inside (ha : area.Mapped k) (hp : ph.Placed area) :
    area.data.toNat ≤ ph.pageStart k area.vbase ∧
      ph.pageStart k area.vbase + ph.pageSpan k area.vbase ≤ area.data.toNat + area.size.toNat := by
  have hle := Nat.mod_le (ph.place area.vbase) (2 ^ k)
  have hstart : 2 ^ k ∣ ph.pageStart k area.vbase := Nat.dvd_sub_mod _
  have hdata : area.data.toNat ≤ ph.pageStart k area.vbase := by
    obtain ⟨q, hq⟩ := ha.data
    have hplace := hp.le
    have hdiv : q ≤ ph.place area.vbase / 2 ^ k := by
      rw [Nat.le_div_iff_mul_le (Nat.two_pow_pos k), Nat.mul_comm, ← hq]
      exact hplace
    have hmul := Nat.mul_le_mul_left (2 ^ k) hdiv
    have hdm := Nat.div_add_mod (ph.place area.vbase) (2 ^ k)
    unfold Phdr.pageStart
    omega
  refine ⟨hdata, ?_⟩
  have hfits := hp.fits
  have hend : 2 ^ k ∣ area.data.toNat + area.size.toNat - ph.pageStart k area.vbase :=
    Nat.dvd_sub (Nat.dvd_add ha.data ha.size) hstart
  have hround : ph.pageSpan k area.vbase ≤ area.data.toNat + area.size.toNat - ph.pageStart k area.vbase := by
    apply roundUp_le _ (Nat.two_pow_pos k) hend
    unfold Phdr.pageStart
    omega
  have hpos : ph.pageStart k area.vbase ≤ ph.place area.vbase := Nat.sub_le ..
  omega

/-! ## One turn -/

/-- The byte of the segment at an offset in it. -/
def Elf.image (f : Elf) (ph : Phdr) (i : ℕ) : BitVec 8 :=
  if i < ph.filesz.toNat then f.byte (ph.offset.toNat + i) else 0

/-- The segment as a write. -/
def Elf.segment (f : Elf) (vbase : Word) (ph : Phdr) : ℕ → Option (BitVec 8) :=
  fill (ph.place vbase) ph.memsz.toNat (f.image ph)

/-- Its pages as a write. -/
def Phdr.pages (k : ℕ) (vbase : Word) (ph : Phdr) : ℕ → Option Flags :=
  fill (ph.pageStart k vbase) (ph.pageSpan k vbase) fun _ => ph.access

/-- The file has the bytes of the segment, which are not more than its memory. -/
structure Phdr.InFile (ph : Phdr) (f : Elf) : Prop where
  sizes : ph.filesz ≤ ph.memsz
  bytes : ph.filesz ≠ 0 → ph.offset.toNat + ph.filesz.toNat ≤ f.bytes.length

theorem protect_eq {ptr size : Word} {flags : Flags} (h : area.Range ptr (roundUp size.toNat pageSize.toNat)) :
    m.protect pageSize area ptr size flags =
      some { m with
        access := write m.access (fill ptr.toNat (roundUp size.toNat pageSize.toNat) fun _ => flags) } := by
  unfold Mem.protect
  rw [if_pos h]
  congr 2
  funext a
  rw [write_fill]

theorem fill_eq {ptr : Word} {value : ℕ → BitVec 8} (h : n ≠ 0 → m.Writable area ptr n) :
    m.fill area ptr n value = some { m with byte := write m.byte (fill ptr.toNat n value) } := by
  unfold Mem.fill
  by_cases hn : n = 0
  · have hnone : write m.byte (fill ptr.toNat n value) = m.byte := by
      funext a
      exact write_of_none (fill_of_not (by omega))
    rw [if_pos hn, hnone]
  · rw [if_neg hn, if_pos (h hn)]
    congr 2
    funext a
    rw [write_fill]

/-- The bytes of a segment are in its pages. -/
theorem place_in_pages (ph : Phdr) (k : ℕ) (vbase : Word) :
    ph.pageStart k vbase ≤ ph.place vbase ∧
      ph.place vbase + ph.memsz.toNat ≤ ph.pageStart k vbase + ph.pageSpan k vbase :=
  ⟨Nat.sub_le .., le_pageSpan ph k vbase⟩

section Turn

variable (hpage : pageSize.toNat = 2 ^ k) (ha : area.Mapped k) (hp : ph.Placed area)
include hpage ha hp

/-- `psize` and `aligned_pbase`. -/
theorem aligned_eq :
    ((if (area.vbase + ph.vaddr) % pageSize = 0 then ph.memsz
        else ph.memsz + (area.vbase + ph.vaddr) % pageSize : Word).toNat =
      ph.memsz.toNat + ph.place area.vbase % 2 ^ k) ∧
    (if (area.vbase + ph.vaddr) % pageSize = 0 then area.vbase + ph.vaddr
        else area.vbase + ph.vaddr - (area.vbase + ph.vaddr) % pageSize : Word).toNat =
          ph.pageStart k area.vbase := by
  have hmod : ((area.vbase + ph.vaddr) % pageSize).toNat = ph.place area.vbase % 2 ^ k := by
    rw [BitVec.toNat_umod, hpage, Phdr.place]
  have hlt : ph.memsz.toNat + ph.place area.vbase % 2 ^ k < 2 ^ 64 := by
    -- the area does not start at zero, so the first page of the segment does not either
    have hstart := (pages_inside ha hp).1
    have hpos := ha.pos
    have hwrap := ha.wrap
    have hfits := hp.fits
    unfold Phdr.pageStart at hstart
    omega
  constructor
  · split
    case isTrue hz =>
      rw [hz] at hmod
      rw [← hmod]
      rfl
    case isFalse => rw [BitVec.toNat_add, hmod, Nat.mod_eq_of_lt hlt]
  · split
    case isTrue hz =>
      rw [hz] at hmod
      unfold Phdr.pageStart
      rw [← hmod]
      rfl
    case isFalse =>
      have hle : (area.vbase + ph.vaddr) % pageSize ≤ area.vbase + ph.vaddr := by
        rw [BitVec.le_def, hmod]
        exact Nat.mod_le ..
      rw [BitVec.toNat_sub_of_le hle, hmod]
      rfl

/-- The pages of a segment get an access. -/
theorem protect_run {ptr psize : Word} (hsize : psize.toNat = ph.memsz.toNat + ph.place area.vbase % 2 ^ k)
    (hptr : ptr.toNat = ph.pageStart k area.vbase) (c : Bytes.Mem) (q : ℕ → Flags) (flags : Flags) :
    f.run pageSize area ⟨c, q⟩ (.protect ptr psize flags) =
      some ⟨c, write q (fill (ph.pageStart k area.vbase) (ph.pageSpan k area.vbase) fun _ => flags)⟩ := by
  obtain ⟨hlow, hhigh⟩ := pages_inside ha hp
  have hspan : roundUp psize.toNat pageSize.toNat = ph.pageSpan k area.vbase := by
    rw [hsize, hpage]
    rfl
  have hrange : area.Range ptr (roundUp psize.toNat pageSize.toNat) := by
    rw [hspan]
    unfold Area.Range
    rw [hptr]
    exact ⟨hlow, hhigh⟩
  unfold Elf.run
  dsimp only
  rw [protect_eq hrange, hspan, hptr]

omit hpage in
/-- The bytes of a segment are stored while they are writable. -/
theorem segment_run {q : ℕ → Flags} (hq : ∀ i < ph.memsz.toNat, (q (ph.place area.vbase + i)).write = true)
    (hf : ph.InFile f) (c : Bytes.Mem) :
    f.run pageSize area ⟨c, q⟩ (.copy (area.vbase + ph.vaddr) (f.base + ph.offset) ph.filesz) =
        some ⟨write c (fill (ph.place area.vbase) ph.filesz.toNat fun i => f.byte (ph.offset.toNat + i)), q⟩ ∧
      f.run pageSize area ⟨c, q⟩ (.zero (area.vbase + ph.vaddr + ph.filesz) (ph.memsz - ph.filesz)) =
        some ⟨write c
          (fill (ph.place area.vbase + ph.filesz.toNat) (ph.memsz.toNat - ph.filesz.toNat) fun _ => 0), q⟩ := by
  have hle : ph.filesz.toNat ≤ ph.memsz.toNat := hf.sizes
  have hlow := hp.le
  have hfits := hp.fits
  have hwrap := ha.wrap
  have hplace : (area.vbase + ph.vaddr).toNat = ph.place area.vbase := rfl
  have hwritable : ∀ (b : Word) (n : ℕ), ph.place area.vbase ≤ b.toNat →
      b.toNat + n ≤ ph.place area.vbase + ph.memsz.toNat → Mem.Writable ⟨c, q⟩ area b n := by
    intro b n hb hn
    refine ⟨⟨by omega, by omega⟩, fun i hi => ?_⟩
    have hbyte := hq (b.toNat - ph.place area.vbase + i) (by omega)
    have haddr : ph.place area.vbase + (b.toNat - ph.place area.vbase + i) = b.toNat + i := by omega
    rwa [haddr] at hbyte
  constructor
  · have hsrc : f.base + ph.offset - f.base = ph.offset := by rw [BitVec.add_comm, BitVec.add_sub_cancel]
    unfold Elf.run
    dsimp only
    rw [hsrc, if_pos (or_iff_not_imp_left.2 hf.bytes),
      fill_eq fun _ => hwritable _ _ (Nat.le_of_eq hplace.symm) (by rw [hplace]; omega), hplace]
  · have hsub : (ph.memsz - ph.filesz).toNat = ph.memsz.toNat - ph.filesz.toNat := BitVec.toNat_sub_of_le hf.sizes
    have hdst : ph.memsz.toNat - ph.filesz.toNat ≠ 0 →
        (area.vbase + ph.vaddr + ph.filesz).toNat = ph.place area.vbase + ph.filesz.toNat := by
      intro hne
      rw [BitVec.toNat_add, hplace, Nat.mod_eq_of_lt (by omega)]
    unfold Elf.run
    dsimp only
    rw [hsub, fill_eq fun hne => hwritable _ _ (by rw [hdst hne]; omega) (by rw [hdst hne]; omega)]
    congr 2
    by_cases hne : ph.memsz.toNat - ph.filesz.toNat = 0
    · funext a
      rw [hne, write_of_none (fill_of_not (by omega)), write_of_none (fill_of_not (by omega))]
    · rw [hdst hne]

/-- **A turn of the copy loop** writes the bytes of the segment and gives its pages their access. -/
theorem copySegment_run (hf : ph.InFile f) :
    (copySegment pageSize f.base area.vbase ph).1.foldlM (f.run pageSize area) m =
      some ⟨write m.byte (f.segment area.vbase ph), write m.access (ph.pages k area.vbase)⟩ := by
  obtain ⟨hsize, hptr⟩ := aligned_eq hpage ha hp
  obtain ⟨hin, hend⟩ := place_in_pages ph k area.vbase
  have hle : ph.filesz.toNat ≤ ph.memsz.toNat := hf.sizes
  unfold copySegment
  rw [if_neg (BitVec.not_lt.2 hf.sizes)]
  dsimp only
  generalize (if (area.vbase + ph.vaddr) % pageSize = 0 then ph.memsz
    else ph.memsz + (area.vbase + ph.vaddr) % pageSize : Word) = psize at hsize ⊢
  generalize (if (area.vbase + ph.vaddr) % pageSize = 0 then area.vbase + ph.vaddr
    else area.vbase + ph.vaddr - (area.vbase + ph.vaddr) % pageSize : Word) = ptr at hptr ⊢
  have hprotect := protect_run (f := f) hpage ha hp hsize hptr
  -- all pages of the segment are for writing while it is copied
  have hq : ∀ i < ph.memsz.toNat,
    (write m.access (fill (ph.pageStart k area.vbase) (ph.pageSpan k area.vbase) fun _ =>
      ⟨false, true, false⟩) (ph.place area.vbase + i)).write = true := by
    intro i hi
    rw [write_fill, if_pos (by omega)]
  have hstore := @segment_run f area ph pageSize k ha hp _ hq hf
  -- what the file has of the segment, and the zeros after it
  have hbytes :
    write (write m.byte (fill (ph.place area.vbase) ph.filesz.toNat fun i => f.byte (ph.offset.toNat + i)))
      (fill (ph.place area.vbase + ph.filesz.toNat) (ph.memsz.toNat - ph.filesz.toNat) fun _ => 0) =
        write m.byte (f.segment area.vbase ph) := by
    rw [write_fill_append, Nat.add_sub_of_le hle]
    rfl
  rw [List.foldlM_cons, hprotect, Option.bind_eq_bind, Option.bind_some, List.foldlM_cons, (hstore _).1,
    Option.bind_eq_bind, Option.bind_some, List.foldlM_cons, (hstore _).2, Option.bind_eq_bind,
    Option.bind_some, List.foldlM_cons, hprotect, write_fill_fill, hbytes]
  rfl

end Turn

/-! ## The loop -/

/-- No entry has more bytes in the file than in memory, so the loop is not stopped. -/
theorem not_stopped (hf : ∀ ph ∈ loads phdrs, ph.filesz ≤ ph.memsz) :
    ¬ (phdrs.any fun ph => ph.isLoad && decide (ph.filesz > ph.memsz)) = true := by
  intro hany
  obtain ⟨ph, hph, hstop⟩ := List.any_eq_true.1 hany
  rw [Bool.and_eq_true, decide_eq_true_eq] at hstop
  exact absurd (hf ph (List.mem_filter.2 ⟨hph, hstop.1⟩)) (BitVec.not_le.2 hstop.2)

theorem copyLoop_run (hpage : pageSize.toNat = 2 ^ k) (ha : area.Mapped k)
    (hp : ∀ ph ∈ loads phdrs, ph.Placed area) (hf : ∀ ph ∈ loads phdrs, ph.InFile f) :
    (copyLoop pageSize f.base area.vbase phdrs).foldlM (f.run pageSize area) m =
      some ⟨writes m.byte ((loads phdrs).map (f.segment area.vbase)),
        writes m.access ((loads phdrs).map (Phdr.pages k area.vbase))⟩ := by
  induction phdrs generalizing m with
  | nil => rfl
  | cons ph phdrs ih =>
    rw [copyLoop]
    cases hl : ph.isLoad with
    | false =>
      rw [loads_cons_of_not hl] at hp hf ⊢
      rw [if_neg Bool.false_ne_true]
      exact ih hp hf
    | true =>
      rw [loads_cons_of_load hl] at hp hf ⊢
      have hph := hf ph List.mem_cons_self
      have hgo : (copySegment pageSize f.base area.vbase ph).2 = true := by
        rw [copySegment, if_neg (BitVec.not_lt.2 hph.sizes)]
      simp only [if_true, hgo]
      rw [List.foldlM_append, copySegment_run hpage ha (hp ph List.mem_cons_self) hph, Option.bind_eq_bind,
        Option.bind_some,
        ih (fun x hx => hp x (List.mem_cons_of_mem _ hx)) (fun x hx => hf x (List.mem_cons_of_mem _ hx))]
      rfl

/-- **The copy loop is the writes of the segments**, in the order of the table. -/
theorem copy_eq (hpage : pageSize.toNat = 2 ^ k) (ha : area.Mapped k) (hp : ∀ ph ∈ loads f.phdrs, ph.Placed area)
    (hf : ∀ ph ∈ loads f.phdrs, ph.InFile f) :
    f.copy pageSize area m =
      some ⟨writes m.byte ((loads f.phdrs).map (f.segment area.vbase)),
        writes m.access ((loads f.phdrs).map (Phdr.pages k area.vbase))⟩ := by
  unfold Elf.copy
  rw [if_neg (not_stopped fun ph hph => (hf ph hph).sizes)]
  exact copyLoop_run hpage ha hp hf

/-- The address is a byte of the segment, or of its pages. -/
def Phdr.Covers (ph : Phdr) (vbase : Word) (a : ℕ) : Prop :=
  ph.place vbase ≤ a ∧ a < ph.place vbase + ph.memsz.toNat

def Phdr.Touches (ph : Phdr) (k : ℕ) (vbase : Word) (a : ℕ) : Prop :=
  ph.pageStart k vbase ≤ a ∧ a < ph.pageStart k vbase + ph.pageSpan k vbase

instance (ph : Phdr) (vbase : Word) (a : ℕ) : Decidable (ph.Covers vbase a) := inferInstanceAs (Decidable (_ ∧ _))

instance (ph : Phdr) (k : ℕ) (vbase : Word) (a : ℕ) : Decidable (ph.Touches k vbase a) :=
  inferInstanceAs (Decidable (_ ∧ _))

theorem Phdr.Covers.touches {vbase : Word} (h : ph.Covers vbase a) : ph.Touches k vbase a := by
  obtain ⟨hin, hend⟩ := place_in_pages ph k vbase
  obtain ⟨hle, hlt⟩ := h
  exact ⟨by omega, by omega⟩

/-- What the loop needs of the file and of the operating system: the segments are in the area, which was
found, and their bytes in the file. -/
structure Loadable (os : Os) (k : ℕ) (f : Elf) (area : Area) : Prop where
  page : os.pageSize.toNat = 2 ^ k
  mapped : area.Mapped k
  placed : ∀ ph ∈ loads f.phdrs, ph.Placed area
  inFile : ∀ ph ∈ loads f.phdrs, ph.InFile f

theorem loadable_of_reserve (hos : os.OK k) (hpaged : os.Paged k) (h : reserve os f.toFile = .ok area)
    (hfound : os.mmap area.size ≠ none) (hmem : ∀ ph ∈ loads f.phdrs, ph.memsz ≠ 0)
    (hfit : ∀ ph ∈ loads f.phdrs, ∀ a, ph.Byte area.vbase a → area.Contains a)
    (hf : ∀ ph ∈ loads f.phdrs, ph.InFile f) :
    Loadable os k f area := by
  obtain ⟨first, last, hr⟩ := reserve_spec h
  exact ⟨hos.page, mapped_of_reserve hos hpaged h hfound,
    fun ph hph => placed_of_bytes hr.vbase (hmem ph hph) (hfit ph hph), hf⟩

theorem segment_covers {vbase : Word} (h : f.segment vbase ph a ≠ none) : ph.Covers vbase a := mem_of_fill h

theorem pages_touches {vbase : Word} (h : ph.pages k vbase a ≠ none) : ph.Touches k vbase a := mem_of_fill h

/-- Segments that do not have an address do not write it. -/
theorem segments_of_not {vbase : Word} {c : Bytes.Mem} (h : ∀ ph ∈ phdrs, ¬ ph.Covers vbase a) :
    writes c (phdrs.map (f.segment vbase)) a = c a := by
  apply writes_of_none
  intro w hw
  obtain ⟨ph, hph, rfl⟩ := List.mem_map.1 hw
  by_contra hne
  exact h ph hph (segment_covers hne)

theorem pages_of_not {vbase : Word} {c : ℕ → Flags} (h : ∀ ph ∈ phdrs, ¬ ph.Touches k vbase a) :
    writes c (phdrs.map (Phdr.pages k vbase)) a = c a := by
  apply writes_of_none
  intro w hw
  obtain ⟨ph, hph, rfl⟩ := List.mem_map.1 hw
  by_contra hne
  exact h ph hph (pages_touches hne)

/-- **What is in memory after the copy loop**, when the segments fit the area. Each byte of the area is that
of the last segment that has it, from the file or zero; each page has the access of the last segment that
touches it. Nothing else changes. -/
theorem segments_copied (hos : os.OK k) (hpaged : os.Paged k) (h : reserve os f.toFile = .ok area)
    (hfound : os.mmap area.size ≠ none) (hmem : ∀ ph ∈ loads f.phdrs, ph.memsz ≠ 0)
    (hfit : ∀ ph ∈ loads f.phdrs, ∀ a, ph.Byte area.vbase a → area.Contains a)
    (hf : ∀ ph ∈ loads f.phdrs, ph.InFile f) :
    ∃ m', f.copy os.pageSize area m = some m' ∧
      (∀ l ph r, loads f.phdrs = l ++ ph :: r → ∀ i < ph.memsz.toNat,
        (∀ ph' ∈ r, ¬ ph'.Covers area.vbase (ph.place area.vbase + i)) →
          m'.byte (ph.place area.vbase + i) = f.image ph i) ∧
      (∀ l ph r, loads f.phdrs = l ++ ph :: r → ∀ a, ph.Touches k area.vbase a →
        (∀ ph' ∈ r, ¬ ph'.Touches k area.vbase a) → m'.access a = ph.access) ∧
      (∀ a, (∀ ph ∈ loads f.phdrs, ¬ ph.Covers area.vbase a) → m'.byte a = m.byte a) ∧
      ∀ a, (∀ ph ∈ loads f.phdrs, ¬ ph.Touches k area.vbase a) → m'.access a = m.access a := by
  have hl := loadable_of_reserve hos hpaged h hfound hmem hfit hf
  refine ⟨_, copy_eq hl.page hl.mapped hl.placed hl.inFile, ?_, ?_, ?_, ?_⟩
  · intro l ph r hsplit i hi hlast
    dsimp only
    -- the segments after it do not have the byte
    rw [hsplit, List.map_append, writes_append, List.map_cons, writes_cons, segments_of_not hlast]
    exact write_of_some (fill_of_lt hi)
  · intro l ph r hsplit a htouch hlast
    dsimp only
    rw [hsplit, List.map_append, writes_append, List.map_cons, writes_cons, pages_of_not hlast]
    exact write_of_some (fill_of_mem htouch.1 htouch.2)
  · exact fun a hnot => segments_of_not hnot
  · exact fun a hnot => pages_of_not hnot

theorem linux_paged : linux.Paged 12 := by
  intro n a h
  unfold linux at h
  dsimp only at h
  split at h
  case isTrue => cases h
  case isFalse =>
    obtain rfl := Option.some.inj h
    decide

/-- A file with text and data in one page. -/
def sharedPage : Elf where
  toFile := elfFile [⟨1, 5, 0, 0x1000, 4, 4⟩, ⟨1, 6, 4, 0x1800, 2, 0x1000⟩]
  bytes := [0xf3, 0x0f, 0x1e, 0xfa, 0x2a, 0x2b]
  entry := 0x1000
  shdrs := []

/-- The area for it. -/
def sharedArea : Area := ⟨0x7f0000000000, 0x2000, 0x7f0000000000 - 0x1000⟩

/-- The text has lost the right to be executed, to the data in its page. -/
theorem segments_copied_shared : ∃ m', sharedPage.copy linux.pageSize sharedArea
    ⟨fun _ => 0, fun _ => .none⟩ = some m' ∧ m'.byte 0x7f0000000002 = 0x1e ∧ m'.byte 0x7f0000000800 = 0x2a ∧
    m'.byte 0x7f0000000802 = 0 ∧ m'.access 0x7f0000000000 = ⟨true, true, false⟩ := by
  have hvbase : sharedArea.vbase = sharedArea.data + -(⟨1, 5, 0, 0x1000, 4, 4⟩ : Phdr).vaddr := rfl
  have hfit : ∀ ph ∈ loads sharedPage.phdrs, ∀ a, ph.Byte sharedArea.vbase a → sharedArea.Contains a := by
    intro ph hph
    apply (bytes_inside_iff hvbase).2
    revert ph
    decide +kernel
  have hfile : ∀ ph ∈ loads sharedPage.phdrs, ph.InFile sharedPage := by
    intro ph hph
    have hboth : ph.filesz ≤ ph.memsz ∧ ph.offset.toNat + ph.filesz.toNat ≤ sharedPage.bytes.length := by
      revert ph
      decide +kernel
    exact ⟨hboth.1, fun _ => hboth.2⟩
  have hreserve : reserve linux sharedPage.toFile = .ok sharedArea := rfl
  obtain ⟨m', hm', hbyte, haccess, -, -⟩ :=
    segments_copied (m := ⟨fun _ => 0, fun _ => .none⟩) linux_ok linux_paged
    hreserve (by decide +kernel) (by decide +kernel) hfit hfile
  refine ⟨m', hm', ?_, ?_, ?_, ?_⟩
  · exact hbyte [] _ [⟨1, 6, 4, 0x1800, 2, 0x1000⟩] rfl 2 (by decide +kernel) (by decide +kernel)
  · exact hbyte [⟨1, 5, 0, 0x1000, 4, 4⟩] _ [] rfl 0 (by decide +kernel) (by decide +kernel)
  · exact hbyte [⟨1, 5, 0, 0x1000, 4, 4⟩] _ [] rfl 2 (by decide +kernel) (by decide +kernel)
  · exact haccess [⟨1, 5, 0, 0x1000, 4, 4⟩] _ [] rfl 0x7f0000000000 (by decide +kernel) (by decide +kernel)

end Prs.ElfLoad
