import Mathlib.Data.List.ReduceOption
import Prs.Proof.ElfCopy

/-!
# The image of a loaded process

After the segments are copied, the relocations store addresses of symbols in them. When no two segments share
a page, each segment keeps its own access, and a relocation can be applied exactly when it is in a segment
that is for writing.

* `relocate_run`: a relocation is the write of its slot.
* `load_linked`: what is in memory when the function returns, and what it returns.
-/

namespace Prs.ElfLoad

open Prs.Stack (Word)

variable {l : Linker} {f : Elf} {area : Area} {ph : Phdr} {m : Mem} {opened : List Name} {syms strings : Word}
    {k a : ℕ}

/-- Where a relocation stores. -/
def slot (vbase : Word) (s : Word × Word) : ℕ := (vbase + s.1).toNat

/-- The store of a relocation as a write. -/
def slotWrite (vbase : Word) (s : Word × Word) : ℕ → Option (BitVec 8) :=
  fill (slot vbase s) 8 fun i => BitVec.ofNat 8 (s.2.toNat / 256 ^ i)

/-- The two relocations store to different bytes. -/
def Apart (vbase : Word) (s s' : Word × Word) : Prop :=
  slot vbase s + 8 ≤ slot vbase s' ∨ slot vbase s' + 8 ≤ slot vbase s

/-- **A relocation** writes its slot. -/
theorem relocate_run {rela : Word} {r : Option (Word × Word)} (hr : f.resolve l opened syms strings rela = some r)
    (hw : ∀ s ∈ r, m.Writable area (area.vbase + s.1) 8) :
    f.relocate l area opened syms strings m rela =
      some ⟨writes m.byte (r.toList.map (slotWrite area.vbase)), m.access⟩ := by
  unfold Elf.relocate
  rw [hr, Option.bind_eq_bind, Option.bind_some]
  cases r with
  | none => rfl
  | some s =>
    dsimp only
    unfold Mem.store
    rw [if_pos (hw s rfl), store_eq]
    rfl

/-- The relocations, one after the other. -/
theorem relocations_run {rels : List Word} {rs : List (Option (Word × Word))}
    (hrs : rels.mapM (f.resolve l opened syms strings) = some rs)
    (hw : ∀ s ∈ rs.reduceOption, ∀ c, Mem.Writable ⟨c, m.access⟩ area (area.vbase + s.1) 8) :
    rels.foldlM (f.relocate l area opened syms strings) m =
      some ⟨writes m.byte (rs.reduceOption.map (slotWrite area.vbase)), m.access⟩ := by
  induction rels generalizing m rs with
  | nil =>
    obtain rfl := Option.some.inj hrs
    rfl
  | cons rela rels ih =>
    rw [List.mapM_cons, Option.bind_eq_bind, Option.bind_eq_some_iff] at hrs
    obtain ⟨r, hr, hrest⟩ := hrs
    rw [Option.bind_eq_bind, Option.bind_eq_some_iff] at hrest
    obtain ⟨rest, hrest, hpure⟩ := hrest
    obtain rfl := Option.some.inj hpure
    have hhead : ∀ s ∈ r, m.Writable area (area.vbase + s.1) 8 := by
      intro s hs
      apply hw s
      rw [List.reduceOption_mem_iff, Option.mem_def.1 hs]
      exact List.mem_cons_self
    rw [List.foldlM_cons, relocate_run hr hhead, Option.bind_eq_bind, Option.bind_some]
    rw [ih hrest]
    · cases r with
      | none => rfl
      | some s => rfl
    · intro s hs
      apply hw s
      rw [List.reduceOption_mem_iff] at hs ⊢
      exact List.mem_cons_of_mem _ hs

/-- The slots, when they have been written. -/
theorem load_slot {c : Bytes.Mem} {vbase : Word} {before after : List (Word × Word)} {s : Word × Word}
    (h : ∀ s' ∈ after, Apart vbase s s') :
    Bytes.load (writes c ((before ++ s :: after).map (slotWrite vbase))) (slot vbase s) 8 = s.2.toNat := by
  have hvalue : s.2.toNat < 256 ^ 8 := s.2.isLt
  rw [← Bytes.load_store (m := writes c (before.map (slotWrite vbase))) (a := slot vbase s) hvalue, store_eq]
  apply Bytes.load_congr
  intro x hx hlt
  rw [List.map_append, List.map_cons, writes_append, writes_cons]
  apply writes_of_none
  intro w hw
  obtain ⟨s', hs', rfl⟩ := List.mem_map.1 hw
  obtain hafter | hbefore := h s' hs'
  · exact fill_of_not (by omega)
  · exact fill_of_not (by omega)

/-- No two segments have a page in common. -/
def PagesApart (f : Elf) (k : ℕ) (vbase : Word) : Prop :=
  (loads f.phdrs).Pairwise fun ph ph' => ∀ a, ph.Touches k vbase a → ¬ ph'.Touches k vbase a

theorem segment_of_apart {vbase : Word} {c : Bytes.Mem} (h : PagesApart f k vbase) (hph : ph ∈ loads f.phdrs)
    {i : ℕ} (hi : i < ph.memsz.toNat) :
    writes c ((loads f.phdrs).map (f.segment vbase)) (ph.place vbase + i) = f.image ph i := by
  apply writes_of_apart _ (List.mem_map_of_mem hph) (fill_of_lt hi)
  rw [List.pairwise_map]
  apply h.imp
  intro p q hpq
  by_contra hboth
  rw [not_or] at hboth
  exact hpq _ (segment_covers hboth.1).touches (segment_covers hboth.2).touches

theorem access_of_apart {vbase : Word} {c : ℕ → Flags} (h : PagesApart f k vbase) (hph : ph ∈ loads f.phdrs)
    (ha : ph.Touches k vbase a) : writes c ((loads f.phdrs).map (Phdr.pages k vbase)) a = ph.access := by
  apply writes_of_apart _ (List.mem_map_of_mem hph) (fill_of_mem ha.1 ha.2)
  rw [List.pairwise_map]
  apply h.imp
  intro p q hpq
  by_contra hboth
  rw [not_or] at hboth
  exact hpq _ (pages_touches hboth.1) (pages_touches hboth.2)

/-- The slot is in a segment that is for writing. -/
def InData (f : Elf) (vbase : Word) (s : Word × Word) : Prop :=
  ∃ ph ∈ loads f.phdrs, ph.access.write = true ∧ ph.place vbase ≤ slot vbase s ∧
    slot vbase s + 8 ≤ ph.place vbase + ph.memsz.toNat

/-- A slot in a segment that is for writing can be stored to, after the copy loop. -/
theorem writable_of_inData (hl : Loadable l.toOs k f area) (hapart : PagesApart f k area.vbase) {s : Word × Word}
    (hs : InData f area.vbase s) {c : Bytes.Mem} {q : ℕ → Flags} :
    Mem.Writable ⟨c, writes q ((loads f.phdrs).map (Phdr.pages k area.vbase))⟩ area (area.vbase + s.1) 8 := by
  obtain ⟨ph, hph, hwrite, hle, hend⟩ := hs
  have hplaced := hl.placed ph hph
  have hlow := hplaced.le
  have hfits := hplaced.fits
  refine ⟨⟨?_, ?_⟩, fun i hi => ?_⟩
  · exact Nat.le_trans hlow hle
  · exact Nat.le_trans hend hfits
  · have hcovers : ph.Covers area.vbase ((area.vbase + s.1).toNat + i) := by
      unfold slot at hle hend
      exact ⟨by omega, by omega⟩
    dsimp only
    rw [access_of_apart hapart hph hcovers.touches]
    exact hwrite

/-- What the relocations do not write. -/
theorem writes_slots_of_not {vbase : Word} {c : Bytes.Mem} {ss : List (Word × Word)}
    (h : ∀ s ∈ ss, ¬ (slot vbase s ≤ a ∧ a < slot vbase s + 8)) :
    writes c (ss.map (slotWrite vbase)) a = c a := by
  apply writes_of_none
  intro w hw
  obtain ⟨s, hs, rfl⟩ := List.mem_map.1 hw
  exact fill_of_not (h s hs)

/-- **The image of a loaded process.** When the segments fit the area, no two share a page, and each
relocation that is resolved is in a segment for writing, the function returns the entry point of the file in
the area. Each slot has the address of the symbol of the last relocation for it, each other byte of a segment
is that of the file or zero, and each page has the access of its segment. The rest is as it was when the area
was new. -/
theorem load_linked (hos : l.toOs.OK k) (hpaged : l.toOs.Paged k) (h : reserve l.toOs f.toFile = .ok area)
    (hfound : l.mmap area.size ≠ none) (hmem : ∀ ph ∈ loads f.phdrs, ph.memsz ≠ 0)
    (hfit : ∀ ph ∈ loads f.phdrs, ∀ a, ph.Byte area.vbase a → area.Contains a)
    (hf : ∀ ph ∈ loads f.phdrs, ph.InFile f) (hapart : PagesApart f k area.vbase)
    (hsyms : f.symbols = some (some (syms, strings)))
    (hopened : f.dynamics.foldlM (f.open strings) [] = some opened) {rs : List (Option (Word × Word))}
    (hrs : f.relocations.mapM (f.resolve l opened syms strings) = some rs)
    (hdata : ∀ s ∈ rs.reduceOption, InData f area.vbase s) :
    ∃ m', f.load l m = some ⟨.ok ⟨area.size, area.data, area.vbase + f.entry⟩, m', opened⟩ ∧
      (∀ before s after, rs.reduceOption = before ++ s :: after → (∀ s' ∈ after, Apart area.vbase s s') →
        Bytes.load m'.byte (slot area.vbase s) 8 = s.2.toNat) ∧
      (∀ ph ∈ loads f.phdrs, ∀ i < ph.memsz.toNat,
        (∀ s ∈ rs.reduceOption, ¬ (slot area.vbase s ≤ ph.place area.vbase + i ∧
          ph.place area.vbase + i < slot area.vbase s + 8)) → m'.byte (ph.place area.vbase + i) = f.image ph i) ∧
      (∀ ph ∈ loads f.phdrs, ∀ a, ph.Touches k area.vbase a → m'.access a = ph.access) ∧
      (∀ a, (∀ ph ∈ loads f.phdrs, ¬ ph.Covers area.vbase a) → m'.byte a = (m.map area).byte a) ∧
      ∀ a, (∀ ph ∈ loads f.phdrs, ¬ ph.Touches k area.vbase a) → m'.access a = (m.map area).access a := by
  have hl := loadable_of_reserve hos hpaged h hfound hmem hfit hf
  have hcopy := copy_eq (m := m.map area) hl.page hl.mapped hl.placed hl.inFile
  have hrel := fun c => @relocations_run l f area ⟨c, writes (m.map area).access ((loads f.phdrs).map
    (Phdr.pages k area.vbase))⟩ opened syms strings _ _ hrs fun s hs _ =>
      writable_of_inData hl hapart (hdata s hs)
  have hload : f.load l m = some ⟨.ok ⟨area.size, area.data, area.vbase + f.entry⟩,
      ⟨writes (writes (m.map area).byte ((loads f.phdrs).map (f.segment area.vbase)))
        (rs.reduceOption.map (slotWrite area.vbase)),
        writes (m.map area).access ((loads f.phdrs).map (Phdr.pages k area.vbase))⟩, opened⟩ := by
    unfold Elf.load
    rw [h]
    dsimp only
    rw [hcopy, Option.bind_eq_bind, Option.bind_some, hsyms, Option.bind_eq_bind, Option.bind_some]
    dsimp only
    rw [hopened, Option.bind_eq_bind, Option.bind_some, hrel]
    rfl
  refine ⟨_, hload, ?_, ?_, ?_, ?_, ?_⟩
  · intro before s after hsplit hafter
    rw [hsplit]
    exact load_slot hafter
  · intro ph hph i hi hnot
    dsimp only
    rw [writes_slots_of_not hnot]
    exact segment_of_apart hapart hph hi
  · intro ph hph a ha
    exact access_of_apart hapart hph ha
  · intro a hnot
    have hslots : ∀ s ∈ rs.reduceOption, ¬ (slot area.vbase s ≤ a ∧ a < slot area.vbase s + 8) := by
      intro s hs hin
      obtain ⟨ph, hph, -, hle, hend⟩ := hdata s hs
      exact hnot ph hph ⟨by omega, by omega⟩
    dsimp only
    rw [writes_slots_of_not hslots]
    exact segments_of_not hnot
  · exact fun a hnot => pages_of_not hnot

/-- A file with a symbol, a library that it needs, and a relocation for the symbol in its data. -/
def linkedFile : Elf where
  toFile := elfFile [⟨1, 5, 0, 0x1000, 4, 4⟩, ⟨1, 6, 0, 0x2000, 0, 16⟩]
  bytes := [1, 0, 0, 0, 0, 0, 0, 0, 0, 0, 0, 0, 0, 0, 0, 0, 0, 0, 0, 0, 0, 0, 0, 0] ++ [0, 0x70, 0x73, 0,
    0x63, 0, 0, 0] ++
    [1, 0, 0, 0, 0, 0, 0, 0, 4, 0, 0, 0, 0, 0, 0, 0] ++
    [0, 0x20, 0, 0, 0, 0, 0, 0, 7, 0, 0, 0, 0, 0, 0, 0, 0, 0, 0, 0, 0, 0, 0, 0]
  entry := 0x1000
  shdrs := [⟨11, 1, 0, 24⟩, ⟨3, 0, 24, 8⟩, ⟨6, 1, 32, 16⟩, ⟨4, 0, 48, 24⟩]

/-- The library has the symbol. -/
def linkedOs : Linker where
  toOs := linux
  dlsym opened name := if opened = [[0x63]] ∧ name = [0x70, 0x73] then 0x7e1234567890 else 0

theorem linked_pages : PagesApart linkedFile 12 sharedArea.vbase := by
  have htext : (⟨1, 5, 0, 0x1000, 4, 4⟩ : Phdr).pageStart 12 sharedArea.vbase = 0x7f0000000000 ∧
      (⟨1, 5, 0, 0x1000, 4, 4⟩ : Phdr).pageSpan 12 sharedArea.vbase = 0x1000 := by decide +kernel
  have hdata : (⟨1, 6, 0, 0x2000, 0, 16⟩ : Phdr).pageStart 12 sharedArea.vbase = 0x7f0000001000 := by
    decide +kernel
  refine List.pairwise_pair.2 fun a h h' => ?_
  obtain ⟨-, hlt⟩ := h
  obtain ⟨hle, -⟩ := h'
  rw [htext.1, htext.2] at hlt
  rw [hdata] at hle
  omega

/-- The address of the symbol is in the data of the process. -/
theorem load_linked_symbol : ∃ m', linkedFile.load linkedOs ⟨fun _ => 0, fun _ => .none⟩ =
      some ⟨.ok ⟨0x2000, 0x7f0000000000, 0x7f0000000000⟩, m', [[0x63]]⟩ ∧
    Bytes.load m'.byte 0x7f0000001000 8 = 0x7e1234567890 ∧ m'.access 0x7f0000000000 = ⟨true, false, true⟩ := by
  have hvbase : sharedArea.vbase = sharedArea.data + -(⟨1, 5, 0, 0x1000, 4, 4⟩ : Phdr).vaddr := rfl
  have hfit : ∀ ph ∈ loads linkedFile.phdrs, ∀ a, ph.Byte sharedArea.vbase a → sharedArea.Contains a := by
    intro ph hph
    apply (bytes_inside_iff hvbase).2
    revert ph
    decide +kernel
  have hfile : ∀ ph ∈ loads linkedFile.phdrs, ph.InFile linkedFile := by
    intro ph hph
    have hboth : ph.filesz ≤ ph.memsz ∧ ph.offset.toNat + ph.filesz.toNat ≤ linkedFile.bytes.length := by
      revert ph
      decide +kernel
    exact ⟨hboth.1, fun _ => hboth.2⟩
  have hreserve : reserve linkedOs.toOs linkedFile.toFile = .ok sharedArea := rfl
  have hdata : ∀ s ∈ [some ((0x2000 : Word), (0x7e1234567890 : Word))].reduceOption,
      InData linkedFile sharedArea.vbase s := by
    intro s hs
    obtain rfl := List.mem_singleton.1 hs
    exact ⟨⟨1, 6, 0, 0x2000, 0, 16⟩, by decide +kernel⟩
  obtain ⟨m', hm', hslot, -, haccess, -⟩ :=
    load_linked (m := ⟨fun _ => 0, fun _ => .none⟩) linux_ok linux_paged hreserve
    (by decide +kernel) (by decide +kernel) hfit hfile linked_pages (by rfl) (by rfl) (by rfl) hdata
  refine ⟨m', hm', ?_, ?_⟩
  · exact hslot [] _ [] rfl nofun
  · exact haccess ⟨1, 5, 0, 0x1000, 4, 4⟩ (by decide +kernel) 0x7f0000000000 (by decide +kernel)

end Prs.ElfLoad
