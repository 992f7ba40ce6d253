import Mathlib.Data.Finset.Image
import Prs.Proof.RingApart
import Prs.Proof.RingFifo

/-!
# A ring is a queue while its fields are apart

The calls of a ring on its bytes, with the history of `Prs.Proof.RingFifo` for the addresses of the elements.
Users push and free what they have, write no byte of an element from the last nine of `data_size` on, and the
ids that are tried have 52 bits.

* `ring_fifo`: from a `data_size` of nine on, a ring of bytes is a queue.
* `ring_loses`: with a `data_size` of eight it is not: the flag of an entry is the low byte of the next header.
-/

namespace Prs.RingBytes

open Function Bytes PoolWords
open RingSeq (Hist)

/-- A ring with its history. -/
def sysHist (k dataSize : ℕ) : System (Ring × Hist) Act :=
  (sys k dataSize).withTrace ⟨[], ∅, ∅⟩ fun r a _ h =>
    match a with
    | .alloc => { h with owned := (r.alloc k dataSize).1.elim h.owned fun addr => insert addr h.owned }
    | .push addr _ => { h with queue := h.queue ++ [addr], owned := h.owned.erase addr }
    | .pop spurious =>
      { h with
        queue := h.queue.tail
        popped := ((r.pop k dataSize spurious).bind Prod.fst).elim h.popped fun addr => insert addr h.popped }
    | .free addr => { h with owned := h.owned.erase addr, popped := h.popped.erase addr }
    | .write _ _ => h

/-- Users push what they have allocated, free what they have, and write what they have up to the last nine
bytes. -/
def Proper (k dataSize : ℕ) (p : Ring × Hist) : Act → Prop
  | .alloc => p.1.writeIndex + 2 ^ k ≤ refcntInc
  | .push addr _ => addr ∈ p.2.owned
  | .pop _ => True
  | .free addr => addr ∈ p.2.owned ∨ addr ∈ p.2.popped
  | .write x _ => ∃ addr ∈ p.2.owned ∪ p.2.popped, addr ≤ x ∧ x + 9 < addr + dataSize

instance (k dataSize : ℕ) (p : Ring × Hist) (a : Act) : Decidable (Proper k dataSize p a) :=
  match a with
  | .alloc => inferInstanceAs (Decidable (_ ≤ _))
  | .push _ _ => inferInstanceAs (Decidable (_ ∈ _))
  | .pop _ => inferInstanceAs (Decidable True)
  | .free _ => inferInstanceAs (Decidable (_ ∨ _))
  | .write _ _ => inferInstanceAs (Decidable (∃ addr ∈ _, _))

variable {k dataSize addr e : ℕ} {r : Ring} {h : Hist}

section Addresses

/-- The history of the entries, for the addresses of their elements. -/
def addresses (dataSize : ℕ) (h : Hist) : Hist where
  queue := h.queue.map (dataPos dataSize)
  owned := h.owned.image (dataPos dataSize)
  popped := h.popped.image (dataPos dataSize)

theorem mem_addresses (dataSize e : ℕ) (h : Hist) :
    (dataPos dataSize e ∈ (addresses dataSize h).queue ↔ e ∈ h.queue) ∧
    (dataPos dataSize e ∈ (addresses dataSize h).owned ↔ e ∈ h.owned) ∧
    (dataPos dataSize e ∈ (addresses dataSize h).popped ↔ e ∈ h.popped) := by
  have hinj := dataPos_injective dataSize
  exact ⟨List.mem_map_of_injective hinj, hinj.mem_finset_image, hinj.mem_finset_image⟩

theorem unused_addresses : (addresses dataSize h).Unused (dataPos dataSize e) ↔ h.Unused e := by
  obtain ⟨hq, ho, hp⟩ := mem_addresses dataSize e h
  unfold Hist.Unused
  rw [hq, ho, hp]

/-- The element is the first of the ring: the head has not passed it. -/
def Ring.AtHead (k dataSize : ℕ) (r : Ring) (addr : ℕ) : Prop :=
  r.headId ≠ invalid ∧ dataPos dataSize (r.headId % 2 ^ k) = addr

theorem atHead_fields : r.AtHead k dataSize (dataPos dataSize e) ↔ (r.fields dataSize).AtHead k e := by
  unfold Ring.AtHead RingSeq.St.AtHead
  rw [(dataPos_injective dataSize).eq_iff]
  rfl

/-- The element of an entry that is taken is added. -/
theorem image_elim (dataSize : ℕ) (entry : Option ℕ) (entries : Finset ℕ) :
    (entry.map (dataPos dataSize)).elim (entries.image (dataPos dataSize))
        (fun addr => insert addr (entries.image (dataPos dataSize))) =
      (entry.elim entries fun e => insert e entries).image (dataPos dataSize) := by
  cases entry with
  | none => rfl
  | some e => exact (Finset.image_insert ..).symm

end Addresses

section Steps

/-- **The fields say what the history says.** -/
def Inv (k dataSize : ℕ) (r : Ring) (h : Hist) : Prop :=
  ∃ h₀, RingSeq.Inv k (r.fields dataSize) h₀ ∧ h = addresses dataSize h₀

variable (hd : 9 ≤ dataSize)

include hd

theorem Inv.alloc (hi : Inv k dataSize r h) (hfit : r.writeIndex + 2 ^ k ≤ refcntInc) :
    Inv k dataSize (r.alloc k dataSize).2
      { h with owned := (r.alloc k dataSize).1.elim h.owned fun addr => insert addr h.owned } := by
  obtain ⟨h₀, hinv, rfl⟩ := hi
  obtain ⟨haddr, hfields⟩ := fields_alloc (k := k) hd r
  have hinv' := hinv.alloc hfit
  rw [← hfields] at hinv'
  refine ⟨_, hinv', ?_⟩
  rw [haddr]
  exact congrArg (fun owned => ({ addresses dataSize h₀ with owned } : Hist)) (image_elim ..)

theorem Inv.push (hi : Inv k dataSize r h) (haddr : addr ∈ h.owned) (spurious : List Bool) :
    ∃ r', r.push k dataSize addr spurious = some r' ∧
      Inv k dataSize r' { h with queue := h.queue ++ [addr], owned := h.owned.erase addr } := by
  obtain ⟨h₀, hinv, rfl⟩ := hi
  obtain ⟨e, he, rfl⟩ := Finset.mem_image.1 haddr
  obtain ⟨s', hpush, hinv'⟩ := hinv.push he spurious
  obtain ⟨r', hr', rfl⟩ := Option.map_eq_some_iff.1 ((fields_push hd r e spurious).trans hpush)
  refine ⟨r', hr', _, hinv', ?_⟩
  simp only [addresses, List.map_append, List.map_cons, List.map_nil,
    Finset.image_erase (dataPos_injective dataSize)]

theorem Inv.pop (hi : Inv k dataSize r h) (spurious : List Bool) :
    ∃ r', r.pop k dataSize spurious = some (h.queue.head?, r') ∧
      Inv k dataSize r'
        { h with queue := h.queue.tail, popped :=
          h.queue.head?.elim h.popped fun addr => insert addr h.popped } := by
  obtain ⟨h₀, hinv, rfl⟩ := hi
  obtain ⟨s', hpop, hinv'⟩ := hinv.pop spurious
  have hfields := fields_pop (k := k) hd r spurious
  rw [hpop, Option.map_some] at hfields
  obtain ⟨⟨entry, r'⟩, hr', hpair⟩ := Option.map_eq_some_iff.1 hfields
  obtain ⟨hentry, rfl⟩ := Prod.mk.inj hpair
  have hhead : (addresses dataSize h₀).queue.head? = h₀.queue.head?.map (dataPos dataSize) := List.head?_map
  refine ⟨r', ?_, _, hinv', ?_⟩
  · rw [hr', hhead]
    exact congrArg (fun x => some (x, r')) hentry
  · rw [hhead]
    have hpopped := image_elim dataSize h₀.queue.head? h₀.popped
    simp only [addresses, List.map_tail, ← hpopped]

theorem Inv.free (hi : Inv k dataSize r h) (haddr : addr ∈ h.owned ∨ addr ∈ h.popped) :
    Inv k dataSize (r.free k dataSize addr)
      { h with owned := h.owned.erase addr, popped := h.popped.erase addr } := by
  obtain ⟨h₀, hinv, rfl⟩ := hi
  obtain ⟨e, rfl⟩ : ∃ e, dataPos dataSize e = addr := by
    obtain hmem | hmem := haddr <;> obtain ⟨e, -, he⟩ := Finset.mem_image.1 hmem <;> exact ⟨e, he⟩
  obtain ⟨-, ho, hp⟩ := mem_addresses dataSize e h₀
  rw [ho, hp] at haddr
  have hinv' := hinv.free haddr
  rw [← fields_free hd] at hinv'
  refine ⟨_, hinv', ?_⟩
  simp only [addresses, Finset.image_erase (dataPos_injective dataSize)]

/-- **A step.** -/
theorem Inv.step {p p' : Ring × Hist} (hi : Inv k dataSize p.1 p.2) {a : Act} (hok : Proper k dataSize p a)
    (hs : (sysHist k dataSize).step p a = some p') : Inv k dataSize p'.1 p'.2 := by
  obtain ⟨hstep, hhist⟩ := System.withTrace_step hs
  obtain ⟨⟨entry, r'⟩, hexec, hr'⟩ := Option.map_eq_some_iff.1 hstep
  rw [hhist, ← hr']
  cases a with
  | alloc =>
    change some (p.1.alloc k dataSize) = some (entry, r') at hexec
    have hpair := Option.some.inj hexec
    rw [← congrArg Prod.snd hpair]
    exact hi.alloc hd hok
  | push addr spurious =>
    obtain ⟨r₁, hpush, hpair⟩ := Option.map_eq_some_iff.1 hexec
    obtain ⟨r₂, hpush', hinv⟩ := hi.push hd hok spurious
    obtain rfl : r₁ = r₂ := Option.some.inj (hpush.symm.trans hpush')
    rw [← congrArg Prod.snd hpair]
    exact hinv
  | pop spurious =>
    obtain ⟨r₁, hpop, hinv⟩ := hi.pop hd spurious
    have hpair := Option.some.inj (hexec.symm.trans hpop)
    rw [congrArg Prod.snd hpair]
    dsimp only
    rw [hpop]
    exact hinv
  | free addr =>
    change some (none, p.1.free k dataSize addr) = some (entry, r') at hexec
    obtain ⟨-, rfl⟩ := Prod.mk.inj (Option.some.inj hexec)
    dsimp only
    exact hi.free hd hok
  | write x byte =>
    change some (none, { p.1 with mem := update p.1.mem x byte }) = some (entry, r') at hexec
    obtain ⟨-, rfl⟩ := Prod.mk.inj (Option.some.inj hexec)
    obtain ⟨h₀, hinv, hh⟩ := hi
    obtain ⟨addr, hmem, hlo, hhi⟩ := hok
    obtain ⟨e, rfl⟩ : ∃ e, dataPos dataSize e = addr := by
      rw [hh] at hmem
      obtain hmem | hmem := Finset.mem_union.1 hmem <;>
        obtain ⟨e, -, he⟩ := Finset.mem_image.1 hmem <;> exact ⟨e, he⟩
    rw [← fields_write hd p.1 byte hlo hhi] at hinv
    exact ⟨h₀, hinv, hh⟩

theorem inv_reach {p : Ring × Hist} (hr : (sysHist k dataSize).Reach (Proper k dataSize) p) :
    Inv k dataSize p.1 p.2 := by
  apply hr.inv
  · rintro ⟨r, h⟩ ⟨rfl, rfl⟩
    have hinv := RingSeq.inv_create k
    rw [← fields_create hd] at hinv
    exact ⟨⟨[], ∅, ∅⟩, hinv, rfl⟩
  · intro p a p' hi hok hs
    exact hi.step hd hok hs

end Steps

section Fifo

/-- **A ring is a queue** from a `data_size` of nine on. In every run of its calls, a pop returns the first
element in the order of the pushes, or null when all have been popped. An allocation returns an element that
nobody has and that is not the first of the ring, and every such element is free, so that the allocation finds
one. -/
theorem ring_fifo (k dataSize : ℕ) (hd : 9 ≤ dataSize) (r : Ring) (h : Hist)
    (hr : (sysHist k dataSize).Reach (Proper k dataSize) (r, h)) :
    (∀ spurious, ∃ r', r.pop k dataSize spurious = some (h.queue.head?, r')) ∧
    (∀ addr ∈ h.owned, ∀ spurious, ∃ r', r.push k dataSize addr spurious = some r') ∧
    (r.writeIndex + 2 ^ k ≤ refcntInc → ∀ addr, (r.alloc k dataSize).1 = some addr →
      h.Unused addr ∧ ¬ r.AtHead k dataSize addr) ∧
    ∀ e, 0 < e → e < 2 ^ k → h.Unused (dataPos dataSize e) → ¬ r.AtHead k dataSize (dataPos dataSize e) →
      testAlloc (header dataSize r.mem e) = false ∧
        (r.writeIndex + 2 ^ k ≤ refcntInc → (r.alloc k dataSize).1 ≠ none) := by
  have hi : Inv k dataSize r h := inv_reach hd hr
  refine ⟨fun spurious => ?_, fun addr haddr spurious => ?_, fun hfit addr haddr => ?_,
    fun e hpos hlt hunused hhead => ?_⟩
  · obtain ⟨r', hpop, -⟩ := hi.pop hd spurious
    exact ⟨r', hpop⟩
  · obtain ⟨r', hpush, -⟩ := hi.push hd haddr spurious
    exact ⟨r', hpush⟩
  · obtain ⟨h₀, hinv, rfl⟩ := hi
    rw [(fields_alloc hd r).1] at haddr
    obtain ⟨e, he, rfl⟩ := Option.map_eq_some_iff.1 haddr
    rw [unused_addresses, atHead_fields]
    exact hinv.unused hfit he
  · obtain ⟨h₀, hinv, rfl⟩ := hi
    rw [unused_addresses] at hunused
    rw [atHead_fields] at hhead
    have hfree : testAlloc ((r.fields dataSize).pool.header e) = false :=
      hinv.free_of_unused hpos hlt hunused hhead
    refine ⟨hfree, fun hfit hnone => ?_⟩
    rw [(fields_alloc hd r).1, Option.map_eq_none_iff] at hnone
    exact hinv.alloc_ne_none hfit hlt hfree hnone

/-- Two elements of sixteen bytes are pushed, and one is popped and written. -/
theorem ring_fifo_sixteen : ∃ (r : Ring) (h : Hist), h.queue = [65] ∧ h.popped = {41} ∧
    ∃ r', r.pop 2 16 [true, false] = some (some 65, r') := by
  obtain ⟨p, hr, hq, hp⟩ := System.exists_of_check (sysHist 2 16) (Proper 2 16)
    (fun p => p.2.queue = [65] ∧ p.2.popped = {41}) (.create, ⟨[], ∅, ∅⟩) ⟨rfl, rfl⟩
    [.alloc, .alloc, .write 41 255#8, .push 41 [true], .push 65 [true, false], .pop [true], .write 47 255#8]
    (by decide +kernel)
  obtain ⟨hpop, -⟩ := ring_fifo 2 16 (by decide) p.1 p.2 hr
  have hfirst := hpop [true, false]
  rw [hq] at hfirst
  exact ⟨p.1, p.2, hq, hp, hfirst⟩

/-- **A ring loses its elements** when they have eight bytes. Two are pushed, and none is popped: the flag of
the first entry is the low byte of the second header. It is not zero, so the pop passes that entry, and it is
set, so that the header has another id. -/
theorem ring_loses : ∃ (r : Ring) (h : Hist), (sysHist 2 8).Reach (Proper 2 8) (r, h) ∧ h.queue = [33, 49] ∧
    (r.pop 2 8 []).map Prod.fst = some none ∧ PoolWords.getId (header 8 r.mem 2) = 2 ∧
    (r.pop 2 8 []).map (fun p => PoolWords.getId (header 8 p.2.mem 2)) = some 1 := by
  obtain ⟨p, hr, hq⟩ := System.exists_of_check (sysHist 2 8) (Proper 2 8)
    (fun p => p.2.queue = [33, 49] ∧ (p.1.pop 2 8 []).map Prod.fst = some none ∧
      PoolWords.getId (header 8 p.1.mem 2) = 2 ∧
      (p.1.pop 2 8 []).map (fun p => PoolWords.getId (header 8 p.2.mem 2)) = some 1)
    (.create, ⟨[], ∅, ∅⟩) ⟨rfl, rfl⟩
    [.alloc, .alloc, .push 33 [], .push 49 []] (by decide +kernel)
  exact ⟨p.1, p.2, hr, hq⟩

end Fifo

end Prs.RingBytes
