import Prs.Proof.RingApart

/-!
# Where the data of a ring are

`prs_mpmcring_create` makes a pool of entries of its own `data_size`, and an entry of the ring has a link and
a flag in front of the data. So the last nine bytes of the data are behind the end of the entry.

* `element_alone_iff`: the data of an element can be written without harm exactly when there are none.
* `element_overlaps`: they are not alone in a ring of two entries of eight bytes.
-/

namespace Prs.RingBytes

open Function Bytes PoolWords

variable {k dataSize addr e : ℕ} {r : Ring} {m : Mem}

/-- The element that an allocation returns is that of an entry. -/
theorem alloc_pos (h : (r.alloc k dataSize).1 = some addr) : ∃ e < 2 ^ k, addr = dataPos dataSize e := by
  obtain hno | ⟨id, hid⟩ := Option.eq_none_or_eq_some ((r.pool dataSize).alloc k).1
  · rw [alloc_of_none hno] at h
    cases h
  · rw [alloc_of_some hid] at h
    exact ⟨id % 2 ^ k, Nat.mod_lt id (Nat.two_pow_pos k), (Option.some.inj h).symm⟩

section Overlap

/-- The bytes of an element can be written without harm: they are in the area, and whatever they are, no
header, link or flag has changed, and no data of another element. -/
def Alone (k dataSize : ℕ) (m : Mem) (addr : ℕ) : Prop :=
  (∀ j < dataSize, addr + j < areaSize k dataSize) ∧
  ∀ m' : Mem, (∀ x, x < addr ∨ addr + dataSize ≤ x → m' x = m x) → ∀ e < 2 ^ k,
    header dataSize m' e = header dataSize m e ∧ next dataSize m' e = next dataSize m e ∧
    consumed dataSize m' e = consumed dataSize m e ∧
    (addr ≠ dataPos dataSize e → ∀ j < dataSize, m' (dataPos dataSize e + j) = m (dataPos dataSize e + j))

/-- The last byte of the data is in the link of the next entry. -/
theorem not_alone (hd : 0 < dataSize) (he : e < 2 ^ k) (m : Mem) : ¬ Alone k dataSize m (dataPos dataSize e) := by
  rintro ⟨hin, hkeep⟩
  have hsucc := entryPos_succ dataSize e
  have hlast : dataPos dataSize e + (dataSize - 1) = ringPos dataSize (e + 1) := by
    unfold dataPos dataOffset
    rw [ringPos_eq, ringPos_eq, hsucc]
    omega
  by_cases hnext : e + 1 < 2 ^ k
  · -- the byte is changed, and the link with it
    have hwritten : ∀ x, x < dataPos dataSize e ∨ dataPos dataSize e + dataSize ≤ x →
        update m (ringPos dataSize (e + 1)) (m (ringPos dataSize (e + 1)) + 1#8) x = m x := by
      intro x hx
      refine update_of_ne ?_ _ _
      omega
    obtain ⟨-, hlink, -⟩ := hkeep _ hwritten (e + 1) hnext
    have hbyte := congrArg (· % 256) hlink
    unfold next at hbyte
    simp only [load_mod, update_self] at hbyte
    have hlt := (m (ringPos dataSize (e + 1))).isLt
    rw [BitVec.toNat_add, BitVec.toNat_ofNat] at hbyte
    omega
  · have hend := hin (dataSize - 1) (by omega)
    have harea : areaSize k dataSize = entryPos dataSize (e + 1) := by
      unfold areaSize entryPos
      rw [Nat.mul_comm, show 2 ^ k = e + 1 by omega]
    rw [hlast, harea, ringPos_eq] at hend
    omega

/-- **The data of an element** can be written without harm exactly when there are none. -/
theorem element_alone_iff (k dataSize : ℕ) (r : Ring) (addr : ℕ) (h : (r.alloc k dataSize).1 = some addr) :
    Alone k dataSize (r.alloc k dataSize).2.mem addr ↔ dataSize = 0 := by
  obtain ⟨e, he, rfl⟩ := alloc_pos h
  constructor
  · intro halone
    by_contra hd
    exact not_alone (Nat.pos_of_ne_zero hd) he _ halone
  · rintro rfl
    refine ⟨fun j hj => absurd hj (Nat.not_lt_zero j), fun m' hm' e' _ => ?_⟩
    have hsame : m' = (r.alloc k 0).2.mem := funext fun x => hm' x (by omega)
    subst hsame
    exact ⟨rfl, rfl, rfl, fun _ _ _ => rfl⟩

theorem element_alone_iff_two :
    (Ring.create.alloc 1 16).1 = some 41 ∧ (Alone 1 16 (Ring.create.alloc 1 16).2.mem 41 ↔ 16 = 0) := by
  have h : (Ring.create.alloc 1 16).1 = some 41 := by decide +kernel
  exact ⟨h, element_alone_iff 1 16 .create 41 h⟩

/-- **An overlap**: the eight bytes of an element of a ring of two. -/
theorem element_overlaps :
    ¬ ∀ (k dataSize : ℕ) (r : Ring) (addr : ℕ), 1 ≤ k → 8 ∣ dataSize →
      (Ring.create.alloc k dataSize) = (some addr, r) → Alone k dataSize r.mem addr := by
  intro hall
  have h : (Ring.create.alloc 1 8).1 = some (dataPos 8 1) := by decide +kernel
  have halone := hall 1 8 _ (dataPos 8 1) le_rfl (Nat.dvd_refl 8) (Prod.ext h rfl)
  exact not_alone (by omega) (by omega) _ halone

end Overlap

end Prs.RingBytes
