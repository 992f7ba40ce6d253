import Prs.Model.Str

/-!
# Copies into a buffer

`prs_str_append` stores characters of `src` up to `dst + max`, and then a null at the place where it stopped.
The null has a place in the buffer when the source ends before it.

* `append_of_lt`, `append_of_le`: what is stored when the source fits, and when it does not.
* `append_copied_iff`: the copy is as it should be exactly when the source is shorter than the space that is left.
* `copy_full`: a name of four characters in a buffer of four.
-/

namespace Prs.Str

open Cells

variable {bytes : ℕ → UInt8} {dst : Buf} {src : CStr} {offset max : ℕ}

/-- A bounded copy, with the position that it returns: the longest start of `src` that leaves room for a null. -/
structure Copied (bytes : ℕ → UInt8) (src : CStr) (offset max : ℕ) (r : Buf × ℕ) : Prop where
  inside : Within {x | offset ≤ x ∧ x < max} (start bytes) r.1
  text : r.1.slice offset (min src.chars.length (max - 1 - offset)) = src.chars.take (max - 1 - offset)
  pos : r.2 = offset + min src.chars.length (max - 1 - offset)
  null : r.1.get r.2 = 0
  below : r.2 < max

/-- The source fits, with its null. -/
theorem append_of_lt (h : offset + src.chars.length < max) :
    append dst src offset max =
      ((dst.puts offset src.chars).set (offset + src.chars.length) 0, offset + src.chars.length) := by
  have hmin : min src.chars.length (max - offset) = src.chars.length := by omega
  have htake : src.chars.take (max - offset) = src.chars := by
    apply List.take_of_length_le
    omega
  rw [append_eq (by omega), hmin, htake]

/-- The source does not leave room for the null, which is stored behind the buffer. -/
theorem append_of_le (ho : offset ≤ max) (h : max ≤ offset + src.chars.length) :
    append dst src offset max = ((dst.puts offset (src.chars.take (max - offset))).set max 0, max) := by
  have hmin : offset + min src.chars.length (max - offset) = max := by omega
  rw [append_eq ho, hmin]

theorem append_within (h : offset + src.chars.length < max) :
    Within {x | offset ≤ x ∧ x < max} dst (append dst src offset max).1 := by
  rw [append_of_lt h]
  have hputs : Within {x | offset ≤ x ∧ x < max} dst (dst.puts offset src.chars) := by
    apply (puts_within dst offset src.chars).mono
    rintro x ⟨hx, hlt⟩
    exact ⟨hx, by omega⟩
  apply hputs.trans
  apply Within.set
  exact ⟨Nat.le_add_right offset _, h⟩

theorem append_slice (h : offset + src.chars.length < max) :
    (append dst src offset max).1.slice offset src.chars.length = src.chars := by
  rw [append_of_lt h]
  have hkeep : ((dst.puts offset src.chars).set (offset + src.chars.length) 0).slice offset src.chars.length =
      (dst.puts offset src.chars).slice offset src.chars.length := by
    apply slice_congr
    intro x _ hlt
    exact get_set_of_ne _ _ (Nat.ne_of_lt hlt)
  exact hkeep.trans (slice_puts dst offset src.chars)

theorem append_copied (h : offset + src.chars.length < max) :
    Copied bytes src offset max (append (start bytes) src offset max) := by
  have hmin : min src.chars.length (max - 1 - offset) = src.chars.length := by omega
  have htake : src.chars.take (max - 1 - offset) = src.chars := by
    apply List.take_of_length_le
    omega
  have hpos : (append (start bytes) src offset max).2 = offset + src.chars.length := by rw [append_of_lt h]
  refine ⟨append_within h, ?_, ?_, ?_, ?_⟩
  · rw [hmin, htake]
    exact append_slice h
  · rw [hmin, hpos]
  · rw [append_of_lt h]
    exact get_set_self _ _ _
  · rwa [hpos]

theorem copied_iff (ho : offset < max) :
    Copied bytes src offset max (append (start bytes) src offset max) ↔ offset + src.chars.length < max := by
  constructor
  · intro hc
    by_contra hle
    -- the loop runs up to the end of the buffer, and returns it
    have hpos : (append (start bytes) src offset max).2 = max := by
      rw [append_of_le (Nat.le_of_lt ho) (Nat.le_of_not_lt hle)]
    have hbelow := hc.below
    omega
  · exact append_copied

/-- **A bounded copy is right exactly when the source is shorter than the space.** -/
theorem append_copied_iff (bytes : ℕ → UInt8) (src : CStr) (max : ℕ) :
    (∀ offset < max, Copied bytes src offset max (append (start bytes) src offset max) ↔
      offset + src.chars.length < max) ∧
    (0 < max → (Copied bytes src 0 max (copy (start bytes) src max) ↔ src.chars.length < max)) := by
  refine ⟨fun offset ho => copied_iff ho, fun hmax => ?_⟩
  have h : Copied bytes src 0 max (copy (start bytes) src max) ↔ 0 + src.chars.length < max := copied_iff hmax
  rwa [Nat.zero_add] at h

/-- `"abcd"`. -/
def abcd : CStr := ⟨[97, 98, 99, 100], by decide⟩

theorem append_copied_iff_abcd :
    (Copied (fun _ => 1) abcd 0 5 (append (start fun _ => 1) abcd 0 5) ↔ 0 + 4 < 5) ∧
      (Copied (fun _ => 1) abcd 0 5 (copy (start fun _ => 1) abcd 5) ↔ 4 < 5) :=
  ⟨(append_copied_iff (fun _ => 1) abcd 5).1 0 (by decide), (append_copied_iff (fun _ => 1) abcd 5).2 (by decide)⟩

/-- A name of four characters in a buffer of four: the null is stored in the fifth. -/
theorem copy_full :
    ¬ (∀ (bytes : ℕ → UInt8) (src : CStr) (offset max : ℕ), 0 < max → offset < max →
      Copied bytes src offset max (append (start bytes) src offset max)) ∧
    ¬ Copied (fun _ => 1) abcd 0 4 (copy (start fun _ => 1) abcd 4) ∧
    (copy (start fun _ => 1) abcd 4).2 = 4 ∧ (copy (start fun _ => 1) abcd 4).1.written = [4, 3, 2, 1, 0] := by
  have hfull : ¬ Copied (fun _ => 1) abcd 0 4 (append (start fun _ => 1) abcd 0 4) := by
    intro hc
    exact absurd hc.below (by decide)
  refine ⟨fun h => ?_, hfull, by decide, by decide⟩
  exact hfull (h (fun _ => 1) abcd 0 4 (by decide) (by decide))

end Prs.Str
