import Prs.Lib.Cells

/-!
# Strings in buffers (`lib/str.c`)

A `char*` argument that is only read is a `CStr`, its characters before the null. A buffer that is written is
a memory of characters, with addresses counted from its start `dst`, so the source's `d` is its `pos`.

`vsnprintf` is given the text that its format and arguments make: it stores at most `n - 1` of its characters
and a null, and returns the length of the text.
-/

namespace Prs.Str

structure CStr where
  chars : List UInt8
  chars_ne_null : 0 ∉ chars

/-- A buffer of the caller. -/
abbrev Buf : Type := Cells ℕ UInt8

/-- The loop of `prs_str_append`, with what is left of `src`. -/
def appendLoop (max : ℕ) : Buf → List UInt8 → ℕ → Buf × ℕ
  | dst, [], pos => (dst, pos)
  | dst, c :: s, pos => if pos < max then appendLoop max (dst.set pos c) s (pos + 1) else (dst, pos)

/-- `prs_str_append`. -/
def append (dst : Buf) (src : CStr) (offset max : ℕ) : Buf × ℕ :=
  let (dst, pos) := appendLoop max dst src.chars offset
  (dst.set pos 0, pos)

/-- `prs_str_copy`. -/
def copy (dst : Buf) (src : CStr) (max : ℕ) : Buf × ℕ := append dst src 0 max

/-- `vsnprintf`, at `dst + at`. -/
def vsnprintf (dst : Buf) (pos n : ℕ) (text : List UInt8) : Buf × ℕ :=
  match n with
  | 0 => (dst, text.length)
  | n + 1 => ((dst.puts pos (text.take n)).set (pos + min n text.length) 0, text.length)

/-- `prs_str_append_vprintf`. Its `n` is a `size_t`, and so is the right side of the comparison. -/
def appendVprintf (dst : Buf) (offset max : ℕ) (text : List UInt8) : Buf × ℕ :=
  let n := BitVec.ofNat 64 max - BitVec.ofNat 64 offset
  let (dst, r) := vsnprintf dst offset n.toNat text
  if (n - 1).toNat < r then (dst, 0) else (dst, offset + r)

/-- `prs_str_append_printf`. -/
def appendPrintf (dst : Buf) (offset max : ℕ) (text : List UInt8) : Buf × ℕ := appendVprintf dst offset max text

variable {dst : Buf} {src : CStr} {offset max : ℕ}

/-- The loop stores what fits, up to `max`. -/
theorem appendLoop_eq (max : ℕ) (dst : Buf) (s : List UInt8) (pos : ℕ) (h : pos ≤ max) :
    appendLoop max dst s pos = (dst.puts pos (s.take (max - pos)), pos + min s.length (max - pos)) := by
  induction s generalizing dst pos with
  | nil => rw [List.take_nil, List.length_nil, Nat.zero_min, Nat.add_zero]; rfl
  | cons c s ih =>
    unfold appendLoop
    by_cases hlt : pos < max
    · obtain ⟨k, hk⟩ : ∃ k, max - pos = k + 1 := ⟨max - pos - 1, by omega⟩
      have hk' : max - (pos + 1) = k := by omega
      rw [if_pos hlt, ih _ _ hlt, hk, hk', List.take_succ_cons, List.length_cons, Nat.add_min_add_right]
      exact Prod.ext rfl (by omega)
    · have hzero : max - pos = 0 := by omega
      rw [if_neg hlt, hzero, List.take_zero, Nat.min_zero, Nat.add_zero]
      rfl

/-- **What `prs_str_append` does.** -/
theorem append_eq (h : offset ≤ max) :
    append dst src offset max =
      ((dst.puts offset (src.chars.take (max - offset))).set (offset + min src.chars.length (max - offset)) 0,
        offset + min src.chars.length (max - offset)) := by
  unfold append
  rw [appendLoop_eq max dst src.chars offset h]

end Prs.Str
