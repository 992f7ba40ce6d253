import Mathlib.Algebra.Group.Nat.Defs
import Prs.Model.Log
import Prs.Proof.StrCopy

/-!
# What a log line keeps

A line is appended to its entry piece by piece. As long as the text with its newline leaves room for the null,
the entry holds it (`Holds`). From then on `prs_str_append` stores its null behind the buffer, and
`prs_str_append_vprintf` starts again at the first character.

* `stage_append`, `vprintf_of_le`, `vprintf_of_lt`: one piece, when it fits and when it does not.
* `vprint_cases`: the two ends of a line.
* `vprint_line_iff`: the line is kept exactly when it has at most 255 characters and `%u` prints the whole
  overflow count.
* `vprint_long`: a message of 300 characters is lost.
-/

namespace Prs.Log

open Cells Str

variable {bytes : ℕ → UInt8} {buf : Buf} {r : Buf × ℕ} {src : CStr} {l s text : List UInt8} {offset n a b : ℕ}

section Line

/-- The overflow notice, if there is one. -/
def notice (overflowCount : BitVec 64) : List UInt8 :=
  if overflowCount ≠ 0 then overflowText overflowCount.toNat else []

/-- The function name, and a separator in front of a message. -/
def functionText (function : Option CStr) (fmt : Option (List UInt8)) : List UInt8 :=
  match function with
  | some function => function.chars ++ if fmt.isSome then separator.chars else []
  | none => []

/-- The line behind its overflow notice. -/
def lineAfter (notice : List UInt8) (clock : BitVec 32) (function : Option CStr) (fmt : Option (List UInt8)) :
    List UInt8 :=
  notice ++ tickText clock.toNat ++ functionText function fmt ++ fmt.getD [] ++ newline.chars

/-- The intended line. -/
def line (overflowCount : BitVec 64) (clock : BitVec 32) (function : Option CStr) (fmt : Option (List UInt8)) :
    List UInt8 :=
  lineAfter (notice overflowCount) clock function fmt

/-- An entry that keeps a line, up to the size of its buffer. -/
structure Kept (bytes : ℕ → UInt8) (line : List UInt8) (e : Entry) : Prop where
  inside : Within {x | x < maxLogEntrySize} (start bytes) e.buf
  size : e.size ≤ maxLogEntrySize
  text : e.buf.slice 0 e.size = line.take e.size
  cut : e.size < line.length → maxLogEntrySize - 1 ≤ e.size

end Line

section Pieces

/-- The text so far is in the buffer. -/
structure Holds (bytes : ℕ → UInt8) (l : List UInt8) (r : Buf × ℕ) : Prop where
  inside : Within {x | x < maxLogEntrySize} (start bytes) r.1
  text : r.1.slice 0 l.length = l
  offset : r.2 = l.length
  fits : l.length < maxLogEntrySize

theorem holds_start (bytes : ℕ → UInt8) : Holds bytes [] (start bytes, 0) :=
  ⟨Within.refl _ _, rfl, rfl, by decide⟩

/-- A text and a null are stored behind the text so far. -/
theorem Holds.puts (h : Holds bytes l (buf, offset)) (hs : (l ++ s).length < maxLogEntrySize) :
    Holds bytes (l ++ s) ((buf.puts offset s).set (offset + s.length) 0, offset + s.length) := by
  have ho : offset = l.length := h.offset
  have hlen : (l ++ s).length = offset + s.length := by rw [List.length_append, ho]
  refine ⟨?_, ?_, hlen.symm, hs⟩
  · have hputs : Within {x | x < maxLogEntrySize} buf (buf.puts offset s) := by
      apply (puts_within buf offset s).mono
      rintro x ⟨-, hlt⟩
      exact Nat.lt_trans hlt (hlen ▸ hs)
    apply (h.inside.trans hputs).trans
    apply Within.set
    exact hlen ▸ hs
  · have hkeep : ((buf.puts offset s).set (offset + s.length) 0).slice 0 (l ++ s).length =
        (buf.puts offset s).slice 0 (offset + s.length) := by
      rw [hlen]
      apply slice_congr
      intro x _ hlt
      exact get_set_of_ne _ _ (by omega)
    rw [hkeep]
    apply slice_puts_append
    have htext : buf.slice 0 l.length = l := h.text
    rwa [ho]

/-- The null of a piece that does not fit. -/
theorem Holds.append_full (h : Holds bytes l (buf, offset)) (hs : maxLogEntrySize ≤ (l ++ src.chars).length) :
    maxLogEntrySize ∈ (append buf src offset maxLogEntrySize).1.written := by
  have ho : offset = l.length := h.offset
  have hfits : l.length < maxLogEntrySize := h.fits
  rw [List.length_append] at hs
  rw [append_of_le (by omega) (by omega)]
  exact List.mem_cons_self

theorem Holds.append (h : Holds bytes l (buf, offset)) (hs : (l ++ src.chars).length < maxLogEntrySize) :
    Holds bytes (l ++ src.chars) (append buf src offset maxLogEntrySize) := by
  have ho : offset = l.length := h.offset
  have hlen := hs
  rw [List.length_append, ← ho] at hlen
  rw [append_of_lt hlen]
  exact h.puts hs

theorem appendLoop_written (max : ℕ) (dst : Buf) (s : List UInt8) (pos : ℕ) (ha : a ∈ dst.written) :
    a ∈ (appendLoop max dst s pos).1.written := by
  induction s generalizing dst pos with
  | nil => exact ha
  | cons c s ih =>
    unfold appendLoop
    by_cases hlt : pos < max
    · rw [if_pos hlt]
      exact ih _ _ (List.mem_cons_of_mem _ ha)
    · rw [if_neg hlt]
      exact ha

theorem append_written (src : CStr) (offset max : ℕ) (ha : a ∈ buf.written) :
    a ∈ (Str.append buf src offset max).1.written :=
  List.mem_cons_of_mem _ (appendLoop_written max buf src.chars offset ha)

theorem vprintf_written (offset max : ℕ) (text : List UInt8) (ha : a ∈ buf.written) :
    a ∈ (appendVprintf buf offset max text).1.written := by
  have hput : ∀ n, a ∈ (vsnprintf buf offset n text).1.written := by
    intro n
    cases n with
    | zero => exact ha
    | succ n => exact List.mem_cons_of_mem _ ((puts_within buf offset _).written_mono ha)
  unfold appendVprintf
  dsimp only
  split <;> exact hput _

/-- What is left of the buffer, as the source computes it. -/
theorem space_eq (h : offset < maxLogEntrySize) :
    (BitVec.ofNat 64 maxLogEntrySize - BitVec.ofNat 64 offset).toNat = maxLogEntrySize - offset ∧
      (BitVec.ofNat 64 maxLogEntrySize - BitVec.ofNat 64 offset - 1).toNat = maxLogEntrySize - offset - 1 := by
  unfold maxLogEntrySize at *
  constructor <;> bv_omega

/-- **A formatted piece that fits.** -/
theorem Holds.vprintf (h : Holds bytes l (buf, offset)) (hs : (l ++ text).length < maxLogEntrySize) :
    Holds bytes (l ++ text) (appendVprintf buf offset maxLogEntrySize text) := by
  have ho : offset = l.length := h.offset
  have hlen := hs
  rw [List.length_append, ← ho] at hlen
  obtain ⟨hn, hn'⟩ := space_eq (show offset < maxLogEntrySize by omega)
  obtain ⟨k, hk⟩ : ∃ k, maxLogEntrySize - offset = k + 1 := ⟨maxLogEntrySize - offset - 1, by omega⟩
  have hmin : min k text.length = text.length := by omega
  have htake : text.take k = text := by
    apply List.take_of_length_le
    omega
  unfold appendVprintf
  dsimp only
  rw [hn, hn', hk, vsnprintf]
  dsimp only
  rw [hmin, htake, if_neg (by omega)]
  exact h.puts hs

/-- **A formatted piece that does not fit**: the offset starts again. -/
theorem Holds.vprintf_full (h : Holds bytes l (buf, offset)) (hs : maxLogEntrySize ≤ (l ++ text).length) :
    (appendVprintf buf offset maxLogEntrySize text).2 = 0 := by
  have ho : offset = l.length := h.offset
  have hfits : l.length < maxLogEntrySize := h.fits
  rw [List.length_append, ← ho] at hs
  obtain ⟨hn, hn'⟩ := space_eq (show offset < maxLogEntrySize by omega)
  have hr : ∀ n, (vsnprintf buf offset n text).2 = text.length := by
    intro n
    cases n <;> rfl
  unfold appendVprintf
  dsimp only
  rw [hn', hr, if_pos (by omega)]

/-- A line in the making: its text is in the buffer, or a null went behind the buffer. -/
def Stage (bytes : ℕ → UInt8) (l : List UInt8) (r : Buf × ℕ) : Prop :=
  Holds bytes l r ∨ maxLogEntrySize ≤ l.length ∧ maxLogEntrySize ∈ r.1.written

theorem Stage.append (h : Stage bytes l r) (src : CStr) :
    Stage bytes (l ++ src.chars) (append r.1 src r.2 maxLogEntrySize) := by
  obtain h | ⟨hl, hw⟩ := h
  · by_cases hs : (l ++ src.chars).length < maxLogEntrySize
    · exact .inl (h.append hs)
    · exact .inr ⟨Nat.le_of_not_lt hs, h.append_full (Nat.le_of_not_lt hs)⟩
  · refine .inr ⟨?_, append_written src _ _ hw⟩
    rw [List.length_append]
    omega

end Pieces

section Text

@[simp] theorem length_newline : newline.chars.length = 1 := rfl

theorem length_decimal_le (h : n < 2 ^ 32) : (decimal n).length ≤ 10 := by
  unfold decimal
  rw [List.length_map]
  exact (Nat.length_toDigits_le_iff (by decide) (by decide)).2 (Nat.lt_trans h (by decide))

theorem length_overflowText_le (h : n < 2 ^ 32) : (overflowText n).length ≤ 16 := by
  have hd := length_decimal_le h
  have h1 : (ascii "OVF: ").length = 5 := rfl
  have h2 : (ascii "\n").length = 1 := rfl
  unfold overflowText
  rw [List.length_append, List.length_append]
  omega

theorem length_tickText_le (h : n < 2 ^ 32) : (tickText n).length ≤ 13 := by
  have hd := length_decimal_le h
  have h1 : (ascii "[").length = 1 := rfl
  have h2 : (ascii "] ").length = 2 := rfl
  unfold tickText decimal6
  rw [List.length_append, List.length_append, List.length_append, List.length_replicate]
  omega

/-- Decimal digits read back. -/
theorem ofNat_toUInt8 {c : Char} (h : c.isDigit = true) : Char.ofNat c.toUInt8.toNat = c := by
  have hle : c.toNat ≤ 57 := (Char.isDigit_iff_toNat.1 h).2
  have hc : c.toUInt8.toNat = c.toNat := by
    have hmod : c.toUInt8.toNat = c.toNat % 2 ^ 8 := rfl
    omega
  rw [hc, Char.ofNat_toNat]

theorem decimal_injective (h : decimal a = decimal b) : a = b := by
  have hread : ∀ n, (decimal n).map (fun c => Char.ofNat c.toNat) = Nat.toDigits 10 n := by
    intro n
    unfold decimal
    rw [List.map_map]
    have hid : ∀ c ∈ Nat.toDigits 10 n, Char.ofNat c.toUInt8.toNat = c := by
      intro c hc
      exact ofNat_toUInt8 (Nat.isDigit_of_mem_toDigits (by decide) (by decide) hc)
    exact (List.map_congr_left hid).trans (List.map_id _)
  have htext : Nat.toDigits 10 a = Nat.toDigits 10 b := by rw [← hread, ← hread, h]
  rw [← Nat.ofDigitChars_ten_toDigits (n := a), htext, Nat.ofDigitChars_ten_toDigits]

theorem newline_not_mem_decimal (n : ℕ) : 10 ∉ decimal n := by
  intro h
  obtain ⟨c, hc, h10⟩ := List.mem_map.1 h
  have hd := Nat.isDigit_of_mem_toDigits (by decide) (by decide) hc
  have hback := ofNat_toUInt8 hd
  rw [h10] at hback
  rw [← hback] at hd
  exact absurd hd (by decide)

/-- A notice tells its count. -/
theorem overflowText_prefix {k k' : List UInt8} (h : overflowText a ++ k <+: overflowText b ++ k') : a = b := by
  have hsplit : ∀ (n : ℕ) (k : List UInt8), overflowText n ++ k = ascii "OVF: " ++ (decimal n ++ 10 :: k) := by
    intro n k
    unfold overflowText
    rw [List.append_assoc, List.append_assoc]
    rfl
  rw [hsplit, hsplit, List.prefix_append_right_inj] at h
  exact decimal_injective (eq_of_prefix_mark (newline_not_mem_decimal a) (newline_not_mem_decimal b) h)

end Text

section Vprint

variable {overflowCount : BitVec 64} {clock : BitVec 32} {function : Option CStr} {fmt : Option (List UInt8)}

/-- The overflow notice that is printed. -/
def printed (overflowCount : BitVec 64) : List UInt8 :=
  if overflowCount ≠ 0 then overflowText (overflowCount.setWidth 32).toNat else []

theorem length_printed_le (overflowCount : BitVec 64) : (printed overflowCount).length ≤ 16 := by
  unfold printed
  split
  · exact length_overflowText_le (overflowCount.setWidth 32).isLt
  · exact Nat.zero_le 16

/-- No line starts with its newline. -/
theorem lineAfter_head {notice : List UInt8} (hn : notice.head? ≠ some 10) :
    (lineAfter notice clock function fmt).head? ≠ some 10 := by
  unfold lineAfter
  cases notice with
  | nil =>
    have htick : (tickText clock.toNat).head? = some 91 := rfl
    rw [List.nil_append, List.append_assoc, List.append_assoc, List.head?_append, htick]
    exact ne_of_beq_false rfl
  | cons c notice => exact hn

theorem notice_head (overflowCount : BitVec 64) : (notice overflowCount).head? ≠ some 10 := by
  unfold notice
  split
  · have hhead : (overflowText overflowCount.toNat).head? = some 79 := rfl
    rw [hhead]
    decide
  · exact nofun

theorem holds_notice (bytes : ℕ → UInt8) (overflowCount : BitVec 64) :
    Holds bytes (printed overflowCount) (putNotice overflowCount (start bytes)) := by
  have hle := length_printed_le overflowCount
  unfold printed putNotice at *
  split
  · rename_i hc
    rw [if_pos hc] at hle
    apply (holds_start bytes).vprintf
    exact Nat.lt_of_le_of_lt hle (by decide)
  · exact holds_start bytes

theorem holds_tick (h : Holds bytes l (buf, offset)) (hl : l.length ≤ 16) :
    Holds bytes (l ++ tickText clock.toNat) (appendPrintf buf offset maxLogEntrySize (tickText clock.toNat)) := by
  have hle := length_tickText_le clock.isLt
  apply h.vprintf
  rw [List.length_append]
  unfold maxLogEntrySize
  omega

theorem Stage.putFunction (h : Stage bytes l (buf, offset)) (function : Option CStr) (fmt : Option (List UInt8)) :
    Stage bytes (l ++ functionText function fmt) (putFunction function fmt buf offset) := by
  unfold functionText Log.putFunction
  cases function with
  | none => rwa [List.append_nil]
  | some function =>
    have hf := h.append function
    dsimp only
    by_cases hfmt : fmt.isSome = true
    · rw [if_pos hfmt, if_pos hfmt, ← List.append_assoc]
      exact hf.append separator
    · rw [if_neg hfmt, if_neg hfmt, List.append_nil]
      exact hf

/-- The message: the line goes on, or starts again. -/
theorem Stage.putMessage (h : Stage bytes l (buf, offset)) (fmt : Option (List UInt8)) :
    Stage bytes (l ++ fmt.getD []) (putMessage fmt buf offset) ∨
      maxLogEntrySize ≤ (l ++ fmt.getD []).length ∧ (Log.putMessage fmt buf offset).2 = 0 := by
  unfold Log.putMessage
  cases fmt with
  | none => exact .inl (by rwa [Option.getD_none, List.append_nil])
  | some text =>
    rw [Option.getD_some]
    obtain h | ⟨hl, hw⟩ := h
    · by_cases hs : (l ++ text).length < maxLogEntrySize
      · exact .inl (.inl (h.vprintf hs))
      · exact .inr ⟨Nat.le_of_not_lt hs, h.vprintf_full (Nat.le_of_not_lt hs)⟩
    · refine .inl (.inr ⟨?_, vprintf_written _ _ _ hw⟩)
      rw [List.length_append]
      omega

/-- **The two ends of a line**: the entry has all of it, or it was too long. -/
theorem vprint_cases (bytes : ℕ → UInt8) (overflowCount : BitVec 64) (clock : BitVec 32) (function : Option CStr)
    (fmt : Option (List UInt8)) :
    ∃ e, vprint overflowCount (some (start bytes)) clock function fmt = (0, some e) ∧
      (Holds bytes (lineAfter (printed overflowCount) clock function fmt) (e.buf, e.size) ∨
        maxLogEntrySize ≤ (lineAfter (printed overflowCount) clock function fmt).length ∧
          (maxLogEntrySize ∈ e.buf.written ∨ e.size = 1 ∧ e.buf.get 0 = 10)) := by
  obtain ⟨r₁, h₁⟩ : ∃ r, r = putNotice overflowCount (start bytes) := ⟨_, rfl⟩
  obtain ⟨r₂, h₂⟩ : ∃ r, r = appendPrintf r₁.1 r₁.2 maxLogEntrySize (tickText clock.toNat) := ⟨_, rfl⟩
  obtain ⟨r₃, h₃⟩ : ∃ r, r = putFunction function fmt r₂.1 r₂.2 := ⟨_, rfl⟩
  obtain ⟨r₄, h₄⟩ : ∃ r, r = putMessage fmt r₃.1 r₃.2 := ⟨_, rfl⟩
  have hnotice : Holds bytes (printed overflowCount) r₁ := h₁ ▸ holds_notice bytes overflowCount
  have htick : Holds bytes (printed overflowCount ++ tickText clock.toNat) r₂ :=
    h₂ ▸ holds_tick hnotice (length_printed_le overflowCount)
  have hfunction : Stage bytes (printed overflowCount ++ tickText clock.toNat ++ functionText function fmt) r₃ :=
    h₃ ▸ Stage.putFunction (.inl htick) function fmt
  have hmessage := hfunction.putMessage fmt
  rw [← h₄] at hmessage
  refine ⟨⟨(append r₄.1 newline r₄.2 maxLogEntrySize).2, (append r₄.1 newline r₄.2 maxLogEntrySize).1⟩, ?_, ?_⟩
  · unfold vprint
    rw [h₄, h₃, h₂, h₁]
  obtain h | ⟨hlen, hzero⟩ := hmessage
  · obtain h | ⟨hl, hw⟩ := h.append newline
    · exact .inl h
    · exact .inr ⟨hl, .inl hw⟩
  · -- the newline is stored at the start
    refine .inr ⟨?_, .inr ?_⟩
    · unfold lineAfter
      rw [List.length_append]
      omega
    · rw [hzero, append_of_lt (by decide)]
      exact ⟨rfl, rfl⟩

theorem Holds.kept {e : Entry} (h : Holds bytes l (e.buf, e.size)) : Kept bytes l e := by
  have hsize : e.size = l.length := h.offset
  have htext : e.buf.slice 0 l.length = l := h.text
  have hfits := h.fits
  refine ⟨h.inside, by omega, ?_, by omega⟩
  rw [hsize, htext, List.take_length]

/-- The line in an entry tells the overflow count. -/
theorem Holds.count_eq {e : Entry}
    (h : Holds bytes (lineAfter (printed overflowCount) clock function fmt) (e.buf, e.size))
    (hk : Kept bytes (line overflowCount clock function fmt) e) :
    (overflowCount.setWidth 32).toNat = overflowCount.toNat := by
  by_cases hc : overflowCount ≠ 0
  · have hsize : e.size = (lineAfter (printed overflowCount) clock function fmt).length := h.offset
    have htext : e.buf.slice 0 (lineAfter (printed overflowCount) clock function fmt).length =
      lineAfter (printed overflowCount) clock function fmt := h.text
    have hpre :
        lineAfter (printed overflowCount) clock function fmt <+: line overflowCount clock function fmt := by
      rw [← htext, ← hsize, hk.text]
      exact List.take_prefix _ _
    unfold line lineAfter printed notice at hpre
    rw [if_pos hc, if_pos hc] at hpre
    simp only [List.append_assoc] at hpre
    exact overflowText_prefix hpre
  · rw [Classical.not_not.1 hc]
    rfl

/-- A line that was too long is not kept. -/
theorem not_kept_of_bad {e : Entry} (h : maxLogEntrySize ∈ e.buf.written ∨ e.size = 1 ∧ e.buf.get 0 = 10) :
    ¬ Kept bytes (line overflowCount clock function fmt) e := by
  intro hk
  obtain hw | ⟨hsize, hget⟩ := h
  · exact absurd (hk.inside.mem hw) (Nat.lt_irrefl maxLogEntrySize)
  · have htext := hk.text
    rw [hsize] at htext
    have hhead : (line overflowCount clock function fmt).head? = some 10 := by
      have h1 : e.buf.slice 0 1 = [10] := congrArg (fun b => [b]) hget
      have h2 : ((line overflowCount clock function fmt).take 1).head? =
        (line overflowCount clock function fmt).head? := by
        rw [List.head?_take, if_neg Nat.one_ne_zero]
      rw [← h2, ← htext, h1]
      rfl
    exact lineAfter_head (notice_head overflowCount) hhead

/-- **A line is kept exactly when it has at most 255 characters**, and the overflow count 32 bits. -/
theorem vprint_line_iff (bytes : ℕ → UInt8) (overflowCount : BitVec 64) (clock : BitVec 32)
    (function : Option CStr) (fmt : Option (List UInt8)) :
    ∃ e, vprint overflowCount (some (start bytes)) clock function fmt = (0, some e) ∧
      (Kept bytes (line overflowCount clock function fmt) e ↔
        (line overflowCount clock function fmt).length ≤ 255 ∧ overflowCount.toNat < 2 ^ 32) := by
  obtain ⟨e, he, hcases⟩ := vprint_cases bytes overflowCount clock function fmt
  refine ⟨e, he, ?_⟩
  constructor
  · intro hk
    obtain h | ⟨hl, hbad⟩ := hcases
    · have hcount := h.count_eq hk
      have hsame : printed overflowCount = notice overflowCount := by
        unfold printed notice
        rw [hcount]
      rw [hsame] at h
      have hlt : overflowCount.toNat < 2 ^ 32 := hcount ▸ (overflowCount.setWidth 32).isLt
      exact ⟨Nat.le_of_lt_succ h.fits, hlt⟩
    · exact absurd hk (not_kept_of_bad hbad)
  · rintro ⟨hlen, hlt⟩
    have hsame : printed overflowCount = notice overflowCount := by
      unfold printed notice
      rw [BitVec.toNat_setWidth, Nat.mod_eq_of_lt hlt]
    rw [hsame] at hcases
    obtain h | ⟨hl, -⟩ := hcases
    · exact h.kept
    · have : 256 ≤ (line overflowCount clock function fmt).length := hl
      omega

/-- A message of 300 characters is lost. -/
theorem vprint_long :
    ¬ (∀ (bytes : ℕ → UInt8) (overflowCount : BitVec 64) (clock : BitVec 32) (function : Option CStr)
        (fmt : Option (List UInt8)),
        ∃ e, vprint overflowCount (some (start bytes)) clock function fmt = (0, some e) ∧
          Kept bytes (line overflowCount clock function fmt) e) ∧
      ∃ e, vprint 0 (some (start fun _ => 1)) 7 none (some (List.replicate 300 97)) = (0, some e) ∧
        ¬ Kept (fun _ => 1) (line 0 7 none (some (List.replicate 300 97))) e := by
  have hlost : ∃ e, vprint 0 (some (start fun _ => 1)) 7 none (some (List.replicate 300 97)) = (0, some e) ∧
      ¬ Kept (fun _ => 1) (line 0 7 none (some (List.replicate 300 97))) e := by
    obtain ⟨e, he, h | ⟨-, hbad⟩⟩ := vprint_cases (fun _ => 1) 0 7 none (some (List.replicate 300 97))
    · have hlong : 300 ≤ (lineAfter (printed 0) 7 none (some (List.replicate 300 97))).length := by
        unfold lineAfter
        rw [List.length_append, List.length_append, Option.getD_some, List.length_replicate]
        omega
      exact absurd (Nat.lt_of_le_of_lt hlong h.fits) (by decide)
    · exact ⟨e, he, not_kept_of_bad hbad⟩
  refine ⟨fun h => ?_, hlost⟩
  obtain ⟨e, he, hk⟩ := h (fun _ => 1) 0 7 none (some (List.replicate 300 97))
  obtain ⟨e', he', hk'⟩ := hlost
  rw [he] at he'
  cases he'
  exact hk' hk

end Vprint

end Prs.Log
