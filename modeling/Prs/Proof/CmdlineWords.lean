import Mathlib.Algebra.Group.Nat.Defs
import Prs.Model.Cmdline
import Mathlib.Data.List.Forall2

/-!
# What a command line is parsed into

Both passes are described on the text alone. `pointers` are the addresses that the second pass stores, `marks`
is the text that it leaves, and `words` are the strings at the pointers: a word that starts with a quote goes
up to the next one, another word up to a quote or a space.

* `count_eq`: the first pass counts the pointers.
* `split_eq`: the second pass stores them, and leaves `marks`. Each write is at the character that was just read.
* `parse_words`: the arguments are the words of the command line.
* `parse_any`: so there are as many as were counted, and all start in the buffer.
-/

namespace Prs.Cmdline

open Cells Str

variable {memory : ℕ → UInt8} {m m' : Buf} {t text argv' : List UInt8} {argv : List ℕ} {p n : ℕ} {q a : Bool}
    {c : UInt8}

section Text

/-- Where the pointers of the words are, with the text at address `p`. -/
def pointers : List UInt8 → ℕ → Bool → Bool → List ℕ
  | [], _, _, _ => []
  | c :: t, p, q, a =>
    if c = space then pointers t (p + 1) q (a && q)
    else
      let q := xor q (c = quote)
      (if a then [] else [if q then p + 1 else p]) ++ pointers t (p + 1) q true

/-- The text with the nulls of the second pass. -/
def marks : List UInt8 → Bool → Bool → List UInt8
  | [], _, _ => []
  | c :: t, q, a =>
    if c = space then (if !q && a then 0 else c) :: marks t q (a && q)
    else (if c = quote then 0 else c) :: marks t (xor q (c = quote)) true

/-- A word in quotes. -/
def quoted (t : List UInt8) : List UInt8 := t.takeWhile (· ≠ quote)

/-- A word without quotes. -/
def bare (t : List UInt8) : List UInt8 := t.takeWhile fun c => c ≠ quote ∧ c ≠ space

/-- The words of a text. -/
def words : List UInt8 → Bool → Bool → List (List UInt8)
  | [], _, _ => []
  | c :: t, q, a =>
    if c = space then words t q (a && q)
    else
      let q := xor q (c = quote)
      (if a then [] else [if q then quoted t else bare (c :: t)]) ++ words t q true

@[simp] theorem length_marks (t : List UInt8) (q a : Bool) : (marks t q a).length = t.length := by
  induction t generalizing q a with
  | nil => rfl
  | cons c t ih =>
    unfold marks
    by_cases hc : c = space
    · rw [if_pos hc, List.length_cons, List.length_cons, ih]
    · rw [if_neg hc, List.length_cons, List.length_cons, ih]

/-- Pointers are in the text, or at its null. -/
theorem pointers_le (hp : n ∈ pointers t p q a) : n ≤ p + t.length := by
  induction t generalizing p q a with
  | nil => cases hp
  | cons c t ih =>
    rw [List.length_cons]
    unfold pointers at hp
    have hrest : ∀ {q a}, n ∈ pointers t (p + 1) q a → n ≤ p + (t.length + 1) := by
      intro q a h
      have := ih h
      omega
    by_cases hc : c = space
    · rw [if_pos hc] at hp
      exact hrest hp
    · rw [if_neg hc] at hp
      obtain h | h := List.mem_append.1 hp
      · -- the pointer of the word that starts here
        have hn : n = p ∨ n = p + 1 := by
          cases a with
          | true => cases h
          | false =>
            have hn := List.mem_singleton.1 h
            split at hn <;> simp [hn]
        omega
      · exact hrest h

end Text

section Passes

theorem Scan.step_space (k : ℕ) (q a : Bool) : Scan.step ⟨k, q, a⟩ space = ⟨k, q, a && q⟩ := by
  cases q <;> cases a <;> rfl

theorem Scan.step_char (k : ℕ) (q a : Bool) (hc : c ≠ space) :
    Scan.step ⟨k, q, a⟩ c = ⟨if a then k else k + 1, xor q (c = quote), true⟩ := by
  unfold Scan.step
  rw [if_neg hc]
  by_cases hq : c = quote <;> cases a <;> simp [hq]

theorem Split.step_space (hc : m.get p = space) :
    Split.step ⟨m, argv, q, a⟩ p = ⟨if !q && a then m.set p 0 else m, argv, q, a && q⟩ := by
  unfold Split.step
  dsimp only
  rw [if_pos hc]
  cases q <;> cases a <;> rfl

theorem Split.step_char (hc : m.get p ≠ space) :
    Split.step ⟨m, argv, q, a⟩ p =
      ⟨if m.get p = quote then m.set p 0 else m,
        argv ++ (if a then [] else [if xor q (m.get p = quote) then p + 1 else p]), xor q (m.get p = quote),
        true⟩ := by
  unfold Split.step
  dsimp only
  rw [if_neg hc]
  by_cases hq : m.get p = quote <;> cases a <;> simp [hq]

/-- **The first pass counts the pointers.** -/
theorem count_eq (h : m.slice p (t.length + 1) = t ++ [0]) (ht : 0 ∉ t) (hn : t.length < n) (k : ℕ) (q a : Bool) :
    count m n p ⟨k, q, a⟩ = some (k + (pointers t p q a).length) := by
  induction t generalizing n p k q a with
  | nil =>
    obtain ⟨n, rfl⟩ : ∃ k, n = k + 1 := ⟨n - 1, by omega⟩
    have h0 : m.get p = 0 := (List.cons.inj h).1
    unfold count
    rw [h0]
    rfl
  | cons c t ih =>
    obtain ⟨n, rfl⟩ : ∃ k, n = k + 1 := ⟨n - 1, by omega⟩
    obtain ⟨hc, hrest⟩ := List.cons.inj h
    rw [List.mem_cons, not_or] at ht
    have hc0 : m.get p ≠ 0 := by rw [hc]; exact Ne.symm ht.1
    have hlt : t.length < n := Nat.lt_of_succ_lt_succ hn
    unfold count pointers
    dsimp only
    rw [if_neg hc0, hc]
    by_cases hs : c = space
    · rw [if_pos hs, hs, Scan.step_space]
      exact ih hrest ht.2 hlt _ _ _
    · rw [if_neg hs, Scan.step_char _ _ _ hs, ih hrest ht.2 hlt, List.length_append]
      cases a with
      | true => simp
      | false => simp [Nat.add_assoc]

/-- **The second pass stores the pointers, and leaves the marks.** -/
theorem split_eq (h : m.slice p (t.length + 1) = t ++ [0]) (ht : 0 ∉ t) (hn : t.length < n) (argv : List ℕ)
    (q a : Bool) :
    ∃ s, split n p ⟨m, argv, q, a⟩ = some s ∧ s.argv = argv ++ pointers t p q a ∧
      s.buffer.slice p (t.length + 1) = marks t q a ++ [0] ∧
      Within {x | p ≤ x ∧ x < p + t.length} m s.buffer := by
  induction t generalizing m n p argv q a with
  | nil =>
    obtain ⟨n, rfl⟩ : ∃ k, n = k + 1 := ⟨n - 1, by omega⟩
    have h0 : m.get p = 0 := (List.cons.inj h).1
    refine ⟨⟨m, argv, q, a⟩, ?_, (List.append_nil argv).symm, h, Within.refl _ _⟩
    unfold split
    rw [if_pos h0]
  | cons c t ih =>
    obtain ⟨n, rfl⟩ : ∃ k, n = k + 1 := ⟨n - 1, by omega⟩
    obtain ⟨hc, hrest⟩ := List.cons.inj h
    rw [List.mem_cons, not_or] at ht
    have hc0 : m.get p ≠ 0 := by rw [hc]; exact Ne.symm ht.1
    have hlt : t.length < n := Nat.lt_of_succ_lt_succ hn
    -- one character: `b` is what is left in its place
    have hgo : ∀ (m' : Buf) (b : UInt8) (argv : List ℕ) (q a : Bool), m'.get p = b →
        Within {x | p ≤ x ∧ x < p + 1} m m' →
        ∃ s, split n (p + 1) ⟨m', argv, q, a⟩ = some s ∧ s.argv = argv ++ pointers t (p + 1) q a ∧
          s.buffer.slice p ((c :: t).length + 1) = b :: marks t q a ++ [0] ∧
          Within {x | p ≤ x ∧ x < p + (c :: t).length} m s.buffer := by
      intro m' b argv q a hb hw
      have hkeep : m'.slice (p + 1) (t.length + 1) = t ++ [0] := by
        rw [← show m.slice (p + 1) (t.length + 1) = t ++ [0] from hrest]
        apply slice_congr
        intro x hx _
        exact hw.get_eq x fun hxp => absurd hxp.2 (Nat.not_lt.2 hx)
      obtain ⟨s, hs, hargv, hbuf, hws⟩ := ih hkeep ht.2 hlt argv q a
      refine ⟨s, hs, hargv, ?_, ?_⟩
      · have hp : s.buffer.get p = b := by
          rw [hws.get_eq p fun hxp => absurd hxp.1 (Nat.not_succ_le_self p), hb]
        rw [List.length_cons, slice, hp, hbuf]
        rfl
      · rw [List.length_cons]
        apply (hw.mono _).trans (hws.mono _)
        · rintro x ⟨hx, hxp⟩
          exact ⟨hx, by omega⟩
        · rintro x ⟨hx, hxp⟩
          exact ⟨by omega, by omega⟩
    have hset : Within {x | p ≤ x ∧ x < p + 1} m (m.set p 0) := Within.set m 0 ⟨Nat.le_refl p, Nat.lt_succ_self p⟩
    unfold split pointers marks
    rw [if_neg hc0]
    by_cases hs : c = space
    · rw [Split.step_space (hc.trans hs), if_pos hs, if_pos hs]
      cases hqa : !q && a with
      | true => exact hgo _ _ _ _ _ (get_set_self m p 0) hset
      | false => exact hgo _ _ _ _ _ hc (Within.refl _ m)
    · have hs' : m.get p ≠ space := by rwa [hc]
      rw [Split.step_char hs', hc, if_neg hs, if_neg hs, ← List.append_assoc]
      by_cases hq : c = quote
      · rw [if_pos hq, if_pos hq]
        exact hgo _ _ _ _ _ (get_set_self m p 0) hset
      · rw [if_neg hq, if_neg hq]
        exact hgo _ _ _ _ _ hc (Within.refl _ m)

end Passes

section Strings

/-- A string is at an address. -/
def PointsTo (m : Buf) (p : ℕ) (w : List UInt8) : Prop := m.slice p (w.length + 1) = w ++ [0]

theorem pointsTo_of_prefix {w : List UInt8} (h : w ++ [0] <+: m.slice p n) : PointsTo m p w := by
  have hle : w.length + 1 ≤ n := by
    have := h.length_le
    rwa [List.length_append, length_slice] at this
  have htake := List.prefix_iff_eq_take.1 h
  rw [List.length_append] at htake
  unfold PointsTo
  rw [← take_slice m p hle]
  exact htake.symm

/-- In quotes, the next null is at the next quote. -/
theorem quoted_prefix (t : List UInt8) : quoted t ++ [0] <+: marks t true true ++ [0] := by
  induction t with
  | nil => exact List.prefix_rfl
  | cons c t ih =>
    unfold quoted marks
    by_cases hq : c = quote
    · have hs : c ≠ space := by rw [hq]; decide
      rw [List.takeWhile_cons_of_neg (by simp [hq]), if_neg hs, if_pos hq]
      exact List.prefix_append [0] _
    · rw [List.takeWhile_cons_of_pos (by simp [hq])]
      by_cases hs : c = space
      · rw [if_pos hs]
        exact List.cons_prefix_cons.2 ⟨rfl, ih⟩
      · rw [if_neg hs, if_neg hq, decide_eq_false hq]
        exact List.cons_prefix_cons.2 ⟨rfl, ih⟩

/-- Outside of them, it is at the next quote or space. -/
theorem bare_prefix (t : List UInt8) : bare t ++ [0] <+: marks t false true ++ [0] := by
  induction t with
  | nil => exact List.prefix_rfl
  | cons c t ih =>
    unfold bare marks
    by_cases hs : c = space
    · rw [List.takeWhile_cons_of_neg (by simp [hs]), if_pos hs]
      exact List.prefix_append [0] _
    · rw [if_neg hs]
      by_cases hq : c = quote
      · rw [List.takeWhile_cons_of_neg (by simp [hq]), if_pos hq]
        exact List.prefix_append [0] _
      · rw [List.takeWhile_cons_of_pos (by simp [hq, hs]), if_neg hq, decide_eq_false hq]
        exact List.cons_prefix_cons.2 ⟨rfl, ih⟩

/-- **The words are at the pointers.** -/
theorem words_pointsTo (h : m.slice p (t.length + 1) = marks t q a ++ [0]) (hqa : q = true → a = true) :
    List.Forall₂ (PointsTo m) (pointers t p q a) (words t q a) := by
  induction t generalizing p q a with
  | nil => exact .nil
  | cons c t ih =>
    unfold marks at h
    unfold pointers words
    by_cases hs : c = space
    · rw [if_pos hs] at h
      rw [if_pos hs, if_pos hs]
      apply ih (List.cons.inj h).2
      intro hq
      rw [hqa hq, hq]
      rfl
    · rw [if_neg hs] at h
      rw [if_neg hs, if_neg hs]
      have hrest : m.slice (p + 1) (t.length + 1) = marks t (xor q (c = quote)) true ++ [0] := (List.cons.inj h).2
      refine List.rel_append ?_ (ih hrest fun _ => rfl)
      cases a with
      | true => exact .nil
      | false =>
        -- a word starts here, outside of quotes
        have hq : q = false := by
          cases q with
          | false => rfl
          | true => exact absurd (hqa rfl) (by decide)
        subst hq
        refine .cons ?_ .nil
        by_cases hc : c = quote
        · rw [decide_eq_true hc] at hrest
          simp only [hc, decide_true, Bool.bne_true, Bool.not_false, if_true]
          apply pointsTo_of_prefix
          rw [hrest]
          exact quoted_prefix t
        · rw [decide_eq_false hc] at h
          simp only [hc, decide_false, Bool.bne_false, Bool.false_eq_true, if_false]
          apply pointsTo_of_prefix
          rw [h, if_neg hc, bare, List.takeWhile_cons_of_pos (by simp [hc, hs])]
          exact List.cons_prefix_cons.2 ⟨rfl, bare_prefix t⟩

end Strings

section Parse

variable {cmdline : CStr}

/-- **The arguments are the words of the command line.** -/
theorem parse_words (memory : ℕ → UInt8) (h : cmdline.chars.length + 1 < 2 ^ 31) :
    ∃ r, parse memory cmdline = some r ∧ r.argc = (pointers cmdline.chars 0 false false).length ∧
      r.argv = pointers cmdline.chars 0 false false ∧
      List.Forall₂ (PointsTo r.buffer) r.argv (words cmdline.chars false false) := by
  have hlen : (BitVec.ofNat 32 (cmdline.chars.length + 1)).toInt.toNat = cmdline.chars.length + 1 := by
    rw [BitVec.toInt_eq_toNat_of_lt] <;> rw [BitVec.toNat_ofNat] <;> omega
  have hbuf : ((start memory).puts 0 (cmdline.chars ++ [0])).slice 0 (cmdline.chars.length + 1) =
    cmdline.chars ++ [0] := by
    have h := slice_puts (start memory) 0 (cmdline.chars ++ [0])
    rwa [List.length_append] at h
  have htake : (cmdline.chars ++ [0]).take (cmdline.chars.length + 1) = cmdline.chars ++ [0] := by
    apply List.take_of_length_le
    rw [List.length_append]
    exact Nat.le_refl _
  have hcount := count_eq hbuf cmdline.chars_ne_null (Nat.lt_add_one _) 0 false false
  obtain ⟨s, hs, hargv, hmarks, -⟩ := split_eq hbuf cmdline.chars_ne_null (Nat.lt_add_one _) [] false false
  refine ⟨⟨s.buffer, (pointers cmdline.chars 0 false false).length, s.argv⟩, ?_, rfl, hargv, ?_⟩
  · unfold parse
    rw [hlen]
    dsimp only
    rw [htake, hcount, Option.bind_eq_bind, Option.bind_some, hs, Nat.zero_add]
    rfl
  · rw [hargv]
    exact words_pointsTo hmarks nofun

/-- **For every command line**, the second pass stores as many pointers as the first one counted, all into the
buffer. -/
theorem parse_any (memory : ℕ → UInt8) (h : cmdline.chars.length + 1 < 2 ^ 31) :
    ∃ r, parse memory cmdline = some r ∧ r.argv.length = r.argc ∧ ∀ p ∈ r.argv, p < cmdline.chars.length + 1 := by
  obtain ⟨r, hr, hargc, hargv, -⟩ := parse_words memory h
  refine ⟨r, hr, by rw [hargc, hargv], ?_⟩
  intro p hp
  rw [hargv] at hp
  have := pointers_le hp
  omega

end Parse

end Prs.Cmdline
