import Prs.Proof.CmdlineWords

/-!
# Arguments that were quoted are parsed back

A list of arguments is rendered as a command line: each one as it is or in quotes, with spaces between them.

* `words_bare`, `words_quoted`: the word that one argument makes.
* `words_render`: the words of a rendered list are its arguments.
* `parse_render`: so `prs_proc_parse_cmdline` yields the list. For every command line whatsoever, the two
  passes agree and the pointers are in the buffer.
-/

namespace Prs.Cmdline

open Cells Str

variable {cs t : List UInt8} {n : ℕ}

section Words

theorem words_space (t : List UInt8) (a : Bool) : words (space :: t) false a = words t false false := by
  cases a <;> rfl

theorem words_spaces (n : ℕ) (t : List UInt8) :
    words (List.replicate n space ++ t) false false = words t false false := by
  induction n with
  | zero => rfl
  | succ n ih =>
    rw [List.replicate_succ, List.cons_append, words_space]
    exact ih

/-- The rest of an argument without quotes makes no word. -/
theorem words_skip_bare (hq : quote ∉ cs) (hs : space ∉ cs) :
    words (cs ++ t) false true = words t false true := by
  induction cs with
  | nil => rfl
  | cons c cs ih =>
    rw [List.mem_cons, not_or] at hq hs
    rw [List.cons_append, words, if_neg (Ne.symm hs.1), decide_eq_false (Ne.symm hq.1)]
    exact ih hq.2 hs.2

/-- The rest of an argument in quotes makes no word. -/
theorem words_skip_quoted (hq : quote ∉ cs) : words (cs ++ quote :: t) true true = words t false true := by
  induction cs with
  | nil => rfl
  | cons c cs ih =>
    rw [List.mem_cons, not_or] at hq
    rw [List.cons_append, words, decide_eq_false (Ne.symm hq.1)]
    by_cases hs : c = space
    · rw [if_pos hs]
      exact ih hq.2
    · rw [if_neg hs]
      exact ih hq.2

theorem quoted_append (hq : quote ∉ cs) : quoted (cs ++ quote :: t) = cs := by
  unfold quoted
  rw [List.takeWhile_append_of_pos, List.takeWhile_cons_of_neg (by simp), List.append_nil]
  intro c hc
  have hne : c ≠ quote := by rintro rfl; exact hq hc
  exact decide_eq_true hne

theorem bare_append (hq : quote ∉ cs) (hs : space ∉ cs) (ht : t.head? = none ∨ t.head? = some space) :
    bare (cs ++ t) = cs := by
  have hstop : bare t = [] := by
    cases t with
    | nil => rfl
    | cons c t =>
      have hc : c = space := by simpa using ht
      exact List.takeWhile_cons_of_neg (by simp [hc])
  unfold bare at *
  rw [List.takeWhile_append_of_pos, hstop, List.append_nil]
  intro c hc
  have hcq : c ≠ quote := by rintro rfl; exact hq hc
  have hcs : c ≠ space := by rintro rfl; exact hs hc
  exact decide_eq_true ⟨hcq, hcs⟩

theorem words_start_bare {c : UInt8} (hq : c ≠ quote) (hs : c ≠ space) :
    words (c :: t) false false = bare (c :: t) :: words t false true := by
  rw [words, if_neg hs, decide_eq_false hq]
  rfl

theorem words_start_quoted (t : List UInt8) :
    words (quote :: t) false false = quoted t :: words t true true := rfl

/-- **An argument as it is** makes a word. -/
theorem words_bare (hne : cs ≠ []) (hq : quote ∉ cs) (hs : space ∉ cs)
    (ht : t.head? = none ∨ t.head? = some space) :
    words (cs ++ t) false false = cs :: words t false true := by
  have hbare := bare_append hq hs ht
  cases cs with
  | nil => exact absurd rfl hne
  | cons c cs =>
    rw [List.mem_cons, not_or] at hq hs
    rw [List.cons_append] at *
    rw [words_start_bare (Ne.symm hq.1) (Ne.symm hs.1), hbare, words_skip_bare hq.2 hs.2]

/-- **An argument in quotes** makes a word. -/
theorem words_quoted (hq : quote ∉ cs) (t : List UInt8) :
    words (quote :: (cs ++ quote :: t)) false false = cs :: words t false true := by
  rw [words_start_quoted, quoted_append hq, words_skip_quoted hq]

end Words

section Render

/-- An argument, how it is rendered, and the spaces behind it (after at least one, unless it is the last). -/
structure Arg where
  chars : List UInt8
  ne_null : 0 ∉ chars
  ne_quote : quote ∉ chars
  inQuotes : Bool
  bare : inQuotes = false → chars ≠ [] ∧ space ∉ chars
  gap : ℕ

def Arg.text (a : Arg) : List UInt8 := if a.inQuotes then quote :: a.chars ++ [quote] else a.chars

/-- The arguments with the spaces between and behind them. -/
def renderArgs : List Arg → List UInt8
  | [] => []
  | [a] => a.text ++ List.replicate a.gap space
  | a :: b :: args => a.text ++ List.replicate (a.gap + 1) space ++ renderArgs (b :: args)

theorem null_not_mem_replicate (n : ℕ) : 0 ∉ List.replicate n space := by
  intro h
  exact absurd (List.eq_of_mem_replicate h) (by decide)

theorem Arg.null_not_mem_text (a : Arg) : 0 ∉ a.text := by
  unfold Arg.text
  split
  · have h0 : 0 ≠ quote := by decide
    have := a.ne_null
    simp [this, h0]
  · exact a.ne_null

theorem null_not_mem_renderArgs (args : List Arg) : 0 ∉ renderArgs args := by
  induction args with
  | nil => exact List.not_mem_nil
  | cons a args ih =>
    cases args with
    | nil =>
      unfold renderArgs
      rw [List.mem_append, not_or]
      exact ⟨a.null_not_mem_text, null_not_mem_replicate _⟩
    | cons b args =>
      unfold renderArgs
      rw [List.mem_append, List.mem_append, not_or, not_or]
      exact ⟨⟨a.null_not_mem_text, null_not_mem_replicate _⟩, ih⟩

/-- A rendered list of arguments, with leading spaces. Without arguments there are only these. -/
def render (lead : ℕ) (args : List Arg) : CStr where
  chars := List.replicate lead space ++ renderArgs args
  chars_ne_null := by
    rw [List.mem_append, not_or]
    exact ⟨null_not_mem_replicate _, null_not_mem_renderArgs args⟩

/-- The word of one argument. -/
theorem words_arg (a : Arg) (ht : t.head? = none ∨ t.head? = some space) :
    words (a.text ++ t) false false = a.chars :: words t false true := by
  unfold Arg.text
  by_cases hq : a.inQuotes = true
  · rw [if_pos hq, List.append_assoc]
    exact words_quoted a.ne_quote t
  · obtain ⟨hne, hs⟩ := a.bare (Bool.eq_false_iff.2 hq)
    rw [if_neg hq]
    exact words_bare hne a.ne_quote hs ht

theorem words_replicate (n : ℕ) (a : Bool) : words (List.replicate n space) false a = [] := by
  induction n generalizing a with
  | zero => rfl
  | succ n ih =>
    rw [List.replicate_succ, words_space]
    exact ih false

/-- The words of a rendering are its arguments. -/
theorem words_renderArgs (args : List Arg) : words (renderArgs args) false false = args.map Arg.chars := by
  induction args with
  | nil => rfl
  | cons a args ih =>
    cases args with
    | nil =>
      have ht : (List.replicate a.gap space).head? = none ∨ (List.replicate a.gap space).head? = some space := by
        cases a.gap with
        | zero => exact .inl rfl
        | succ n => exact .inr rfl
      unfold renderArgs
      rw [words_arg a ht, words_replicate]
      rfl
    | cons b args =>
      unfold renderArgs
      rw [List.append_assoc, words_arg a (.inr rfl), List.replicate_succ, List.cons_append, words_space,
        words_spaces, ih]
      rfl

/-- **The words of a rendered list** are its arguments. -/
theorem words_render (lead : ℕ) (args : List Arg) :
    words (render lead args).chars false false = args.map Arg.chars := by
  have h : (render lead args).chars = List.replicate lead space ++ renderArgs args := rfl
  rw [h, words_spaces, words_renderArgs]

/-- **Quoting is inverted**, and both passes agree on every command line. -/
theorem parse_render (memory : ℕ → UInt8) :
    (∀ (lead : ℕ) (args : List Arg), (render lead args).chars.length + 1 < 2 ^ 31 →
      ∃ r, parse memory (render lead args) = some r ∧ r.argc = args.length ∧
        List.Forall₂ (PointsTo r.buffer) r.argv (args.map Arg.chars)) ∧
    ∀ cmdline : CStr, cmdline.chars.length + 1 < 2 ^ 31 →
      ∃ r, parse memory cmdline = some r ∧ r.argv.length = r.argc ∧ ∀ p ∈ r.argv,
      p < cmdline.chars.length + 1 := by
  constructor
  · intro lead args hlen
    obtain ⟨r, hr, hargc, hargv, hwords⟩ := parse_words memory hlen
    rw [words_render] at hwords
    refine ⟨r, hr, ?_, hwords⟩
    rw [hargc, ← hargv, hwords.length_eq, List.length_map]
  · intro cmdline hlen
    exact parse_any memory hlen

/-- The arguments `a b` and none at all, both in quotes. -/
def twoArgs : List Arg :=
  [⟨[97, 32, 98], by decide, by decide, true, nofun, 1⟩, ⟨[], by decide, by decide, true, nofun, 0⟩]

/-- `a "b`. -/
def openQuote : CStr := ⟨[97, 32, 34, 98], by decide⟩

theorem parse_render_two :
    (∃ r, parse (fun _ => 7) (render 1 twoArgs) = some r ∧ r.argc = 2 ∧
      List.Forall₂ (PointsTo r.buffer) r.argv [[97, 32, 98], []]) ∧
    ∃ r, parse (fun _ => 7) openQuote = some r ∧ r.argv.length = r.argc ∧ ∀ p ∈ r.argv, p < 5 :=
  ⟨(parse_render fun _ => 7).1 1 twoArgs (by decide), (parse_render fun _ => 7).2 openQuote (by decide)⟩

end Render

end Prs.Cmdline
