import Prs.Proof.CmdlineQuotes

/-!
# The arguments of the main process

`prs_pal_proc_create_main` puts a space where `/proc/self/cmdline` ends an argument, and the parser knows
arguments by spaces and quotes.

* `createMain_eq`: the command line of the main process.
* `words_image`: arguments that are not empty, without spaces and quotes, are its words.
* `plain_of_words`: there are no other words without quotes, and no word has a quote.
* `mainParams_iff`: so the arguments come back exactly when they are all like that.
* `mainParams_space`: the argument `a b` comes back as two.
-/

namespace Prs.Cmdline

open Cells Str

variable {memory memory' : ℕ → UInt8} {cs t w w' file : List UInt8} {m : Buf} {n p : ℕ} {q a : Bool} {c x : UInt8}
  {args : List CStr}

section Words

/-- The characters of a word are those of the text. -/
theorem mem_of_mem_words (h : w ∈ words t q a) (hx : x ∈ w) : x ∈ t := by
  induction t generalizing q a with
  | nil => cases h
  | cons c t ih =>
    unfold words at h
    by_cases hs : c = space
    · rw [if_pos hs] at h
      exact List.mem_cons_of_mem c (ih h)
    · rw [if_neg hs] at h
      obtain h | h := List.mem_append.1 h
      · cases a with
        | true => cases h
        | false =>
          rw [List.mem_singleton.1 h] at hx
          split at hx
          · exact List.mem_cons_of_mem c ((List.takeWhile_sublist _).mem hx)
          · exact (List.takeWhile_sublist _).mem hx
      · exact List.mem_cons_of_mem c (ih h)

/-- No word has a quote. -/
theorem quote_not_mem_words (h : w ∈ words t q a) : quote ∉ w := by
  induction t generalizing q a with
  | nil => cases h
  | cons c t ih =>
    unfold words at h
    by_cases hs : c = space
    · rw [if_pos hs] at h
      exact ih h
    · rw [if_neg hs] at h
      obtain h | h := List.mem_append.1 h
      · cases a with
        | true => cases h
        | false =>
          rw [List.mem_singleton.1 h]
          intro hq
          split at hq
          · exact absurd (List.all_eq_true.1 List.all_takeWhile quote hq) (by decide)
          · exact absurd (List.all_eq_true.1 List.all_takeWhile quote hq) (by decide)
      · exact ih h

/-- A word of a text without quotes is not empty, and has no space. -/
theorem plain_of_words (h : w ∈ words t false a) (hq : quote ∉ t) : w ≠ [] ∧ space ∉ w := by
  induction t generalizing a with
  | nil => cases h
  | cons c t ih =>
    rw [List.mem_cons, not_or] at hq
    unfold words at h
    rw [decide_eq_false (Ne.symm hq.1)] at h
    by_cases hs : c = space
    · rw [if_pos hs] at h
      exact ih h hq.2
    · rw [if_neg hs] at h
      obtain h | h := List.mem_append.1 h
      · cases a with
        | true => cases h
        | false =>
          have hw : w = bare (c :: t) := List.mem_singleton.1 h
          have hcons : bare (c :: t) = c :: bare t := List.takeWhile_cons_of_pos (by simp [hs, Ne.symm hq.1])
          refine ⟨by rw [hw, hcons]; exact List.cons_ne_nil c _, ?_⟩
          rw [hw]
          intro hm
          exact absurd (List.all_eq_true.1 List.all_takeWhile space hm) (by decide)
      · exact ih h hq.2

end Words

section Image

/-- The bytes of `/proc/self/cmdline`: each argument is followed by a null. -/
def image (args : List CStr) : List UInt8 := args.flatMap fun a => a.chars ++ [0]

/-- The same with spaces. -/
def flat (args : List CStr) : List UInt8 := args.flatMap fun a => a.chars ++ [space]

/-- An argument that can stand in a command line as it is. -/
def Plain (a : CStr) : Prop := a.chars ≠ [] ∧ space ∉ a.chars ∧ quote ∉ a.chars

theorem readFile_eq (h : file.length < n) (m : Buf) (p : ℕ) :
    readFile n file m p =
      (m.puts p (file.map fun c => if c = 0 then space else c)).set (p + file.length) 0 := by
  induction file generalizing n m p with
  | nil =>
    obtain ⟨n, rfl⟩ : ∃ k, n = k + 1 := ⟨n - 1, by omega⟩
    rfl
  | cons c file ih =>
    obtain ⟨n, rfl⟩ : ∃ k, n = k + 1 := ⟨n - 1, by omega⟩
    rw [readFile, ih (Nat.lt_of_succ_lt_succ h), List.map_cons, puts, List.length_cons, Nat.add_right_comm,
      Nat.add_assoc]

theorem map_image (args : List CStr) : (image args).map (fun c => if c = 0 then space else c) = flat args := by
  induction args with
  | nil => rfl
  | cons a args ih =>
    have hkeep : a.chars.map (fun c => if c = 0 then space else c) = a.chars := by
      have hid : ∀ c ∈ a.chars, (if c = 0 then space else c) = c := by
        intro c hc
        have hne : c ≠ 0 := by rintro rfl; exact a.chars_ne_null hc
        exact if_neg hne
      exact (List.map_congr_left hid).trans (List.map_id _)
    unfold image flat at *
    rw [List.flatMap_cons, List.flatMap_cons, List.map_append, ih, List.map_append, hkeep]
    rfl

theorem null_not_mem_flat (args : List CStr) : 0 ∉ flat args := by
  intro h
  obtain ⟨a, -, ha⟩ := List.mem_flatMap.1 h
  obtain ha | ha := List.mem_append.1 ha
  · exact a.chars_ne_null ha
  · exact absurd (List.mem_singleton.1 ha) (by decide)

theorem length_flat (args : List CStr) : (flat args).length = (image args).length := by
  rw [← map_image, List.length_map]

/-- **The command line of the main process** has spaces for nulls. -/
theorem createMain_eq (memory : ℕ → UInt8) (h : (image args).length ≤ maxCmdline - 2) :
    (toCStr (createMain memory (image args)) maxCmdline).chars = flat args := by
  have hlt : (image args).length < maxCmdline - 1 := Nat.lt_of_le_of_lt h (by decide)
  have hlen : (image args).length = (flat args).length := (length_flat args).symm
  rw [hlen] at hlt
  have htext : (createMain memory (image args)).slice 0 (flat args).length = flat args := by
    have hputs := slice_puts (start memory) 0 (flat args)
    unfold createMain
    rw [readFile_eq (hlen ▸ hlt), map_image, hlen]
    apply Eq.trans _ hputs
    apply slice_congr
    intro x _ hx
    rw [get_set_of_ne _ _ (by omega), get_set_of_ne _ _ (by omega)]
  have hnull : (createMain memory (image args)).get (flat args).length = 0 := by
    unfold createMain
    rw [readFile_eq (hlen ▸ hlt), get_set_of_ne _ _ (by omega), hlen, Nat.zero_add, get_set_self]
  obtain ⟨k, hk⟩ : ∃ k, maxCmdline = (flat args).length + (k + 1) :=
    ⟨maxCmdline - 1 - (flat args).length, by omega⟩
  have hslice : (createMain memory (image args)).slice 0 maxCmdline =
      flat args ++ 0 :: (createMain memory (image args)).slice ((flat args).length + 1) k := by
    rw [hk, slice_add, htext, Nat.zero_add, slice, hnull]
  unfold toCStr
  dsimp only
  rw [hslice, List.takeWhile_append_of_pos, List.takeWhile_cons_of_neg (by decide), List.append_nil]
  intro c hc
  have hne : c ≠ 0 := by rintro rfl; exact null_not_mem_flat args hc
  exact decide_eq_true hne

/-- Plain arguments are the words. -/
theorem words_image (h : ∀ a ∈ args, Plain a) : words (flat args) false false = args.map CStr.chars := by
  induction args with
  | nil => rfl
  | cons a args ih =>
    obtain ⟨hne, hs, hq⟩ := h a List.mem_cons_self
    have hrest := ih fun b hb => h b (List.mem_cons_of_mem a hb)
    have hcons : flat (a :: args) = a.chars ++ space :: flat args := by
      unfold flat
      rw [List.flatMap_cons, List.append_assoc]
      rfl
    rw [hcons, words_bare hne hq hs (.inr rfl), words_space, hrest]
    rfl

theorem quote_mem_flat (h : quote ∈ flat args) : ∃ a ∈ args, quote ∈ a.chars := by
  obtain ⟨a, ha, hq⟩ := List.mem_flatMap.1 h
  obtain hq | hq := List.mem_append.1 hq
  · exact ⟨a, ha, hq⟩
  · exact absurd (List.mem_singleton.1 hq) (by decide)

/-- Other arguments are not. -/
theorem plain_of_words_image (h : words (flat args) false false = args.map CStr.chars) : ∀ a ∈ args, Plain a := by
  have hmem : ∀ a ∈ args, a.chars ∈ words (flat args) false false := by
    intro a ha
    rw [h]
    exact List.mem_map_of_mem ha
  have hquote : quote ∉ flat args := by
    intro hq
    obtain ⟨a, ha, hqa⟩ := quote_mem_flat hq
    exact quote_not_mem_words (hmem a ha) hqa
  intro a ha
  obtain ⟨hne, hs⟩ := plain_of_words (hmem a ha) hquote
  exact ⟨hne, hs, quote_not_mem_words (hmem a ha)⟩

end Image

section Strings

/-- There is one string at an address. -/
theorem pointsTo_unique (h : PointsTo m p w) (h' : PointsTo m p w') (hw : 0 ∉ w) (hw' : 0 ∉ w') : w = w' := by
  have hpre : ∀ {v : List UInt8} {n : ℕ}, PointsTo m p v → v.length + 1 ≤ n → v ++ [0] <+: m.slice p n := by
    intro v n hv hn
    have htake := take_slice m p hn
    rw [hv] at htake
    rw [← htake]
    exact List.take_prefix _ _
  obtain hle | hle := Nat.le_total w.length w'.length
  · have := hpre h (Nat.succ_le_succ hle)
    rw [h'] at this
    exact eq_of_prefix_mark hw hw' this
  · have := hpre h' (Nat.succ_le_succ hle)
    rw [h] at this
    exact (eq_of_prefix_mark hw' hw this).symm

theorem pointsTo_unique_list {argv : List ℕ} {l l' : List (List UInt8)} (h : List.Forall₂ (PointsTo m) argv l)
    (h' : List.Forall₂ (PointsTo m) argv l') (hl : ∀ w ∈ l, 0 ∉ w) (hl' : ∀ w ∈ l', 0 ∉ w) : l = l' := by
  induction h generalizing l' with
  | nil =>
    cases h'
    rfl
  | cons hp _ ih =>
    cases h' with
    | cons hp' hrest =>
      rw [List.forall_mem_cons] at hl hl'
      rw [pointsTo_unique hp hp' hl.1 hl'.1, ih hrest hl.2 hl'.2]

end Strings

section Main

/-- The process has these arguments. -/
def HasArgs (args : List CStr) (r : Option MainParams) : Prop :=
  ∃ params, r = some params ∧ params.argc = args.length ∧
    List.Forall₂ (PointsTo params.buffer) params.argv (args.map CStr.chars)

/-- **The main process sees its own arguments exactly when none is empty or has a space or a double quote.** -/
theorem mainParams_iff (memory memory' : ℕ → UInt8) (args : List CStr)
    (h : (image args).length ≤ maxCmdline - 2) :
    HasArgs args (mainParams memory memory' (image args)) ↔ ∀ a ∈ args, Plain a := by
  have htext := createMain_eq memory h
  have hlen : (flat args).length + 1 < 2 ^ 31 := by
    rw [length_flat]
    unfold maxCmdline at h
    omega
  rw [← htext] at hlen
  obtain ⟨r, hr, hargc, hargv, hwords⟩ := parse_words memory' hlen
  rw [htext] at hwords
  constructor
  · rintro ⟨r', hr', -, hargs⟩
    have hsame : r = r' := Option.some.inj (hr.symm.trans hr')
    subst hsame
    apply plain_of_words_image
    apply pointsTo_unique_list hwords hargs
    · intro w hw h0
      exact null_not_mem_flat args (mem_of_mem_words hw h0)
    · intro w hw
      obtain ⟨a, -, rfl⟩ := List.mem_map.1 hw
      exact a.chars_ne_null
  · intro hplain
    rw [words_image hplain] at hwords
    refine ⟨r, hr, ?_, hwords⟩
    rw [hargc, ← hargv, hwords.length_eq, List.length_map]

theorem null_notMem_spaced : (0 : UInt8) ∉ [97, 32, 98] := by decide

/-- `a b`. -/
def spaced : CStr := ⟨[97, 32, 98], null_notMem_spaced⟩

theorem mainParams_iff_spaced :
    HasArgs [spaced] (mainParams (fun _ => 1) (fun _ => 2) (image [spaced])) ↔ ∀ a ∈ [spaced], Plain a :=
  mainParams_iff (fun _ => 1) (fun _ => 2) [spaced] (by decide)

/-- The argument `a b` comes back as two. -/
theorem mainParams_space :
    ¬ (∀ (memory memory' : ℕ → UInt8) (args : List CStr), (image args).length ≤ maxCmdline - 2 →
      HasArgs args (mainParams memory memory' (image args))) ∧
    (mainParams (fun _ => 1) (fun _ => 2) (image [spaced])).map MainParams.argc = some 2 := by
  have htwo : (mainParams (fun _ => 1) (fun _ => 2) (image [spaced])).map MainParams.argc = some 2 := by
    decide +kernel
  refine ⟨fun h => ?_, htwo⟩
  obtain ⟨params, hp, hargc, -⟩ := h (fun _ => 1) (fun _ => 2) [spaced] (by decide)
  rw [hp] at htwo
  have hone : params.argc = 2 := Option.some.inj htwo
  rw [hargc] at hone
  exact absurd hone (by decide)

end Main

end Prs.Cmdline
