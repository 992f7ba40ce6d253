import Mathlib.Data.List.Basic
import Mathlib.Logic.Function.Basic

/-!
# Lists held together by links

A linked list in memory is a `next` field on nodes. `Links next l` says that `l` is such a list in full: the
link of each node is the node behind it in `l`, and the last one has none.

* `Links.next_eq`: the link of a node is the head of what follows it.
* `Links.eq_getLast`: the node without a link is the last one.
* `Links.snoc`, `Links.remove`: the two edits, linking a node at the end and taking one out.
* `Links.insert`, `Links.erase`: the same at any place, for any way in which the links are changed.
* `Links.linked_iff`: the nodes reached from the first one are those of the list.
* `Links.follow`: a walk from the first node meets the list and comes to its end.

`Backs prev p l` is the same for the back links of a doubly linked list: the back link of each node is the
node before it in `l`, and that of the first one is `p`.
-/

namespace Prs

open Function

variable {α : Type*} {next next' : α → Option α} {l pre post : List α} {a b : α}

/-- `a` is reached from `head` through links. -/
inductive Linked (next : α → Option α) (head : Option α) : α → Prop
  | head {a : α} (h : head = some a) : Linked next head a
  | next {a b : α} (ha : Linked next head a) (h : next a = some b) : Linked next head b

/-- `l` is linked by `next`, up to a node that has no link. -/
def Links (next : α → Option α) : List α → Prop
  | [] => True
  | a :: l => next a = l.head? ∧ Links next l

@[simp] theorem links_nil : Links next [] := trivial

@[simp] theorem links_cons : Links next (a :: l) ↔ next a = l.head? ∧ Links next l := Iff.rfl

theorem Links.suffix (h : Links next (pre ++ l)) : Links next l := by
  induction pre with
  | nil => exact h
  | cons a pre ih => exact ih h.2

theorem Links.next_eq (h : Links next (pre ++ a :: post)) : next a = post.head? := h.suffix.1

theorem Links.congr (h : Links next l) (hc : ∀ a ∈ l, next' a = next a) : Links next' l := by
  induction l with
  | nil => trivial
  | cons a l ih =>
    exact ⟨(hc a List.mem_cons_self).trans h.1, ih h.2 fun b hb => hc b (List.mem_cons_of_mem a hb)⟩

/-- The node without a link is the last one. -/
theorem Links.eq_getLast (h : Links next l) (ha : a ∈ l) (hn : next a = none) : l.getLast? = some a := by
  obtain ⟨pre, post, rfl⟩ := List.append_of_mem ha
  have hp := h.next_eq
  rw [hn] at hp
  have hp' : post = [] := List.head?_eq_none_iff.1 hp.symm
  subst hp'
  simp

/-- The node with link `b` has `b` right behind it. -/
theorem Links.next_split (h : Links next (pre ++ a :: post)) (hn : next a = some b) :
    ∃ post', post = b :: post' := by
  have hp := h.next_eq
  rw [hn] at hp
  cases post with
  | nil => cases hp
  | cons c post' => exact ⟨post', by simpa using hp.symm⟩

/-- A node behind one that is reached is reached. -/
theorem Links.linked (h : Links next (pre ++ a :: post)) {head : Option α} (ha : Linked next head a)
    (hb : b ∈ a :: post) : Linked next head b := by
  induction post generalizing pre a with
  | nil => rw [List.mem_singleton.1 hb]; exact ha
  | cons c post ih =>
    rcases List.mem_cons.1 hb with rfl | hb
    · exact ha
    · have h' : Links next ((pre ++ [a]) ++ c :: post) := by simpa using h
      exact ih h' (ha.next h.next_eq) hb

/-- **The nodes reached from the first one are those of the list.** -/
theorem Links.linked_iff (h : Links next l) : Linked next l.head? a ↔ a ∈ l := by
  constructor
  · intro ha
    induction ha with
    | head h' => exact List.mem_of_mem_head? h'
    | next _ h' ih =>
      obtain ⟨pre, post, rfl⟩ := List.append_of_mem ih
      obtain ⟨post', rfl⟩ := h.next_split h'
      simp
  · intro ha
    cases l with
    | nil => cases ha
    | cons b l => exact (show Links next ([] ++ b :: l) from h).linked (.head rfl) ha

/-- The nodes of a walk from a node to the end, for `n` nodes at most. -/
def follow (next : α → Option α) : ℕ → Option α → Option (List α)
  | _, none => some []
  | 0, some _ => none
  | n + 1, some a => (follow next n (next a)).map (a :: ·)

/-- **The walk from the first node** meets the nodes of the list in their order. -/
theorem Links.follow {n : ℕ} (h : Links next l) (hn : l.length ≤ n) : Prs.follow next n l.head? = some l := by
  induction l generalizing n with
  | nil => cases n <;> rfl
  | cons a l ih =>
    cases n with
    | zero => exact absurd hn (Nat.not_succ_le_zero _)
    | succ n =>
      rw [List.head?_cons, Prs.follow, h.1, ih h.2 (Nat.le_of_succ_le_succ hn)]
      rfl

section Backs

variable {prev prev' : α → Option α} {p : Option α}

/-- The back link of each node of `l` is the node before it, and `p` for the first. -/
def Backs (prev : α → Option α) : Option α → List α → Prop
  | _, [] => True
  | p, a :: l => prev a = p ∧ Backs prev (some a) l

theorem backs_append : Backs prev p (pre ++ l) ↔ Backs prev p pre ∧ Backs prev (pre.getLast?.or p) l := by
  induction pre generalizing p with
  | nil => simp [Backs]
  | cons a pre ih =>
    rw [List.cons_append, Backs, ih, Backs, and_assoc, List.getLast?_cons]
    cases pre.getLast? <;> rfl

theorem Backs.congr (h : Backs prev p l) (hc : ∀ a ∈ l, prev' a = prev a) : Backs prev' p l := by
  induction l generalizing p with
  | nil => trivial
  | cons a l ih =>
    exact ⟨(hc a List.mem_cons_self).trans h.1, ih h.2 fun b hb => hc b (List.mem_cons_of_mem a hb)⟩

/-- The back link of a node is the last of what precedes it. -/
theorem Backs.prev_eq (h : Backs prev p (pre ++ a :: post)) : prev a = pre.getLast?.or p := (backs_append.1 h).2.1

/-- Back links lead from the last node to the first, and on. -/
theorem Backs.links_append (h : Backs prev p l) (hm : Links prev post) (hp : post.head? = p) :
    Links prev (l.reverse ++ post) := by
  induction l generalizing p post with
  | nil => exact hm
  | cons a l ih =>
    rw [List.reverse_cons, List.append_assoc]
    exact ih h.2 ⟨h.1.trans hp.symm, hm⟩ rfl

theorem Backs.links_reverse (h : Backs prev none l) : Links prev l.reverse := by
  have := h.links_append links_nil rfl
  rwa [List.append_nil] at this

/-- Links are back links from the other end. -/
theorem Links.backs_reverse (h : Links next l) : Backs next none l.reverse := by
  induction l with
  | nil => trivial
  | cons a l ih =>
    rw [List.reverse_cons, backs_append, List.getLast?_reverse, Option.or_none]
    exact ⟨ih h.2, h.1, trivial⟩

/-- **A node gets a place in a list**: its own back link, and that of the node behind it. -/
theorem Backs.insert (h : Backs prev p (pre ++ post)) (hn : (pre ++ post).Nodup)
    (hb : prev' b = pre.getLast?.or p) (hhead : ∀ c, post.head? = some c → prev' c = some b)
    (hrest : ∀ c ∈ pre ++ post, post.head? ≠ some c → prev' c = prev c) : Backs prev' p (pre ++ b :: post) := by
  obtain ⟨hpre, hpost⟩ := backs_append.1 h
  obtain ⟨-, hnp, hdisj⟩ := List.nodup_append.1 hn
  refine backs_append.2 ⟨hpre.congr fun c hc => ?_, hb, ?_⟩
  · apply hrest c (List.mem_append_left post hc)
    intro hh
    exact hdisj c hc c (List.mem_of_mem_head? hh) rfl
  · cases post with
    | nil => trivial
    | cons a post =>
      refine ⟨hhead a rfl, hpost.2.congr fun c hc => ?_⟩
      apply hrest c (List.mem_append_right pre (List.mem_cons_of_mem a hc))
      intro hh
      have hac : a = c := Option.some.inj hh
      exact (List.nodup_cons.1 hnp).1 (hac ▸ hc)

/-- **A node is taken out**: the node behind it gets its back link. -/
theorem Backs.erase (h : Backs prev p (pre ++ b :: post)) (hn : (pre ++ b :: post).Nodup)
    (hhead : ∀ c, post.head? = some c → prev' c = prev b)
    (hrest : ∀ c ∈ pre ++ post, post.head? ≠ some c → prev' c = prev c) : Backs prev' p (pre ++ post) := by
  obtain ⟨hpre, hb, hpost⟩ := backs_append.1 h
  obtain ⟨-, hnp, hdisj⟩ := List.nodup_append.1 hn
  obtain ⟨-, hnp⟩ := List.nodup_cons.1 hnp
  refine backs_append.2 ⟨hpre.congr fun c hc => ?_, ?_⟩
  · apply hrest c (List.mem_append_left post hc)
    intro hh
    exact hdisj c hc c (List.mem_cons_of_mem b (List.mem_of_mem_head? hh)) rfl
  · cases post with
    | nil => trivial
    | cons a post =>
      refine ⟨(hhead a rfl).trans hb, hpost.2.congr fun c hc => ?_⟩
      apply hrest c (List.mem_append_right pre (List.mem_cons_of_mem a hc))
      intro hh
      have hac : a = c := Option.some.inj hh
      exact (List.nodup_cons.1 hnp).1 (hac ▸ hc)

end Backs

section Both

/-- A node gets a place in a list: its link, and that of the node before it. -/
theorem Links.insert (h : Links next (pre ++ post)) (hn : (pre ++ post).Nodup) (hb : next' b = post.head?)
    (hlast : ∀ c, pre.getLast? = some c → next' c = some b)
    (hrest : ∀ c ∈ pre ++ post, pre.getLast? ≠ some c → next' c = next c) : Links next' (pre ++ b :: post) := by
  have hr := h.backs_reverse
  rw [List.reverse_append] at hr
  have hi : Backs next' none (post.reverse ++ b :: pre.reverse) := by
    apply hr.insert
    · rwa [← List.reverse_append, (List.reverse_perm _).nodup_iff]
    · rw [hb, List.getLast?_reverse, Option.or_none]
    · intro c hc
      exact hlast c (List.head?_reverse ▸ hc)
    · intro c hc hh
      rw [← List.reverse_append, List.mem_reverse] at hc
      exact hrest c hc (List.head?_reverse ▸ hh)
  have := hi.links_reverse
  rwa [List.reverse_append, List.reverse_cons, List.reverse_reverse, List.reverse_reverse,
    List.append_assoc] at this

/-- A node is taken out: the node before it gets its link. -/
theorem Links.erase (h : Links next (pre ++ b :: post)) (hn : (pre ++ b :: post).Nodup)
    (hlast : ∀ c, pre.getLast? = some c → next' c = next b)
    (hrest : ∀ c ∈ pre ++ post, pre.getLast? ≠ some c → next' c = next c) : Links next' (pre ++ post) := by
  have hr := h.backs_reverse
  have hrev : (pre ++ b :: post).reverse = post.reverse ++ b :: pre.reverse := by
    rw [List.reverse_append, List.reverse_cons, List.append_assoc]
    rfl
  have he : Backs next' none (post.reverse ++ pre.reverse) := by
    rw [hrev] at hr
    apply hr.erase
    · rwa [← hrev, (List.reverse_perm _).nodup_iff]
    · intro c hc
      exact hlast c (List.head?_reverse ▸ hc)
    · intro c hc hh
      rw [← List.reverse_append, List.mem_reverse] at hc
      exact hrest c hc (List.head?_reverse ▸ hh)
  have := he.links_reverse
  rwa [List.reverse_append, List.reverse_reverse, List.reverse_reverse] at this

end Both

variable [DecidableEq α]

/-- The first node of a rest gets a new back link. -/
theorem Backs.rehead {prev : α → Option α} {p q : Option α} (h : Backs prev p (a :: l)) (ha : a ∉ l) :
    Backs (update prev a q) q (a :: l) := by
  refine ⟨update_self _ _ _, h.2.congr fun b hb => ?_⟩
  have hba : b ≠ a := by rintro rfl; exact ha hb
  exact update_of_ne hba _ _

/-- A node is linked behind the last one. -/
theorem Links.snoc (h : Links next (l ++ [a])) (hl : a ∉ l) (hab : b ≠ a) (hb : next b = none) :
    Links (update next a (some b)) (l ++ [a, b]) := by
  induction l with
  | nil => simp [update_of_ne hab, hb]
  | cons c l ih =>
    rw [List.mem_cons, not_or] at hl
    refine ⟨?_, ih h.2 hl.2⟩
    rw [update_of_ne (Ne.symm hl.1), h.1]
    cases l <;> rfl

/-- The node behind `a` is taken out. -/
theorem Links.remove (h : Links next (pre ++ a :: b :: post)) (hpre : a ∉ pre) (hpost : a ∉ post) :
    Links (update next a (next b)) (pre ++ a :: post) := by
  induction pre with
  | nil =>
    obtain ⟨-, h2, h3⟩ := h
    refine ⟨by rw [update_self, h2], h3.congr fun c hc => ?_⟩
    have hca : c ≠ a := by rintro rfl; exact hpost hc
    exact update_of_ne hca _ _
  | cons c pre ih =>
    rw [List.mem_cons, not_or] at hpre
    refine ⟨?_, ih h.2 hpre.2⟩
    rw [update_of_ne (Ne.symm hpre.1), h.1]
    cases pre <;> rfl

end Prs
