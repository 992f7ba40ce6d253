import Prs.Lib.Links
import Prs.Model.Dllist

/-!
# What the calls of a doubly linked list do

* `IsList l nodes`: the links, the back links and both ends of `l` are those of a list of nodes.
* `IsList.elements_eq`: `prs_dllist_foreach` meets their data in order.
* `IsList.insertBefore`, `IsList.remove`: the two edits. Without a node to insert before, a node goes to the end.
-/

namespace Prs.Dllist

open Function

variable {l : Dllist} {nodes pre post : List ℕ} {node data n : ℕ}

/-- `l` is a list of nodes. -/
structure IsList (l : Dllist) (nodes : List ℕ) : Prop where
  links : Links l.next nodes
  backs : Backs l.prev none nodes
  nodup : nodes.Nodup
  head : l.head = nodes.head?
  tail : l.tail = nodes.getLast?
  size : l.size = nodes.length

/-- An empty list. -/
theorem isList_create : IsList create [] := ⟨trivial, trivial, List.nodup_nil, rfl, rfl, rfl⟩

/-- A traversal gives the data of the nodes in their order. -/
theorem foreach_eq (h : Links l.next nodes) : l.foreach nodes.length nodes.head? = nodes.map l.data := by
  induction nodes with
  | nil => rfl
  | cons a nodes ih => rw [List.length_cons, List.head?_cons, foreach, h.1, ih h.2, List.map_cons]

/-- **The elements are the data of the nodes.** -/
theorem IsList.elements_eq (h : IsList l nodes) : l.elements = nodes.map l.data := by
  unfold elements begin
  rw [h.size, h.head]
  exact foreach_eq h.links

section Fields

@[simp] theorem setNext_prev (l : Dllist) (o v : Option ℕ) : (l.setNext o v).prev = l.prev := by cases o <;> rfl

@[simp] theorem setNext_data (l : Dllist) (o v : Option ℕ) : (l.setNext o v).data = l.data := by cases o <;> rfl

@[simp] theorem setNext_head (l : Dllist) (o v : Option ℕ) : (l.setNext o v).head = l.head := by cases o <;> rfl

@[simp] theorem setNext_tail (l : Dllist) (o v : Option ℕ) : (l.setNext o v).tail = l.tail := by cases o <;> rfl

@[simp] theorem setNext_size (l : Dllist) (o v : Option ℕ) : (l.setNext o v).size = l.size := by cases o <;> rfl

@[simp] theorem setPrev_next (l : Dllist) (o v : Option ℕ) : (l.setPrev o v).next = l.next := by cases o <;> rfl

@[simp] theorem setPrev_data (l : Dllist) (o v : Option ℕ) : (l.setPrev o v).data = l.data := by cases o <;> rfl

@[simp] theorem setPrev_head (l : Dllist) (o v : Option ℕ) : (l.setPrev o v).head = l.head := by cases o <;> rfl

@[simp] theorem setPrev_tail (l : Dllist) (o v : Option ℕ) : (l.setPrev o v).tail = l.tail := by cases o <;> rfl

@[simp] theorem setPrev_size (l : Dllist) (o v : Option ℕ) : (l.setPrev o v).size = l.size := by cases o <;> rfl

theorem setNext_self (l : Dllist) (v : Option ℕ) {a : ℕ} : (l.setNext (some a) v).next a = v := update_self ..

theorem setPrev_self (l : Dllist) (v : Option ℕ) {a : ℕ} : (l.setPrev (some a) v).prev a = v := update_self ..

theorem setNext_of_ne {o v : Option ℕ} {a : ℕ} (h : o ≠ some a) : (l.setNext o v).next a = l.next a := by
  cases o with
  | none => rfl
  | some b =>
    have hne : a ≠ b := by rintro rfl; exact h rfl
    exact update_of_ne hne ..

theorem setPrev_of_ne {o v : Option ℕ} {a : ℕ} (h : o ≠ some a) : (l.setPrev o v).prev a = l.prev a := by
  cases o with
  | none => rfl
  | some b =>
    have hne : a ≠ b := by rintro rfl; exact h rfl
    exact update_of_ne hne ..

end Fields

section Ends

/-- The first node behind a place is the first node exactly at the start. -/
theorem head_eq_iff (h : (pre ++ post).Nodup) : post.head? = (pre ++ post).head? ↔ pre = [] := by
  cases pre with
  | nil => exact iff_of_true rfl rfl
  | cons a pre =>
    refine iff_of_false ?_ (List.cons_ne_nil a pre)
    intro hh
    have ha : a ∈ post := List.mem_of_mem_head? hh
    rw [List.cons_append, List.nodup_cons] at h
    exact h.1 (List.mem_append_right pre ha)

/-- A part of a list ends as the list does when nothing comes after it. -/
theorem getLast_eq_iff (h : (pre ++ post).Nodup) : pre.getLast? = (pre ++ post).getLast? ↔ post = [] := by
  have hr : (post.reverse ++ pre.reverse).Nodup := by
    rwa [← List.reverse_append, (List.reverse_perm _).nodup_iff]
  have := head_eq_iff hr
  rwa [← List.reverse_append, List.head?_reverse, List.head?_reverse, List.reverse_eq_nil_iff] at this

end Ends

/-- The node before a place. -/
theorem IsList.prevOf_eq (h : IsList l (pre ++ post)) : l.prevOf post.head? = pre.getLast? := by
  cases post with
  | nil =>
    have ht := h.tail
    rwa [List.append_nil] at ht
  | cons a post => exact h.backs.prev_eq.trans Option.or_none

/-- **An insertion**: the node is in front of `before`, or at the end when there is none. -/
theorem IsList.insertBefore (h : IsList l (pre ++ post)) (hnode : node ∉ pre ++ post) (data : ℕ) :
    ∃ l', l.insertBefore (some node) post.head? data = (.ok, l') ∧ IsList l' (pre ++ node :: post) ∧
      l'.data = update l.data node data := by
  have hprev := h.prevOf_eq
  have hne : ∀ {o : Option ℕ}, (∀ a, o = some a → a ∈ pre ++ post) → o ≠ some node := by
    rintro o ho rfl
    exact hnode (ho node rfl)
  have hhead : post.head? ≠ some node := hne fun a ha => List.mem_append_right pre (List.mem_of_mem_head? ha)
  have hlast : pre.getLast? ≠ some node := hne fun a ha => List.mem_append_left post (List.mem_of_getLast? ha)
  refine ⟨_, rfl, ⟨?_, ?_, ?_, ?_, ?_, ?_⟩, ?_⟩
  · -- the links
    dsimp only
    rw [hprev]
    apply h.links.insert h.nodup
    · rw [setNext_of_ne hlast, setPrev_next, setPrev_next, setNext_self]
    · intro c hc
      rw [hc, setNext_self]
    · intro c hc hcl
      have hcn : some node ≠ some c := by
        rintro heq
        exact hnode (Option.some.inj heq ▸ hc)
      rw [setNext_of_ne hcl, setPrev_next, setPrev_next, setNext_of_ne hcn]
  · dsimp only
    rw [hprev]
    apply h.backs.insert h.nodup
    · rw [setNext_prev, setPrev_of_ne hhead, setPrev_self, Option.or_none]
    · intro c hc
      rw [setNext_prev, hc, setPrev_self]
    · intro c hc hch
      have hcn : some node ≠ some c := by
        rintro heq
        exact hnode (Option.some.inj heq ▸ hc)
      rw [setNext_prev, setPrev_of_ne hch, setPrev_of_ne hcn, setNext_prev]
  · rw [List.perm_middle.nodup_iff, List.nodup_cons]
    exact ⟨hnode, h.nodup⟩
  · dsimp only
    simp only [setNext_head, setPrev_head, h.head, head_eq_iff h.nodup]
    cases pre with
    | nil => rfl
    | cons a pre => rfl
  · dsimp only
    simp only [hprev, setNext_tail, setPrev_tail, h.tail, getLast_eq_iff h.nodup]
    by_cases hp : post = []
    · rw [if_pos hp, hp, List.getLast?_append]
      rfl
    · rw [if_neg hp]
      obtain ⟨c, hc⟩ := Option.isSome_iff_exists.1 (List.getLast?_isSome.2 hp)
      rw [List.getLast?_append, List.getLast?_append, List.getLast?_cons, hc]
      rfl
  · dsimp only
    simp only [setNext_size, setPrev_size, h.size, List.length_append, List.length_cons]
    omega
  · dsimp only
    simp only [setNext_data, setPrev_data]

/-- **A removal.** -/
theorem IsList.remove (h : IsList l (pre ++ node :: post)) : IsList (l.remove node) (pre ++ post) := by
  have hnext : l.next node = post.head? := h.links.next_eq
  have hprev : l.prev node = pre.getLast? := h.backs.prev_eq.trans Option.or_none
  have hnode : node ∉ pre ++ post ∧ (pre ++ post).Nodup := by
    have := h.nodup
    rwa [List.perm_middle.nodup_iff, List.nodup_cons] at this
  unfold Dllist.remove
  rw [hnext, hprev]
  refine ⟨?_, ?_, hnode.2, ?_, ?_, ?_⟩
  · apply h.links.erase h.nodup
    · intro c hc
      rw [hc, setNext_self, hnext]
    · intro c _ hcl
      rw [setNext_of_ne hcl, setPrev_next]
  · apply h.backs.erase h.nodup
    · intro c hc
      rw [setNext_prev, hc, setPrev_self, hprev]
    · intro c _ hch
      rw [setNext_prev, setPrev_of_ne hch]
  · dsimp only
    simp only [setNext_head, setPrev_head, h.head]
    cases pre with
    | nil => exact if_pos rfl
    | cons a pre =>
      have hne : node ≠ a := by
        rintro rfl
        exact hnode.1 List.mem_cons_self
      exact if_neg fun heq => hne (Option.some.inj heq)
  · dsimp only
    simp only [setNext_tail, setPrev_tail, h.tail]
    rw [List.getLast?_append, List.getLast?_append, List.getLast?_cons]
    cases hc : post.getLast? with
    | none => exact if_pos rfl
    | some c =>
      have hne : node ≠ c := by
        rintro rfl
        exact hnode.1 (List.mem_append_right pre (List.mem_of_getLast? hc))
      exact if_neg fun heq => hne (Option.some.inj heq)
  · dsimp only
    simp only [setNext_size, setPrev_size, h.size, List.length_append, List.length_cons]
    omega

/-- What a list is depends on its ends, its size, and the links of its nodes. -/
theorem IsList.congr {l' : Dllist} (h : IsList l nodes) (hnext : ∀ a ∈ nodes, l'.next a = l.next a)
    (hprev : ∀ a ∈ nodes, l'.prev a = l.prev a) (hhead : l'.head = l.head) (htail : l'.tail = l.tail)
    (hsize : l'.size = l.size) : IsList l' nodes where
  links := h.links.congr hnext
  backs := h.backs.congr hprev
  nodup := h.nodup
  head := hhead.trans h.head
  tail := htail.trans h.tail
  size := hsize.trans h.size

/-- An insertion writes to the node and its neighbours. -/
theorem insertBefore_frame {before : Option ℕ} {a : ℕ} (l : Dllist) (ha : a ≠ node) (hb : before ≠ some a)
    (hp : l.prevOf before ≠ some a) : (l.insertBefore (some node) before data).2.next a = l.next a ∧
      (l.insertBefore (some node) before data).2.prev a = l.prev a := by
  have hnode : some node ≠ some a := fun heq => ha (Option.some.inj heq).symm
  unfold Dllist.insertBefore
  constructor
  · dsimp only
    rw [setNext_of_ne hp, setPrev_next, setPrev_next, setNext_of_ne hnode]
  · dsimp only
    rw [setNext_prev, setPrev_of_ne hb, setPrev_of_ne hnode, setNext_prev]

/-- A removal writes to the neighbours of the node. -/
theorem remove_frame {a : ℕ} (l : Dllist) (hn : l.next node ≠ some a) (hp : l.prev node ≠ some a) :
    (l.remove node).next a = l.next a ∧ (l.remove node).prev a = l.prev a := by
  unfold Dllist.remove
  constructor
  · dsimp only
    rw [setNext_of_ne hp, setPrev_next]
  · dsimp only
    rw [setNext_prev, setPrev_of_ne hn]

@[simp] theorem remove_data (l : Dllist) (node : ℕ) : (l.remove node).data = l.data := by
  unfold Dllist.remove
  simp only [setNext_data, setPrev_data]

/-- The elements without the first. -/
theorem IsList.elements_remove_head (h : IsList l (node :: nodes)) :
    (l.remove node).elements = l.elements.tail := by
  have hrest : IsList (l.remove node) ([] ++ nodes) := IsList.remove h
  rw [hrest.elements_eq, h.elements_eq, remove_data]
  rfl

/-- The elements with one more at the end. -/
theorem IsList.elements_insert_end (h : IsList l nodes) (hnode : node ∉ nodes) (data : ℕ) :
    ∃ l', l.insertBefore (some node) none data = (.ok, l') ∧ IsList l' (nodes ++ [node]) ∧
      l'.elements = l.elements ++ [data] := by
  have h' : IsList l (nodes ++ []) := by rwa [List.append_nil]
  obtain ⟨l', hl', hlist, hdata⟩ := h'.insertBefore (by rwa [List.append_nil]) data
  refine ⟨l', hl', hlist, ?_⟩
  have hmap : nodes.map l'.data = nodes.map l.data := by
    apply List.map_congr_left
    intro a ha
    have hne : a ≠ node := by rintro rfl; exact hnode ha
    rw [hdata, update_of_ne hne]
  rw [hlist.elements_eq, h.elements_eq, List.map_append, hmap, List.map_singleton, hdata, update_self]

end Prs.Dllist
