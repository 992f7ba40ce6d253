import Mathlib.Data.Fintype.Basic
import Prs.Model.Idllist
import Prs.Proof.DllistList

/-!
# The lists are the sequences that the calls mean

A list, with the links of all the nodes, is a `Dllist`; the two calls do to it what the calls of a doubly
linked list do, and `prs_idllist_remove` also resets the links of the node. The nodes that a call writes to
are the node and its neighbours, so that another list does not change.

* `Inv`: each list is its sequence, no node is in two, and a node in none has no links.
* `insertBefore_view`, `remove_view`: the calls on one list.
* `insertBefore_frame`, `remove_frame`: the nodes that do not change.
* `step_inv`: every call keeps `Inv`.
* `lists_are_sequences`: what holds after any calls, and what the next call does.
* `moveAll_spec`: the loop of the timer tick moves a whole list to the end of another.
-/

namespace Prs.Idllist

open Function

variable {ι : Type} {b : Build} {s s' : Idllist ι} {q q' : ι → List ℕ} {i j : ι} {a node : ℕ}
  {before : Option ℕ} {pre post : List ℕ}

/-- A list, with the links of all the nodes. -/
def view (s : Idllist ι) (i : ι) : Dllist := ⟨s.next, s.prev, fun _ => 0, s.head i, s.tail i, s.size i⟩

/-- What holds between calls. -/
structure Inv (b : Build) (s : Idllist ι) (q : ι → List ℕ) : Prop where
  lists : ∀ i, (s.view i).IsList (q i)
  disjoint : ∀ i j a, a ∈ q i → a ∈ q j → i = j
  loose : ∀ a, (∀ i, a ∉ q i) → s.next a = none ∧ s.prev a = none
  owner : b.debug = true → ∀ a i, s.list a = some i ↔ a ∈ q i

theorem inv_create (b : Build) : Inv b (create : Idllist ι) fun _ => [] where
  lists _ := Dllist.isList_create
  disjoint _ _ _ h := absurd h List.not_mem_nil
  loose _ _ := ⟨rfl, rfl⟩
  owner _ _ _ := iff_of_false nofun List.not_mem_nil

section Fields

theorem setNext_view (s : Idllist ι) (o v : Option ℕ) : (s.setNext o v).view i = (s.view i).setNext o v := by
  cases o <;> rfl

theorem setPrev_view (s : Idllist ι) (o v : Option ℕ) : (s.setPrev o v).view i = (s.view i).setPrev o v := by
  cases o <;> rfl

theorem setList_view (s : Idllist ι) (o : Option ι) : (s.setList b a o).view i = s.view i := by
  unfold setList
  split <;> rfl

@[simp] theorem setNext_head (s : Idllist ι) (o v : Option ℕ) : (setNext s o v).head = s.head := by
  cases o <;> rfl

@[simp] theorem setPrev_head (s : Idllist ι) (o v : Option ℕ) : (setPrev s o v).head = s.head := by
  cases o <;> rfl

@[simp] theorem setNext_tail (s : Idllist ι) (o v : Option ℕ) : (setNext s o v).tail = s.tail := by
  cases o <;> rfl

@[simp] theorem setPrev_tail (s : Idllist ι) (o v : Option ℕ) : (setPrev s o v).tail = s.tail := by
  cases o <;> rfl

@[simp] theorem setNext_size (s : Idllist ι) (o v : Option ℕ) : (setNext s o v).size = s.size := by
  cases o <;> rfl

@[simp] theorem setPrev_size (s : Idllist ι) (o v : Option ℕ) : (setPrev s o v).size = s.size := by
  cases o <;> rfl

@[simp] theorem setNext_list (s : Idllist ι) (o v : Option ℕ) : (setNext s o v).list = s.list := by
  cases o <;> rfl

@[simp] theorem setPrev_list (s : Idllist ι) (o v : Option ℕ) : (setPrev s o v).list = s.list := by
  cases o <;> rfl

@[simp] theorem setList_head (s : Idllist ι) (o : Option ι) : (s.setList b a o).head = s.head := by
  unfold setList
  split <;> rfl

@[simp] theorem setList_tail (s : Idllist ι) (o : Option ι) : (s.setList b a o).tail = s.tail := by
  unfold setList
  split <;> rfl

@[simp] theorem setList_size (s : Idllist ι) (o : Option ι) : (s.setList b a o).size = s.size := by
  unfold setList
  split <;> rfl

theorem prevOf_view (s : Idllist ι) : (s.view i).prevOf before = s.prevOf i before := by
  cases before <;> rfl

variable [DecidableEq ι]

/-- A field of one list after an assignment that may not be made. -/
theorem ite_update_self {β : Type} (f : ι → β) (v : β) (c : Prop) [Decidable c] :
    (if c then update f i v else f) i = if c then v else f i := by
  split
  · exact update_self ..
  · rfl

theorem ite_update_of_ne {β : Type} (f : ι → β) (v : β) (c : Prop) [Decidable c] (hij : j ≠ i) :
    (if c then update f i v else f) j = f j := by
  split
  · exact update_of_ne hij ..
  · rfl

end Fields

variable [DecidableEq ι]

section Calls

/-- **An insertion, on the list.** -/
theorem insertBefore_view (hok : s.insertRefused b i before node = false) :
    (s.insertBefore b i before node).view i = ((s.view i).insertBefore (some node) before 0).2 := by
  have hdata : { s.view i with data := update (s.view i).data node 0 } = s.view i := by
    have hzero : update (fun _ : ℕ => 0) node 0 = fun _ => 0 := update_eq_self node _
    unfold view
    rw [hzero]
  have hgo : ¬ (b.checks && s.insertRefused b i before node) = true := by
    rw [hok, Bool.and_false]
    exact Bool.false_ne_true
  unfold insertBefore Dllist.insertBefore
  rw [if_neg hgo]
  obtain ⟨t, ht⟩ :
    ∃ t, t = ((((s.setNext (some node) before).setPrev (some node) (s.prevOf i before)).setList b node
      (some i)).setPrev before (some node)).setNext (s.prevOf i before) (some node) := ⟨_, rfl⟩
  have hview : t.view i =
    ((((s.view i).setNext (some node) before).setPrev (some node) (s.prevOf i before)).setPrev before
      (some node)).setNext (s.prevOf i before) (some node) := by
    rw [ht, setNext_view, setPrev_view, setList_view, setPrev_view, setNext_view]
  simp only [hdata, prevOf_view, ← hview, ← ht]
  unfold view
  simp only [ite_update_self, update_self]

/-- The other lists have their fields, with the links that there are now. -/
theorem insertBefore_other (hij : j ≠ i) : (s.insertBefore b i before node).view j =
    { s.view j with next := (s.insertBefore b i before node).next, prev :=
      (s.insertBefore b i before node).prev } := by
  unfold insertBefore
  split
  · rfl
  · unfold view
    simp only [ite_update_of_ne _ _ _ hij, update_of_ne hij, setNext_head, setNext_tail, setNext_size,
      setPrev_head, setPrev_tail, setPrev_size, setList_head, setList_tail, setList_size]

/-- **A removal, on the list.** The links of the node are reset after it. -/
theorem remove_view (hok : s.removeRefused b i node = false) :
    (s.remove b i node).view i = (((s.view i).remove node).setNext (some node) none).setPrev
    (some node) none := by
  have hgo : ¬ (b.checks && s.removeRefused b i node) = true := by
    rw [hok, Bool.and_false]
    exact Bool.false_ne_true
  unfold remove Dllist.remove
  rw [if_neg hgo]
  obtain ⟨t, ht⟩ : ∃ t, t = (s.setPrev (s.next node) (s.prev node)).setNext (s.prev node) (s.next node) :=
    ⟨_, rfl⟩
  have hview : t.view i = ((s.view i).setPrev ((s.view i).next node) ((s.view i).prev node)).setNext
    ((s.view i).prev node)
      ((s.view i).next node) := by
    rw [ht, setNext_view, setPrev_view]
    rfl
  have hsize : ∀ (x : Idllist ι) (n : ℕ), ({ x with size := update x.size i n } : Idllist ι).view i =
      { x.view i with size := n } := by
    intro x n
    unfold view
    simp only [update_self]
  have hends : ∀ (x : Idllist ι) (h l : Option ℕ) (c c' : Prop) [Decidable c] [Decidable c'],
      ({ x with head := if c then update x.head i h else x.head
                tail := if c' then update x.tail i l else x.tail } : Idllist ι).view i =
        { x.view i with head := if c then h else x.head i, tail := if c' then l else x.tail i } := by
    intro x h l c c' _ _
    unfold view
    simp only [ite_update_self]
  simp only [← hview, ← ht]
  rw [hsize, setList_view, setPrev_view, setNext_view, hends]
  simp only [setList_size, setPrev_size, setNext_size]
  rfl

/-- The other lists have their fields, with the links that there are now. -/
theorem remove_other (hij : j ≠ i) : (s.remove b i node).view j =
    { s.view j with next := (s.remove b i node).next, prev := (s.remove b i node).prev } := by
  unfold remove
  split
  · rfl
  · unfold view
    simp only [ite_update_of_ne _ _ _ hij, update_of_ne hij, setNext_head, setNext_tail, setNext_size,
      setPrev_head, setPrev_tail, setPrev_size, setList_head, setList_tail, setList_size]

end Calls

section Put

theorem putBefore_append {x : ℕ} (hx : x ∉ pre) :
    putBefore x node (pre ++ x :: post) = pre ++ node :: x :: post := by
  induction pre with
  | nil => exact if_pos rfl
  | cons a pre ih =>
    rw [List.mem_cons, not_or] at hx
    rw [List.cons_append, putBefore, if_neg (Ne.symm hx.1), ih hx.2]
    rfl

/-- The node gets its place between the two parts. -/
theorem put_eq (hn : (pre ++ post).Nodup) : put post.head? node (pre ++ post) = pre ++ node :: post := by
  cases post with
  | nil => rw [List.append_nil]; rfl
  | cons x post =>
    have hx : x ∉ pre := fun hm => (List.nodup_append.1 hn).2.2 x hm x List.mem_cons_self rfl
    exact putBefore_append hx

/-- Each place to insert before is between two parts. -/
theorem exists_place {l : List ℕ} (hb : ∀ x, before = some x → x ∈ l) :
    ∃ pre post, l = pre ++ post ∧ before = post.head? := by
  cases before with
  | none => exact ⟨l, [], (List.append_nil l).symm, rfl⟩
  | some x =>
    obtain ⟨pre, post, rfl⟩ := List.append_of_mem (hb x rfl)
    exact ⟨pre, x :: post, rfl, rfl⟩

end Put

section Steps

/-- A call on the list `i`, which is then `l`. It writes to nodes of the list only. -/
theorem Inv.call {l : List ℕ} (h : Inv b s q) (hi : (s'.view i).IsList l)
    (hother : ∀ j, j ≠ i → s'.view j = { s.view j with next := s'.next, prev := s'.prev })
    (hframe : ∀ a, a ∉ q i → a ∉ l → s'.next a = s.next a ∧ s'.prev a = s.prev a)
    (hdisj : ∀ a ∈ l, ∀ j, j ≠ i → a ∉ q j) (hloose : ∀ a ∈ q i, a ∉ l → s'.next a = none ∧ s'.prev a = none)
    (howner : b.debug = true → ∀ a j, s'.list a = some j ↔ a ∈ update q i l j) : Inv b s' (update q i l) where
  lists j := by
    by_cases hj : j = i
    · rw [hj, update_self]
      exact hi
    · rw [update_of_ne hj, hother j hj]
      -- no node of this list is one of the list `i`, before or after the call
      have hkeep : ∀ a ∈ q j, s'.next a = s.next a ∧ s'.prev a = s.prev a := by
        intro a ha
        apply hframe
        · exact fun hi => hj (h.disjoint j i a ha hi)
        · exact fun hl => hdisj a hl j hj ha
      exact (h.lists j).congr (fun a ha => (hkeep a ha).1) (fun a ha => (hkeep a ha).2) rfl rfl rfl
  disjoint j k a hj hk := by
    by_cases hji : j = i
    · by_cases hki : k = i
      · rw [hji, hki]
      · rw [hji, update_self] at hj
        rw [update_of_ne hki] at hk
        exact absurd hk (hdisj a hj k hki)
    · rw [update_of_ne hji] at hj
      by_cases hki : k = i
      · rw [hki, update_self] at hk
        exact absurd hj (hdisj a hk j hji)
      · rw [update_of_ne hki] at hk
        exact h.disjoint j k a hj hk
  loose a ha := by
    have hl : a ∉ l := by
      have := ha i
      rwa [update_self] at this
    by_cases hq : a ∈ q i
    · exact hloose a hq hl
    · have hnone : ∀ j, a ∉ q j := by
        intro j
        by_cases hj : j = i
        · rwa [hj]
        · have := ha j
          rwa [update_of_ne hj] at this
      obtain ⟨hn, hp⟩ := hframe a hq hl
      rw [hn, hp]
      exact h.loose a hnone
  owner := howner

/-- No check refuses a node that is in no list. -/
theorem Inv.insert_accepted (h : Inv b s q) (hb : ∀ x, before = some x → x ∈ q i) (hnode : ∀ j, node ∉ q j) :
    s.insertRefused b i before node = false := by
  obtain ⟨hn, hp⟩ := h.loose node hnode
  unfold insertRefused
  rw [hn, hp]
  cases hd : b.debug with
  | false => rfl
  | true =>
    have hlist : s.list node = none := by
      cases hl : s.list node with
      | none => rfl
      | some j => exact absurd ((h.owner hd node j).1 hl) (hnode j)
    have hbefore : before.any (fun x => s.list x != some i) = false := by
      cases before with
      | none => rfl
      | some x =>
        have hx := (h.owner hd x i).2 (hb x rfl)
        simp [hx]
    rw [hlist, hbefore]
    rfl

/-- No check refuses a node of the list. -/
theorem Inv.remove_accepted (h : Inv b s q) (hnode : node ∈ q i) : s.removeRefused b i node = false := by
  unfold removeRefused
  cases hd : b.debug with
  | false => rfl
  | true =>
    rw [(h.owner hd node i).2 hnode]
    simp

theorem insertBefore_list (hok : s.insertRefused b i before node = false) :
    (s.insertBefore b i before node).list = if b.debug then update s.list node (some i) else s.list := by
  unfold insertBefore
  rw [hok, Bool.and_false, if_neg Bool.false_ne_true]
  simp only [setNext_list, setPrev_list]
  unfold setList
  split <;> simp only [setNext_list, setPrev_list]

theorem remove_list (hok : s.removeRefused b i node = false) :
    (s.remove b i node).list = if b.debug then update s.list node none else s.list := by
  unfold remove
  rw [hok, Bool.and_false, if_neg Bool.false_ne_true]
  unfold setList
  split <;> simp only [setNext_list, setPrev_list]

/-- **An insertion.** -/
theorem Inv.insertBefore (h : Inv b s q) (hb : ∀ x, before = some x → x ∈ q i) (hnode : ∀ j, node ∉ q j) :
    Inv b (s.insertBefore b i before node) (update q i (put before node (q i))) := by
  have hok := h.insert_accepted hb hnode
  obtain ⟨pre, post, hq, rfl⟩ := exists_place hb
  have hlist := h.lists i
  rw [hq] at hlist
  have hmid : node ∉ pre ++ post := hq ▸ hnode i
  obtain ⟨l', hl', hnew, -⟩ := hlist.insertBefore hmid 0
  have hview : (s.insertBefore b i post.head? node).view i = l' := by
    rw [insertBefore_view hok, hl']
  rw [hq, put_eq hlist.nodup]
  have hmem : ∀ {a}, a ∈ pre ++ node :: post ↔ a = node ∨ a ∈ q i := by
    intro a
    rw [hq]
    simp only [List.mem_append, List.mem_cons]
    tauto
  apply h.call
  · rw [hview]
    exact hnew
  · intro j hj
    exact insertBefore_other hj
  · -- the call writes to the node, `before` and the node that was before it
    intro a ha hl
    have hne : a ≠ node := fun he => hl (hmem.2 (.inl he))
    rw [hq] at ha
    have hhead : post.head? ≠ some a := fun he => ha (List.mem_append_right pre (List.mem_of_mem_head? he))
    have hprev : (s.view i).prevOf post.head? ≠ some a := by
      rw [hlist.prevOf_eq]
      exact fun he => ha (List.mem_append_left post (List.mem_of_getLast? he))
    have hframe := @Dllist.insertBefore_frame node 0 post.head? a (s.view i) hne hhead hprev
    rw [← insertBefore_view hok] at hframe
    exact hframe
  · intro a ha j hj hm
    obtain rfl | ha := hmem.1 ha
    · exact hnode j hm
    · exact hj (h.disjoint j i a hm ha)
  · intro a ha hl
    exact absurd (hmem.2 (.inr ha)) hl
  · intro hd a j
    rw [insertBefore_list hok, if_pos hd]
    by_cases ha : a = node
    · rw [ha, update_self, Option.some_inj]
      by_cases hj : j = i
      · rw [hj, update_self]
        exact iff_of_true rfl (hmem.2 (.inl rfl))
      · rw [update_of_ne hj]
        exact iff_of_false (Ne.symm hj) (hnode j)
    · rw [update_of_ne ha, h.owner hd]
      by_cases hj : j = i
      · rw [hj, update_self, hmem]
        exact (or_iff_right ha).symm
      · rw [update_of_ne hj]

/-- **A removal.** -/
theorem Inv.remove (h : Inv b s q) (hnode : node ∈ q i) :
    Inv b (s.remove b i node) (update q i ((q i).erase node)) := by
  have hok := h.remove_accepted hnode
  have hlist := h.lists i
  obtain ⟨pre, post, hq⟩ := List.append_of_mem hnode
  rw [hq] at hlist
  have hnode' : node ∉ pre ++ post ∧ (pre ++ post).Nodup := by
    have := hlist.nodup
    rwa [List.perm_middle.nodup_iff, List.nodup_cons] at this
  have hpre : node ∉ pre := fun hm => hnode'.1 (List.mem_append_left post hm)
  have herase : (q i).erase node = pre ++ post := by
    rw [hq, List.erase_append_right _ hpre, List.erase_cons_head]
  have hmem : ∀ {a}, a ∈ pre ++ post ↔ a ≠ node ∧ a ∈ q i := by
    intro a
    rw [← herase, (h.lists i).nodup.mem_erase_iff]
  have hview := remove_view (b := b) hok
  have hnew : ((s.view i).remove node).IsList (pre ++ post) := hlist.remove
  -- the links of the node are reset, and those of the others are as after the call on the list
  have hself : ∀ a, a ≠ node → ((s.remove b i node).view i).next a = ((s.view i).remove node).next a ∧
      ((s.remove b i node).view i).prev a = ((s.view i).remove node).prev a := by
    intro a ha
    have hne : some node ≠ some a := fun he => ha (Option.some.inj he).symm
    rw [hview, Dllist.setPrev_next, Dllist.setNext_of_ne hne, Dllist.setPrev_of_ne hne, Dllist.setNext_prev]
    exact ⟨rfl, rfl⟩
  rw [herase]
  apply h.call
  · apply hnew.congr
    · exact fun a ha => (hself a (hmem.1 ha).1).1
    · exact fun a ha => (hself a (hmem.1 ha).1).2
    · rw [hview, Dllist.setPrev_head, Dllist.setNext_head]
    · rw [hview, Dllist.setPrev_tail, Dllist.setNext_tail]
    · rw [hview, Dllist.setPrev_size, Dllist.setNext_size]
  · intro j hj
    exact remove_other hj
  · intro a ha _
    have hne : a ≠ node := fun he => ha (he ▸ hnode)
    have hin : ∀ {x}, x ∈ pre ++ post → x ≠ a := fun hx he => ha (he ▸ (hmem.1 hx).2)
    have hnext : (s.view i).next node ≠ some a := by
      rw [hlist.links.next_eq]
      exact fun he => hin (List.mem_append_right pre (List.mem_of_mem_head? he)) rfl
    have hprev : (s.view i).prev node ≠ some a := by
      rw [hlist.backs.prev_eq, Option.or_none]
      exact fun he => hin (List.mem_append_left post (List.mem_of_getLast? he)) rfl
    obtain ⟨hn, hp⟩ := (s.view i).remove_frame hnext hprev
    exact ⟨(hself a hne).1.trans hn, (hself a hne).2.trans hp⟩
  · intro a ha j hj hm
    exact hj (h.disjoint j i a hm (hmem.1 ha).2)
  · -- the node that leaves the list
    intro a ha hl
    obtain rfl : a = node := by
      by_contra hne
      exact hl (hmem.2 ⟨hne, ha⟩)
    have hreset : ((s.remove b i a).view i).next a = none ∧ ((s.remove b i a).view i).prev a = none := by
      rw [hview, Dllist.setPrev_next, Dllist.setNext_self, Dllist.setPrev_self]
      exact ⟨rfl, rfl⟩
    exact hreset
  · intro hd a j
    rw [remove_list hok, if_pos hd]
    by_cases ha : a = node
    · rw [ha, update_self]
      refine iff_of_false (Option.some_ne_none j).symm ?_
      by_cases hj : j = i
      · rw [hj, update_self]
        exact hnode'.1
      · rw [update_of_ne hj]
        exact fun hm => hj (h.disjoint j i node hm hnode)
    · rw [update_of_ne ha, h.owner hd]
      by_cases hj : j = i
      · rw [hj, update_self, hmem]
        exact (and_iff_right ha).symm
      · rw [update_of_ne hj]

/-- The two calls where there is one list. -/
theorem Inv.push {s : Idllist Unit} {l : List ℕ} (h : Inv b s fun _ => l) (hnode : node ∉ l) :
    Inv b (s.insertBefore b () none node) fun _ => l ++ [node] := by
  have hput : Inv b (s.insertBefore b () none node) (update (fun _ => l) () (l ++ [node])) := by
    apply h.insertBefore
    · intro x hx
      exact absurd hx.symm (Option.some_ne_none x)
    · exact fun _ => hnode
  have hfun : update (fun _ : Unit => l) () (l ++ [node]) = fun _ => l ++ [node] := funext fun _ => update_self ..
  rwa [hfun] at hput

theorem Inv.pull {s : Idllist Unit} {l : List ℕ} (h : Inv b s fun _ => l) (hnode : node ∈ l) :
    Inv b (s.remove b () node) fun _ => l.erase node := by
  have hcut : Inv b (s.remove b () node) (update (fun _ => l) () (l.erase node)) := h.remove hnode
  have hfun : update (fun _ : Unit => l) () (l.erase node) = fun _ => l.erase node :=
    funext fun _ => update_self ..
  rwa [hfun] at hcut

theorem step_inv {p p' : Idllist ι × (ι → List ℕ)} {act : Act ι} (h : Inv b p.1 p.2) (hok : Allowed p act)
    (hs : step b p act = some p') : Inv b p'.1 p'.2 := by
  cases act with
  | insertBefore i before node =>
    obtain rfl := Option.some.inj hs
    exact h.insertBefore hok.1 hok.2
  | remove i node =>
    obtain rfl := Option.some.inj hs
    exact h.remove hok

/-- **Every run keeps the lists.** -/
theorem reach_inv {p : Idllist ι × (ι → List ℕ)} (h : (sys b).Reach Allowed p) : Inv b p.1 p.2 := by
  apply h.inv
  · rintro p rfl
    exact inv_create b
  · intro p act p' hI hok hs
    exact step_inv hI hok hs

end Steps

section Results

omit [DecidableEq ι] in
theorem search_eq {l : List ℕ} (h : Links s.next l) {n : ℕ} (hn : l.length ≤ n) :
    s.search node n l.head? = some (decide (node ∈ l)) := by
  induction l generalizing n with
  | nil => cases n <;> rfl
  | cons x l ih =>
    cases n with
    | zero => exact absurd hn (Nat.not_succ_le_zero _)
    | succ n =>
      rw [List.head?_cons, search, h.1, ih h.2 (Nat.le_of_succ_le_succ hn)]
      by_cases hx : x = node
      · simp [hx]
      · simp [hx, Ne.symm hx]

/-- What the memory of lists is: the two walks of each list, its size and its queries are those of a sequence
without duplicates, and a node outside of the sequences has no links. -/
structure Represents (s : Idllist ι) (q : ι → List ℕ) : Prop where
  nodup : ∀ i, (q i).Nodup
  disjoint : ∀ i j a, a ∈ q i → a ∈ q j → i = j
  forward : ∀ i n, (q i).length ≤ n → follow s.next n (s.head i) = some (q i)
  backward : ∀ i n, (q i).length ≤ n → follow s.prev n (s.tail i) = some (q i).reverse
  size : ∀ i, s.size i = (q i).length
  empty : ∀ i, s.empty i = true ↔ q i = []
  isInserted : ∀ i node n, (q i).length ≤ n → s.isInserted n i node = some (decide (node ∈ q i))
  loose : ∀ a, (∀ i, a ∉ q i) → s.next a = none ∧ s.prev a = none

omit [DecidableEq ι] in
theorem Inv.represents (h : Inv b s q) : Represents s q where
  nodup i := (h.lists i).nodup
  disjoint := h.disjoint
  forward i n hn := by
    have hhead : s.head i = (q i).head? := (h.lists i).head
    rw [hhead]
    exact Links.follow (h.lists i).links hn
  backward i n hn := by
    have htail : s.tail i = (q i).getLast? := (h.lists i).tail
    rw [htail, ← List.head?_reverse]
    apply Links.follow (h.lists i).backs.links_reverse
    rwa [List.length_reverse]
  size i := (h.lists i).size
  empty i := by
    have hsize : s.size i = (q i).length := (h.lists i).size
    rw [Idllist.empty, beq_iff_eq, hsize, List.length_eq_zero_iff]
  isInserted i node n hn := by
    have hhead : s.begin i = (q i).head? := (h.lists i).head
    rw [Idllist.isInserted, hhead]
    exact search_eq (h.lists i).links hn
  loose := h.loose

/-- The loop of the timer tick, from any state of a run: it ends, the nodes stand at the end of
`timer->tmp_list` in their order, and the run goes on from there. -/
theorem moveAll_spec (h : (sys b).Reach Allowed (s, q)) (hij : i ≠ j) {n : ℕ} (hn : (q i).length ≤ n) :
    ∃ s', moveAll b i j n s = some s' ∧ (sys b).Reach Allowed (s', update (update q j (q j ++ q i)) i []) := by
  obtain ⟨l, hl⟩ : ∃ l, l = q i := ⟨_, rfl⟩
  induction l generalizing s q n with
  | nil =>
    have hhead : s.begin i = none := by
      have hlist : (s.view i).IsList (q i) := (reach_inv h).lists i
      rw [← hl] at hlist
      exact hlist.head
    have hq : update (update q j (q j ++ q i)) i [] = q := by
      rw [← hl, List.append_nil, update_eq_self, hl, update_eq_self]
    refine ⟨s, ?_, hq.symm ▸ h⟩
    unfold moveAll
    rw [hhead]
  | cons node l ih =>
    have hI : Inv b s q := reach_inv h
    have hhead : s.begin i = some node := by
      have hlist := hI.lists i
      rw [← hl] at hlist
      exact hlist.head
    have hnode : node ∈ q i := hl ▸ List.mem_cons_self
    have herase : (q i).erase node = l := by rw [← hl, List.erase_cons_head]
    have hnl : node ∉ l := (List.nodup_cons.1 (hl ▸ (hI.lists i).nodup)).1
    -- a turn of the loop is two calls that are allowed
    have hremove : (sys b).Reach Allowed (s.remove b i node, update q i l) :=
      herase ▸ h.step (a := .remove i node) hnode rfl
    have hnone : ∀ k, node ∉ update q i l k := by
      intro k
      by_cases hk : k = i
      · rwa [hk, update_self]
      · rw [update_of_ne hk]
        exact fun hm => hk (hI.disjoint k i node hm hnode)
    have hqj : update q i l j = q j := update_of_ne (Ne.symm hij) _ _
    have hinsert : (sys b).Reach Allowed ((s.remove b i node).insertBefore b j none node,
        update (update q i l) j (q j ++ [node])) :=
      hqj ▸ hremove.step (a := .insertBefore j none node)
        ⟨fun x hx => absurd hx (Option.some_ne_none x).symm, hnone⟩ rfl
    cases n with
    | zero =>
      rw [← hl] at hn
      exact absurd hn (Nat.not_succ_le_zero _)
    | succ n =>
      have hqi : update (update q i l) j (q j ++ [node]) i = l := by
        rw [update_of_ne hij, update_self]
      have hlen : (update (update q i l) j (q j ++ [node]) i).length ≤ n := by
        rw [hqi]
        rw [← hl] at hn
        exact Nat.le_of_succ_le_succ hn
      obtain ⟨s', hs', hreach⟩ := ih hinsert hlen hqi.symm
      refine ⟨s', ?_, ?_⟩
      · unfold moveAll
        rw [hhead]
        exact hs'
      · rw [hqi, update_self, List.append_assoc, List.singleton_append, hl, update_idem] at hreach
        have hq : update (update (update q i l) j (q j ++ q i)) i [] = update (update q j (q j ++ q i)) i [] := by
          rw [update_comm hij, update_idem]
        rwa [hq] at hreach

/-- **The lists are sequences.** After any calls each list represents the sequence that the calls mean. The
next call puts its node at the end, or directly in front of a node, or takes it out and resets its links, and
no other list changes. -/
theorem lists_are_sequences (h : (sys b).Reach Allowed (s, q)) :
    Represents s q ∧
    (∀ i before node, Allowed (s, q) (.insertBefore i before node) →
      ∃ q', Represents (s.insertBefore b i before node) q' ∧ (∀ j, j ≠ i → q' j = q j) ∧
        (before = none → q' i = q i ++ [node]) ∧
        ∀ x pre post, before = some x → q i = pre ++ x :: post → q' i = pre ++ node :: x :: post) ∧
    ∀ i node, Allowed (s, q) (.remove i node) →
      ∃ q', Represents (s.remove b i node) q' ∧ (∀ j, j ≠ i → q' j = q j) ∧
        (∀ pre post, q i = pre ++ node :: post → q' i = pre ++ post) ∧
        (s.remove b i node).next node = none ∧ (s.remove b i node).prev node = none := by
  have hI : Inv b s q := reach_inv h
  refine ⟨hI.represents, ?_, ?_⟩
  · intro i before node hok
    refine ⟨_, (hI.insertBefore hok.1 hok.2).represents, ?_, ?_, ?_⟩
    · intro j hj
      exact update_of_ne hj _ _
    · rintro rfl
      exact update_self ..
    · rintro x pre post rfl hq
      have hn := (hI.lists i).nodup
      rw [hq] at hn
      rw [update_self, hq]
      exact put_eq hn
  · intro i node hok
    have hI' := hI.remove hok
    have hnode : ∀ j, node ∉ update q i ((q i).erase node) j := by
      intro j
      by_cases hj : j = i
      · rw [hj, update_self]
        exact (hI.lists i).nodup.not_mem_erase
      · rw [update_of_ne hj]
        exact fun hm => hj (hI.disjoint j i node hm hok)
    refine ⟨_, hI'.represents, ?_, ?_, hI'.loose node hnode⟩
    · intro j hj
      exact update_of_ne hj _ _
    · intro pre post hq
      have hn := (hI.lists i).nodup
      rw [hq, List.perm_middle.nodup_iff, List.nodup_cons] at hn
      have hpre : node ∉ pre := fun hm => hn.1 (List.mem_append_left post hm)
      rw [update_self, hq, List.erase_append_right _ hpre, List.erase_cons_head]

instance [Fintype ι] (p : Idllist ι × (ι → List ℕ)) (a : Act ι) : Decidable (Allowed p a) :=
  match a with
  | .insertBefore i before node =>
    inferInstanceAs (Decidable ((∀ x ∈ before, x ∈ p.2 i) ∧ ∀ j, node ∉ p.2 j))
  | .remove i node => inferInstanceAs (Decidable (node ∈ p.2 i))

/-- Three nodes were put in a list, the last of them in front of the second, and the first was then moved to
another list. The next calls insert in front of the end and remove the head. -/
theorem lists_are_sequences_moved : ∃ (s : Idllist Bool) (q : Bool → List ℕ),
    Represents s q ∧ q false = [9, 8] ∧ q true = [7] ∧
    (∃ q', Represents (s.insertBefore ⟨true, true⟩ false (some 8) 5) q' ∧ q' false = [9, 5, 8] ∧ q' true = [7]) ∧
    ∃ q', Represents (s.remove ⟨true, true⟩ false 9) q' ∧ q' false = [8] ∧ q' true = [7] := by
  obtain ⟨⟨s, q⟩, hs, hq, hq'⟩ := System.exists_of_check (sys ⟨true, true⟩) Allowed
    (fun p => p.2 false = [9, 8] ∧ p.2 true = [7]) ((create : Idllist Bool), fun _ => []) rfl
    [.insertBefore false none 7, .insertBefore false none 8, .insertBefore false (some 8) 9, .remove false 7,
      .insertBefore true none 7] (by decide +kernel)
  change q false = [9, 8] at hq
  change q true = [7] at hq'
  obtain ⟨hrep, hinsert, hremove⟩ := lists_are_sequences hs
  have hmem : 8 ∈ q false := by
    rw [hq]
    decide
  have hnew : ∀ j, 5 ∉ q j := by
    rw [Bool.forall_bool, hq, hq']
    decide
  obtain ⟨q1, hrep1, hother1, -, hq1⟩ := hinsert false (some 8) 5 ⟨fun x hx => Option.some.inj hx ▸ hmem, hnew⟩
  obtain ⟨q2, hrep2, hother2, hq2, -⟩ := hremove false 9 (show 9 ∈ q false by rw [hq]; decide)
  refine ⟨s, q, hrep, hq, hq', ⟨q1, hrep1, hq1 8 [9] [] rfl hq, ?_⟩, q2, hrep2, hq2 [] [8] hq, ?_⟩
  · exact (hother1 true (by decide)).trans hq'
  · exact (hother2 true (by decide)).trans hq'

end Results

end Prs.Idllist
