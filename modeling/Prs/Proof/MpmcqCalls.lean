import Prs.Model.MpmcqSeq
import Prs.Proof.PdMap

/-!
# What a call does to a queue

* `Rep`: the nodes of each queue, in their order, each with one reference; the first of them may have been
  consumed. The last link is to an id that nothing can lock. Everything else in the directory is as given.
* `pushLoop_dead`, `pushLoop_tail`: how a push links its node.
* `pop_rep`: what a pop returns, and which nodes it leaves.
-/

namespace Prs.MpmcqSeq

open Function PdWords

variable {κ δ : Type} {k fuel : ℕ} {s s' : St κ δ} {q : κ} {id : ℕ}

/-- A directory after some locks and unlocks. -/
inductive Touch (k : ℕ) (d : Dir ℕ) : Dir ℕ → Prop
  | refl : Touch k d d
  | lock {d' : Dir ℕ} (h : Touch k d d') (id : ℕ) : Touch k d (d'.lock k 0 id).2
  | unlock {d' : Dir ℕ} (h : Touch k d d') (id : ℕ) : Touch k d (d'.unlock k id).2

theorem Touch.trans {a b c : Dir ℕ} (h : Touch k a b) (h' : Touch k b c) : Touch k a c := by
  induction h' with
  | refl => exact h
  | lock _ id ih => exact ih.lock id
  | unlock _ id ih => exact ih.unlock id

theorem Touch.sane {d d' : Dir ℕ} (h : Touch k d d') (hs : Sane k d) : Sane k d' := by
  induction h with
  | refl => exact hs
  | lock _ id ih => exact ih.lock 0 id
  | unlock _ id ih => exact ih.unlock id

theorem Touch.writeIndex {d d' : Dir ℕ} (h : Touch k d d') : d'.writeIndex = d.writeIndex := by
  induction h with
  | refl => rfl
  | lock _ id ih => rw [lock_writeIndex, ih]
  | unlock _ id ih => rw [unlock_writeIndex, ih]

/-- `prs_mpmcq_lock` of a live node. -/
theorem lock_of_find {addr count : ℕ} (h : s.pd.find k id = some (addr, count)) (hc : count < refcntMax) :
    ∃ pd, s.lock k id = (⟨addr, id⟩, { s with pd := pd }) ∧
      pd.find k = update (s.pd.find k) id (some (addr, count + 1)) ∧ Touch k s.pd pd := by
  obtain ⟨hptr, hfind⟩ := find_lock 0 h hc
  refine ⟨(s.pd.lock k 0 id).2, ?_, hfind, .lock .refl id⟩
  unfold St.lock
  rw [if_neg (ne_invalid (lt_of_find h)), hptr]

theorem lock_of_find_none (h : s.pd.find k id = none) : s.lock k id = (⟨0, id⟩, s) := by
  unfold St.lock
  rw [lock_of_dead 0 h, ite_self]

theorem find_of_le {d : Dir ℕ} (h : refcntInc ≤ id) : d.find k id = none := by
  by_contra hne
  obtain ⟨x, hx⟩ := Option.ne_none_iff_exists'.1 hne
  have := lt_of_find hx
  omega

/-- `prs_mpmcq_unlock` of a node with another reference. -/
theorem unlock_of_two {addr : ℕ} (h : s.pd.find k id = some (addr, 2)) :
    ∃ pd, s.unlock k ⟨addr, id⟩ = { s with pd := pd } ∧
      pd.find k = update (s.pd.find k) id (some (addr, 1)) ∧ Touch k s.pd pd := by
  obtain ⟨hlast, hfind⟩ := find_unlock h
  refine ⟨(s.pd.unlock k id).2, ?_, hfind, .unlock .refl id⟩
  unfold St.unlock
  rw [hlast]
  rfl

/-- `prs_mpmcq_unlock` with the last reference frees the node. -/
theorem unlock_of_one {addr : ℕ} (h : s.pd.find k id = some (addr, 1)) :
    ∃ pd, s.unlock k ⟨addr, id⟩ = { s with pd := pd, heap := update s.heap addr none } ∧
      pd.find k = update (s.pd.find k) id none ∧ Touch k s.pd pd := by
  obtain ⟨hlast, hfind⟩ := find_unlock h
  refine ⟨(s.pd.unlock k id).2, ?_, hfind, .unlock .refl id⟩
  unfold St.unlock
  rw [hlast]
  rfl

section Nodes

/-- A node of a queue. -/
structure Nd (δ : Type) where
  id : ℕ
  addr : ℕ
  data : δ

/-- The id that a list of nodes is linked from, when its last link is to `stop`. -/
def firstId (stop : ℕ) : List (Nd δ) → ℕ
  | [] => stop
  | n :: _ => n.id

/-- The nodes are linked in this order, each has one reference, and only the first may be consumed. -/
def Linked (find : ℕ → Option (ℕ × ℕ)) (heap : ℕ → Option (Node δ)) (stop : ℕ) : Bool → List (Nd δ) → Prop
  | _, [] => True
  | c, n :: ns =>
    find n.id = some (n.addr, 1) ∧ n.addr ≠ 0 ∧ heap n.addr = some ⟨firstId stop ns, c, n.data⟩ ∧
      Linked find heap stop false ns

variable {find find' : ℕ → Option (ℕ × ℕ)} {heap heap' : ℕ → Option (Node δ)} {stop : ℕ} {c : Bool} {n : Nd δ}
  {ns : List (Nd δ)}

theorem Linked.congr (h : Linked find heap stop c ns)
    (heq : ∀ n ∈ ns, find' n.id = find n.id ∧ heap' n.addr = heap n.addr) : Linked find' heap' stop c ns := by
  induction ns generalizing c with
  | nil => trivial
  | cons n ns ih =>
    obtain ⟨hf, ha, hh, hl⟩ := h
    obtain ⟨hf', hh'⟩ := heq n List.mem_cons_self
    exact ⟨hf'.trans hf, ha, hh'.trans hh, ih hl fun m hm => heq m (List.mem_cons_of_mem _ hm)⟩

theorem Linked.find_of_mem (h : Linked find heap stop c ns) (hn : n ∈ ns) : find n.id = some (n.addr, 1) := by
  induction ns generalizing c with
  | nil => cases hn
  | cons m ns ih =>
    obtain rfl | hn := List.mem_cons.1 hn
    · exact h.1
    · exact ih h.2.2.2 hn

theorem Linked.heap_of_mem (h : Linked find heap stop c ns) (hn : n ∈ ns) : heap n.addr ≠ none := by
  induction ns generalizing c with
  | nil => cases hn
  | cons m ns ih =>
    obtain rfl | hn := List.mem_cons.1 hn
    · rw [h.2.2.1]
      exact Option.some_ne_none _
    · exact ih h.2.2.2 hn

theorem firstId_snoc (stop : ℕ) (ns : List (Nd δ)) (n : Nd δ) : firstId stop (ns ++ [n]) = firstId n.id ns := by
  cases ns <;> rfl

/-- A list of nodes and one more. -/
theorem linked_snoc :
    Linked find heap stop c (ns ++ [n]) ↔
      Linked find heap n.id c ns ∧ Linked find heap stop (c && ns.isEmpty) [n] := by
  induction ns generalizing c with
  | nil => simp [Linked]
  | cons m ns ih => simp only [List.cons_append, Linked, firstId_snoc, ih, List.isEmpty_cons, Bool.false_and,
      Bool.and_false, and_assoc]

end Nodes

section Rep

variable {base find : ℕ → Option (ℕ × ℕ)} {heap : ℕ → Option (Node δ)} {queue : κ → Queue}
    {nodes : κ → List (Nd δ)}
  {spent : κ → Bool} {stop : κ → ℕ}

/-- **The state of the queues**: what the directory says about ids, the heap, and the ends of the queues. -/
structure Rep (base find : ℕ → Option (ℕ × ℕ)) (heap : ℕ → Option (Node δ)) (queue : κ → Queue)
    (nodes : κ → List (Nd δ)) (spent : κ → Bool) (stop : κ → ℕ) : Prop where
  linked : ∀ q, Linked find heap (stop q) (spent q) (nodes q)
  dead : ∀ q, refcntInc ≤ stop q
  head : ∀ q, (queue q).head = firstId (stop q) (nodes q)
  nodup : ∀ q, (nodes q).Nodup
  inj : ∀ q q' n n', n ∈ nodes q → n' ∈ nodes q' → n.id = n'.id ∨ n.addr = n'.addr → q = q' ∧ n = n'
  fresh : ∀ q, ∀ n ∈ nodes q, base n.id = none
  others : ∀ id, (∀ q, ∀ n ∈ nodes q, n.id ≠ id) → find id = base id

variable [DecidableEq κ] {n m : Nd δ} {ns : List (Nd δ)}

omit [DecidableEq κ] in
/-- Another node than the first of `q` is at another id and another address. -/
theorem Rep.ne_first (h : Rep base find heap queue nodes spent stop) (hq : nodes q = n :: ns) {q' : κ} {m : Nd δ}
    (hm : m ∈ nodes q') (hne : q' ≠ q ∨ m ∈ ns) : m.id ≠ n.id ∧ m.addr ≠ n.addr := by
  have hn : n ∈ nodes q := by
    rw [hq]
    exact List.mem_cons_self
  have hnd := h.nodup q
  rw [hq, List.nodup_cons] at hnd
  have hno : ¬ (m.id = n.id ∨ m.addr = n.addr) := by
    intro heq
    obtain ⟨hqq, rfl⟩ := h.inj q' q m n hm hn heq
    obtain hne | hmem := hne
    · exact hne hqq
    · exact hnd.1 hmem
  exact ⟨fun he => hno (.inl he), fun he => hno (.inr he)⟩

/-- The first node is marked as consumed. -/
theorem Rep.consume (h : Rep base find heap queue nodes spent stop) (hq : nodes q = n :: ns) :
    Rep base find (update heap n.addr (some ⟨firstId (stop q) ns, true, n.data⟩)) queue nodes
    (update spent q true)
      stop where
  linked q' := by
    by_cases hqq : q' = q
    · subst hqq
      have hl := h.linked q'
      rw [hq] at hl
      rw [hq, update_self]
      refine ⟨hl.1, hl.2.1, update_self .., hl.2.2.2.congr fun m hm => ⟨rfl, update_of_ne ?_ _ _⟩⟩
      exact (h.ne_first hq (hq ▸ List.mem_cons_of_mem n hm) (.inr hm)).2
    · rw [update_of_ne hqq]
      exact (h.linked q').congr fun m hm => ⟨rfl, update_of_ne (h.ne_first hq hm (.inl hqq)).2 _ _⟩
  dead := h.dead
  head := h.head
  nodup := h.nodup
  inj := h.inj
  fresh := h.fresh
  others := h.others

/-- The first node is left for the second, and freed. -/
theorem Rep.advance (h : Rep base find heap queue nodes spent stop) (hq : nodes q = n :: m :: ns) :
    Rep base (update find n.id none) (update heap n.addr none) (update queue q ⟨m.id, (queue q).tail⟩)
      (update nodes q (m :: ns)) (update spent q false) stop := by
  have hsub : ∀ q' x, x ∈ update nodes q (m :: ns) q' → x ∈ nodes q' ∧ (q' ≠ q ∨ x ∈ m :: ns) := by
    intro q' x hx
    by_cases hqq : q' = q
    · subst hqq
      rw [update_self] at hx
      exact ⟨hq ▸ List.mem_cons_of_mem n hx, .inr hx⟩
    · rw [update_of_ne hqq] at hx
      exact ⟨hx, .inl hqq⟩
  have hne : ∀ q' x, x ∈ update nodes q (m :: ns) q' → x.id ≠ n.id ∧ x.addr ≠ n.addr := fun q' x hx =>
    h.ne_first hq (hsub q' x hx).1 (hsub q' x hx).2
  refine ⟨fun q' => ?_, h.dead, fun q' => ?_, fun q' => ?_, ?_, ?_, fun id hid => ?_⟩
  · have hcongr : ∀ x ∈ update nodes q (m :: ns) q', update find n.id none x.id = find x.id ∧
        update heap n.addr none x.addr = heap x.addr := fun x hx =>
      ⟨update_of_ne (hne q' x hx).1 _ _, update_of_ne (hne q' x hx).2 _ _⟩
    refine Linked.congr ?_ hcongr
    by_cases hqq : q' = q
    · subst hqq
      have hl := h.linked q'
      rw [hq] at hl
      rw [update_self, update_self]
      exact hl.2.2.2
    · rw [update_of_ne hqq, update_of_ne hqq]
      exact h.linked q'
  · by_cases hqq : q' = q
    · subst hqq
      rw [update_self, update_self]
      rfl
    · rw [update_of_ne hqq, update_of_ne hqq]
      exact h.head q'
  · by_cases hqq : q' = q
    · subst hqq
      have hnd := h.nodup q'
      rw [hq, List.nodup_cons] at hnd
      rw [update_self]
      exact hnd.2
    · rw [update_of_ne hqq]
      exact h.nodup q'
  · exact fun q₁ q₂ x y hx hy => h.inj q₁ q₂ x y (hsub q₁ x hx).1 (hsub q₂ y hy).1
  · exact fun q' x hx => h.fresh q' x (hsub q' x hx).1
  · by_cases hidn : id = n.id
    · subst hidn
      rw [update_self]
      exact (h.fresh q n (hq ▸ List.mem_cons_self)).symm
    · rw [update_of_ne hidn]
      refine h.others id fun q' x hx hxid => ?_
      by_cases hqq : q' = q
      · subst hqq
        rw [hq] at hx
        obtain rfl | hx := List.mem_cons.1 hx
        · exact hidn hxid.symm
        · exact hid q' x (by rwa [update_self]) hxid
      · exact hid q' x (by rwa [update_of_ne hqq]) hxid

omit [DecidableEq κ] in
/-- The nodes are at other ids and addresses than what was not there. -/
theorem Rep.ne_new (h : Rep base find heap queue nodes spent stop) {q' : κ} {m : Nd δ} (hm : m ∈ nodes q')
    {id addr : ℕ} (hid : find id = none) (haddr : heap addr = none) : m.id ≠ id ∧ m.addr ≠ addr := by
  have hf := (h.linked q').find_of_mem hm
  have hh := (h.linked q').heap_of_mem hm
  constructor
  · rintro rfl
    rw [hid] at hf
    cases hf
  · rintro rfl
    exact hh haddr

omit [DecidableEq κ] in
/-- What is there besides the nodes has changed. -/
theorem Rep.rebase (h : Rep base find heap queue nodes spent stop) {find' : ℕ → Option (ℕ × ℕ)}
    (heap' : ℕ → Option (Node δ)) (hfind : ∀ q, ∀ n ∈ nodes q, find' n.id = find n.id)
    (hheap : ∀ q, ∀ n ∈ nodes q, heap' n.addr = heap n.addr) :
    ∃ base', Rep base' find' heap' queue nodes spent stop := by
  classical
  refine ⟨fun id => if ∃ q, ∃ n ∈ nodes q, n.id = id then none else find' id, ?_, h.dead, h.head, h.nodup,
    h.inj, ?_, ?_⟩
  · exact fun q => (h.linked q).congr fun n hn => ⟨hfind q n hn, hheap q n hn⟩
  · exact fun q n hn => if_pos ⟨q, n, hn, rfl⟩
  · intro id hid
    refine (if_neg ?_).symm
    rintro ⟨q, n, hn, hnid⟩
    exact hid q n hn hnid

omit [DecidableEq κ] in
/-- The last node is linked to `i` instead. -/
theorem Linked.relink {stop' : ℕ} {c : Bool} (h : Linked find heap stop' c (ns ++ [n]))
    (hne : ∀ m ∈ ns, m.addr ≠ n.addr) (i : ℕ) :
    heap n.addr = some ⟨stop', c && ns.isEmpty, n.data⟩ ∧
      Linked find (update heap n.addr (some ⟨i, c && ns.isEmpty, n.data⟩)) i c (ns ++ [n]) := by
  obtain ⟨hl, hfind, haddr, hheap, -⟩ := linked_snoc.1 h
  refine ⟨hheap, linked_snoc.2 ⟨hl.congr fun m hm => ⟨rfl, update_of_ne (hne m hm) _ _⟩, hfind, haddr, ?_,
    trivial⟩⟩
  rw [update_self]
  rfl

omit [DecidableEq κ] in
theorem Rep.ne_last (h : Rep base find heap queue nodes spent stop) (hq : nodes q = ns ++ [n]) (q' : κ) {m : Nd δ}
    (hm : m ∈ nodes q') (hne : q' ≠ q ∨ m ∈ ns) : m.addr ≠ n.addr := by
  have hn : n ∈ nodes q := by
    rw [hq]
    exact List.mem_append_right ns List.mem_cons_self
  intro heq
  obtain ⟨hqq, rfl⟩ := h.inj q' q m n hm hn (.inr heq)
  obtain hne | hmem := hne
  · exact hne hqq
  · have hnd := h.nodup q
    rw [hq] at hnd
    exact (List.nodup_append.1 hnd).2.2 m hmem m List.mem_cons_self rfl

/-- The last link of a queue goes to another id that nothing can lock. -/
theorem Rep.relink (h : Rep base find heap queue nodes spent stop) (hq : nodes q = ns ++ [n]) {i : ℕ}
    (hi : refcntInc ≤ i) :
    Rep base find (update heap n.addr (some ⟨i, spent q && ns.isEmpty, n.data⟩))
    (update queue q ⟨(queue q).head, i⟩)
      nodes spent (update stop q i) where
  linked q' := by
    by_cases hqq : q' = q
    · subst hqq
      have hl := h.linked q'
      rw [hq] at hl
      rw [hq, update_self]
      refine (hl.relink (fun m hm => h.ne_last hq q' ?_ (.inr hm)) i).2
      rw [hq]
      exact List.mem_append_left _ hm
    · rw [update_of_ne hqq]
      exact (h.linked q').congr fun m hm => ⟨rfl, update_of_ne (h.ne_last hq q' hm (.inl hqq)) _ _⟩
  dead q' := by
    by_cases hqq : q' = q
    · subst hqq
      rwa [update_self]
    · rw [update_of_ne hqq]
      exact h.dead q'
  head q' := by
    by_cases hqq : q' = q
    · subst hqq
      have hhead := h.head q'
      rw [hq, firstId_snoc] at hhead
      rw [update_self, update_self, hq, firstId_snoc]
      exact hhead
    · rw [update_of_ne hqq, update_of_ne hqq]
      exact h.head q'
  nodup := h.nodup
  inj := h.inj
  fresh := h.fresh
  others := h.others

/-- A new node at the end of a queue. -/
theorem Rep.snoc (h : Rep base find heap queue nodes spent stop) (new : Nd δ) (c : Bool)
    (heap' : ℕ → Option (Node δ)) (queue' : Queue) (hid : find new.id = none) (haddr : heap new.addr = none)
    (hl : Linked (update find new.id (some (new.addr, 1))) heap' (stop q) c (nodes q ++ [new]))
    (hother : ∀ q', q' ≠ q → ∀ m ∈ nodes q', heap' m.addr = heap m.addr)
    (hhead : queue'.head = firstId new.id (nodes q)) :
    Rep base (update find new.id (some (new.addr, 1))) heap' (update queue q queue')
      (update nodes q (nodes q ++ [new])) (update spent q c) stop := by
  have hmem : ∀ q' m, m ∈ update nodes q (nodes q ++ [new]) q' → m ∈ nodes q' ∨ q' = q ∧ m = new := by
    intro q' m hm
    by_cases hqq : q' = q
    · subst hqq
      rw [update_self, List.mem_append, List.mem_singleton] at hm
      exact hm.imp_right fun hm => ⟨rfl, hm⟩
    · rw [update_of_ne hqq] at hm
      exact .inl hm
  have hbase : base new.id = none := by
    rw [← h.others new.id fun q' m hm => (h.ne_new hm hid haddr).1]
    exact hid
  refine ⟨fun q' => ?_, h.dead, fun q' => ?_, fun q' => ?_, ?_, fun q' m hm => ?_, fun j hj => ?_⟩
  · by_cases hqq : q' = q
    · subst hqq
      rw [update_self, update_self]
      exact hl
    · rw [update_of_ne hqq, update_of_ne hqq]
      exact (h.linked q').congr fun m hm => ⟨update_of_ne (h.ne_new hm hid haddr).1 _ _, hother q' hqq m hm⟩
  · by_cases hqq : q' = q
    · subst hqq
      rw [update_self, update_self, firstId_snoc]
      exact hhead
    · rw [update_of_ne hqq, update_of_ne hqq]
      exact h.head q'
  · by_cases hqq : q' = q
    · subst hqq
      rw [update_self]
      refine List.nodup_append.2 ⟨h.nodup q', List.nodup_singleton _, fun m hm m' hm' => ?_⟩
      rw [List.mem_singleton] at hm'
      rintro rfl
      exact (h.ne_new hm hid haddr).1 (by rw [hm'])
    · rw [update_of_ne hqq]
      exact h.nodup q'
  · intro q₁ q₂ m₁ m₂ h₁ h₂ heq
    obtain hm₁ | ⟨rfl, rfl⟩ := hmem q₁ m₁ h₁
    · obtain hm₂ | ⟨rfl, rfl⟩ := hmem q₂ m₂ h₂
      · exact h.inj q₁ q₂ m₁ m₂ hm₁ hm₂ heq
      · have hne := h.ne_new hm₁ hid haddr
        exact absurd heq (not_or.2 hne)
    · obtain hm₂ | ⟨rfl, rfl⟩ := hmem q₂ m₂ h₂
      · have hne := h.ne_new hm₂ hid haddr
        exact absurd heq (not_or.2 ⟨hne.1.symm, hne.2.symm⟩)
      · exact ⟨rfl, rfl⟩
  · obtain hm | ⟨-, rfl⟩ := hmem q' m hm
    · exact h.fresh q' m hm
    · exact hbase
  · have hjn : j ≠ new.id := by
      rintro rfl
      exact hj q new (by rw [update_self]; exact List.mem_append_right _ List.mem_cons_self) rfl
    rw [update_of_ne hjn]
    refine h.others j fun q' m hm => hj q' m ?_
    by_cases hqq : q' = q
    · subst hqq
      rw [update_self]
      exact List.mem_append_left _ hm
    · rwa [update_of_ne hqq]

end Rep

section Push

variable [DecidableEq κ] {new : ℕ}

variable (fuel new) in
/-- A push that finds nothing to lock at `tail` makes its node the only one. -/
theorem pushLoop_dead (hdead : s.pd.find k (s.queue q).tail = none) :
    St.pushLoop k q new (fuel + 1) (s.lock k (s.queue q).tail).2 (s.lock k (s.queue q).tail).1 =
      some { s with queue := update s.queue q ⟨new, new⟩ } := by
  rw [lock_of_find_none hdead]
  unfold St.pushLoop
  simp [St.casTail, St.setHead]

variable (fuel new) in
/-- A push that locks the last node links its own after it. -/
theorem pushLoop_tail {addr next : ℕ} {c : Bool} {data : δ}
    (hfind : s.pd.find k (s.queue q).tail = some (addr, 1)) (haddr : addr ≠ 0)
    (hheap : s.heap addr = some ⟨next, c, data⟩) (hnext : s.pd.find k next = none) :
    ∃ pd, St.pushLoop k q new (fuel + 1) (s.lock k (s.queue q).tail).2 (s.lock k (s.queue q).tail).1 =
        some ⟨pd, update s.heap addr (some ⟨new, c, data⟩), update s.queue q ⟨(s.queue q).head, new⟩⟩ ∧
      pd.find k = s.pd.find k ∧ Touch k s.pd pd := by
  obtain ⟨pd₁, hlock, hfind₁, ht₁⟩ := lock_of_find hfind (by unfold refcntMax; omega)
  have hne : next ≠ (s.queue q).tail := by
    rintro rfl
    rw [hfind] at hnext
    cases hnext
  have hdead : St.lock k { s with pd := pd₁ } next = (⟨0, next⟩, { s with pd := pd₁ }) := by
    refine lock_of_find_none ?_
    simp only [hfind₁, update_of_ne hne, hnext]
  have hheld : Dir.find k pd₁ (s.queue q).tail = some (addr, 2) := by rw [hfind₁, update_self]
  obtain ⟨pd₂, hunlock, hfind₂, ht₂⟩ :=
    unlock_of_two (s := St.setNode { s with pd := pd₁ } addr ⟨new, c, data⟩) hheld
  refine ⟨pd₂, ?_, ?_, ht₁.trans ht₂⟩
  · rw [hlock]
    unfold St.pushLoop
    simp only [haddr, if_false, hheap, hdead, ne_eq, not_true_eq_false, if_true, hunlock]
    simp [St.casTail, St.setNode]
  · rw [hfind₂]
    simp [St.setNode, hfind₁, ← hfind]

variable {base : ℕ → Option (ℕ × ℕ)} {nodes : κ → List (Nd δ)} {spent : κ → Bool} {stop : κ → ℕ}
  {pd : Dir ℕ} {addr hid i : ℕ} {data : δ}

/-- The id that `tail` has in a queue with these nodes. -/
def lastId (ns : List (Nd δ)) : ℕ := ns.getLast?.elim invalid Nd.id

theorem refcntInc_le_invalid : refcntInc ≤ invalid := by
  unfold refcntInc invalid
  omega

variable (fuel data) in
/-- The last node, which a push locks after it has allocated its own. -/
theorem pushLoop_last (h : Rep base (s.pd.find k) s.heap s.queue nodes spent stop) (hfree : s.heap addr = none)
    {ns : List (Nd δ)} {n : Nd δ} (hq : nodes q = ns ++ [n]) (htail : (s.queue q).tail = n.id)
    (hfind : pd.find k n.id = s.pd.find k n.id) :
    ∃ pd', St.pushLoop k q i (fuel + 1)
    ((St.setNode { s with pd := pd } addr ⟨invalid, false, data⟩).lock k n.id).2
          ((St.setNode { s with pd := pd } addr ⟨invalid, false, data⟩).lock k n.id).1 =
        some ⟨pd', update (update s.heap addr (some ⟨invalid, false, data⟩)) n.addr
          (some ⟨i, spent q && ns.isEmpty, n.data⟩), update s.queue q ⟨(s.queue q).head, i⟩⟩ ∧
      pd'.find k = pd.find k ∧ Touch k pd pd' := by
  have hl := h.linked q
  rw [hq] at hl
  obtain ⟨-, hfindn, haddrn, hheapn, -⟩ := linked_snoc.1 hl
  have hnea : n.addr ≠ addr := by
    rintro rfl
    rw [hfree] at hheapn
    cases hheapn
  have hfind₁ : pd.find k n.id = some (n.addr, 1) := hfind.trans hfindn
  have hheap₁ : update s.heap addr (some ⟨invalid, false, data⟩) n.addr =
      some ⟨stop q, spent q && ns.isEmpty, n.data⟩ := by
    rw [update_of_ne hnea]
    exact hheapn
  have hloop := pushLoop_tail (q := q) (k := k) fuel i
    (s := St.setNode { s with pd := pd } addr ⟨invalid, false, data⟩)
      (by rw [← htail] at hfind₁; exact hfind₁) haddrn
    hheap₁ (find_of_le (h.dead q))
  rw [← htail]
  exact hloop

variable (fuel data) in
/-- **A push** that gets an id of 52 bits puts its node at the end of the queue. -/
theorem push_rep (h : Rep base (s.pd.find k) s.heap s.queue nodes spent fun _ => invalid)
    (htail : (s.queue q).tail = lastId (nodes q)) (hspent : nodes q = [] → spent q = false)
    (hfree : s.heap addr = none) (haddr : addr ≠ 0) (hnone : s.pd.find k i = none)
    (hfind : pd.find k = update (s.pd.find k) i (some (addr, 1))) :
    ∃ s', St.pushLoop k q i (fuel + 1)
        ((St.setNode { s with pd := pd } addr ⟨invalid, false, data⟩).lock k (s.queue q).tail).2
        ((St.setNode { s with pd := pd } addr ⟨invalid, false, data⟩).lock k (s.queue q).tail).1 = some s' ∧
      Rep base (s'.pd.find k) s'.heap s'.queue (update nodes q (nodes q ++ [⟨i, addr, data⟩])) spent
        (fun _ => invalid) ∧ Touch k pd s'.pd ∧ (s'.queue q).tail = i ∧
      (∀ q', q' ≠ q → (s'.queue q').tail = (s.queue q').tail) ∧
      ∀ a, a ≠ addr → s.heap a = none → s'.heap a = none := by
  obtain hq | ⟨ns, n, hq⟩ := List.eq_nil_or_concat' (nodes q)
  · have htail' : (s.queue q).tail = invalid := by
      rw [htail, hq]
      rfl
    have hdead : Dir.find k pd (s.queue q).tail = none := by
      rw [htail']
      exact find_of_le refcntInc_le_invalid
    refine ⟨_, pushLoop_dead _ _ hdead, ?_,
      .refl, by simp, fun q' hqq => congrArg Queue.tail (update_of_ne hqq _ _),
      fun a ha hnone => (update_of_ne ha _ _).trans hnone⟩
    have hsnoc := h.snoc (q := q) ⟨i, addr, data⟩ false (update s.heap addr (some ⟨invalid, false, data⟩)) ⟨i, i⟩
      hnone hfree ?_ ?_ ?_
    · have hs : update spent q false = spent := update_eq_iff.2 ⟨(hspent hq).symm, fun _ _ => rfl⟩
      rw [hs] at hsnoc
      simp only [St.setNode, hfind]
      exact hsnoc
    · rw [hq]
      exact ⟨update_self .., haddr, update_self .., trivial⟩
    · exact fun q' _ m hm => update_of_ne (h.ne_new hm hnone hfree).2 _ _
    · rw [hq]
      rfl
  · have htail' : (s.queue q).tail = n.id := by
      rw [htail, hq]
      simp [lastId]
    have hn : n ∈ nodes q := by
      rw [hq]
      exact List.mem_append_right ns List.mem_cons_self
    have hfindn : pd.find k n.id = s.pd.find k n.id := by
      rw [hfind, update_of_ne (h.ne_new hn hnone hfree).1]
    obtain ⟨pd', hloop, hfind', ht⟩ := pushLoop_last fuel (i := i) data h hfree hq htail' hfindn
    rw [htail']
    refine ⟨_, hloop, ?_,
      ht, by simp, fun q' hqq => congrArg Queue.tail (update_of_ne hqq _ _), fun a ha hnone => ?_⟩
    · have hall : Linked (update (s.pd.find k) i (some (addr, 1)))
          (update s.heap addr (some ⟨invalid, false, data⟩)) invalid (spent q) (nodes q) :=
        (h.linked q).congr fun m hm =>
          ⟨update_of_ne (h.ne_new hm hnone hfree).1 _ _, update_of_ne (h.ne_new hm hnone hfree).2 _ _⟩
      have hne : ∀ m ∈ ns, m.addr ≠ n.addr := by
        intro m hm
        refine h.ne_last hq q ?_ (.inr hm)
        rw [hq]
        exact List.mem_append_left _ hm
      have hsnoc := h.snoc (q := q) ⟨i, addr, data⟩ (spent q)
        (update (update s.heap addr (some ⟨invalid, false, data⟩)) n.addr
        (some ⟨i, spent q && ns.isEmpty, n.data⟩)) ⟨(s.queue q).head, i⟩ hnone hfree ?_ ?_ ?_
      · rw [update_eq_self] at hsnoc
        simp only [hfind', hfind]
        exact hsnoc
      · rw [hq] at hall ⊢
        have hnaddr : addr ≠ n.addr := (h.ne_new hn hnone hfree).2.symm
        refine linked_snoc.2 ⟨(hall.relink hne i).2, update_self .., haddr, ?_, trivial⟩
        rw [update_of_ne hnaddr, update_self]
        simp [firstId]
      · intro q' hqq m hm
        rw [update_of_ne (h.ne_last hq q' hm (.inl hqq)), update_of_ne (h.ne_new hm hnone hfree).2]
      · have hhead := h.head q
        rw [hq, firstId_snoc] at hhead
        rw [hq, firstId_snoc]
        exact hhead
    · have hne : a ≠ n.addr := by
        rintro rfl
        exact (h.linked q).heap_of_mem hn hnone
      exact (update_of_ne hne _ _).trans ((update_of_ne ha _ _).trans hnone)

variable (fuel data) in
/-- A push that gets an id of more bits is not found again: it ends the queue. -/
theorem push_lost (h : Rep base (s.pd.find k) s.heap s.queue nodes spent stop) (hfree : s.heap addr = none)
    (hfind : ∀ q', ∀ m ∈ nodes q', pd.find k m.id = s.pd.find k m.id) {ns : List (Nd δ)} {n : Nd δ}
    (hq : nodes q = ns ++ [n]) (htail : (s.queue q).tail = n.id) (hi : refcntInc ≤ i) :
    ∃ s' base', St.pushLoop k q i (fuel + 1)
        ((St.setNode { s with pd := pd } addr ⟨invalid, false, data⟩).lock k (s.queue q).tail).2
        ((St.setNode { s with pd := pd } addr ⟨invalid, false, data⟩).lock k (s.queue q).tail).1 = some s' ∧
      Rep base' (s'.pd.find k) s'.heap s'.queue nodes spent (update stop q i) ∧ s'.pd.find k = pd.find k ∧
      Touch k pd s'.pd ∧ (s'.queue q).tail = i := by
  have hn : n ∈ nodes q := by
    rw [hq]
    exact List.mem_append_right ns List.mem_cons_self
  obtain ⟨pd', hloop, hfind', ht⟩ := pushLoop_last fuel (i := i) data h hfree hq htail (hfind q n hn)
  obtain ⟨base', hbase⟩ := h.rebase (update s.heap addr (some ⟨invalid, false, data⟩)) hfind fun q' m hm => by
    refine update_of_ne ?_ _ _
    rintro rfl
    exact (h.linked q').heap_of_mem hm hfree
  rw [htail]
  refine ⟨_, base', hloop, ?_, hfind', ht, by simp⟩
  simp only [hfind']
  exact hbase.relink hq hi

end Push

section Pop

variable [DecidableEq κ] {stop : ℕ} {n m : Nd δ} {ns : List (Nd δ)}

variable (fuel) in
/-- `test` holds the first node, which has been consumed and has no successor. -/
theorem popLoop_dummy (hfind : s.pd.find k n.id = some (n.addr, 2)) (haddr : n.addr ≠ 0)
    (hheap : s.heap n.addr = some ⟨stop, true, n.data⟩) (hstop : refcntInc ≤ stop) :
    ∃ pd, St.popLoop k q (fuel + 1) s ⟨n.addr, n.id⟩ = some (.empty, { s with pd := pd }) ∧
      pd.find k = update (s.pd.find k) n.id (some (n.addr, 1)) ∧ Touch k s.pd pd := by
  obtain ⟨pd, hunlock, hfind', ht⟩ := unlock_of_two (s := s) hfind
  refine ⟨pd, ?_, hfind', ht⟩
  have hset : s.setNode n.addr ⟨stop, true, n.data⟩ = s := by
    unfold St.setNode
    rw [← hheap, update_eq_self]
  unfold St.popLoop
  simp only [haddr, if_false, hheap, hset, lock_of_find_none (find_of_le hstop), ne_eq, not_true_eq_false,
    if_true]
  rw [hunlock]

variable (fuel stop) in
/-- `test` holds the first node, which is consumed now and has no successor. -/
theorem popLoop_last (hfind : s.pd.find k n.id = some (n.addr, 2)) (haddr : n.addr ≠ 0)
    (hheap : s.heap n.addr = some ⟨stop, false, n.data⟩) (hstop : refcntInc ≤ stop) :
    ∃ pd, St.popLoop k q (fuel + 1) s ⟨n.addr, n.id⟩ =
        some (.popped n.data, ⟨pd, update s.heap n.addr (some ⟨stop, true, n.data⟩), s.queue⟩) ∧
      pd.find k = update (s.pd.find k) n.id (some (n.addr, 1)) ∧ Touch k s.pd pd := by
  have hdead : (s.setNode n.addr ⟨stop, true, n.data⟩).pd.find k stop = none := find_of_le hstop
  obtain ⟨pd, hunlock, hfind', ht⟩ := unlock_of_two (s := s.setNode n.addr ⟨stop, true, n.data⟩) hfind
  refine ⟨pd, ?_, hfind', ht⟩
  unfold St.popLoop
  simp only [haddr, if_false, hheap, lock_of_find_none hdead, ne_eq, not_true_eq_false]
  rw [hunlock]
  rfl

/-- The successor is locked, and `head` and the queue's reference go to it. -/
theorem moveHead (hfind : s.pd.find k n.id = some (n.addr, 2)) (hnext : s.pd.find k m.id = some (m.addr, 1))
    (hne : m.id ≠ n.id) (node : Node δ) :
    ∃ pd, ((s.setNode n.addr node).lock k m.id).1 = ⟨m.addr, m.id⟩ ∧
      (((s.setNode n.addr node).lock k m.id).2.setHead q m.id).unlock k ⟨n.addr, n.id⟩ =
        ⟨pd, update s.heap n.addr (some node), update s.queue q ⟨m.id, (s.queue q).tail⟩⟩ ∧
      ((s.setNode n.addr node).lock k m.id).2.queue = s.queue ∧
      pd.find k = update (update (s.pd.find k) m.id (some (m.addr, 2))) n.id (some (n.addr, 1)) ∧
      Touch k s.pd pd := by
  obtain ⟨pd₁, hlock, hf₁, ht₁⟩ := lock_of_find (s := s.setNode n.addr node) hnext (by unfold refcntMax; omega)
  have hheld : pd₁.find k n.id = some (n.addr, 2) := by
    rw [hf₁, update_of_ne hne.symm]
    exact hfind
  obtain ⟨pd₂, hunlock, hf₂, ht₂⟩ :=
    unlock_of_two (s := St.setHead { s.setNode n.addr node with pd := pd₁ } q m.id) hheld
  refine ⟨pd₂, by rw [hlock], ?_, by rw [hlock]; rfl, ?_, ht₁.trans ht₂⟩
  · rw [hlock, hunlock]
    rfl
  · rw [hf₂]
    simp only [St.setHead, hf₁]
    rfl

variable (fuel) in
/-- `test` holds the first node, which is consumed now and left for its successor. -/
theorem popLoop_next (hhead : (s.queue q).head = n.id) (hfind : s.pd.find k n.id = some (n.addr, 2))
    (haddr : n.addr ≠ 0) (hheap : s.heap n.addr = some ⟨m.id, false, n.data⟩)
    (hnext : s.pd.find k m.id = some (m.addr, 1)) (hnaddr : m.addr ≠ 0) (hne : m.id ≠ n.id) :
    ∃ pd, St.popLoop k q (fuel + 1) s ⟨n.addr, n.id⟩ =
        some (.popped n.data, ⟨pd, update s.heap n.addr none, update s.queue q ⟨m.id, (s.queue q).tail⟩⟩) ∧
      pd.find k = update (s.pd.find k) n.id none ∧ Touch k s.pd pd := by
  obtain ⟨pd₁, hlock, hmove, hqueue, hf₁, ht₁⟩ := moveHead (q := q) hfind hnext hne ⟨m.id, true, n.data⟩
  have hm : pd₁.find k m.id = some (m.addr, 2) := by rw [hf₁, update_of_ne hne, update_self]
  obtain ⟨pd₂, hunlock₂, hf₂, ht₂⟩ := unlock_of_two
    (s := ⟨pd₁, update s.heap n.addr (some ⟨m.id, true, n.data⟩), update s.queue q ⟨m.id, (s.queue q).tail⟩⟩) hm
  have hn : pd₂.find k n.id = some (n.addr, 1) := by
    rw [hf₂, update_of_ne hne.symm]
    simp only [hf₁, update_self]
  obtain ⟨pd₃, hunlock₃, hf₃, ht₃⟩ := unlock_of_one
    (s := ⟨pd₂, update s.heap n.addr (some ⟨m.id, true, n.data⟩), update s.queue q ⟨m.id, (s.queue q).tail⟩⟩) hn
  refine ⟨pd₃, ?_, ?_, (ht₁.trans ht₂).trans ht₃⟩
  · unfold St.popLoop
    simp only [haddr, if_false, hheap, hlock, ne_eq, hnaddr, not_false_eq_true, if_true, hqueue, hhead, hmove]
    rw [hunlock₂, hunlock₃]
    simp
  · rw [hf₃]
    simp only [hf₂, hf₁]
    funext j
    by_cases hj : j = n.id
    · subst hj
      simp
    · by_cases hjm : j = m.id
      · subst hjm
        simp [hj, hnext]
      · simp [hj, hjm]

variable (fuel) in
/-- `test` holds the first node, which was consumed before and is left for its successor. -/
theorem popLoop_pass (hhead : (s.queue q).head = n.id) (hfind : s.pd.find k n.id = some (n.addr, 2))
    (haddr : n.addr ≠ 0) (hheap : s.heap n.addr = some ⟨m.id, true, n.data⟩)
    (hnext : s.pd.find k m.id = some (m.addr, 1)) (hnaddr : m.addr ≠ 0) (hne : m.id ≠ n.id) :
    ∃ pd, St.popLoop k q (fuel + 1) s ⟨n.addr, n.id⟩ =
        St.popLoop k q fuel ⟨pd, update s.heap n.addr none, update s.queue q ⟨m.id, (s.queue q).tail⟩⟩
        ⟨m.addr, m.id⟩ ∧
      pd.find k = update (update (s.pd.find k) n.id none) m.id (some (m.addr, 2)) ∧ Touch k s.pd pd := by
  obtain ⟨pd₁, hlock, hmove, hqueue, hf₁, ht₁⟩ := moveHead (q := q) hfind hnext hne ⟨m.id, true, n.data⟩
  have hn : pd₁.find k n.id = some (n.addr, 1) := by rw [hf₁, update_self]
  obtain ⟨pd₂, hunlock₂, hf₂, ht₂⟩ := unlock_of_one
    (s := ⟨pd₁, update s.heap n.addr (some ⟨m.id, true, n.data⟩), update s.queue q ⟨m.id, (s.queue q).tail⟩⟩) hn
  refine ⟨pd₂, ?_, ?_, ht₁.trans ht₂⟩
  · rw [St.popLoop]
    simp only [haddr, if_false, hheap, hlock, ne_eq, hnaddr, not_false_eq_true, if_true, hqueue, hhead, hmove]
    rw [hunlock₂]
    simp
  · rw [hf₂]
    simp only [hf₁]
    funext j
    by_cases hj : j = n.id
    · subst hj
      simp [hne.symm]
    · by_cases hjm : j = m.id
      · subst hjm
        simp [hj]
      · simp [hj, hjm]

/-- A pop of a queue with nothing to lock at `head`. -/
theorem pop_dead (h : refcntInc ≤ (s.queue q).head) : s.pop k (fuel + 1) q = some (.unknown, s) := by
  unfold St.pop
  rw [lock_of_find_none (find_of_le h)]
  unfold St.popLoop
  simp [lock_of_find_none (find_of_le h)]

/-- What a pop returns, from the nodes of the queue and whether the first is spent, and what it leaves. -/
inductive Popped : List (Nd δ) → Bool → Res δ → List (Nd δ) → Bool → Prop
  | nil (c : Bool) : Popped [] c .unknown [] c
  | dummy (n : Nd δ) : Popped [n] true .empty [n] true
  | last (n : Nd δ) : Popped [n] false (.popped n.data) [n] true
  | next (n m : Nd δ) (ns : List (Nd δ)) : Popped (n :: m :: ns) false (.popped n.data) (m :: ns) false
  | passLast (n m : Nd δ) : Popped [n, m] true (.popped m.data) [m] true
  | passNext (n m l : Nd δ) (ns : List (Nd δ)) : Popped (n :: m :: l :: ns) true (.popped m.data) (l :: ns) false

variable {base : ℕ → Option (ℕ × ℕ)} {nodes : κ → List (Nd δ)} {spent : κ → Bool} {stop : κ → ℕ}

variable (fuel) in
/-- A pop of a queue with nodes locks the first. -/
theorem pop_first (h : Rep base (s.pd.find k) s.heap s.queue nodes spent stop) (hq : nodes q = n :: ns) :
    ∃ pd, s.pop k fuel q = St.popLoop k q fuel { s with pd := pd } ⟨n.addr, n.id⟩ ∧
      pd.find k = update (s.pd.find k) n.id (some (n.addr, 2)) ∧ Touch k s.pd pd := by
  have hl := h.linked q
  have hhead := h.head q
  rw [hq] at hl hhead
  obtain ⟨pd, hlock, hf, ht⟩ := lock_of_find (s := s) hl.1 (by unfold refcntMax; omega)
  refine ⟨pd, ?_, hf, ht⟩
  unfold St.pop
  rw [show (s.queue q).head = n.id from hhead, hlock]

omit [DecidableEq κ] in
theorem update_none {heap : ℕ → Option (Node δ)} {a addr : ℕ} (h : heap addr = none) :
    update heap a none addr = none := by
  by_cases ha : addr = a
  · subst ha
    rw [update_self]
  · rwa [update_of_ne ha]

omit [DecidableEq κ] in
theorem update_some {heap : ℕ → Option (Node δ)} {a addr : ℕ} {node node' : Node δ} (hn : heap a = some node)
    (h : heap addr = none) : update heap a (some node') addr = none := by
  rw [update_of_ne ?_]
  · exact h
  · rintro rfl
    rw [hn] at h
    cases h

theorem tail_update (queue : κ → Queue) (q : κ) (head : ℕ) (q' : κ) :
    (update queue q ⟨head, (queue q).tail⟩ q').tail = (queue q').tail := by
  by_cases hq : q' = q
  · subst hq
    rw [update_self]
  · rw [update_of_ne hq]

variable (fuel) in
/-- **A pop** returns what it should, and leaves what it should. -/
theorem pop_rep (h : Rep base (s.pd.find k) s.heap s.queue nodes spent stop) (q : κ) :
    ∃ r s' ns c, s.pop k (fuel + 2) q = some (r, s') ∧ Popped (nodes q) (spent q) r ns c ∧
      Rep base (s'.pd.find k) s'.heap s'.queue (update nodes q ns) (update spent q c) stop ∧ Touch k s.pd s'.pd ∧
      (∀ q', (s'.queue q').tail = (s.queue q').tail) ∧ ∀ addr, s.heap addr = none → s'.heap addr = none := by
  cases hq : nodes q with
  | nil =>
    have hhead := h.head q
    rw [hq] at hhead
    have hdead : refcntInc ≤ (s.queue q).head := hhead ▸ h.dead q
    refine ⟨.unknown, s, [], spent q, pop_dead hdead, .nil _, ?_, .refl, fun _ => rfl, fun _ => id⟩
    rwa [← hq, update_eq_self, update_eq_self]
  | cons n ns =>
    obtain ⟨pd, hpop, hf, ht⟩ := pop_first (fuel + 2) h hq
    have hl := h.linked q
    have hhead : (s.queue q).head = n.id := by
      rw [h.head q, hq]
      rfl
    rw [hq] at hl
    obtain ⟨hfind, haddr, hheap, hlink⟩ := hl
    have hn : Dir.find k pd n.id = some (n.addr, 2) := by rw [hf, update_self]
    rw [hpop]
    cases ns with
    | nil =>
      have hback :
          update (update (s.pd.find k) n.id (some (n.addr, 2))) n.id (some (n.addr, 1)) = s.pd.find k := by
        rw [update_idem, ← hfind, update_eq_self]
      cases hc : spent q with
      | true =>
        rw [hc] at hheap
        obtain ⟨pd', hloop, hf', ht'⟩ :=
          popLoop_dummy (fuel + 1) (q := q) (s := { s with pd := pd }) hn haddr hheap (h.dead q)
        refine ⟨.empty, _, [n], true, hloop, .dummy n, ?_, ht.trans ht', fun _ => rfl, fun _ => id⟩
        rw [← hq, ← hc, update_eq_self, update_eq_self]
        simp only [hf', hf, hback]
        exact h
      | false =>
        rw [hc] at hheap
        obtain ⟨pd', hloop, hf', ht'⟩ :=
          popLoop_last (fuel + 1) _ (q := q) (s := { s with pd := pd }) hn haddr hheap (h.dead q)
        refine ⟨.popped n.data, _, [n], true, hloop, .last n, ?_, ht.trans ht', fun _ => rfl,
          fun _ ha => update_some hheap ha⟩
        rw [← hq, update_eq_self]
        simp only [hf', hf, hback]
        exact h.consume hq
    | cons m ns =>
      have hmem : m ∈ nodes q := by
        rw [hq]
        exact List.mem_cons_of_mem n List.mem_cons_self
      obtain ⟨hne, hnea⟩ := h.ne_first hq hmem (.inr List.mem_cons_self)
      have hm : Dir.find k pd m.id = some (m.addr, 1) := by
        rw [hf, update_of_ne hne]
        exact hlink.1
      have hadv := h.advance hq
      cases hc : spent q with
      | false =>
        rw [hc] at hheap
        obtain ⟨pd', hloop, hf', ht'⟩ := popLoop_next (fuel + 1) (q := q)
          (s := { s with pd := pd }) hhead hn haddr
          hheap hm hlink.2.1 hne
        refine ⟨.popped n.data, _, m :: ns, false, hloop, .next n m ns, ?_, ht.trans ht', tail_update _ _ _,
          fun _ ha => update_none ha⟩
        simp only [hf', hf, update_idem]
        exact hadv
      | true =>
        rw [hc] at hheap
        obtain ⟨pd', hloop, hf', ht'⟩ := popLoop_pass (fuel + 1) (q := q)
          (s := { s with pd := pd }) hhead hn haddr
          hheap hm hlink.2.1 hne
        have hm' : Dir.find k pd' m.id = some (m.addr, 2) := by rw [hf', update_self]
        have hheap' : update s.heap n.addr none m.addr = some ⟨firstId (stop q) ns, false, m.data⟩ := by
          rw [update_of_ne hnea]
          exact hlink.2.2.1
        have hq' : update nodes q (m :: ns) q = m :: ns := update_self ..
        have hfind' : Dir.find k pd' = update (update (s.pd.find k) n.id none) m.id (some (m.addr, 2)) := by
          rw [hf']
          simp only [hf, update_idem]
        rw [hloop]
        cases ns with
        | nil =>
          obtain ⟨pd₃, hloop₃, hf₃, ht₃⟩ := popLoop_last fuel (stop q) (q := q)
            (s := ⟨pd', update s.heap n.addr none, update s.queue q ⟨m.id, (s.queue q).tail⟩⟩) hm' hlink.2.1
              hheap'
            (h.dead q)
          have hback : Dir.find k pd₃ = update (s.pd.find k) n.id none := by
            rw [hf₃]
            simp only [hfind', update_idem]
            exact update_eq_iff.2 ⟨by rw [update_of_ne hne]; exact hlink.1.symm, fun _ _ => rfl⟩
          refine ⟨.popped m.data, _, [m], true, hloop₃, .passLast n m, ?_, (ht.trans ht').trans ht₃,
            tail_update _ _ _, fun _ ha => update_some hheap' (update_none ha)⟩
          have hcons := hadv.consume hq'
          rw [update_idem] at hcons
          simp only [hback]
          exact hcons
        | cons l ns =>
          have hq₂ := hadv.linked q
          rw [hq', update_self] at hq₂
          have hmem' : l ∈ update nodes q (m :: l :: ns) q := by
            rw [hq']
            exact List.mem_cons_of_mem m List.mem_cons_self
          obtain ⟨hnel, -⟩ := hadv.ne_first hq' hmem' (.inr List.mem_cons_self)
          have hl' : Dir.find k pd' l.id = some (l.addr, 1) := by
            rw [hfind', update_of_ne hnel]
            exact hq₂.2.2.2.1
          obtain ⟨pd₃, hloop₃, hf₃, ht₃⟩ := popLoop_next fuel (q := q)
            (s := ⟨pd', update s.heap n.addr none, update s.queue q ⟨m.id, (s.queue q).tail⟩⟩)
              (by simp) hm' hlink.2.1
            hheap' hl' hq₂.2.2.2.2.1 hnel
          refine ⟨.popped m.data, _, l :: ns, false, hloop₃, .passNext n m l ns, ?_, (ht.trans ht').trans ht₃,
            fun q' => (tail_update _ _ _ q').trans (tail_update _ _ _ q'),
              fun _ ha => update_none (update_none ha)⟩
          have hadv₂ := hadv.advance hq'
          simp only [update_idem] at hadv₂
          simp only [hf₃, hfind', update_idem]
          exact hadv₂

end Pop

end Prs.MpmcqSeq
