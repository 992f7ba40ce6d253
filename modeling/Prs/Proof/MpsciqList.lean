import Prs.Model.Mpsciq

/-!
# The queue is a list

The nodes of the queue are `fresh ++ old`, youngest first: `old` are those that have back links, from
`reverse_tail` to `reverse_head`, and `fresh` those pushed since the back links were built (`Chain`). A
producer only ever extends `fresh`. Building the back links moves everything to `old`, and a removal takes one
node out of either.

* `queue_is_list`: in every state of every run, the list from `head` is the nodes that were pushed and not
  unlinked, each once, youngest first; and a traversal returns the nodes that were in the queue when it began,
  oldest first.
-/

namespace Prs.Mpsciq

open Function

variable {ι ν : Type} [DecidableEq ν] {s s' : St ι ν} {fresh old : List ν}

/-- **The links of the queue.** -/
structure Chain (s : St ι ν) (fresh old : List ν) : Prop where
  order : s.order = fresh ++ old
  nodup : s.order.Nodup
  head : s.head = s.order.head?
  links : Links s.next s.order
  tail : s.reverseTail = old.head?
  oldest : s.reverseHead = old.getLast?
  backs : Backs s.prev none old
  fresh : ∀ x ∈ fresh, s.prev x = none

/-! ## Building the back links -/

/-- **The loop links back** from `a`, over `l`, to the first node of `old`. -/
theorem buildLoop_spec {next prev : ν → Option ν} {p : Option ν} {a : ν} {l old : List ν} {fuel : ℕ}
    (hl : Links next (a :: l ++ old)) (hn : (a :: l ++ old).Nodup) (hf : l.length < fuel) (ha : prev a = p)
    (hb : Backs prev none old) :
    ∃ prev', buildLoop next old.head? fuel a prev = some (prev', (a :: l).getLast (by simp)) ∧
      Backs prev' p (a :: l ++ old) ∧ ∀ y, y ∉ l → y ∉ old → prev' y = prev y := by
  induction l generalizing a prev p fuel with
  | nil =>
    obtain ⟨f, rfl⟩ : ∃ f, fuel = f + 1 := ⟨fuel - 1, by simp at hf; omega⟩
    cases old with
    | nil =>
      have hnx : next a = none := hl.1
      exact ⟨prev, by simp [buildLoop, hnx], ⟨ha, trivial⟩, fun _ _ _ => rfl⟩
    | cons o os =>
      have hnx : next a = some o := hl.1
      obtain ⟨hao, hos⟩ := List.nodup_cons.1 (show (a :: (o :: os)).Nodup from hn)
      rw [List.mem_cons, not_or] at hao
      refine ⟨update prev o (some a), by simp [buildLoop, hnx], ⟨?_, ?_⟩, fun y _ hy => ?_⟩
      · rw [update_of_ne hao.1]; exact ha
      · exact hb.rehead (List.nodup_cons.1 hos).1
      · rw [List.mem_cons, not_or] at hy
        exact update_of_ne hy.1 _ _
  | cons b l ih =>
    obtain ⟨f, rfl⟩ : ∃ f, fuel = f + 1 := ⟨fuel - 1, by simp at hf; omega⟩
    have hnx : next a = some b := hl.1
    obtain ⟨hab, hn'⟩ := List.nodup_cons.1 (show (a :: (b :: l ++ old)).Nodup from hn)
    have hb' := (List.nodup_cons.1 (show (b :: (l ++ old)).Nodup from hn')).1
    rw [List.mem_append, not_or] at hb'
    have hstop : old.head? ≠ some b := fun h => hb'.2 (List.mem_of_mem_head? h)
    have hback : Backs (update prev b (some a)) none old := by
      refine hb.congr fun c hc => update_of_ne ?_ _ _
      rintro rfl
      exact hb'.2 hc
    have hf' : l.length < f := by simp at hf; omega
    obtain ⟨prev', h1, h2, h3⟩ := ih hl.2 hn' hf' (update_self b (some a) prev) hback
    simp only [List.cons_append, List.mem_cons, List.mem_append, not_or] at hab
    refine ⟨prev', ?_, ⟨?_, h2⟩, fun y hy hyo => ?_⟩
    · rw [buildLoop, hnx]
      simp only [hstop, if_false, h1, List.getLast_cons_cons]
    · rw [h3 a hab.2.1 hab.2.2, update_of_ne hab.1]; exact ha
    · rw [List.mem_cons, not_or] at hy
      rw [h3 y hy.2 hyo, update_of_ne hy.1]

/-- `s` with the back links `prev` from its youngest node to its oldest. -/
def St.backed (s : St ι ν) (prev : ν → Option ν) : St ι ν :=
  { s with prev, reverseHead := s.order.getLast?, reverseTail := s.order.head? }

/-- **`prs_mpsciq_build_reverse` gives every node its back link.** -/
theorem Chain.buildReverse [Fintype ν] (h : Chain s fresh old) :
    ∃ prev', s.buildReverse s.head = some (s.backed prev') ∧ Chain (s.backed prev') [] s.order ∧
      ∀ y, y ∉ s.order → prev' y = s.prev y := by
  suffices hb : ∃ prev', s.buildReverse s.head = some (s.backed prev') ∧ Backs prev' none s.order ∧
      ∀ y, y ∉ s.order → prev' y = s.prev y by
    obtain ⟨prev', h1, h2, h3⟩ := hb
    exact ⟨prev', h1, ⟨rfl, h.nodup, h.head, h.links, rfl, rfl, h2, fun x hx => absurd hx List.not_mem_nil⟩, h3⟩
  cases fresh with
  | nil =>
    have ho : s.order = old := h.order
    refine ⟨s.prev, ?_, ho ▸ h.backs, fun _ _ => rfl⟩
    have ht : s.order.head? = s.reverseTail := by rw [h.tail, ho]
    have hl : s.order.getLast? = s.reverseHead := by rw [h.oldest, ho]
    rw [St.buildReverse, if_pos (h.head.trans ht), St.backed, ht, hl]
  | cons a l =>
    have ho : s.order = a :: l ++ old := h.order
    have hh : s.head = some a := by rw [h.head, ho]; rfl
    have hnd := h.nodup
    rw [ho] at hnd
    have hao : a ∉ old := fun hm => (List.nodup_cons.1 hnd).1 (List.mem_append_right _ hm)
    have hne : some a ≠ s.reverseTail := by
      rw [h.tail]
      exact fun he => hao (List.mem_of_mem_head? he.symm)
    have hlen : l.length < Fintype.card ν := by
      have := List.Nodup.length_le_card hnd
      simp at this
      omega
    obtain ⟨prev', h1, h2, h3⟩ := buildLoop_spec (ho ▸ h.links) hnd hlen (h.fresh a List.mem_cons_self) h.backs
    refine ⟨prev', ?_, ho ▸ h2, fun y hy => ?_⟩
    · rw [St.buildReverse, hh, if_neg hne, h.tail]
      simp only [Option.bind_some, h1, Option.map_some]
      have hlast : (if s.reverseHead = none then some ((a :: l).getLast (by simp)) else s.reverseHead) =
          s.order.getLast? := by
        rw [h.oldest, ho, List.getLast?_append]
        cases hol : old.getLast? with
        | none => simp [List.getLast?_eq_some_getLast]
        | some o => simp
      rw [hlast, St.backed, hh, ho]
      rfl
    · rw [ho, List.mem_append, List.mem_cons, not_or, not_or] at hy
      exact h3 y hy.1.2 hy.2

/-! ## Taking a node out -/

omit [DecidableEq ν] in
theorem Chain.mem_of_next (h : Chain s fresh old) {n x : ν} (hn : n ∈ s.order) (hx : s.next n = some x) :
    x ∈ s.order ∧ x ≠ n := by
  obtain ⟨pre, post, ho⟩ := List.append_of_mem hn
  have hl := h.links
  have hnd := h.nodup
  rw [ho] at hl hnd
  obtain ⟨post', rfl⟩ := hl.next_split hx
  refine ⟨by rw [ho]; simp, ?_⟩
  rintro rfl
  simp [List.nodup_append] at hnd

/-- `prs_mpsciq_remove` writes to no node outside of the queue. -/
theorem Chain.unlink_frame (h : Chain s fresh old) {n y : ν} (hn : n ∈ s.order) (hy : y ∉ s.order) :
    (s.unlink n).prev y = s.prev y := by
  have hyn : y ≠ n := by rintro rfl; exact hy hn
  simp only [St.unlink, update_of_ne hyn]
  cases hx : s.next n with
  | none => rfl
  | some x =>
    have hyx : y ≠ x := by rintro rfl; exact hy (h.mem_of_next hn hx).1
    exact update_of_ne hyx _ _

/-- The link of the node `o`, if there is one, becomes `v`. -/
def relink (f : ν → Option ν) (o v : Option ν) : ν → Option ν :=
  match o with
  | some x => update f x v
  | none => f

theorem relink_of_ne {f : ν → Option ν} {o v : Option ν} {y : ν} (h : ∀ x, o = some x → y ≠ x) :
    relink f o v y = f y := by
  cases o with
  | none => rfl
  | some x => exact update_of_ne (h x rfl) _ _

theorem relink_head {prev : ν → Option ν} {p q : Option ν} {l : List ν} (h : Backs prev p l) (hn : l.Nodup) :
    Backs (relink prev l.head? q) q l := by
  cases l with
  | nil => trivial
  | cons x l => exact h.rehead (List.nodup_cons.1 hn).1

/-- In a list, no write of `prs_mpsciq_remove` changes what a later one of them reads. -/
theorem unlink_eq {n : ν} (hx : s.next n ≠ some n) (hp : s.prev n ≠ some n) :
    s.unlink n = { s with
      reverseHead := if s.reverseHead = some n then s.prev n else s.reverseHead
      reverseTail := if s.reverseTail = some n then s.next n else s.reverseTail
      next := update (relink s.next (s.prev n) (s.next n)) n none
      prev := update (relink s.prev (s.next n) (s.prev n)) n none
      order := s.order.erase n
      removing := none
      cursor := none
      walking := false } := by
  have hprev : relink s.prev (s.next n) (s.prev n) n = s.prev n := by
    apply relink_of_ne
    rintro x h rfl
    exact hx h
  have hnext : relink s.next (s.prev n) (s.next n) n = s.next n := by
    apply relink_of_ne
    rintro x h rfl
    exact hp h
  have hdef : s.unlink n = { s with
      reverseHead := if s.reverseHead = some n then relink s.prev (s.next n) (s.prev n) n else s.reverseHead
      reverseTail := if s.reverseTail = some n
        then relink s.next (relink s.prev (s.next n) (s.prev n) n) (s.next n) n else s.reverseTail
      next := update (relink s.next (relink s.prev (s.next n) (s.prev n) n) (s.next n)) n none
      prev := update (relink s.prev (s.next n) (s.prev n)) n none
      order := s.order.erase n
      removing := none
      cursor := none
      walking := false } := rfl
  rw [hdef, hprev, hnext]

/-- **The head is taken out** after the exchange on `head` has succeeded. -/
theorem Chain.unlink_head (h : Chain s fresh old) {n : ν} (hh : s.head = some n) :
    ∃ fresh' old', Chain ({ s with head := s.next n }.unlink n) fresh' old' := by
  obtain ⟨rest, ho⟩ : ∃ rest, s.order = n :: rest := by
    rw [h.head] at hh
    exact List.head?_eq_some_iff.1 hh
  have hnd := h.nodup
  have hlk := h.links
  rw [ho] at hnd hlk
  obtain ⟨hnr, hrest⟩ := List.nodup_cons.1 hnd
  have hord : s.order.erase n = rest := by rw [ho, List.erase_cons_head]
  have hself : s.next n ≠ some n := fun he => (h.mem_of_next (by rw [ho]; simp) he).2 rfl
  have hout : ∀ c ∈ rest, c ≠ n := by
    rintro c hc rfl
    exact hnr hc
  have hlinks : Links (update s.next n none) rest := hlk.2.congr fun c hc => update_of_ne (hout c hc) _ _
  have hcases : s.prev n = none ∧ ((∃ fresh', fresh = n :: fresh' ∧ rest = fresh' ++ old) ∨
      fresh = [] ∧ old = n :: rest) := by
    cases fresh with
    | nil =>
      have hold : old = n :: rest := by rw [← ho, h.order]; rfl
      have hb := h.backs
      rw [hold] at hb
      exact ⟨hb.1, .inr ⟨rfl, hold⟩⟩
    | cons a fresh' =>
      have hcons : n :: rest = a :: (fresh' ++ old) := ho ▸ h.order
      obtain ⟨rfl, hr⟩ := List.cons.inj hcons
      exact ⟨h.fresh n List.mem_cons_self, .inl ⟨fresh', rfl, hr⟩⟩
  obtain ⟨hpn, hcases⟩ := hcases
  have hrelink : relink s.next (s.prev n) (s.next n) = s.next := by rw [hpn]; rfl
  rw [unlink_eq (s := { s with head := s.next n }) hself (by rw [show _ = none from hpn]; simp)]
  simp only [hrelink, hord]
  rcases hcases with ⟨fresh', rfl, hr⟩ | ⟨rfl, rfl⟩
  · have hno : n ∉ old := fun hm => hnr (hr ▸ List.mem_append_right _ hm)
    -- the node that follows has no back link as it is
    have hprev : update (relink s.prev (s.next n) (s.prev n)) n none = s.prev := by
      have hx : relink s.prev (s.next n) (s.prev n) = s.prev := by
        rw [hlk.1, hpn]
        cases rest with
        | nil => rfl
        | cons x rest' =>
          refine update_eq_self_iff.2 (Eq.symm ?_)
          cases fresh' with
          | nil =>
            have hb := h.backs
            rw [← show x :: rest' = old from hr] at hb
            exact hb.1
          | cons b fresh' => rw [(List.cons.inj hr).1]; exact h.fresh b (by simp)
      rw [hx]
      exact update_eq_self_iff.2 hpn.symm
    have htail : (if s.reverseTail = some n then s.next n else s.reverseTail) = old.head? := by
      rw [h.tail, if_neg]
      exact fun he => hno (List.mem_of_mem_head? he)
    have hlast : (if s.reverseHead = some n then s.prev n else s.reverseHead) = old.getLast? := by
      rw [h.oldest, if_neg]
      exact fun he => hno (List.mem_of_getLast? he)
    refine ⟨fresh', old, hr, hrest, hlk.1, hlinks, htail, hlast, ?_, ?_⟩
    · rw [hprev]; exact h.backs
    · rw [hprev]; exact fun x hx => h.fresh x (List.mem_cons_of_mem n hx)
  · have htail : (if s.reverseTail = some n then s.next n else s.reverseTail) = rest.head? := by
      rw [h.tail, List.head?_cons, if_pos rfl]
      exact hlk.1
    have hlast : (if s.reverseHead = some n then s.prev n else s.reverseHead) = rest.getLast? := by
      rw [h.oldest]
      cases rest with
      | nil => simp [hpn]
      | cons x rest' =>
        rw [List.getLast?_cons_cons, if_neg]
        exact fun he => hnr (List.mem_of_getLast? he)
    have hbacks : Backs (update (relink s.prev (s.next n) (s.prev n)) n none) none rest := by
      rw [hlk.1, hpn]
      exact (relink_head h.backs.2 hrest).congr fun c hc => update_of_ne (hout c hc) _ _
    exact ⟨[], rest, rfl, hrest, hlk.1, hlinks, htail, hlast, hbacks, fun x hx => absurd hx List.not_mem_nil⟩

/-- **A node behind the head is taken out** once every node has its back link. -/
theorem Chain.unlink_behind {pre post : List ν} {p n : ν} (h : Chain s [] (pre ++ p :: n :: post)) :
    Chain (s.unlink n) [] (pre ++ p :: post) := by
  have ho : s.order = pre ++ p :: n :: post := h.order
  have hnd := h.nodup
  have hlk := h.links
  rw [ho] at hnd hlk
  have hsplit : pre ++ p :: n :: post = (pre ++ [p]) ++ n :: post := by simp
  have hperm : (n :: (pre ++ p :: post)).Nodup := by
    refine (List.Perm.nodup_iff ?_).1 hnd
    rw [hsplit]
    have hmid : ((pre ++ [p]) ++ n :: post).Perm (n :: ((pre ++ [p]) ++ post)) := List.perm_middle
    simpa using hmid
  obtain ⟨hn, hnd'⟩ := List.nodup_cons.1 hperm
  have hpn : s.prev n = some p := by
    have hb := h.backs
    rw [hsplit] at hb
    simpa using hb.prev_eq
  have hnx : s.next n = post.head? := by
    have hl := hlk
    rw [hsplit] at hl
    exact hl.next_eq
  have hord : s.order.erase n = pre ++ p :: post := by
    rw [ho, hsplit, List.erase_append_right, List.erase_cons_head]
    · simp
    · simp only [List.mem_append, List.mem_cons, not_or] at hn ⊢
      exact ⟨hn.1, hn.2.1, List.not_mem_nil⟩
  have hout : ∀ c ∈ pre ++ p :: post, c ≠ n := by
    rintro c hc rfl
    exact hn hc
  have hself : s.next n ≠ some n := fun he => (h.mem_of_next (by rw [ho]; simp) he).2 rfl
  have hpself : s.prev n ≠ some n := by
    rw [hpn]
    exact fun he => hout p (by simp) (Option.some.inj he)
  rw [unlink_eq hself hpself]
  have hpost : p ∉ pre ∧ p ∉ post ∧ post.Nodup := by
    simp only [List.nodup_append, List.nodup_cons, List.mem_cons] at hnd'
    exact ⟨fun hm => hnd'.2.2 p hm p (.inl rfl) rfl, hnd'.2.1.1, hnd'.2.1.2⟩
  have hlinks : Links (update (relink s.next (s.prev n) (s.next n)) n none) (pre ++ p :: post) := by
    rw [hpn]
    exact (hlk.remove hpost.1 hpost.2.1).congr fun c hc => update_of_ne (hout c hc) _ _
  have hhead : s.head = (pre ++ p :: post).head? := by
    rw [h.head, ho]
    cases pre <;> rfl
  have htail : (if s.reverseTail = some n then s.next n else s.reverseTail) = (pre ++ p :: post).head? := by
    rw [h.tail, ← ho, ← h.head, hhead, if_neg]
    exact fun he => hn (List.mem_of_mem_head? he)
  have hlast : (if s.reverseHead = some n then s.prev n else s.reverseHead) = (pre ++ p :: post).getLast? := by
    rw [h.oldest, hpn]
    cases hp : post.getLast? with
    | none =>
      rw [List.getLast?_eq_none_iff] at hp
      subst hp
      simp
    | some y =>
      have hy : y ∈ post := List.mem_of_getLast? hp
      have hyn : y ≠ n := hout y (by simp [hy])
      simp [List.getLast?_append, List.getLast?_cons, hp, hyn]
  have hbacks : Backs (update (relink s.prev (s.next n) (s.prev n)) n none) none (pre ++ p :: post) := by
    refine Backs.congr ?_ fun c hc => update_of_ne (hout c hc) _ _
    obtain ⟨hbpre, hbp, -, hbpost⟩ := backs_append.1 h.backs
    have hkeep : ∀ c ∈ pre ++ [p], relink s.prev (s.next n) (s.prev n) c = s.prev c := by
      intro c hc
      apply relink_of_ne
      rintro x hx rfl
      rw [hnx] at hx
      exact (List.nodup_append.1 (show ((pre ++ [p]) ++ post).Nodup by simpa using hnd')).2.2 c hc c
        (List.mem_of_mem_head? hx) rfl
    refine backs_append.2 ⟨hbpre.congr fun c hc => hkeep c (by simp [hc]), ?_, ?_⟩
    · rw [hkeep p (by simp)]; exact hbp
    · rw [hnx, hpn]
      exact relink_head hbpost hpost.2.2
  refine ⟨hord, ?_, ?_, ?_, htail, hlast, hbacks, fun x hx => absurd hx List.not_mem_nil⟩
  · rw [hord]; exact hnd'
  · rw [hord]; exact hhead
  · rw [hord]; exact hlinks

/-! ## The invariant -/

/-- The node that a producer is pushing. -/
def Pc.node : Pc ν → Option ν
  | .idle => none
  | .load n => some n
  | .cas n => some n

/-- A traversal has returned the first nodes of the snapshot, up to `cursor`, and all of them at its end. -/
def Walk (snapshot visited : List ν) (cursor : Option ν) : Prop :=
  ∃ todo, snapshot = visited ++ todo ∧ (∀ n, cursor = some n → visited.getLast? = some n) ∧
    (cursor = none → todo = [])

/-- **The invariant of the queue.** -/
structure Inv (s : St ι ν) : Prop where
  hung : s.hung = false
  chain : ∃ fresh old, Chain s fresh old ∧
    (s.walking = true → old = s.snapshot.reverse ∧ Walk s.snapshot s.visited s.cursor)
  held : ∀ i n, (s.pc i).node = some n → n ∉ s.order ∧ s.prev n = none
  distinct : ∀ i j n, (s.pc i).node = some n → (s.pc j).node = some n → i = j
  removing : ∀ n, s.removing = some n → n ∈ s.order ∧ s.walking = false

omit [DecidableEq ν] in
theorem inv_init : Inv (St.init : St ι ν) where
  hung := rfl
  chain := ⟨[], [], ⟨rfl, List.nodup_nil, rfl, trivial, rfl, rfl, trivial, fun _ h => absurd h List.not_mem_nil⟩,
    fun h => by cases h⟩
  held := fun _ _ h => by cases h
  distinct := fun _ _ _ h => by cases h
  removing := fun _ h => by cases h

/-! ### Producers -/

omit [DecidableEq ν] in
/-- A producer that moves on with its node, or is done with it. -/
theorem held_update [DecidableEq ι] {i : ι} {p : Pc ν} (hp : ∀ n, p.node = some n → (s.pc i).node = some n)
    {j : ι} {n : ν} (hj : (update s.pc i p j).node = some n) : (s.pc j).node = some n := by
  by_cases hji : j = i
  · subst hji
    rw [update_self] at hj
    exact hp n hj
  · rwa [update_of_ne hji] at hj

/-- A producer writes the link of the node that it pushes, and no other. -/
theorem Chain.frame_next (h : Chain s fresh old) {n : ν} (hn : n ∉ s.order) {v : Option ν} :
    Links (update s.next n v) s.order := by
  refine h.links.congr fun c hc => update_of_ne ?_ _ _
  rintro rfl
  exact hn hc

/-- A producer that has stored a value of `head` in the link of its node. -/
theorem Inv.link [DecidableEq ι] (h : Inv s) {i : ι} {n : ν} (hi : (s.pc i).node = some n) {v : Option ν} :
    Inv { s with next := update s.next n v, pc := update s.pc i (.cas n) } := by
  obtain ⟨fresh, old, hc, hw⟩ := h.chain
  have hkeep : ∀ m, (Pc.cas n).node = some m → (s.pc i).node = some m := fun m hm => by rw [hi]; exact hm
  exact
    { hung := h.hung
      chain := ⟨fresh, old, { hc with links := hc.frame_next (h.held i n hi).1 }, hw⟩
      held := fun j m hj => h.held j m (held_update hkeep hj)
      distinct := fun j k m hj hk => h.distinct j k m (held_update hkeep hj) (held_update hkeep hk)
      removing := h.removing }

theorem Inv.push [Fintype ι] [DecidableEq ι] [Fintype ν] (h : Inv s) {i : ι} {n : ν}
    (hs : s.step (.push i n) = some s') : Inv s' := by
  simp only [St.step] at hs
  split at hs
  case isFalse => cases hs
  case isTrue hg =>
    obtain ⟨hi, hmem, -, hprev, hfree⟩ := hg
    obtain rfl := (Option.some.inj hs).symm
    have hcase : ∀ {j m}, (update s.pc i (.load n) j).node = some m → (j = i ∧ m = n) ∨
      (s.pc j).node = some m := by
      intro j m hj
      by_cases hji : j = i
      · subst hji
        rw [update_self] at hj
        exact .inl ⟨rfl, (Option.some.inj hj).symm⟩
      · rw [update_of_ne hji] at hj
        exact .inr hj
    have hno : ∀ j, (s.pc j).node ≠ some n := by
      intro j hj
      obtain ⟨h1, h2⟩ := hfree j
      cases hpc : s.pc j with
      | idle => rw [hpc] at hj; cases hj
      | load m => rw [hpc] at hj; exact h1 (hpc.trans (by rw [Option.some.inj hj]))
      | cas m => rw [hpc] at hj; exact h2 (hpc.trans (by rw [Option.some.inj hj]))
    obtain ⟨fresh, old, hc, hw⟩ := h.chain
    refine ⟨h.hung, ⟨fresh, old, { hc with }, hw⟩, fun j m hj => ?_, fun j k m hj hk => ?_, h.removing⟩
    · rcases hcase hj with ⟨-, rfl⟩ | hj
      · exact ⟨hmem, hprev⟩
      · exact h.held j m hj
    · rcases hcase hj with ⟨rfl, rfl⟩ | hj'
      · rcases hcase hk with ⟨rfl, -⟩ | hk'
        · rfl
        · exact absurd hk' (hno k)
      · rcases hcase hk with ⟨rfl, rfl⟩ | hk'
        · exact absurd hj' (hno j)
        · exact h.distinct j k m hj' hk'

theorem Inv.load [Fintype ι] [DecidableEq ι] [Fintype ν] (h : Inv s) {i : ι}
    (hs : s.step (.load i) = some s') : Inv s' := by
  simp only [St.step] at hs
  split at hs
  case h_1 n hpc =>
    obtain rfl := (Option.some.inj hs).symm
    exact h.link (by rw [hpc]; rfl)
  case h_2 => cases hs

/-- The node becomes the youngest of the queue. -/
theorem Inv.cas [Fintype ι] [DecidableEq ι] [Fintype ν] (h : Inv s) {i : ι} {b : Bool}
    (hs : s.step (.cas i b) = some s') : Inv s' := by
  simp only [St.step] at hs
  split at hs
  case h_2 => cases hs
  case h_1 n hpc =>
    have hi : (s.pc i).node = some n := by rw [hpc]; rfl
    split at hs
    case isFalse =>
      obtain rfl := (Option.some.inj hs).symm
      have hl := h.link hi (v := s.head)
      rwa [← hpc, update_eq_self] at hl
    case isTrue hg =>
      obtain rfl := (Option.some.inj hs).symm
      obtain ⟨fresh, old, hc, hw⟩ := h.chain
      obtain ⟨hmem, hprev⟩ := h.held i n hi
      have hold : ∀ {j m}, (update s.pc i .idle j).node = some m → j ≠ i ∧ (s.pc j).node = some m := by
        intro j m hj
        refine ⟨?_, held_update (fun m hm => by cases hm) hj⟩
        rintro rfl
        rw [update_self] at hj
        cases hj
      exact
        { hung := h.hung
          chain := ⟨n :: fresh, old,
            { order := by rw [hc.order]; rfl
              nodup := List.nodup_cons.2 ⟨hmem, hc.nodup⟩
              head := rfl
              links := ⟨by rw [← hg.1]; exact hc.head, hc.links⟩
              tail := hc.tail
              oldest := hc.oldest
              backs := hc.backs
              fresh := fun x hx => by
                rcases List.mem_cons.1 hx with rfl | hx
                · exact hprev
                · exact hc.fresh x hx }, hw⟩
          held := fun j m hj => by
            obtain ⟨hji, hj'⟩ := hold hj
            obtain ⟨h1, h2⟩ := h.held j m hj'
            refine ⟨fun hm => ?_, h2⟩
            rcases List.mem_cons.1 hm with rfl | hm
            · exact hji (h.distinct j i m hj' hi)
            · exact h1 hm
          distinct := fun j k m hj hk => h.distinct j k m (hold hj).2 (hold hk).2
          removing := fun m hm => ⟨List.mem_cons_of_mem n (h.removing m hm).1, (h.removing m hm).2⟩ }

/-! ### The consumer -/

/-- A node leaves the queue. -/
theorem Inv.unlinked (h : Inv s) {s₁ : St ι ν} {n : ν} (ho : s₁.order = s.order)
    (hpc : s₁.pc = s.pc) (hh : s₁.hung = s.hung) (hprev : ∀ y, y ∉ s.order → s₁.prev y = s.prev y)
    (hframe : ∀ y, y ∉ s₁.order → (s₁.unlink n).prev y = s₁.prev y)
    (hc : ∃ fresh' old', Chain (s₁.unlink n) fresh' old') : Inv (s₁.unlink n) := by
  obtain ⟨fresh', old', hc⟩ := hc
  have hheld : ∀ i m, (s₁.pc i).node = some m → m ∉ (s₁.unlink n).order ∧ (s₁.unlink n).prev m = none := by
    intro i m hi
    rw [hpc] at hi
    obtain ⟨h1, h2⟩ := h.held i m hi
    refine ⟨fun hm => h1 (ho ▸ List.mem_of_mem_erase hm), ?_⟩
    rw [hframe m (ho ▸ h1), hprev m h1, h2]
  exact
    { hung := hh.trans h.hung
      chain := ⟨fresh', old', hc, fun hw => by cases hw⟩
      held := hheld
      distinct := fun i j m hi hj => by
        rw [show (s₁.unlink n).pc = s.pc from hpc] at hi hj
        exact h.distinct i j m hi hj
      removing := fun m hm => by cases hm }

/-- `prs_mpsciq_remove` when `head` is another node. -/
theorem Inv.remove_behind [Fintype ν] (h : Inv s) {n : ν} (hn : n ∈ s.order) (hh : s.head ≠ some n) :
    ∃ s₁, s.buildReverse s.head = some s₁ ∧ Inv (s₁.unlink n) := by
  obtain ⟨fresh, old, hc₀, -⟩ := h.chain
  obtain ⟨prev', h1, hc, hprev⟩ := hc₀.buildReverse
  refine ⟨s.backed prev', h1, ?_⟩
  obtain ⟨pre, post, hsplit⟩ := List.append_of_mem hn
  rcases List.eq_nil_or_concat pre with rfl | ⟨pre', p, rfl⟩
  · have hhead := hc₀.head
    rw [hsplit] at hhead
    exact absurd hhead hh
  · have hc' : Chain (s.backed prev') [] (pre' ++ p :: n :: post) := by simpa [hsplit] using hc
    exact h.unlinked rfl rfl rfl hprev (fun y hy => hc.unlink_frame hn hy) ⟨_, _, hc'.unlink_behind⟩

theorem Inv.remove [Fintype ι] [DecidableEq ι] [Fintype ν] (h : Inv s) {n : ν}
    (hs : s.step (.remove n) = some s') : Inv s' := by
  simp only [St.step] at hs
  split at hs
  case isFalse => cases hs
  case isTrue hr =>
    obtain ⟨-, hn⟩ := hr
    split at hs
    case isTrue hh =>
      obtain rfl := (Option.some.inj hs).symm
      obtain ⟨fresh, old, hc, -⟩ := h.chain
      refine ⟨h.hung, ⟨fresh, old, { hc with }, fun hw => by cases hw⟩, h.held, h.distinct, fun m hm => ?_⟩
      rw [← Option.some.inj hm]
      exact ⟨hn, rfl⟩
    case isFalse hh =>
      obtain ⟨s₁, h1, hi⟩ := h.remove_behind hn hh
      rw [h1] at hs
      rw [← Option.some.inj hs]
      exact hi

theorem Inv.removeCas [Fintype ι] [DecidableEq ι] [Fintype ν] (h : Inv s) (hs : s.step .removeCas = some s') :
    Inv s' := by
  simp only [St.step] at hs
  obtain ⟨n, hrm, hs⟩ := Option.bind_eq_some_iff.1 hs
  obtain ⟨hn, -⟩ := h.removing n hrm
  split at hs
  case isTrue hh =>
    obtain rfl := (Option.some.inj hs).symm
    obtain ⟨fresh, old, hc, -⟩ := h.chain
    exact h.unlinked rfl rfl rfl (fun _ _ => rfl) (fun y hy => hc.unlink_frame hn hy) (hc.unlink_head hh)
  case isFalse hh =>
    obtain ⟨s₁, h1, hi⟩ := h.remove_behind hn hh
    rw [h1] at hs
    rw [← Option.some.inj hs]
    exact hi

theorem Inv.begin [Fintype ι] [DecidableEq ι] [Fintype ν] (h : Inv s) (hs : s.step .begin = some s') :
    Inv s' := by
  obtain ⟨fresh, old, hc₀, -⟩ := h.chain
  obtain ⟨prev', h1, hc, hprev⟩ := hc₀.buildReverse
  simp only [St.step, h1] at hs
  split at hs
  case isFalse => cases hs
  case isTrue hr =>
    obtain rfl := (Option.some.inj hs).symm
    have hlast : s.order.getLast? = s.order.reverse.head? := List.head?_reverse.symm
    have hwalk : Walk s.order.reverse s.order.getLast?.toList s.order.getLast? := by
      rw [hlast]
      cases s.order.reverse with
      | nil => exact ⟨[], rfl, fun n hn => (by cases hn), fun _ => rfl⟩
      | cons a l => exact ⟨l, rfl, fun n hn => hn, fun hn => (by cases hn)⟩
    have hheld : ∀ i n, (s.pc i).node = some n → n ∉ s.order ∧ prev' n = none := fun i n hi =>
      ⟨(h.held i n hi).1, (hprev n (h.held i n hi).1).trans (h.held i n hi).2⟩
    refine ⟨h.hung, ⟨[], s.order, { hc with }, fun _ => ⟨by simp, hwalk⟩⟩, hheld, h.distinct, fun n hn => ?_⟩
    cases hr.1.symm.trans hn

/-- The back link of a node is the node that was pushed after it. -/
theorem Inv.next [Fintype ι] [DecidableEq ι] [Fintype ν] (h : Inv s) (hs : s.step .next = some s') : Inv s' := by
  simp only [St.step] at hs
  split at hs
  case isFalse => cases hs
  case isTrue hr =>
    obtain ⟨n, hcur, rfl⟩ := Option.map_eq_some_iff.1 hs
    obtain ⟨fresh, old, hc, hw⟩ := h.chain
    refine ⟨h.hung, ⟨fresh, old, { hc with }, fun hwk => ⟨(hw hwk).1, ?_⟩⟩, h.held, h.distinct, h.removing⟩
    obtain ⟨hold, todo, h1, h2, h3⟩ := hw hwk
    obtain ⟨v, hv⟩ : ∃ v, s.visited = v ++ [n] := List.getLast?_eq_some_iff.1 (h2 n hcur)
    have hprev : s.prev n = todo.head? := by
      have hb := hc.backs
      rw [hold, h1, hv] at hb
      simp only [List.append_assoc, List.reverse_append, List.reverse_cons, List.reverse_nil,
        List.nil_append] at hb
      simpa using hb.prev_eq
    simp only [hprev]
    cases todo with
    | nil => exact ⟨[], by simpa using h1, fun n hn => (by cases hn), fun _ => rfl⟩
    | cons x todo => exact ⟨todo, by simpa using h1, fun n hn => by simpa using hn, fun hn => (by cases hn)⟩

theorem Inv.step [Fintype ι] [DecidableEq ι] [Fintype ν] (h : Inv s) {a : Act ι ν} (hs : s.step a = some s') :
    Inv s' := by
  cases a with
  | push i n => exact h.push hs
  | load i => exact h.load hs
  | cas i b => exact h.cas hs
  | begin => exact h.begin hs
  | next => exact h.next hs
  | remove n => exact h.remove hs
  | removeCas => exact h.removeCas hs

/-! ## What a call does to the list -/

theorem push_eq [Fintype ι] [DecidableEq ι] [Fintype ν] {i : ι} {n : ν} (hs : s.step (.push i n) = some s') :
    s.Free n ∧ s' = { s with pc := update s.pc i (.load n) } := by
  obtain ⟨h, rfl⟩ := Option.ite_none_right_eq_some.1 hs |>.imp_right Option.some.inj
  exact ⟨h.2, rfl⟩

/-- A step of a producer other than a successful exchange. -/
structure Same (s s' : St ι ν) : Prop where
  order : s'.order = s.order
  removing : s'.removing = s.removing
  node : ∀ j, (s'.pc j).node = (s.pc j).node

theorem load_same [Fintype ι] [DecidableEq ι] [Fintype ν] {i : ι} (hs : s.step (.load i) = some s') :
    Same s s' := by
  simp only [St.step] at hs
  split at hs
  case h_2 => cases hs
  case h_1 n hpc =>
    rw [← Option.some.inj hs]
    refine ⟨rfl, rfl, fun j => ?_⟩
    by_cases hj : j = i
    · rw [hj]
      simp only [update_self, hpc, Pc.node]
    · simp only [update_of_ne hj]

/-- The exchange fails, or the node is the youngest now. -/
theorem cas_cases [Fintype ι] [DecidableEq ι] [Fintype ν] {i : ι} {b : Bool} (hs : s.step (.cas i b) = some s') :
    (Same s s' ∧ s'.pc i ≠ .idle) ∨
      ∃ n, s.pc i = .cas n ∧ s'.order = n :: s.order ∧ s'.removing = s.removing ∧
      s'.pc = update s.pc i .idle := by
  simp only [St.step] at hs
  split at hs
  case h_2 => cases hs
  case h_1 n hpc =>
    split at hs
    case isTrue =>
      rw [← Option.some.inj hs]
      exact .inr ⟨n, hpc, rfl, rfl, rfl⟩
    case isFalse =>
      rw [← Option.some.inj hs]
      refine .inl ⟨⟨rfl, rfl, fun _ => rfl⟩, ?_⟩
      rw [hpc]
      exact fun h => by cases h

/-- `prs_mpsciq_begin` returns the oldest node, and every node has its back link. -/
theorem Inv.begin_spec [Fintype ι] [DecidableEq ι] [Fintype ν] (h : Inv s) (hr : s.removing = none) :
    ∃ q, s.step .begin = some q ∧ q.order = s.order ∧ q.removing = none ∧ q.pc = s.pc ∧
      q.reverseHead = s.order.getLast? ∧ Links q.prev s.order.reverse := by
  obtain ⟨fresh, old, hc₀, -⟩ := h.chain
  obtain ⟨prev', h1, hc, -⟩ := hc₀.buildReverse
  have hready : s.Ready := ⟨hr, h.hung⟩
  simp only [St.step, if_pos hready, h1]
  exact ⟨_, rfl, rfl, hr, rfl, rfl, hc.backs.links_reverse⟩

/-- The node is still to be taken from `head`, or is taken out. -/
theorem Inv.remove_spec [Fintype ι] [DecidableEq ι] [Fintype ν] (h : Inv s) {n : ν}
    (hs : s.step (.remove n) = some s') :
    s'.pc = s.pc ∧ (s'.removing = some n ∧ s'.order = s.order ∧ s.head = some n ∨
      s'.removing = none ∧ s'.order = s.order.erase n ∧ s.head ≠ some n) := by
  obtain ⟨⟨-, hn⟩, hs⟩ := Option.ite_none_right_eq_some.1 hs
  split at hs
  case isTrue hh =>
    rw [← Option.some.inj hs]
    exact ⟨rfl, .inl ⟨rfl, rfl, hh⟩⟩
  case isFalse hh =>
    obtain ⟨fresh, old, hc, -⟩ := h.chain
    obtain ⟨prev', h1, -⟩ := hc.buildReverse
    rw [h1] at hs
    rw [← Option.some.inj hs]
    exact ⟨rfl, .inr ⟨rfl, rfl, hh⟩⟩

theorem Inv.removeCas_spec [Fintype ι] [DecidableEq ι] [Fintype ν] (h : Inv s) {n : ν}
    (hr : s.removing = some n) (hs : s.step .removeCas = some s') :
    s'.pc = s.pc ∧ s'.removing = none ∧ s'.order = s.order.erase n := by
  simp only [St.step, hr, Option.bind_some] at hs
  split at hs
  case isTrue =>
    rw [← Option.some.inj hs]
    exact ⟨rfl, rfl, rfl⟩
  case isFalse =>
    obtain ⟨fresh, old, hc, -⟩ := h.chain
    obtain ⟨prev', h1, -⟩ := hc.buildReverse
    rw [h1] at hs
    rw [← Option.some.inj hs]
    exact ⟨rfl, rfl, rfl⟩

omit [DecidableEq ν] in
theorem Inv.nodup (h : Inv s) : s.order.Nodup := by
  obtain ⟨fresh, old, hc, -⟩ := h.chain
  exact hc.nodup

/-! ## The result -/

/-- **The queue is a list.** In every state of every run of the producers and the consumer, no loop of the
consumer has run away, the nodes reached from `head` are those that were pushed and not unlinked, each once
and youngest first, and a traversal has returned the first of the nodes that were in the queue when it began,
oldest first, and all of them when it is at its end. -/
theorem queue_is_list [Fintype ι] [DecidableEq ι] [Fintype ν] (h : (sys ι ν).Reachable s) :
    s.hung = false ∧ s.order.Nodup ∧ s.head = s.order.head? ∧ Links s.next s.order ∧
      (∀ n, Linked s.next s.head n ↔ n ∈ s.order) ∧
      (s.walking = true → s.visited <+: s.snapshot ∧ (s.cursor = none → s.visited = s.snapshot)) := by
  have hi : Inv s := System.Reachable.inv (I := Inv) (fun _ h => h ▸ inv_init) (fun _ _ _ h hs => h.step hs) h
  obtain ⟨fresh, old, hc, hw⟩ := hi.chain
  refine ⟨hi.hung, hc.nodup, hc.head, hc.links, fun n => ?_, fun hwk => ?_⟩
  · rw [hc.head]
    exact hc.links.linked_iff
  · obtain ⟨-, todo, h1, -, h3⟩ := hw hwk
    refine ⟨⟨todo, h1.symm⟩, fun hn => ?_⟩
    rw [h1, h3 hn, List.append_nil]

/-- Two producers race, and a third node is pushed during the traversal. -/
theorem queue_is_list_walk : ∃ s, (sys (Fin 2) (Fin 3)).Reachable s ∧ s.visited = [1, 0] ∧ s.order = [2, 0, 1] ∧
    s.snapshot = [1, 0] := by
  obtain ⟨s, hs, ho, hw, hc, hsn⟩ := System.exists_of_check (sys (Fin 2) (Fin 3)) (fun _ _ => True)
    (fun s => s.order = [2, 0, 1] ∧ s.walking = true ∧ s.cursor = none ∧ s.snapshot = [1, 0]) .init rfl
    [.push 0 0, .push 1 1, .load 0, .load 1, .cas 1 false, .cas 0 false, .cas 0 false, .begin, .next,
      .push 1 2, .load 1, .cas 1 false, .next] (by decide +kernel)
  obtain ⟨-, -, -, -, -, hv⟩ := queue_is_list hs
  exact ⟨s, hs, (hv hw).2 hc |>.trans hsn, ho, hsn⟩

end Prs.Mpsciq
