import Prs.Model.Mpscq
import Prs.Proof.MpsciqList

/-!
# The queue with nodes of its own is a list, and leaks nothing

The links are those of the intrusive queue (`St.view`), so its lemmas about them are used as they are. What is
new is the memory: an address comes back, with whatever its last use has left in it.

* `buildReverse_spec`, `unlink_head`, `unlink_behind`: what the consumer does uses nodes of the queue only.
* `queue_safe`: in every state of every run, nothing has failed, the allocated nodes are those of the queue
  and those that producers are about to push, each element is where it was put, and a traversal returns what
  was in the queue when it began, oldest first.
* `destroy_frees`: while nothing is pushed, `prs_mpscq_destroy` ends, and then no node is allocated.
-/

namespace Prs.Mpscq

open Function
open Mpsciq (Chain relink)

variable {ι ν δ : Type} {s s' s₁ : St ι ν δ}
  {fresh old : List (ν × δ)}
  {n : ν} {d : δ} {i : ι}

/-- The links, as those of an intrusive queue. -/
def St.view (s : St ι ν δ) : Mpsciq.St ι ν where
  head := s.head
  reverseTail := s.reverseTail
  reverseHead := s.reverseHead
  next := s.next
  prev := s.prev
  pc := fun _ => .idle
  removing := none
  hung := false
  order := s.order.map Prod.fst
  cursor := none
  walking := false
  snapshot := []
  visited := []

/-- The nodes of the queue. -/
def St.nodes (s : St ι ν δ) : List ν := s.order.map Prod.fst

/-- The node and the element that a producer is pushing. -/
def Pc.held : Pc ν δ → Option (ν × δ)
  | .idle => none
  | .load n d => some (n, d)
  | .cas n d => some (n, d)

/-- The consumer has returned the elements of `done`, and is at the last of them. -/
def Walk (all : List (ν × δ)) (s : St ι ν δ) : Prop :=
  ∃ done todo, all = done ++ todo ∧ s.snapshot = all.map Prod.snd ∧ s.visited = done.map Prod.snd ∧
    (∀ n, s.cursor = some n → ∃ d, done.getLast? = some (n, d)) ∧ (s.cursor = none → todo = [])

/-- **The invariant.** -/
structure Inv (s : St ι ν δ) : Prop where
  failed : s.failed = false
  chain : ∃ fresh old, s.order = fresh ++ old ∧ Chain s.view (fresh.map Prod.fst) (old.map Prod.fst) ∧
    (s.walking = true → Walk old.reverse s)
  cursor : s.walking = false → s.cursor = none
  held : ∀ i n d, (s.pc i).held = some (n, d) → n ∉ s.nodes ∧ s.live n = true ∧ s.prev n = none ∧ s.data n = d
  distinct : ∀ i j n d e, (s.pc i).held = some (n, d) → (s.pc j).held = some (n, e) → i = j
  live : ∀ n, s.live n = true → n ∈ s.nodes ∨ ∃ i d, (s.pc i).held = some (n, d)
  data : ∀ e ∈ s.order, s.live e.1 = true ∧ s.data e.1 = e.2
  removing : ∀ n, s.removing = some n → n ∈ s.nodes ∧ s.walking = false

theorem inv_init (next prev : ν → Option ν) (data : ν → δ) : Inv (St.init next prev data : St ι ν δ) where
  failed := rfl
  chain := ⟨[], [], rfl, ⟨rfl, List.nodup_nil, rfl, trivial, rfl, rfl, trivial,
    fun _ h => absurd h List.not_mem_nil⟩,
    nofun⟩
  cursor := fun _ => rfl
  held := nofun
  distinct := nofun
  live := nofun
  data := nofun
  removing := nofun

/-! ## The links -/

variable [DecidableEq ν]

section Chain

variable {f o : List ν} {t t' : Mpsciq.St ι ν}

omit [DecidableEq ν] in
/-- Only the links of the nodes in the queue matter. -/
theorem chain_congr (h : Chain t f o) (ho : t'.order = t.order) (hh : t'.head = t.head)
    (ht : t'.reverseTail = t.reverseTail) (hr : t'.reverseHead = t.reverseHead)
    (hn : ∀ c ∈ t.order, t'.next c = t.next c) (hp : ∀ c ∈ t.order, t'.prev c = t.prev c) : Chain t' f o := by
  have hold : ∀ c ∈ o, c ∈ t.order := by
    intro c hc
    rw [h.order]
    exact List.mem_append_right f hc
  have hfresh : ∀ c ∈ f, c ∈ t.order := by
    intro c hc
    rw [h.order]
    exact List.mem_append_left o hc
  refine ⟨ho.trans h.order, ho ▸ h.nodup, ?_, ?_, ht.trans h.tail, hr.trans h.oldest, ?_, ?_⟩
  · rw [hh, ho, h.head]
  · rw [ho]
    exact h.links.congr hn
  · exact h.backs.congr fun c hc => hp c (hold c hc)
  · intro x hx
    rw [hp x (hfresh x hx), h.fresh x hx]

/-- The loop runs through allocated nodes as it does in the intrusive queue. -/
theorem buildLoop_eq {live : ν → Bool} {next prev : ν → Option ν} {stop : Option ν} {l : List ν} {fuel : ℕ}
    {a : ν} (hl : ∀ x ∈ l, live x = true ∧ ∀ y, next x = some y → y ∈ l) (ha : a ∈ l) :
    buildLoop live next stop fuel a prev = Mpsciq.buildLoop next stop fuel a prev := by
  induction fuel generalizing a prev with
  | zero => rfl
  | succ fuel ih =>
    obtain ⟨hlive, hnext⟩ := hl a ha
    rw [buildLoop, Mpsciq.buildLoop, if_pos hlive]
    cases hx : next a with
    | none => rfl
    | some x =>
      have hmem := hnext x hx
      simp only [(hl x hmem).1, if_true, ih hmem]

/-- Every node has its back link. -/
def St.backed (s : St ι ν δ) (prev : ν → Option ν) : St ι ν δ :=
  { s with prev := prev, reverseHead := s.nodes.getLast?, reverseTail := s.nodes.head? }

/-- **`prs_mpscq_build_reverse` gives every node its back link**, and uses allocated nodes only. -/
theorem buildReverse_spec [Fintype ν] (h : Chain s.view f o) (hlive : ∀ x ∈ s.nodes, s.live x = true) :
    ∃ prev', s.buildReverse s.head = some (s.backed prev') ∧ Chain (s.backed prev').view [] s.nodes ∧
      ∀ y, y ∉ s.nodes → prev' y = s.prev y := by
  obtain ⟨prev', hrun, hc, hframe⟩ := h.buildReverse
  refine ⟨prev', ?_, hc, hframe⟩
  have hclosed : ∀ x ∈ s.nodes, s.live x = true ∧ ∀ y, s.next x = some y → y ∈ s.nodes :=
    fun x hx => ⟨hlive x hx, fun y hy => (h.mem_of_next hx hy).1⟩
  unfold Mpsciq.St.buildReverse at hrun
  unfold St.buildReverse
  by_cases ht : s.head = s.reverseTail
  · rw [if_pos ht]
    rw [if_pos (show s.view.head = s.view.reverseTail from ht)] at hrun
    have he := Option.some.inj hrun
    have h1 : s.prev = prev' := congrArg Mpsciq.St.prev he
    have h2 : s.reverseHead = s.nodes.getLast? := congrArg Mpsciq.St.reverseHead he
    have h3 : s.reverseTail = s.nodes.head? := congrArg Mpsciq.St.reverseTail he
    rw [St.backed, ← h1, ← h2, ← h3]
  · rw [if_neg ht]
    rw [if_neg (show ¬ s.view.head = s.view.reverseTail from ht)] at hrun
    obtain ⟨a, ha, hrun⟩ := Option.bind_eq_some_iff.1 hrun
    obtain ⟨r, hr, he⟩ := Option.map_eq_some_iff.1 hrun
    have hmem : a ∈ s.nodes := by
      have hhead : s.nodes.head? = some a := h.head.symm.trans ha
      exact List.mem_of_mem_head? hhead
    have hloop : buildLoop s.live s.next s.reverseTail (Fintype.card ν) a s.prev = some r :=
      (buildLoop_eq hclosed hmem).trans hr
    have h1 : r.1 = prev' := congrArg Mpsciq.St.prev he
    have h2 : (if s.reverseHead = none then some r.2 else s.reverseHead) = s.nodes.getLast? :=
      congrArg Mpsciq.St.reverseHead he
    have h3 : some a = s.nodes.head? := congrArg Mpsciq.St.reverseTail he
    rw [St.backed, ← h3, show s.head = some a from ha, Option.bind_some, hloop, Option.map_some, h1, h2]

/-- The links after a removal, but for those of the node that is freed. -/
theorem unlink_eq [Fintype ν] (hlive : s.live n = true) (hx : ∀ x, s.next n = some x → s.live x = true)
    (hp : ∀ p, s.prev n = some p → s.live p = true) (hself : s.next n ≠ some n) (hpself : s.prev n ≠ some n) :
    ∃ q, s.unlink n = some q ∧ q = { s with
      reverseHead := if s.reverseHead = some n then s.prev n else s.reverseHead
      reverseTail := if s.reverseTail = some n then s.next n else s.reverseTail
      next := relink s.next (s.prev n) (s.next n)
      prev := relink s.prev (s.next n) (s.prev n)
      live := update s.live n false
      order := s.order.filter fun e => e.1 ≠ n
      removing := none
      cursor := none
      walking := false } := by
  refine ⟨_, ?_, rfl⟩
  have hprev : relink s.prev (s.next n) (s.prev n) n = s.prev n := by
    apply Mpsciq.relink_of_ne
    rintro x h rfl
    exact hself h
  have hnext : relink s.next (s.prev n) (s.next n) n = s.next n := by
    apply Mpsciq.relink_of_ne
    rintro x h rfl
    exact hpself h
  have hdef : s.unlink n = if s.live n ∧ (∀ x, s.next n = some x → s.live x) ∧
        (∀ p, relink s.prev (s.next n) (s.prev n) n = some p → s.live p) then some { s with
      reverseHead := if s.reverseHead = some n then relink s.prev (s.next n) (s.prev n) n else s.reverseHead
      reverseTail := if s.reverseTail = some n
        then relink s.next (relink s.prev (s.next n) (s.prev n) n) (s.next n) n else s.reverseTail
      next := relink s.next (relink s.prev (s.next n) (s.prev n) n) (s.next n)
      prev := relink s.prev (s.next n) (s.prev n)
      live := update s.live n false
      order := s.order.filter fun e => e.1 ≠ n
      removing := none
      cursor := none
      walking := false } else none := rfl
  rw [hdef, hprev, hnext, if_pos ⟨hlive, hx, hp⟩]

theorem map_filter_ne (l : List (ν × δ)) (n : ν) (hn : (l.map Prod.fst).Nodup) :
    (l.filter fun e => e.1 ≠ n).map Prod.fst = (l.map Prod.fst).erase n := by
  rw [hn.erase_eq_filter, List.filter_map]
  congr 1
  apply List.filter_congr
  intro e _
  simp only [Function.comp_apply, bne, ne_eq, decide_not, beq_eq_decide]

/-- The node `n` was taken out and freed. -/
structure Removed (s q : St ι ν δ) (n : ν) : Prop where
  chain : ∃ f o, Chain q.view f o
  order : q.order = s.order.filter fun e => e.1 ≠ n
  live : q.live = update s.live n false
  data : q.data = s.data
  pc : q.pc = s.pc
  failed : q.failed = s.failed
  removing : q.removing = none
  walking : q.walking = false
  cursor : q.cursor = none
  prev : ∀ y ∉ s.nodes, q.prev y = s.prev y

/-- What a removal leaves of the links is what it leaves in the intrusive queue. -/
theorem removed_of_chain [Fintype ν] (h : Chain (s.view.unlink n) f o) (hn : s.nodes.Nodup)
    (hlive : s.live n = true) (hx : ∀ x, s.next n = some x → x ∈ s.nodes ∧ s.live x = true)
    (hp : ∀ p, s.prev n = some p → s.live p = true) (hself : s.next n ≠ some n) (hpself : s.prev n ≠ some n) :
    ∃ q, s.unlink n = some q ∧ Removed s q n := by
  obtain ⟨q, hq, hdef⟩ := unlink_eq hlive (fun x h => (hx x h).2) hp hself hpself
  have hord : q.view.order = (s.view.unlink n).order := by
    rw [hdef]
    exact map_filter_ne s.order n hn
  rw [Mpsciq.unlink_eq (s := s.view) hself hpself] at h hord
  have hne : ∀ c ∈ s.nodes.erase n, c ≠ n := fun c hc => (List.Nodup.mem_erase_iff hn).1 hc |>.1
  have hchain : Chain q.view f o := by
    apply chain_congr h hord
    · rw [hdef]
      rfl
    · rw [hdef]
      rfl
    · rw [hdef]
      rfl
    · intro c hc
      rw [hdef]
      exact (update_of_ne (hne c hc) _ _).symm
    · intro c hc
      rw [hdef]
      exact (update_of_ne (hne c hc) _ _).symm
  refine ⟨q, hq, ⟨f, o, hchain⟩, ?_, ?_, ?_, ?_, ?_, ?_, ?_, ?_, ?_⟩
  all_goals rw [hdef]
  intro y hy
  apply Mpsciq.relink_of_ne
  rintro x h rfl
  exact hy (hx _ h).1

omit [DecidableEq ν] in
/-- The youngest node has no back link. -/
theorem prev_head {t : Mpsciq.St ι ν} (h : Chain t f o) (hh : t.head = some n) : t.prev n = none := by
  have ho := h.order
  have hhead := h.head.symm.trans hh
  cases f with
  | nil =>
    cases o with
    | nil =>
      rw [ho] at hhead
      cases hhead
    | cons a o =>
      rw [ho] at hhead
      obtain rfl := Option.some.inj hhead
      exact h.backs.1
  | cons a f =>
    rw [ho] at hhead
    obtain rfl := Option.some.inj hhead
    exact h.fresh _ List.mem_cons_self

/-- **The youngest node is taken out**, once the exchange on `head` has succeeded. -/
theorem unlink_head [Fintype ν] (h : Chain s.view f o) (hlive : ∀ x ∈ s.nodes, s.live x = true)
    (hh : s.head = some n) :
    ∃ q, ({ s with head := s.next n } : St ι ν δ).unlink n = some q ∧ Removed s q n := by
  have hmem : n ∈ s.nodes := List.mem_of_mem_head? (h.head.symm.trans hh)
  have hprev : s.prev n = none := prev_head h hh
  have hx : ∀ x, s.next n = some x → x ∈ s.nodes ∧ x ≠ n := fun x hx => h.mem_of_next hmem hx
  obtain ⟨f', o', hc⟩ := h.unlink_head hh
  obtain ⟨q, hq, hr⟩ := removed_of_chain (s := { s with head := s.next n }) hc h.nodup (hlive n hmem)
    (fun x he => ⟨(hx x he).1, hlive x (hx x he).1⟩) (fun p hp => by cases hprev.symm.trans hp)
    (fun he => (hx n he).2 rfl) (fun he => by cases hprev.symm.trans he)
  exact ⟨q, hq, hr.chain, hr.order, hr.live, hr.data, hr.pc, hr.failed, hr.removing, hr.walking, hr.cursor,
    hr.prev⟩

/-- **Another node is taken out**, once every node has its back link. -/
theorem unlink_behind [Fintype ν] (h : Chain s.view f o) (hlive : ∀ x ∈ s.nodes, s.live x = true)
    (hn : n ∈ s.nodes) (hh : s.head ≠ some n) :
    ∃ q, ((s.buildReverse s.head).bind fun s' => s'.unlink n) = some q ∧ Removed s q n := by
  obtain ⟨prev', hrun, hc, hframe⟩ := buildReverse_spec h hlive
  rw [hrun, Option.bind_some]
  obtain ⟨pre, post, hsplit⟩ := List.append_of_mem hn
  rcases List.eq_nil_or_concat pre with rfl | ⟨pre', p, rfl⟩
  · have hhead := h.head
    rw [show s.view.order = s.nodes from rfl, hsplit] at hhead
    exact absurd hhead hh
  · have hall : s.nodes = pre' ++ p :: n :: post := by
      rw [hsplit]
      simp
    have hc' : Chain (s.backed prev').view [] (pre' ++ p :: n :: post) := hall ▸ hc
    have hpn : prev' n = some p := by
      have hb := hc'.backs
      rw [show pre' ++ p :: n :: post = (pre' ++ [p]) ++ n :: post by simp] at hb
      have he := hb.prev_eq
      rw [List.getLast?_concat] at he
      exact he
    have hp : p ∈ s.nodes := by
      rw [hall]
      exact List.mem_append_right pre' List.mem_cons_self
    have hnd : (pre' ++ p :: n :: post).Nodup := hall ▸ h.nodup
    have hpne : p ≠ n := by
      rintro rfl
      exact (List.nodup_cons.1 (List.nodup_append.1 hnd).2.1).1 List.mem_cons_self
    have hx : ∀ x, s.next n = some x → x ∈ s.nodes ∧ x ≠ n := fun x hx => h.mem_of_next hn hx
    obtain ⟨q, hq, hr⟩ := removed_of_chain (s := s.backed prev') hc'.unlink_behind h.nodup (hlive n hn)
      (fun x he => ⟨(hx x he).1, hlive x (hx x he).1⟩) (fun y hy => by
        obtain rfl := Option.some.inj (hpn.symm.trans hy)
        exact hlive p hp)
      (fun he => (hx n he).2 rfl) (fun he => hpne (Option.some.inj (hpn.symm.trans he)))
    refine ⟨q, hq, hr.chain, hr.order, hr.live, hr.data, hr.pc, hr.failed, hr.removing, hr.walking, hr.cursor,
      ?_⟩
    intro y hy
    exact (hr.prev y hy).trans (hframe y hy)

end Chain

/-! ## The steps -/

section Producers

omit [DecidableEq ν] in
theorem Inv.nodup (h : Inv s) : s.nodes.Nodup := by
  obtain ⟨fresh, old, -, hc, -⟩ := h.chain
  exact hc.nodup

omit [DecidableEq ν] in
theorem Inv.live_nodes (h : Inv s) : ∀ x ∈ s.nodes, s.live x = true := by
  intro x hx
  obtain ⟨e, he, rfl⟩ := List.mem_map.1 hx
  exact (h.data e he).1

omit [DecidableEq ν] in
/-- A producer moves on with its node. -/
theorem held_update [DecidableEq ι] {p : Pc ν δ} (hp : p.held = (s.pc i).held) (j : ι) :
    (update s.pc i p j).held = (s.pc j).held := by
  by_cases hji : j = i
  · subst hji
    rw [update_self, hp]
  · rw [update_of_ne hji]

/-- A producer has stored a value of `head` in the link of its node. -/
theorem Inv.link [DecidableEq ι] (h : Inv s) (hi : (s.pc i).held = some (n, d)) (v : Option ν) :
    Inv { s with next := update s.next n v, pc := update s.pc i (.cas n d) } := by
  obtain ⟨fresh, old, ho, hc, hw⟩ := h.chain
  have hn := (h.held i n d hi).1
  have hpc : ∀ j, (update s.pc i (.cas n d) j).held = (s.pc j).held := held_update hi.symm
  have hc' : Chain (St.view { s with next := update s.next n v, pc := update s.pc i (.cas n d) })
    (fresh.map Prod.fst)
      (old.map Prod.fst) := by
    refine chain_congr hc rfl rfl rfl rfl ?_ fun _ _ => rfl
    rintro c hmem
    apply update_of_ne
    rintro rfl
    exact hn hmem
  refine ⟨h.failed, ⟨fresh, old, ho, hc', hw⟩, h.cursor, ?_, ?_, ?_, h.data, h.removing⟩
  · intro j m e hj
    exact h.held j m e ((hpc j).symm.trans hj)
  · intro j k m e e' hj hk
    exact h.distinct j k m e e' ((hpc j).symm.trans hj) ((hpc k).symm.trans hk)
  · intro m hm
    obtain hm | ⟨j, e, hj⟩ := h.live m hm
    · exact .inl hm
    · exact .inr ⟨j, e, (hpc j).trans hj⟩

/-- A node that comes from `prs_pal_malloc` is in no use. -/
theorem Inv.push [DecidableEq ι] [Fintype ν] (h : Inv s) (hs : s.step (.push i n d) = some s') : Inv s' := by
  simp only [St.step] at hs
  split at hs
  case h_2 => cases hs
  case h_1 hpc =>
    obtain ⟨hfree, hs⟩ := Option.ite_none_left_eq_some.1 hs
    obtain rfl := (Option.some.inj hs).symm
    obtain ⟨fresh, old, ho, hc, hw⟩ := h.chain
    have hn : n ∉ s.nodes := fun hm => hfree (h.live_nodes n hm)
    have hno : ∀ j e, (s.pc j).held ≠ some (n, e) := fun j e hj => hfree (h.held j n e hj).2.1
    -- no producer has the node that was free, so all keep what they have
    have hcase : ∀ {j m e}, (update s.pc i (.load n d) j).held = some (m, e) →
        (j = i ∧ m = n ∧ e = d) ∨ (j ≠ i ∧ m ≠ n ∧ (s.pc j).held = some (m, e)) := by
      intro j m e hj
      by_cases hji : j = i
      · subst hji
        rw [update_self] at hj
        obtain ⟨rfl, rfl⟩ := Prod.mk.inj (Option.some.inj hj)
        exact .inl ⟨rfl, rfl, rfl⟩
      · rw [update_of_ne hji] at hj
        refine .inr ⟨hji, ?_, hj⟩
        rintro rfl
        exact hno j e hj
    have hout : ∀ c ∈ s.nodes, c ≠ n := by
      rintro c hm rfl
      exact hn hm
    refine ⟨h.failed, ⟨fresh, old, ho, chain_congr hc rfl rfl rfl rfl (fun _ _ => rfl) ?_, hw⟩, h.cursor, ?_,
      ?_, ?_, ?_, h.removing⟩
    · intro c hm
      exact update_of_ne (hout c hm) _ _
    · intro j m e hj
      obtain ⟨-, rfl, rfl⟩ | ⟨-, hne, hj⟩ := hcase hj
      · exact ⟨hn, update_self .., update_self .., update_self ..⟩
      · obtain ⟨h1, h2, h3, h4⟩ := h.held j m e hj
        exact ⟨h1, (update_of_ne hne _ _).trans h2, (update_of_ne hne _ _).trans h3,
          (update_of_ne hne _ _).trans h4⟩
    · intro j k m e e' hj hk
      obtain ⟨rfl, rfl, -⟩ | ⟨-, hne, hj⟩ := hcase hj
      · obtain ⟨rfl, -, -⟩ | ⟨-, hne, -⟩ := hcase hk
        · rfl
        · exact absurd rfl hne
      · obtain ⟨-, rfl, -⟩ | ⟨-, -, hk⟩ := hcase hk
        · exact absurd rfl hne
        · exact h.distinct j k m e e' hj hk
    · intro m hm
      by_cases hmn : m = n
      · subst hmn
        refine .inr ⟨i, d, ?_⟩
        dsimp only
        rw [update_self]
        rfl
      · obtain hm | ⟨j, e, hj⟩ := h.live m ((update_of_ne hmn _ _).symm.trans hm)
        · exact .inl hm
        · refine .inr ⟨j, e, ?_⟩
          have hji : j ≠ i := by
            rintro rfl
            rw [hpc] at hj
            cases hj
          dsimp only
          rw [update_of_ne hji, hj]
    · intro e he
      have hne := hout e.1 (List.mem_map_of_mem he)
      obtain ⟨h1, h2⟩ := h.data e he
      exact ⟨(update_of_ne hne _ _).trans h1, (update_of_ne hne _ _).trans h2⟩

theorem Inv.load [DecidableEq ι] [Fintype ν] (h : Inv s) (hs : s.step (.load i) = some s') : Inv s' := by
  simp only [St.step] at hs
  split at hs
  case h_2 => cases hs
  case h_1 n d hpc =>
    obtain rfl := (Option.some.inj hs).symm
    exact h.link (by rw [hpc]; rfl) s.head

/-- The node becomes the youngest of the queue. -/
theorem Inv.cas [DecidableEq ι] [Fintype ν] (h : Inv s) {b : Bool} (hs : s.step (.cas i b) = some s') :
    Inv s' := by
  simp only [St.step] at hs
  split at hs
  case h_2 => cases hs
  case h_1 n d hpc =>
    have hi : (s.pc i).held = some (n, d) := by rw [hpc]; rfl
    split at hs
    case isFalse =>
      -- another push came first: the node is linked to the head that was found
      obtain rfl := (Option.some.inj hs).symm
      have hl := h.link hi s.head
      rwa [← hpc, update_eq_self] at hl
    case isTrue hg =>
      obtain rfl := (Option.some.inj hs).symm
      obtain ⟨fresh, old, ho, hc, hw⟩ := h.chain
      obtain ⟨hmem, hlive, hprev, hdata⟩ := h.held i n d hi
      have hold : ∀ {j m e}, (update s.pc i .idle j).held = some (m, e) → j ≠ i ∧
        (s.pc j).held = some (m, e) := by
        intro j m e hj
        by_cases hji : j = i
        · subst hji
          rw [update_self] at hj
          cases hj
        · rw [update_of_ne hji] at hj
          exact ⟨hji, hj⟩
      refine ⟨h.failed, ⟨(n, d) :: fresh, old, by rw [ho]; rfl, ⟨?_, ?_, rfl, ⟨?_, hc.links⟩, hc.tail, hc.oldest,
        hc.backs, ?_⟩, hw⟩, h.cursor, ?_, ?_, ?_, ?_, ?_⟩
      · exact congrArg (n :: ·) hc.order
      · exact List.nodup_cons.2 ⟨hmem, hc.nodup⟩
      · exact hg.1.symm.trans hc.head
      · intro x hx
        rcases List.mem_cons.1 hx with rfl | hx
        · exact hprev
        · exact hc.fresh x hx
      · intro j m e hj
        obtain ⟨hji, hj'⟩ := hold hj
        obtain ⟨h1, h2⟩ := h.held j m e hj'
        refine ⟨fun hm => ?_, h2⟩
        rcases List.mem_cons.1 hm with rfl | hm
        · exact hji (h.distinct j i _ e d hj' hi)
        · exact h1 hm
      · intro j k m e e' hj hk
        exact h.distinct j k m e e' (hold hj).2 (hold hk).2
      · intro m hm
        obtain hm | ⟨j, e, hj⟩ := h.live m hm
        · exact .inl (List.mem_cons_of_mem n hm)
        · by_cases hji : j = i
          · subst hji
            obtain ⟨rfl, -⟩ := Prod.mk.inj (Option.some.inj (hi.symm.trans hj))
            exact .inl List.mem_cons_self
          · refine .inr ⟨j, e, ?_⟩
            dsimp only
            rw [update_of_ne hji, hj]
      · intro e he
        rcases List.mem_cons.1 he with rfl | he
        · exact ⟨hlive, hdata⟩
        · exact h.data e he
      · intro m hm
        exact ⟨List.mem_cons_of_mem n (h.removing m hm).1, (h.removing m hm).2⟩

end Producers

section Consumer

/-- A node has left the queue. -/
theorem Inv.removed (h : Inv s) (hr : Removed s s' n) (hn : n ∈ s.nodes) : Inv s' := by
  obtain ⟨f, o, hc⟩ := hr.chain
  obtain ⟨fresh, old, ho, rfl, rfl⟩ := List.map_eq_append_iff.1 hc.order
  have hsub : ∀ e ∈ s'.order, e ∈ s.order ∧ e.1 ≠ n := by
    intro e he
    rw [hr.order] at he
    obtain ⟨he, hne⟩ := List.mem_filter.1 he
    exact ⟨he, of_decide_eq_true hne⟩
  -- no node comes into the queue
  have hnodes : ∀ m ∈ s'.nodes, m ∈ s.nodes := by
    intro m hm
    obtain ⟨e, he, rfl⟩ := List.mem_map.1 hm
    exact List.mem_map_of_mem (hsub e he).1
  refine ⟨hr.failed.trans h.failed, ⟨fresh, old, ho, hc, fun hw => ?_⟩, fun _ => hr.cursor, ?_, ?_, ?_, ?_, ?_⟩
  · cases hr.walking.symm.trans hw
  · intro i m d hi
    rw [hr.pc] at hi
    obtain ⟨h1, h2, h3, h4⟩ := h.held i m d hi
    have hne : m ≠ n := by
      rintro rfl
      exact h1 hn
    refine ⟨fun hm => h1 (hnodes m hm), ?_, (hr.prev m h1).trans h3, by rw [hr.data, h4]⟩
    rw [hr.live, update_of_ne hne, h2]
  · rw [hr.pc]
    exact h.distinct
  · intro m hm
    rw [hr.live] at hm
    by_cases hmn : m = n
    · subst hmn
      rw [update_self] at hm
      cases hm
    · rw [update_of_ne hmn] at hm
      rw [hr.pc]
      refine (h.live m hm).imp_left fun hmem => ?_
      obtain ⟨e, he, rfl⟩ := List.mem_map.1 hmem
      apply List.mem_map_of_mem
      rw [hr.order]
      exact List.mem_filter.2 ⟨he, decide_eq_true hmn⟩
  · intro e he
    obtain ⟨he, hne⟩ := hsub e he
    rw [hr.live, hr.data, update_of_ne hne]
    exact h.data e he
  · intro m hm
    cases hr.removing.symm.trans hm

theorem Inv.remove_behind [Fintype ν] (h : Inv s) (hn : n ∈ s.nodes) (hh : s.head ≠ some n) :
    ∃ q, ((s.buildReverse s.head).bind fun s' => s'.unlink n) = some q ∧ Removed s q n := by
  obtain ⟨fresh, old, -, hc, -⟩ := h.chain
  exact unlink_behind hc h.live_nodes hn hh

/-- The node is found at `head`, or it is taken out. -/
theorem Inv.remove_cases [DecidableEq ι] [Fintype ν] (h : Inv s) (hs : s.step (.remove n) = some s') :
    n ∈ s.nodes ∧ (s.head = some n ∧ s' = { s with removing := some n, cursor := none, walking := false } ∨
      Removed s s' n) := by
  simp only [St.step] at hs
  obtain ⟨⟨-, hn⟩, hs⟩ := Option.ite_none_right_eq_some.1 hs
  refine ⟨hn, ?_⟩
  split at hs
  case isTrue hh => exact .inl ⟨hh, (Option.some.inj hs).symm⟩
  case isFalse hh =>
    obtain ⟨q, hq, hr⟩ := h.remove_behind hn hh
    rw [hq] at hs
    obtain rfl := Option.some.inj hs
    exact .inr hr

/-- The exchange fails without a reason, or the node is taken out. -/
theorem Inv.removeCas_cases [DecidableEq ι] [Fintype ν] {b : Bool} (h : Inv s)
    (hs : s.step (.removeCas b) = some s') :
    ∃ n, s.removing = some n ∧ n ∈ s.nodes ∧ (b = true ∧ s' = s ∨ Removed s s' n) := by
  simp only [St.step] at hs
  obtain ⟨n, hrm, hs⟩ := Option.bind_eq_some_iff.1 hs
  obtain ⟨hn, -⟩ := h.removing n hrm
  refine ⟨n, hrm, hn, ?_⟩
  obtain ⟨fresh, old, -, hc, -⟩ := h.chain
  split at hs
  case isTrue hh =>
    cases b with
    | true => exact .inl ⟨rfl, (Option.some.inj hs).symm⟩
    | false =>
      obtain ⟨q, hq, hr⟩ := unlink_head hc h.live_nodes hh
      rw [if_neg Bool.false_ne_true, if_pos (h.live_nodes n hn), hq] at hs
      obtain rfl := Option.some.inj hs
      exact .inr hr
  case isFalse hh =>
    obtain ⟨q, hq, hr⟩ := unlink_behind hc h.live_nodes hn hh
    rw [hq] at hs
    obtain rfl := Option.some.inj hs
    exact .inr hr

omit [DecidableEq ν] in
/-- `head` is only found: nothing but the traversal is given up. -/
theorem Inv.found (h : Inv s) (hn : n ∈ s.nodes) :
    Inv { s with removing := some n, cursor := none, walking := false } := by
  obtain ⟨fresh, old, ho, hc, -⟩ := h.chain
  refine ⟨h.failed, ⟨fresh, old, ho, { hc with }, nofun⟩, fun _ => rfl, h.held, h.distinct, h.live, h.data, ?_⟩
  intro m hm
  rw [← Option.some.inj hm]
  exact ⟨hn, rfl⟩

omit [DecidableEq ν] in
/-- The next element is returned. `todo` are those that are left. -/
theorem visit_eq {todo : List (ν × δ)} (h : ∀ e ∈ todo, s.live e.1 = true ∧ s.data e.1 = e.2) :
    s.visit (todo.head?.map Prod.fst) = { s with
      cursor := todo.head?.map Prod.fst
      visited := s.visited ++ todo.head?.toList.map Prod.snd } := by
  cases todo with
  | nil =>
    rw [List.head?_nil, Option.map_none, Option.toList_none, List.map_nil, List.append_nil]
    rfl
  | cons e todo =>
    obtain ⟨hlive, hdata⟩ := h e List.mem_cons_self
    rw [List.head?_cons, Option.map_some, Option.toList_some, List.map_singleton, St.visit, if_pos hlive, hdata]

omit [DecidableEq ν] in
theorem walk_next {all done todo : List (ν × δ)} (hall : all = done ++ todo)
    (hsnap : s.snapshot = all.map Prod.snd) (hcur : s.cursor = todo.head?.map Prod.fst)
    (hvis : s.visited = done.map Prod.snd ++ todo.head?.toList.map Prod.snd) :
    Walk all s := by
  refine ⟨done ++ todo.head?.toList, todo.tail, ?_, hsnap, ?_, ?_, ?_⟩
  · rw [hall, List.append_assoc]
    cases todo <;> rfl
  · rw [hvis, List.map_append]
  · intro n hn
    rw [hcur] at hn
    cases todo with
    | nil => cases hn
    | cons e todo =>
      obtain rfl := Option.some.inj hn
      exact ⟨e.2, List.getLast?_concat⟩
  · intro hn
    rw [hcur] at hn
    cases todo with
    | nil => rfl
    | cons e todo => cases hn

/-- `prs_mpscq_begin` returns the oldest node. -/
theorem Inv.begin [DecidableEq ι] [Fintype ν] (h : Inv s) (hs : s.step .begin = some s') :
    Inv s' ∧ s'.order = s.order ∧ s'.pc = s.pc ∧
    s'.removing = none ∧ s'.reverseHead = s.nodes.getLast? := by
  obtain ⟨fresh, old, ho, hc₀, -⟩ := h.chain
  obtain ⟨prev', hrun, hc, hframe⟩ := buildReverse_spec hc₀ h.live_nodes
  simp only [St.step, hrun] at hs
  obtain ⟨hready, hs⟩ := Option.ite_none_right_eq_some.1 hs
  have hheld : ∀ i n d, (s.pc i).held = some (n, d) →
      n ∉ s.nodes ∧ s.live n = true ∧ prev' n = none ∧ s.data n = d := by
    intro i n d hi
    obtain ⟨h1, h2, h3, h4⟩ := h.held i n d hi
    exact ⟨h1, h2, (hframe n h1).trans h3, h4⟩
  have hrem : ∀ m, s.removing = some m → m ∈ s.nodes ∧ true = false := by
    intro m hm
    cases hready.1.symm.trans hm
  have hhead : (s.backed prev').reverseHead = s.order.reverse.head?.map Prod.fst := by
    rw [List.head?_reverse]
    exact List.getLast?_map
  have hdata : ∀ e ∈ s.order.reverse, s.live e.1 = true ∧ s.data e.1 = e.2 :=
    fun e he => h.data e (List.mem_reverse.1 he)
  have hvisit := visit_eq (s := { s.backed prev' with
    walking := true, snapshot := (s.order.map Prod.snd).reverse, visited := [] }) hdata
  obtain rfl := ((congrArg _ hhead).trans hvisit).symm.trans (Option.some.inj hs)
  refine ⟨⟨h.failed, ⟨[], s.order, rfl, { hc with }, fun _ => ?_⟩, nofun, hheld, h.distinct, h.live, h.data,
    hrem⟩, rfl, rfl, hready.1, rfl⟩
  exact walk_next (List.nil_append _).symm List.map_reverse.symm rfl rfl

/-- `prs_mpscq_next` returns the node that was pushed after the one that the traversal is at. -/
theorem Inv.next [DecidableEq ι] [Fintype ν] (h : Inv s) (hs : s.step .next = some s') : Inv s' := by
  simp only [St.step] at hs
  obtain ⟨-, hs⟩ := Option.ite_none_right_eq_some.1 hs
  obtain ⟨n, hcur, hs⟩ := Option.map_eq_some_iff.1 hs
  obtain ⟨fresh, old, ho, hc, hw⟩ := h.chain
  have hwalk : s.walking = true := by
    by_contra hne
    cases (h.cursor (eq_false_of_ne_true hne)).symm.trans hcur
  obtain ⟨done, todo, hall, hsnap, hvis, hlast, -⟩ := hw hwalk
  obtain ⟨d, hd⟩ := hlast n hcur
  obtain ⟨before, rfl⟩ := List.getLast?_eq_some_iff.1 hd
  -- the back link of the node is that of the list
  have hold : old = todo.reverse ++ (n, d) :: before.reverse := by
    rw [← List.reverse_reverse old, hall]
    simp
  have hprev : s.prev n = todo.head?.map Prod.fst := by
    have hb := hc.backs
    rw [hold, List.map_append, List.map_cons] at hb
    refine hb.prev_eq.trans ?_
    rw [Option.or_none, List.getLast?_map, List.getLast?_reverse]
  have hsub : ∀ e ∈ old, e ∈ s.order := by
    intro e he
    rw [ho]
    exact List.mem_append_right fresh he
  have htodo : ∀ e ∈ todo, s.live e.1 = true ∧ s.data e.1 = e.2 := by
    intro e he
    apply h.data e (hsub e _)
    rw [hold]
    exact List.mem_append_left _ (List.mem_reverse.2 he)
  have hlive : s.live n = true := by
    apply (h.data (n, d) (hsub _ _)).1
    rw [hold]
    exact List.mem_append_right _ List.mem_cons_self
  rw [if_pos hlive, hprev, visit_eq htodo] at hs
  subst hs
  refine ⟨h.failed, ⟨fresh, old, ho, { hc with }, fun _ => ?_⟩, fun hw => ?_, h.held, h.distinct, h.live, h.data,
    h.removing⟩
  · exact walk_next hall hsnap rfl (congrArg (· ++ _) hvis)
  · cases hwalk.symm.trans hw

end Consumer

section Runs

theorem Inv.step [DecidableEq ι] [Fintype ν] {act : Act ι ν δ} (h : Inv s) (hs : s.step act = some s') :
    Inv s' := by
  cases act with
  | push i n d => exact h.push hs
  | load i => exact h.load hs
  | cas i b => exact h.cas hs
  | begin => exact (h.begin hs).1
  | next => exact h.next hs
  | remove n =>
    obtain ⟨hn, ⟨-, rfl⟩ | hr⟩ := h.remove_cases hs
    · exact h.found hn
    · exact h.removed hr hn
  | removeCas b =>
    obtain ⟨n, -, hn, ⟨-, rfl⟩ | hr⟩ := h.removeCas_cases hs
    · exact h
    · exact h.removed hr hn

theorem Inv.of_reachable [DecidableEq ι] [Fintype ν] (h : (sys ι ν δ).Reachable s) : Inv s := by
  refine System.Reachable.inv ?_ (fun _ _ _ h hs => h.step hs) h
  rintro _ ⟨next, prev, data, rfl⟩
  exact inv_init next prev data

/-- **The queue is safe.** In every state of every run, whatever the memory held at first and however its
addresses come back, nothing has failed. The nodes from `head` on are those that were pushed and not removed,
youngest first, each with its element. The allocated nodes are these, and one for each call of
`prs_mpscq_push` that is on its way. A traversal has returned the first elements of the queue as it was when
it began, oldest first, and all of them when it is at its end. -/
theorem queue_safe [DecidableEq ι] [Fintype ν] (h : (sys ι ν δ).Reachable s) :
    s.failed = false ∧ s.nodes.Nodup ∧ s.head = s.nodes.head? ∧ Links s.next s.nodes ∧
      (∀ e ∈ s.order, s.data e.1 = e.2) ∧
      (∀ n, s.live n = true ↔ n ∈ s.nodes ∨ ∃ i d, (s.pc i).held = some (n, d)) ∧
      (s.walking = true → s.visited <+: s.snapshot ∧ (s.cursor = none → s.visited = s.snapshot)) := by
  have hi := Inv.of_reachable h
  obtain ⟨fresh, old, -, hc, hw⟩ := hi.chain
  refine ⟨hi.failed, hc.nodup, hc.head, hc.links, fun e he => (hi.data e he).2, fun n => ⟨hi.live n, ?_⟩,
    fun hwk => ?_⟩
  · rintro (hn | ⟨i, d, hn⟩)
    · exact hi.live_nodes n hn
    · exact (hi.held i n d hn).2.1
  · obtain ⟨done, todo, hall, hsnap, hvis, -, hend⟩ := hw hwk
    rw [hsnap, hvis, hall, List.map_append]
    refine ⟨List.prefix_append .., fun hn => ?_⟩
    rw [hend hn, List.map_nil, List.append_nil]

/-- Two producers race for `head`; a node is freed, and its address comes back for another element. -/
theorem queue_safe_reuse : ∃ s, (sys (Fin 2) (Fin 2) ℕ).Reachable s ∧ s.order = [(0, 7), (1, 6)] ∧
    s.visited = [6, 7] ∧ s.failed = false := by
  obtain ⟨s, hs, ho, hw, hc, hsn⟩ := System.exists_of_check (sys (Fin 2) (Fin 2) ℕ) (fun _ _ => True)
    (fun s => s.order = [(0, 7), (1, 6)] ∧ s.walking = true ∧ s.cursor = none ∧ s.snapshot = [6, 7])
    (.init (fun _ => some 1) (fun _ => some 0) fun _ => 9) ⟨_, _, _, rfl⟩
    [.push 0 0 5, .push 1 1 6, .load 0, .load 1, .cas 0 false, .cas 1 false, .cas 1 true, .cas 1 false, .remove 0,
      .push 0 0 7, .load 0, .cas 0 false, .begin, .next, .next] (by decide +kernel)
  obtain ⟨hf, -, -, -, -, -, hv⟩ := queue_safe hs
  exact ⟨s, hs, ho, (hv hw).2 hc |>.trans hsn, hf⟩

theorem Removed.length (hr : Removed s s' n) (hnd : s.nodes.Nodup) (hn : n ∈ s.nodes) :
    s'.order.length + 1 = s.order.length := by
  have hnodes : s'.nodes = s.nodes.erase n := by
    rw [St.nodes, hr.order]
    exact map_filter_ne s.order n hnd
  have h1 := List.length_erase_of_mem hn
  have h2 := List.length_pos_of_mem hn
  have h3 : s'.nodes.length = s'.order.length := List.length_map _
  have h4 : s.nodes.length = s.order.length := List.length_map _
  rw [hnodes] at h3
  omega

/-- The whole of `prs_mpscq_remove`, while nothing is pushed. -/
theorem Inv.remove_run [DecidableEq ι] [Fintype ν] (h : Inv s) (hready : s.Ready) (hn : n ∈ s.nodes) :
    ∃ q t, s.step (.remove n) = some q ∧
      (if q.removing = none then some q else q.step (.removeCas false)) = some t ∧
      Inv t ∧ t.Ready ∧ t.pc = s.pc ∧ t.order.length + 1 = s.order.length := by
  have hsome : ∃ q, s.step (.remove n) = some q := by
    simp only [St.step, if_pos (show s.Ready ∧ n ∈ s.order.map Prod.fst from ⟨hready, hn⟩)]
    split <;> exact ⟨_, rfl⟩
  obtain ⟨q, hq⟩ := hsome
  have hinv := h.step hq
  obtain ⟨-, ⟨hh, rfl⟩ | hr⟩ := h.remove_cases hq
  · -- `head` is the node, and nobody else changes it
    have hsome : ∃ t,
        St.step { s with removing := some n, cursor := none, walking := false } (.removeCas false) = some t := by
      simp only [St.step, Option.bind_some, hh, if_true, Bool.false_eq_true, if_false]
      split <;> exact ⟨_, rfl⟩
    obtain ⟨t, ht⟩ := hsome
    obtain ⟨m, hm, hmem, ⟨hb, -⟩ | hr⟩ := hinv.removeCas_cases ht
    · cases hb
    · obtain rfl := Option.some.inj hm
      exact ⟨_, t, hq, ht, hinv.step ht, ⟨hr.removing, (hinv.step ht).failed⟩, hr.pc, hr.length h.nodup hmem⟩
  · exact ⟨q, q, hq, if_pos hr.removing, hinv, ⟨hr.removing, hinv.failed⟩, hr.pc, hr.length h.nodup hn⟩

/-- **The queue is destroyed.** While nothing is pushed, `prs_mpscq_destroy` ends, and no node is left. -/
theorem destroy_frees [DecidableEq ι] [Fintype ν] (h : (sys ι ν δ).Reachable s) (hready : s.Ready)
    (hidle : ∀ i, s.pc i = .idle) :
    ∃ t, s.destroy (s.order.length + 1) = some t ∧ t.failed = false ∧ ∀ n, t.live n = false := by
  have hi := Inv.of_reachable h
  clear h
  -- by induction on the number of elements
  generalize hlen : s.order.length = k
  induction k generalizing s with
  | zero =>
    have hnil : s.order = [] := List.length_eq_zero_iff.1 hlen
    have hsome : ∃ q, s.step .begin = some q := by
      simp only [St.step, if_pos hready]
      split <;> exact ⟨_, rfl⟩
    obtain ⟨q, hq⟩ := hsome
    obtain ⟨hinv, ho, hpc, -, hhead⟩ := hi.begin hq
    have hnone : q.reverseHead = none := by
      rw [hhead, St.nodes, hnil]
      rfl
    refine ⟨q, ?_, hinv.failed, fun n => ?_⟩
    · rw [St.destroy, hq]
      dsimp only [Option.bind_eq_bind, Option.bind_some]
      rw [hnone]
      rfl
    · by_contra hlive
      obtain hn | ⟨i, d, hd⟩ := hinv.live n (Bool.eq_true_of_not_eq_false hlive)
      · rw [St.nodes, ho, hnil] at hn
        cases hn
      · rw [hpc, hidle i] at hd
        cases hd
  | succ k ih =>
    have hsome : ∃ q, s.step .begin = some q := by
      simp only [St.step, if_pos hready]
      split <;> exact ⟨_, rfl⟩
    obtain ⟨q, hq⟩ := hsome
    obtain ⟨hinv, ho, hpc, hrem, hhead⟩ := hi.begin hq
    have hne : s.nodes ≠ [] := by
      intro hnil
      rw [List.map_eq_nil_iff.1 hnil] at hlen
      cases hlen
    obtain ⟨n, hn⟩ : ∃ n, s.nodes.getLast? = some n := ⟨_, List.getLast?_eq_some_getLast hne⟩
    have hmem : n ∈ q.nodes := by
      rw [St.nodes, ho]
      exact List.mem_of_getLast? hn
    obtain ⟨r, t, hr, ht, hinv', hready', hpc', hlen'⟩ := hinv.remove_run ⟨hrem, hinv.failed⟩ hmem
    obtain ⟨u, hu, hres⟩ := ih hready' (fun i => by rw [hpc', hpc, hidle i]) hinv' (by rw [ho] at hlen'; omega)
    refine ⟨u, ?_, hres⟩
    rw [St.destroy, hq]
    dsimp only [Option.bind_eq_bind, Option.bind_some]
    rw [hhead, hn]
    dsimp only
    rw [hr]
    dsimp only [Option.bind_some]
    by_cases hrm : r.removing = none
    · rw [if_pos hrm] at ht ⊢
      obtain rfl := Option.some.inj ht
      exact hu
    · rw [if_neg hrm] at ht ⊢
      rw [ht]
      exact hu

/-- A queue with an element that was pushed over a freed node. -/
theorem destroy_frees_reuse : ∃ s t : St (Fin 2) (Fin 2) ℕ, s.order = [(0, 7), (1, 6)] ∧ s.destroy 3 = some t ∧
    t.failed = false ∧ ∀ n, t.live n = false := by
  obtain ⟨s, hs, ho, hrem, hidle⟩ := System.exists_of_check (sys (Fin 2) (Fin 2) ℕ) (fun _ _ => True)
    (fun s => s.order = [(0, 7), (1, 6)] ∧ s.removing = none ∧ ∀ i, s.pc i = .idle)
    (.init (fun _ => some 1) (fun _ => some 0) fun _ => 9) ⟨_, _, _, rfl⟩
    [.push 0 0 5, .push 1 1 6, .load 0, .load 1, .cas 0 false, .cas 1 false, .cas 1 false, .remove 0, .push 0 0 7,
      .load 0, .cas 0 false] (by decide +kernel)
  obtain ⟨t, ht, hres⟩ := destroy_frees hs ⟨hrem, (Inv.of_reachable hs).failed⟩ hidle
  rw [ho] at ht
  exact ⟨s, t, ho, ht, hres⟩

end Runs

end Prs.Mpscq
