import Prs.Proof.MpmcqRefs

/-!
# The queue as a list

A push goes on with a stale id when it could not lock the node of that id. `StaleCasFails` says that the
compare-and-swap with such an id fails. In every run in which it does, the nodes in the order in which they were
linked are the list from the first node through `next`, and `head` splits it: the nodes before it have been
consumed (`Line`).

* `no_element_lost`: in such a run, between calls, every element whose push has returned was returned by a pop or
  is in an unconsumed node that is reached from `head`.
* `element_lost`: without that, a push that was delayed before its last step loses its element.
-/

namespace Prs.Mpmcq

open Function

/-- A compare-and-swap that a push does after it failed to lock the node of the expected id fails: `tail` is not
that id any more in the branch that found no tail, and `next` is not that id any more in the other. -/
def St.StaleCasFails {ι : Type} (s : St ι) : Act ι → Prop
  | .step i =>
    match s.pc i with
    | .casTailNull _ (some t) => s.tail ≠ some t
    | .casNext _ t (some x) => (s.node t).next ≠ some x
    | _ => True
  | _ => True

instance {ι : Type} (s : St ι) (a : Act ι) : Decidable (s.StaleCasFails a) := by
  unfold St.StaleCasFails
  split
  · split <;> infer_instance
  · infer_instance

/-- The node that a pop has found or made consumed. -/
def Pc.seen : Pc → List ℕ
  | .popLoadNext t _ | .popLockNext t _ _ | .casHead t _ _ | .unlockHead t _ _ | .unlockPassed t _
  | .unlockNext t _ | .unlockTest t _ => [t]
  | _ => []

variable {ι : Type} {s s' : St ι} {i : ι}

/-- **The nodes are one list, and `head` is in it.** -/
structure Line (s : St ι) : Prop where
  links : Links (fun m => (s.node m).next) s.order
  tail : s.tail = none → s.order = []
  pred_head : ∀ n ∈ s.order.head?, s.pred n = none
  pred_tail : ∀ n ∈ s.order.tail, s.pred n ≠ none
  edge : ∀ j, ∀ e ∈ (s.pc j).edges, (s.node e.1).next = some e.2
  seen : ∀ j, ∀ m ∈ (s.pc j).seen, (s.node m).consumed = true
  past : ∀ m ∈ s.past, (s.node m).consumed = true
  none_past : s.head = none → s.past = []
  split : ∀ h ∈ s.head, ∃ post, s.order = s.past.reverse ++ h :: post
  done : ∀ n ∈ s.done, n ∈ s.order

theorem Line.goto [DecidableEq ι] (h : Line s) {p : Pc} (he : ∀ e ∈ p.edges, (s.node e.1).next = some e.2)
    (hs : ∀ m ∈ p.seen, (s.node m).consumed = true) : Line (s.goto i p) where
  links := h.links
  tail := h.tail
  pred_head := h.pred_head
  pred_tail := h.pred_tail
  edge := forall_update (P := fun q : Pc => ∀ e ∈ q.edges, (s.node e.1).next = some e.2) h.edge he
  seen := forall_update (P := fun q : Pc => ∀ m ∈ q.seen, (s.node m).consumed = true) h.seen hs
  past := h.past
  none_past := h.none_past
  split := h.split
  done := h.done

/-- `Line` reads neither the directory nor these fields. -/
theorem Line.frame (h : Line s) {pd : Pd} {freed popped released leaked : List ℕ} :
    Line { s with pd := pd, freed := freed, popped := popped, released := released, leaked := leaked } :=
  ⟨h.links, h.tail, h.pred_head, h.pred_tail, h.edge, h.seen, h.past, h.none_past, h.split, h.done⟩

theorem Line.lock [DecidableEq ι] (h : Line s) (n : ℕ) {p q : Pc}
    (hpe : ∀ e ∈ p.edges, (s.node e.1).next = some e.2) (hps : ∀ m ∈ p.seen, (s.node m).consumed = true)
    (hqe : ∀ e ∈ q.edges, (s.node e.1).next = some e.2) (hqs : ∀ m ∈ q.seen, (s.node m).consumed = true) :
    Line (s.lock i n p q) := by
  unfold St.lock
  split
  · exact h.frame.goto hpe hps
  · exact h.goto hqe hqs

theorem Line.tail_cas (h : Line s) {t : Option ℕ} {x : ℕ} :
    Line { s with tail := if s.tail = t then some x else s.tail } where
  links := h.links
  tail ht := by
    simp only at ht
    split at ht
    · cases ht
    · exact h.tail ht
  pred_head := h.pred_head
  pred_tail := h.pred_tail
  edge := h.edge
  seen := h.seen
  past := h.past
  none_past := h.none_past
  split := h.split
  done := h.done

theorem Line.finish (h : Line s) {n : ℕ} (hn : n ∈ s.order) : Line { s with done := n :: s.done } where
  links := h.links
  tail := h.tail
  pred_head := h.pred_head
  pred_tail := h.pred_tail
  edge := h.edge
  seen := h.seen
  past := h.past
  none_past := h.none_past
  split := h.split
  done m hm := by
    rcases List.mem_cons.1 hm with rfl | hm
    · exact hn
    · exact h.done m hm

theorem next_consume (s : St ι) (t m : ℕ) :
    (update s.node t { s.node t with consumed := true } m).next = (s.node m).next := by
  by_cases hm : m = t
  · subst hm; rw [update_self]
  · rw [update_of_ne hm]

theorem consumed_consume {t m : ℕ} (h : (s.node m).consumed = true) :
    (update s.node t { s.node t with consumed := true } m).consumed = true := by
  by_cases hm : m = t
  · subst hm; rw [update_self]
  · rwa [update_of_ne hm]

theorem Line.consume (h : Line s) (t : ℕ) :
    Line { s with node := update s.node t { s.node t with consumed := true } } where
  links := h.links.congr fun a _ => next_consume s t a
  tail := h.tail
  pred_head := h.pred_head
  pred_tail := h.pred_tail
  edge j e he := (next_consume s t e.1).trans (h.edge j e he)
  seen j m hm := consumed_consume (h.seen j m hm)
  past m hm := consumed_consume (h.past m hm)
  none_past := h.none_past
  split := h.split
  done := h.done

theorem order_nodup [Fintype ι] (hi : Ids s) : s.order.Nodup := by
  refine List.nodup_iff_count_le_one.2 fun m => ?_
  have h1 := hi.own m
  have h2 : (s.pd.used m).toNat ≤ 1 := Bool.toNat_le _
  omega

/-- A node is linked behind a node that had no link. -/
theorem Line.link_next [Fintype ι] (h : Line s) (hi : Ids s) {n t : ℕ} (hn : n ∉ s.order) (ht : t ∈ s.order)
    (hnext : (s.node t).next = none) :
    Line { s with
      node := update s.node t { s.node t with next := some n }
      order := s.order ++ [n]
      pred := update s.pred n (some t) } := by
  obtain ⟨pre, hpre⟩ : ∃ pre, s.order = pre ++ [t] := List.getLast?_eq_some_iff.1 (h.links.eq_getLast ht hnext)
  have hnt : n ≠ t := by rintro rfl; exact hn ht
  have hnode : (fun m => (update s.node t { s.node t with next := some n } m).next) =
      update (fun m => (s.node m).next) t (some n) := by
    funext m
    by_cases hm : m = t
    · subst hm; simp
    · simp [update_of_ne hm]
  have hcons : ∀ m, (update s.node t { s.node t with next := some n } m).consumed = (s.node m).consumed := by
    intro m
    by_cases hm : m = t
    · subst hm; simp
    · simp [update_of_ne hm]
  have hne : s.order ≠ [] := by rw [hpre]; simp
  refine ⟨?_, fun ht => absurd (h.tail ht) hne, ?_, ?_, fun j e he => ?_, ?_, ?_, h.none_past, ?_, ?_⟩
  · show Links (fun m => (update s.node t { s.node t with next := some n } m).next) (s.order ++ [n])
    rw [hnode, hpre, List.append_assoc]
    have hnd := order_nodup hi
    rw [hpre, List.nodup_append] at hnd
    have htpre : t ∉ pre := fun hm => hnd.2.2 t hm t (by simp) rfl
    exact (hpre ▸ h.links).snoc htpre hnt (hi.fresh n hn).1
  · intro m hm
    rw [List.head?_append_of_ne_nil _ hne] at hm
    have hmn : m ≠ n := fun he => hn (he ▸ List.mem_of_mem_head? hm)
    simp only [update_of_ne hmn]; exact h.pred_head m hm
  · intro m hm
    rw [List.tail_append_of_ne_nil hne, List.mem_append, List.mem_singleton] at hm
    show update s.pred n (some t) m ≠ none
    by_cases hmn : m = n
    · subst hmn; simp
    · rw [update_of_ne hmn]; exact h.pred_tail m (hm.resolve_right hmn)
  · have h1 := h.edge j e he
    have hne' : e.1 ≠ t := by
      intro he'; rw [he', hnext] at h1; cases h1
    simp only [update_of_ne hne']; exact h1
  · intro j m hm; exact (hcons m).trans (h.seen j m hm)
  · intro m hm; exact (hcons m).trans (h.past m hm)
  · intro x hx
    obtain ⟨post, hpost⟩ := h.split x hx
    exact ⟨post ++ [n], by rw [hpost]; simp⟩
  · intro m hm; exact List.mem_append_left _ (h.done m hm)

/-- The first node. -/
theorem Line.link_tail [Fintype ι] (h : Line s) (hi : Ids s) (hh : Heads s) {n : ℕ} (hn : n ∉ s.order)
    (ht : s.tail = none) :
    Line { s with tail := some n, order := s.order ++ [n] } := by
  have ho := h.tail ht
  refine ⟨?_, fun h' => (by cases h'), ?_, ?_, h.edge, h.seen, h.past, h.none_past, ?_, ?_⟩
  · show Links _ (s.order ++ [n])
    rw [ho]; exact ⟨(hi.fresh n hn).1, trivial⟩
  · simp only [ho, List.nil_append, List.head?_cons, Option.mem_some_iff, forall_eq']
    exact (not_entered (hh.entered_of_not_mem hn)).1
  · simp [ho]
  · intro x hx
    obtain ⟨post, hpost⟩ := h.split x hx
    rw [ho] at hpost
    simp at hpost
  · intro m hm; exact List.mem_append_left _ (h.done m hm)

/-- The store of `head` finds no `head`, since only the push of the first node gets there. -/
theorem Line.store_head [Fintype ι] (h : Line s) (hi : Ids s) (hh : Heads s) {n : ℕ}
    (hp : s.pc i = .storeHead n) :
    s.head = none ∧ Line { s with head := some n, past := s.head.toList ++ s.past } := by
  have hno : n ∈ s.order := hi.known i n (by rw [hp]; simp [Pc.known])
  have hst := hh.store n
  have hle := count_le_tally Pc.storing s.pc i n
  have hcount := List.nodup_iff_count_le_one.1 (order_nodup hi) n
  rw [hp] at hle
  simp only [Pc.storing, List.count_singleton_self] at hle
  have hent : s.entered n = false := by
    cases hb : s.entered n
    · rfl
    · rw [hb, Bool.toNat_true] at hst; omega
  obtain ⟨hpred, hhead, hpast⟩ := not_entered hent
  -- it is the first node, because every other one has a predecessor
  obtain ⟨rest, hrest⟩ : ∃ rest, s.order = n :: rest := by
    cases ho : s.order with
    | nil => rw [ho] at hno; cases hno
    | cons a rest =>
      rw [ho] at hno
      rcases List.mem_cons.1 hno with rfl | hm
      · exact ⟨rest, rfl⟩
      · exact absurd hpred (h.pred_tail n (by rw [ho]; exact hm))
  have hnone : s.head = none := by
    cases hx : s.head with
    | none => rfl
    | some x =>
      obtain ⟨post, hpost⟩ := h.split x hx
      rw [hrest] at hpost
      cases hr : s.past.reverse with
      | nil => rw [hr] at hpost; simp at hpost; rw [hx, hpost.1] at hhead; exact absurd rfl hhead
      | cons b l =>
        rw [hr] at hpost
        simp at hpost
        have : n ∈ s.past.reverse := by rw [hr, hpost.1]; exact List.mem_cons_self
        exact absurd (List.mem_reverse.1 this) hpast
  refine ⟨hnone, ?_⟩
  have hpe := h.none_past hnone
  refine ⟨h.links, h.tail, h.pred_head, h.pred_tail, h.edge, h.seen, ?_, fun h' => (by cases h'), ?_, h.done⟩
  · simp [hnone, hpe]
  · intro x hx
    obtain rfl := Option.some.inj hx
    exact ⟨rest, by simp [hnone, hpe, hrest]⟩

/-- `head` moves from a consumed node to the next one. -/
theorem Line.cas_head (h : Line s) {t x : ℕ} (ht : s.head = some t) (hc : (s.node t).consumed = true)
    (hx : (s.node t).next = some x) : Line { s with head := some x, past := t :: s.past } := by
  obtain ⟨post, hpost⟩ := h.split t ht
  have hl := h.links
  rw [hpost] at hl
  obtain ⟨post', rfl⟩ := hl.next_split hx
  refine ⟨h.links, h.tail, h.pred_head, h.pred_tail, h.edge, h.seen, ?_, fun h' => (by cases h'), ?_, h.done⟩
  · intro m hm
    rcases List.mem_cons.1 hm with rfl | hm
    · exact hc
    · exact h.past m hm
  · intro y hy
    obtain rfl := Option.some.inj hy
    exact ⟨post', by rw [hpost]; simp⟩

theorem stepThread_line [Fintype ι] [DecidableEq ι] (hI : Inv s) (h : Line s) (hok : s.StaleCasFails (.step i))
    (hs : s.stepThread i = some s') : Line s' := by
  have hk := hI.ids.known i
  have he := h.edge i
  have hsn := h.seen i
  simp only [St.StaleCasFails] at hok
  unfold St.stepThread at hs
  split at hs <;> rename_i hpc <;> rw [hpc] at hk he hsn hok
  case h_10 n t x =>
    -- `casNext`: only a node without a link is linked
    split at hs <;> obtain rfl := Option.some.inj hs
    · rename_i hx
      cases x with
      | some x => exact absurd hx hok
      | none =>
        have hn := not_mem_of_mine hI.ids (i := i) (n := n) (by rw [hpc]; simp [Pc.mine])
        exact (h.link_next hI.ids hn (hk t (by simp [Pc.known])) hx).goto (by simp [Pc.edges])
          (by simp [Pc.seen])
    · exact h.goto (by simp [Pc.edges]) (by simp [Pc.seen])
  case h_14 n t =>
    -- `casTailNull`: only the first node becomes the tail this way
    split at hs <;> obtain rfl := Option.some.inj hs
    · rename_i hx
      cases t with
      | some t => exact absurd hx hok
      | none =>
        have hn := not_mem_of_mine hI.ids (i := i) (n := n) (by rw [hpc]; simp [Pc.mine])
        exact (h.link_tail hI.ids hI.heads hn hx).goto (by simp [Pc.edges]) (by simp [Pc.seen])
    · exact h.goto (by simp [Pc.edges]) (by simp [Pc.seen])
  case h_13 n t =>
    -- `casTail`
    obtain rfl := Option.some.inj hs
    exact (h.tail_cas.finish (hk n (by simp [Pc.known]))).goto (by simp [Pc.edges]) (by simp [Pc.seen])
  case h_15 n =>
    -- `storeHead`
    obtain rfl := Option.some.inj hs
    exact ((h.store_head hI.ids hI.heads hpc).2.finish (hk n (by simp [Pc.known]))).goto (by simp [Pc.edges])
      (by simp [Pc.seen])
  case h_21 t =>
    -- `exchange`
    obtain rfl := Option.some.inj hs
    exact (h.consume t).goto (by simp [Pc.edges]) (by simp [Pc.seen])
  case h_22 t c =>
    -- `popLoadNext`
    obtain rfl := Option.some.inj hs
    refine h.goto (fun e he => ?_) (by simpa [Pc.seen] using hsn)
    cases hx : (s.node t).next with
    | none => rw [hx] at he; cases he
    | some x =>
      rw [hx] at he
      obtain rfl := List.mem_singleton.1 he
      exact hx
  case h_25 t c x =>
    -- `casHead`
    split at hs <;> obtain rfl := Option.some.inj hs
    · rename_i ht
      have hx : (s.node t).next = some x := he (t, x) (by simp [Pc.edges])
      exact (h.cas_head ht (hsn t (by simp [Pc.seen])) hx).goto (by simp [Pc.edges])
        (by simpa [Pc.seen] using hsn)
    · cases c <;> exact h.goto (by simp [Pc.edges]) (by simpa [Pc.seen] using hsn)
  case h_26 t c x =>
    obtain rfl := Option.some.inj hs
    cases c <;> exact h.frame.goto (by simp [Pc.edges]) (by simpa [Pc.seen] using hsn)
  case h_19 p =>
    split at hs <;> obtain rfl := Option.some.inj hs <;>
      exact h.goto (by simp [Pc.edges, afterHead]) (by simp [Pc.seen, afterHead])
  case h_20 p t =>
    split at hs
    · split at hs <;> obtain rfl := Option.some.inj hs
      · exact h.frame.goto (by simp [Pc.edges]) (by simp [Pc.seen])
      · exact h.goto (by simp [Pc.edges]) (by simp [Pc.seen])
    · obtain rfl := Option.some.inj hs
      exact h.lock t (by simp [Pc.edges, afterHead]) (by simp [Pc.seen, afterHead])
        (by simp [Pc.edges, afterHead]) (by simp [Pc.seen, afterHead])
  case h_24 t c x =>
    obtain rfl := Option.some.inj hs
    exact h.lock x he hsn (by simp [Pc.edges]) hsn
  all_goals first | cases hs; done | obtain rfl := Option.some.inj hs
  -- the other steps read `head`, `tail` or `next`, or lock or unlock a node
  all_goals
    first
    | exact h.frame.goto (by simp [Pc.edges, afterHead]) hsn
    | exact h.frame.goto (by simp [Pc.edges]) (by simp [Pc.seen])
    | exact h.tail_cas.goto (by simp [Pc.edges]) (by simp [Pc.seen])
    | exact h.lock _ (by simp [Pc.edges, afterHead]) (by simp [Pc.seen, afterHead])
        (by simp [Pc.edges, afterHead]) (by simp [Pc.seen, afterHead])

theorem line_init : Line (St.init : St ι) where
  links := trivial
  tail _ := rfl
  pred_head := by simp [St.init]
  pred_tail := by simp [St.init]
  edge := by simp [St.init, Pc.edges]
  seen := by simp [St.init, Pc.seen]
  past := by simp [St.init]
  none_past _ := rfl
  split := by simp [St.init]
  done := by simp [St.init]

/-- The new node of a push is not in the list. -/
theorem Line.alloc [Fintype ι] [DecidableEq ι] (hI : Inv s) (h : Line s) {data n : ℕ}
    (hs : s.alloc i data n = some s') : Line s' := by
  unfold St.alloc Pd.alloc at hs
  split at hs
  · cases hs
  rename_i hn
  obtain rfl := Option.some.inj hs
  obtain ⟨ho, -, -, hc⟩ := hI.unused (Bool.not_eq_true _ ▸ hn)
  have hnext : ∀ m, (update s.node n ⟨none, false, data⟩ m).next = (s.node m).next := by
    intro m
    by_cases hm : m = n
    · subst hm; rw [update_self]; exact (hI.ids.fresh m ho).1.symm
    · rw [update_of_ne hm]
  have hcons : ∀ m, (update s.node n ⟨none, false, data⟩ m).consumed = (s.node m).consumed := by
    intro m
    by_cases hm : m = n
    · subst hm; rw [update_self]; exact hc.symm
    · rw [update_of_ne hm]
  have h1 : Line { s with node := update s.node n ⟨none, false, data⟩ } :=
    ⟨h.links.congr fun a _ => hnext a, h.tail, h.pred_head, h.pred_tail,
      fun j e he => (hnext e.1).trans (h.edge j e he), fun j m hm => (hcons m).trans (h.seen j m hm),
      fun m hm => (hcons m).trans (h.past m hm), h.none_past, h.split, h.done⟩
  exact h1.frame.goto (by simp [Pc.edges]) (by simp [Pc.seen])

theorem step_line [Fintype ι] [DecidableEq ι] {a : Act ι} (hI : Inv s) (h : Line s) (hok : s.StaleCasFails a)
    (hs : s.step a = some s') :
    Line s' := by
  cases a with
  | push i data id =>
    simp only [St.step] at hs
    split at hs
    · exact h.alloc hI hs
    · cases hs
  | pushFail i =>
    simp only [St.step] at hs
    split at hs
    · exact Option.some.inj hs ▸ h
    · cases hs
  | pop i =>
    simp only [St.step] at hs
    split at hs
    · exact Option.some.inj hs ▸ h.goto (by simp [Pc.edges]) (by simp [Pc.seen])
    · cases hs
  | step i => exact stepThread_line hI h hok hs

theorem reach_line [Fintype ι] [DecidableEq ι] (h : (sys ι).Reach St.StaleCasFails s) : Inv s ∧ Line s := by
  refine h.inv (I := fun s => Inv s ∧ Line s) (fun _ h => h ▸ ⟨inv_init, line_init⟩) ?_
  rintro s a s' ⟨hI, hL⟩ hok hs
  exact ⟨step_inv hI hs, step_line hI hL hok hs⟩

/-- Between calls `head` has been stored. -/
theorem Line.head_of_quiet [Fintype ι] (hI : Inv s) (h : Line s) (hq : s.Quiet) {n : ℕ} (hn : n ∈ s.order) :
    ∃ x, s.head = some x := by
  cases hx : s.head with
  | some x => exact ⟨x, rfl⟩
  | none =>
    obtain ⟨a, rest, ho⟩ : ∃ a rest, s.order = a :: rest := List.exists_cons_of_ne_nil (List.ne_nil_of_mem hn)
    have h0 : tally Pc.storing s.pc a = 0 := tally_eq_zero fun j => by rw [hq j]; simp [Pc.storing]
    have h1 := hI.heads.store a
    have h2 : s.entered a = false := by
      simp [St.entered, hx, h.none_past hx, h.pred_head a (by rw [ho]; rfl)]
    rw [h0, h2, ho, List.count_cons_self] at h1
    simp at h1

/-- Between calls, an element of the list has been returned or waits behind `head`. -/
theorem Line.returned_or_linked [Fintype ι] (hI : Inv s) (h : Line s) (hq : s.Quiet) {n : ℕ} (hn : n ∈ s.order) :
    n ∈ s.popped ∨ (s.Linked n ∧ (s.node n).consumed = false) := by
  -- a consumed node has been returned, since no pop is in progress
  have hpop : (s.node n).consumed = true → n ∈ s.popped := by
    intro hc
    have h1 := hI.wins n
    have h0 : tally Pc.winning s.pc n = 0 := tally_eq_zero fun j => by rw [hq j]; simp [Pc.winning]
    rw [h0, hc, Bool.toNat_true] at h1
    exact List.count_pos_iff.1 (by omega)
  obtain ⟨x, hx⟩ := h.head_of_quiet hI hq hn
  obtain ⟨post, hpost⟩ := h.split x hx
  rw [hpost] at hn
  rcases List.mem_append.1 hn with hn | hn
  · exact Or.inl (hpop (h.past n (List.mem_reverse.1 hn)))
  · cases hc : (s.node n).consumed with
    | true => exact Or.inl (hpop hc)
    | false => exact Or.inr ⟨(hpost ▸ h.links).linked (.head hx) hn, rfl⟩

/-- **No element is lost while every stale compare-and-swap fails.** In every run in which it does, in every state
where no call is in progress, every element whose push has returned `PRS_OK` has been returned by a pop or belongs
to an unconsumed node that is reached from `head` through `next`. -/
theorem no_element_lost [Fintype ι] [DecidableEq ι] (h : (sys ι).Reach St.StaleCasFails s) (hq : s.Quiet) :
    ∀ n ∈ s.done, n ∈ s.popped ∨ (s.Linked n ∧ (s.node n).consumed = false) := by
  intro n hn
  obtain ⟨hI, hL⟩ := reach_line h
  exact hL.returned_or_linked hI hq (hL.done n hn)

instance (s : St (Fin 3)) : Decidable s.Quiet := inferInstanceAs (Decidable (∀ i, s.pc i = .idle))

/-- Two pushes and a pop: the second element waits behind `head`. -/
theorem no_element_lost_pop : ∃ s : St (Fin 3), ((sys (Fin 3)).Reach St.StaleCasFails s ∧ s.Quiet) ∧
    (s.done = [2, 1] ∧ s.popped = [1]) ∧
    ∀ n ∈ s.done, n ∈ s.popped ∨ (s.Linked n ∧ (s.node n).consumed = false) := by
  obtain ⟨s, hs, hq, hp⟩ := System.exists_of_check (sys (Fin 3)) St.StaleCasFails
    (fun s => s.Quiet ∧ s.done = [2, 1] ∧ s.popped = [1]) .init rfl
    (List.flatten [.push 0 10 1 :: List.replicate 4 (.step 0), .push 0 20 2 :: List.replicate 7 (.step 0),
      .pop 0 :: List.replicate 9 (.step 0)]) (by decide +kernel)
  exact ⟨s, ⟨hs, hq⟩, hp, no_element_lost hs hq⟩

/-- The second push has linked node 2 and is delayed before it moves `tail`. A pop takes node 1 and frees it,
so the third push cannot lock the node at `tail`, takes the queue to be empty and stores its own node in
`head`. -/
theorem element_lost : ∃ s : St (Fin 3), (sys (Fin 3)).Reachable s ∧ s.Quiet ∧
    ¬ ∀ n ∈ s.done, n ∈ s.popped ∨ (s.Linked n ∧ (s.node n).consumed = false) := by
  obtain ⟨s, hs, hq, hd, hp, hh, hn⟩ := System.exists_of_check (sys (Fin 3)) (fun _ _ => True)
    (fun s => s.Quiet ∧ 2 ∈ s.done ∧ s.popped = [1] ∧ s.head = some 3 ∧ (s.node 3).next = none) .init rfl
    (List.flatten [.push 0 10 1 :: List.replicate 4 (.step 0), .push 0 20 2 :: List.replicate 6 (.step 0),
      .pop 1 :: List.replicate 9 (.step 1), .push 2 30 3 :: List.replicate 4 (.step 2), [.step 0]])
        (by decide +kernel)
  refine ⟨s, hs, hq, fun h => ?_⟩
  -- node 3 is the only one that `head` reaches
  have hl : ∀ m, s.Linked m → m = 3 := by
    intro m hm
    induction hm with
    | head h' => rw [hh] at h'; exact (Option.some.inj h').symm
    | next _ h' ih => subst ih; rw [hn] at h'; cases h'
  rcases h 2 hd with h | h
  · rw [hp] at h; exact absurd h (by decide)
  · exact absurd (hl 2 h.1) (by decide)

end Prs.Mpmcq
