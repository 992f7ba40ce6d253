import Prs.Lib.Threads
import Prs.Model.Mpmcq

/-!
# Queue nodes and their references

What every step of a multi-producer multi-consumer queue keeps, whoever pushes and pops.

* `Ids`: an id that the queue or a call has read is that of a linked node.
* `Heads`: `head` comes to each node once, so that the queue gives up its reference to the node once.
* `Wins`: a node has one pop that consumes it.
* `Refs`: the count of a node is the number of the references to it.
* `at_most_once_and_lock_safe`: so no element is returned twice, and no node is freed while a call holds it.
-/

namespace Prs.Mpmcq

open Function

/-- The node of a push that is not linked yet. -/
def Pc.mine : Pc → List ℕ
  | .loadTail n | .lockTail n _ | .loadNext n _ | .lockNext n _ _ | .advTail n _ _ | .unlockOld n _ _
  | .casNext n _ _ | .unlockRetry n _ | .casTailNull n _ => [n]
  | _ => []

/-- The linked nodes whose ids a call has read. -/
def Pc.known : Pc → List ℕ
  | .lockTail _ t | .casTailNull _ t => t.toList
  | .loadNext _ t | .unlockRetry _ t => [t]
  | .lockNext _ t x | .casNext _ t x => t :: x.toList
  | .advTail _ t x | .unlockOld _ t x => [t, x]
  | .unlockLinked n t | .casTail n t => [n, t]
  | .storeHead n => [n]
  | .loadHead p => (p.getD none).toList
  | .lockHead p t => (p.getD none).toList ++ t.toList
  | .exchange t | .popLoadNext t _ | .unlockTest t _ => [t]
  | .popLockNext t _ x => t :: x.toList
  | .casHead t _ x | .unlockHead t _ x | .unlockPassed t x | .unlockNext t x => [t, x]
  | _ => []

variable {ι : Type} [Fintype ι] {s s' : St ι} {i : ι}

/-- **Who names a node.** Every id that the queue or a call has read is that of a linked node, and a node that has
been allocated is either linked, once, or is the new node of exactly one push. -/
structure Ids (s : St ι) : Prop where
  known : ∀ j, ∀ m ∈ (s.pc j).known, m ∈ s.order
  head : ∀ h ∈ s.head, h ∈ s.order
  tail : ∀ t ∈ s.tail, t ∈ s.order
  next : ∀ t, ∀ x ∈ (s.node t).next, x ∈ s.order
  own : ∀ n, s.order.count n + tally Pc.mine s.pc n = (s.pd.used n).toNat
  fresh : ∀ n, n ∉ s.order → (s.node n).next = none ∧ (s.node n).consumed = false

/-- A step of thread `i` that changes no link. -/
theorem Ids.goto [DecidableEq ι] (h : Ids s) {p : Pc} (hk : ∀ m ∈ p.known, m ∈ s.order)
    (hm : p.mine = (s.pc i).mine) : Ids (s.goto i p) where
  known := forall_update (P := fun q : Pc => ∀ m ∈ q.known, m ∈ s.order) h.known hk
  head := h.head
  tail := h.tail
  next := h.next
  own n := by
    show s.order.count n + tally Pc.mine (update s.pc i p) n = (s.pd.used n).toNat
    rw [tally_congr hm]; exact h.own n
  fresh := h.fresh

theorem Ids.unlock (h : Ids s) (n : ℕ) : Ids (s.unlock n) :=
  ⟨h.known, h.head, h.tail, h.next, h.own, h.fresh⟩

/-- `Ids` does not read the history. -/
theorem Ids.history (h : Ids s) {past done popped released leaked : List ℕ} :
    Ids { s with past := past, done := done, popped := popped, released := released, leaked := leaked } :=
  ⟨h.known, h.head, h.tail, h.next, h.own, h.fresh⟩

theorem Ids.pd (h : Ids s) {pd : Pd} (hu : pd.used = s.pd.used) : Ids { s with pd := pd } :=
  ⟨h.known, h.head, h.tail, h.next, fun n => by simp only [hu]; exact h.own n, h.fresh⟩

theorem Pd.lock_some {pd pd' : Pd} {n : ℕ} (h : pd.lock n = some pd') :
    pd.refcnt n ≠ 0 ∧ pd.refcnt n ≠ Pd.refcntMax ∧
      pd' = { pd with refcnt := update pd.refcnt n (pd.refcnt n + 1) } := by
  unfold Pd.lock at h
  split at h
  · cases h
  · rename_i hn
    rw [not_or] at hn
    exact ⟨hn.1, hn.2, (Option.some.inj h).symm⟩

theorem Ids.lock [DecidableEq ι] (h : Ids s) (n : ℕ) {p q : Pc} (hp : ∀ m ∈ p.known, m ∈ s.order)
    (hq : ∀ m ∈ q.known, m ∈ s.order) (hpm : p.mine = (s.pc i).mine) (hqm : q.mine = (s.pc i).mine) :
    Ids (s.lock i n p q) := by
  unfold St.lock
  split
  · rename_i pd hl
    have hu : pd.used = s.pd.used := by rw [(Pd.lock_some hl).2.2]
    exact (h.pd hu).goto hp hpm
  · exact h.goto hq hqm

theorem Ids.tail_cas (h : Ids s) {t : Option ℕ} {x : ℕ} (hx : x ∈ s.order) :
    Ids { s with tail := if s.tail = t then some x else s.tail } where
  known := h.known
  head := h.head
  tail y hy := by
    simp only at hy
    split at hy
    · cases hy; exact hx
    · exact h.tail y hy
  next := h.next
  own := h.own
  fresh := h.fresh

theorem Ids.setHead (h : Ids s) {x : ℕ} (hx : x ∈ s.order) : Ids { s with head := some x } :=
  ⟨h.known, by simpa using hx, h.tail, h.next, h.own, h.fresh⟩

theorem Ids.consume (h : Ids s) {t : ℕ} (ht : t ∈ s.order) :
    Ids { s with node := update s.node t { s.node t with consumed := true } } where
  known := h.known
  head := h.head
  tail := h.tail
  next u x hx := by
    by_cases hu : u = t
    · subst hu; simp only [update_self] at hx; exact h.next u x hx
    · simp only [update_of_ne hu] at hx; exact h.next u x hx
  own := h.own
  fresh m hm := by
    have hne : m ≠ t := fun he => hm (he ▸ ht)
    simp only [update_of_ne hne]; exact h.fresh m hm

/-- The new node of a push is linked. -/
theorem Ids.link [DecidableEq ι] (h : Ids s) {n : ℕ} (hn : (s.pc i).mine = [n]) {p : Pc} (hp : p.mine = [])
    {node : ℕ → Node} {pred : ℕ → Option ℕ} {tail : Option ℕ}
    (hk : ∀ m ∈ p.known, m ∈ s.order ++ [n])
    (ht : ∀ t ∈ tail, t ∈ s.order ++ [n])
    (hnext : ∀ t, ∀ x ∈ (node t).next, x ∈ s.order ++ [n])
    (hnode : ∀ m, m ∉ s.order → node m = s.node m) :
    Ids ({ s with node := node, order := s.order ++ [n], pred := pred, tail := tail }.goto i p) where
  known := forall_update (P := fun q : Pc => ∀ m ∈ q.known, m ∈ s.order ++ [n])
    (fun j m hm => List.mem_append_left _ (h.known j m hm)) hk
  head x hx := List.mem_append_left _ (h.head x hx)
  tail := ht
  next := hnext
  own m := by
    have h1 := tally_update Pc.mine s.pc i p m
    have h2 := h.own m
    rw [hp, hn] at h1
    simp only [St.goto, List.count_append, List.count_nil] at h1 ⊢
    omega
  fresh m hm := by
    have hm' : m ∉ s.order := fun h' => hm (List.mem_append_left _ h')
    simp only [St.goto, hnode m hm']
    exact h.fresh m hm'

theorem stepThread_ids [DecidableEq ι] (h : Ids s) (hs : s.stepThread i = some s') : Ids s' := by
  have hk := h.known i
  unfold St.stepThread at hs
  split at hs <;> rename_i hpc <;> rw [hpc] at hk <;>
    simp only [Pc.known, List.mem_cons, List.mem_append, List.not_mem_nil, or_false, forall_eq_or_imp, forall_eq,
      Option.mem_toList] at hk
  · cases hs
  · -- `loadTail`
    obtain rfl := Option.some.inj hs
    exact h.goto (by simpa [Pc.known] using h.tail) (by rw [hpc]; rfl)
  · obtain rfl := Option.some.inj hs
    exact h.goto (by simp [Pc.known]) (by rw [hpc]; rfl)
  · obtain rfl := Option.some.inj hs
    exact h.lock _ (by simpa [Pc.known] using hk) (by simpa [Pc.known] using hk) (by rw [hpc]; rfl)
      (by rw [hpc]; rfl)
  · -- `loadNext`
    obtain rfl := Option.some.inj hs
    exact h.goto (by simpa [Pc.known] using ⟨hk, h.next _⟩) (by rw [hpc]; rfl)
  · obtain rfl := Option.some.inj hs
    exact h.goto (by simpa [Pc.known] using hk) (by rw [hpc]; rfl)
  · obtain rfl := Option.some.inj hs
    exact h.lock _ (by simpa [Pc.known] using hk) (by simpa [Pc.known] using hk) (by rw [hpc]; rfl)
      (by rw [hpc]; rfl)
  · -- `advTail`
    obtain rfl := Option.some.inj hs
    exact (h.tail_cas hk.2).goto (by simpa [Pc.known] using hk) (by rw [hpc]; rfl)
  · obtain rfl := Option.some.inj hs
    exact (h.unlock _).goto (by simpa [Pc.known] using hk.2) (by simp only [St.unlock, hpc]; rfl)
  · -- `casNext`
    rename_i n t x
    split at hs
    · obtain rfl := Option.some.inj hs
      refine h.link (n := n) (by rw [hpc]; rfl) rfl ?_ (fun y hy => List.mem_append_left _ (h.tail y hy)) ?_ ?_
      · simp [Pc.known, hk.1]
      · intro u y hy
        by_cases hu : u = t
        · subst hu; rw [update_self] at hy; simp at hy; simp [hy]
        · rw [update_of_ne hu] at hy; exact List.mem_append_left _ (h.next u y hy)
      · intro m hm
        rw [update_of_ne]
        intro he; exact hm (he ▸ hk.1)
    · obtain rfl := Option.some.inj hs
      exact h.goto (by simp [Pc.known, hk.1]) (by rw [hpc]; rfl)
  · obtain rfl := Option.some.inj hs
    exact (h.unlock _).goto (by simp [Pc.known]) (by simp only [St.unlock, hpc]; rfl)
  · obtain rfl := Option.some.inj hs
    exact (h.unlock _).goto (by simpa [Pc.known] using hk) (by simp only [St.unlock, hpc]; rfl)
  · -- `casTail`
    obtain rfl := Option.some.inj hs
    exact ((h.tail_cas hk.1).history).goto (by simp [Pc.known]) (by rw [hpc]; rfl)
  · -- `casTailNull`
    rename_i n t
    split at hs
    · obtain rfl := Option.some.inj hs
      refine h.link (n := n) (by rw [hpc]; rfl) rfl (by simp [Pc.known]) (by simp) ?_ (fun _ _ => rfl)
      exact fun u y hy => List.mem_append_left _ (h.next u y hy)
    · obtain rfl := Option.some.inj hs
      exact h.goto (by simp [Pc.known]) (by rw [hpc]; rfl)
  · -- `storeHead`
    obtain rfl := Option.some.inj hs
    exact ((h.setHead hk).history).goto (by simp [Pc.known]) (by rw [hpc]; rfl)
  · -- `loadHead`
    obtain rfl := Option.some.inj hs
    refine h.goto ?_ (by rw [hpc]; rfl)
    intro m hm
    rcases List.mem_append.1 hm with hm | hm
    · exact hk m (by simpa using hm)
    · exact h.head m (by simpa using hm)
  · obtain rfl := Option.some.inj hs
    exact h.goto (by simp [afterHead, Pc.known]) (by rw [hpc]; rfl)
  · obtain rfl := Option.some.inj hs
    exact h.lock _ (by simpa [afterHead, Pc.known] using hk) (by simpa [afterHead, Pc.known] using hk)
      (by rw [hpc]; rfl) (by rw [hpc]; rfl)
  · split at hs <;> obtain rfl := Option.some.inj hs
    · exact h.goto (by simp [Pc.known]) (by rw [hpc]; rfl)
    · exact h.goto (by simp [afterHead, Pc.known]) (by rw [hpc]; rfl)
  · rename_i p t
    have ht : t ∈ s.order := hk t (Or.inr (by simp))
    split at hs
    · split at hs
      · rename_i pd hl
        obtain rfl := Option.some.inj hs
        have hu : pd.used = s.pd.used := by rw [(Pd.lock_some hl).2.2]
        exact ((h.pd hu).history).goto (by simp [Pc.known]) (by rw [hpc]; rfl)
      · obtain rfl := Option.some.inj hs
        exact h.goto (by simp [Pc.known]) (by rw [hpc]; rfl)
    · obtain rfl := Option.some.inj hs
      exact h.lock _ (by simpa [afterHead, Pc.known] using ht) (by simpa [afterHead, Pc.known] using ht)
        (by rw [hpc]; rfl) (by rw [hpc]; rfl)
  · -- `exchange`
    obtain rfl := Option.some.inj hs
    exact (h.consume hk).goto (by simpa [Pc.known] using hk) (by rw [hpc]; rfl)
  · obtain rfl := Option.some.inj hs
    exact h.goto (by simpa [Pc.known] using ⟨hk, h.next _⟩) (by rw [hpc]; rfl)
  · obtain rfl := Option.some.inj hs
    exact h.goto (by simpa [Pc.known] using hk) (by rw [hpc]; rfl)
  · obtain rfl := Option.some.inj hs
    exact h.lock _ (by simpa [Pc.known] using hk) (by simpa [Pc.known] using hk.1) (by rw [hpc]; rfl)
      (by rw [hpc]; rfl)
  · -- `casHead`
    rename_i t c x
    split at hs <;> obtain rfl := Option.some.inj hs
    · exact ((h.setHead hk.2).history).goto (by simpa [Pc.known] using hk) (by rw [hpc]; rfl)
    · cases c <;> exact h.goto (by simpa [Pc.known] using hk) (by rw [hpc]; rfl)
  · rename_i t c x
    obtain rfl := Option.some.inj hs
    cases c <;> exact ((h.unlock _).history).goto (by simpa [Pc.known] using hk) (by simp [hpc, Pc.mine])
  · obtain rfl := Option.some.inj hs
    exact (h.unlock _).goto (by simpa [Pc.known] using hk.2) (by simp [hpc, Pc.mine])
  · obtain rfl := Option.some.inj hs
    exact (h.unlock _).goto (by simpa [Pc.known] using hk.1) (by simp [hpc, Pc.mine])
  · obtain rfl := Option.some.inj hs
    exact ((h.unlock _).history).goto (by simp [Pc.known]) (by simp [hpc, Pc.mine])

/-! ## Which nodes `head` has been at -/

/-- The first node of a list, about to become `head`. -/
def Pc.storing : Pc → List ℕ
  | .storeHead n => [n]
  | _ => []

/-- The node that `head` was moved off and whose queue reference is to be released. -/
def Pc.unlocking : Pc → List ℕ
  | .unlockHead t _ _ => [t]
  | _ => []

/-- A node that a pop holds, with the successor it has read. -/
def Pc.edges : Pc → List (ℕ × ℕ)
  | .popLockNext t _ (some x) | .casHead t _ x => [(t, x)]
  | _ => []

/-- The node was linked after another one, or is or was `head`. -/
def St.entered (s : St ι) (n : ℕ) : Bool :=
  (s.pred n).isSome || decide (s.head = some n) || decide (n ∈ s.past)

/-- **`head` is at each node at most once.** A node gets its predecessor when it is linked. `head` reaches it from
that predecessor, or by the store of the push that found no tail, and not by both. -/
structure Heads (s : St ι) : Prop where
  link : ∀ t, ∀ x ∈ (s.node t).next, s.pred x = some t
  edge : ∀ j, ∀ e ∈ (s.pc j).edges, s.pred e.2 = some e.1
  store : ∀ n, tally Pc.storing s.pc n + (s.entered n).toNat = s.order.count n
  head_past : ∀ h ∈ s.head, h ∉ s.past
  pred_past : ∀ x t, s.pred x = some t → s.head = some x ∨ x ∈ s.past → t ∈ s.past
  rel : ∀ m, s.released.count m + tally Pc.unlocking s.pc m ≤ (decide (m ∈ s.past)).toNat

theorem Heads.goto [DecidableEq ι] (h : Heads s) {p : Pc} (he : ∀ e ∈ p.edges, s.pred e.2 = some e.1)
    (hst : p.storing = (s.pc i).storing) (hu : p.unlocking = (s.pc i).unlocking) : Heads (s.goto i p) where
  link := h.link
  edge := forall_update (P := fun q : Pc => ∀ e ∈ q.edges, s.pred e.2 = some e.1) h.edge he
  store n := by
    show tally Pc.storing (update s.pc i p) n + (s.entered n).toNat = s.order.count n
    rw [tally_congr hst]; exact h.store n
  head_past := h.head_past
  pred_past := h.pred_past
  rel m := by
    show s.released.count m + tally Pc.unlocking (update s.pc i p) m ≤ (decide (m ∈ s.past)).toNat
    rw [tally_congr hu]; exact h.rel m

/-- `Heads` reads neither the directory nor these fields. -/
theorem Heads.frame (h : Heads s) {pd : Pd} {tail : Option ℕ} {freed done popped leaked : List ℕ} :
    Heads { s with pd := pd, tail := tail, freed := freed, done := done, popped := popped, leaked := leaked } :=
  ⟨h.link, h.edge, h.store, h.head_past, h.pred_past, h.rel⟩

theorem Heads.lock [DecidableEq ι] (h : Heads s) (n : ℕ) {p q : Pc} (hp : ∀ e ∈ p.edges, s.pred e.2 = some e.1)
    (hps : p.storing = (s.pc i).storing) (hpu : p.unlocking = (s.pc i).unlocking) (hq : q.edges = [])
    (hqs : q.storing = (s.pc i).storing) (hqu : q.unlocking = (s.pc i).unlocking) :
    Heads (s.lock i n p q) := by
  unfold St.lock
  split
  · exact h.frame.goto hp hps hpu
  · exact h.goto (by simp [hq]) hqs hqu

theorem Heads.consume (h : Heads s) (t : ℕ) :
    Heads { s with node := update s.node t { s.node t with consumed := true } } where
  link u x hx := by
    by_cases hu : u = t
    · subst hu; simp only [update_self] at hx; exact h.link u x hx
    · simp only [update_of_ne hu] at hx; exact h.link u x hx
  edge := h.edge
  store := h.store
  head_past := h.head_past
  pred_past := h.pred_past
  rel := h.rel

/-- A node that is not linked yet has not been at `head` and has no predecessor. -/
theorem Heads.entered_of_not_mem (h : Heads s) {n : ℕ} (hn : n ∉ s.order) : s.entered n = false := by
  have := h.store n
  rw [List.count_eq_zero.2 hn] at this
  cases hb : s.entered n
  · rfl
  · rw [hb] at this; simp at this

omit [Fintype ι] in
theorem not_entered {n : ℕ} (h : s.entered n = false) : s.pred n = none ∧ s.head ≠ some n ∧ n ∉ s.past := by
  simp only [St.entered, Bool.or_eq_false_iff, Option.isSome_eq_false_iff, Option.isNone_iff_eq_none,
    decide_eq_false_iff_not] at h
  exact ⟨h.1.1, h.1.2, h.2⟩

theorem mem_known_of_edge {p : Pc} {e : ℕ × ℕ} (h : e ∈ p.edges) : e.2 ∈ p.known := by
  cases p <;> simp only [Pc.edges, List.not_mem_nil, List.mem_singleton] at h
  case popLockNext t c x => cases x <;> simp_all [Pc.known]
  case casHead => subst h; simp [Pc.known]

/-- `next` of a locked node is set to the new node. -/
theorem Heads.link_next (h : Heads s) (hi : Ids s) {n t : ℕ} (hn : n ∉ s.order) :
    Heads { s with
      node := update s.node t { s.node t with next := some n }
      order := s.order ++ [n]
      pred := update s.pred n (some t) } where
  link u x hx := by
    by_cases hu : u = t
    · subst hu; simp only [update_self, Option.mem_some_iff] at hx; subst hx; simp
    · simp only [update_of_ne hu] at hx
      have hx' : x ≠ n := fun e => hn (e ▸ hi.next u x hx)
      simp only [update_of_ne hx']; exact h.link u x hx
  edge j e he := by
    have he' : e.2 ≠ n := fun h' => hn (h' ▸ hi.known j _ (mem_known_of_edge he))
    simp only [update_of_ne he']; exact h.edge j e he
  store m := by
    have h1 := h.store m
    have h0 := h.entered_of_not_mem hn
    by_cases hm : m = n
    · subst hm
      rw [h0, List.count_eq_zero.2 hn] at h1
      simp only [Bool.toNat_false, Nat.add_zero] at h1
      simp [St.entered, h1, List.count_eq_zero.2 hn]
    · simpa [St.entered, update_of_ne hm, List.count_append, List.count_singleton, Ne.symm hm] using h1
  head_past := h.head_past
  pred_past x u hx hhp := by
    have hx' : x ≠ n := by
      rintro rfl
      obtain ⟨-, h1, h2⟩ := not_entered (h.entered_of_not_mem hn)
      exact hhp.elim h1 h2
    simp only [update_of_ne hx'] at hx
    exact h.pred_past x u hx hhp
  rel := h.rel

/-- The new node becomes the tail without a predecessor. -/
theorem Heads.link_tail [DecidableEq ι] (h : Heads s) (n : ℕ) (hp : (s.pc i).storing = [])
    (hu : (s.pc i).unlocking = []) :
    Heads ({ s with tail := some n, order := s.order ++ [n] }.goto i (.storeHead n)) where
  link := h.link
  edge := forall_update (P := fun q : Pc => ∀ e ∈ q.edges, s.pred e.2 = some e.1) h.edge (by simp [Pc.edges])
  store m := by
    have h1 := tally_update Pc.storing s.pc i (.storeHead n) m
    have h2 := h.store m
    rw [hp] at h1
    simp only [Pc.storing, List.count_nil] at h1
    simp only [St.goto, List.count_append]
    show tally Pc.storing (update s.pc i (Pc.storeHead n)) m + (s.entered m).toNat = _
    omega
  head_past := h.head_past
  pred_past := h.pred_past
  rel m := by
    show s.released.count m + tally Pc.unlocking (update s.pc i (.storeHead n)) m ≤ (decide (m ∈ s.past)).toNat
    rw [tally_congr (by rw [hu]; rfl)]; exact h.rel m

/-- The push that found no tail stores `head`. -/
theorem Heads.store_head [DecidableEq ι] (h : Heads s) (hi : Ids s) {n : ℕ} (hp : s.pc i = .storeHead n) :
    Heads ({ s with head := some n, past := s.head.toList ++ s.past }.goto i .idle) := by
  have hst := h.store n
  have hle := count_le_tally Pc.storing s.pc i n
  have hown := hi.own n
  have hb : (s.pd.used n).toNat ≤ 1 := Bool.toNat_le _
  rw [hp] at hle
  simp only [Pc.storing, List.count_singleton_self] at hle
  have hne : s.entered n = false := by
    cases hb : s.entered n
    · rfl
    · rw [hb, Bool.toNat_true] at hst; omega
  obtain ⟨hpred, hhead, hpast⟩ := not_entered hne
  have hentered : ∀ m, ({ s with head := some n, past := s.head.toList ++ s.past } : St ι).entered m =
      (s.entered m || decide (m = n)) := by
    intro m
    rw [Bool.eq_iff_iff]
    simp only [St.entered, Bool.or_eq_true, decide_eq_true_eq, List.mem_append, Option.mem_toList,
      Option.some.injEq]
    constructor
    · rintro ((h1 | h1) | (h1 | h1)) <;> simp_all
    · rintro (((h1 | h1) | h1) | h1) <;> simp_all
  refine ⟨h.link, ?_, ?_, ?_, ?_, ?_⟩
  · exact forall_update (P := fun q : Pc => ∀ e ∈ q.edges, s.pred e.2 = some e.1) h.edge (by simp [Pc.edges])
  · intro m
    have h1 := tally_update Pc.storing s.pc i .idle m
    have h2 := h.store m
    rw [hp] at h1
    simp only [Pc.storing, List.count_nil, List.count_singleton] at h1
    show tally Pc.storing (update s.pc i .idle) m +
      (({ s with head := some n, past := s.head.toList ++ s.past } : St ι).entered m).toNat = s.order.count m
    rw [hentered]
    by_cases hm : m = n
    · subst hm; rw [hne] at h2 ⊢; simp at h1 h2 ⊢; omega
    · simp [hm, Ne.symm hm] at h1 ⊢; omega
  · intro x hx
    obtain rfl : n = x := by simpa using hx
    simpa [hpast] using hhead
  · intro x t hx hor
    simp only [St.goto, Option.some.injEq, List.mem_append, Option.mem_toList] at hx hor ⊢
    rcases hor with rfl | hx' | hx'
    · rw [hpred] at hx; cases hx
    · exact Or.inr (h.pred_past x t hx (Or.inl hx'))
    · exact Or.inr (h.pred_past x t hx (Or.inr hx'))
  · intro m
    show s.released.count m + tally Pc.unlocking (update s.pc i .idle) m ≤
      (decide (m ∈ s.head.toList ++ s.past)).toNat
    rw [tally_congr (by rw [hp]; rfl)]
    refine le_trans (h.rel m) ?_
    by_cases hm : m ∈ s.past <;> simp [hm]

/-- A pop moves `head` to the successor it has read. -/
theorem Heads.cas_head [DecidableEq ι] (h : Heads s) {t x : ℕ} {c : Bool} (hp : s.pc i = .casHead t c x)
    (hh : s.head = some t) :
    Heads ({ s with head := some x, past := t :: s.past }.goto i (.unlockHead t c x)) := by
  have hpx : s.pred x = some t := h.edge i (t, x) (by rw [hp]; simp [Pc.edges])
  have ht : t ∉ s.past := h.head_past t hh
  have hx : ¬(s.head = some x ∨ x ∈ s.past) := fun hor => ht (h.pred_past x t hpx hor)
  rw [not_or] at hx
  have hxt : x ≠ t := fun e => hx.1 (e ▸ hh)
  refine ⟨h.link, ?_, ?_, ?_, ?_, ?_⟩
  · exact forall_update (P := fun q : Pc => ∀ e ∈ q.edges, s.pred e.2 = some e.1) h.edge (by simp [Pc.edges])
  · intro m
    show tally Pc.storing (update s.pc i (.unlockHead t c x)) m + _ = s.order.count m
    rw [tally_congr (by rw [hp]; rfl), ← h.store m]
    congr 2
    simp only [St.entered, St.goto, hh, Option.some.injEq, List.mem_cons]
    by_cases hmx : m = x
    · subst hmx; simp [hpx]
    · by_cases hmt : m = t
      · simp [hmt]
      · simp [Ne.symm hmx, hmt, Ne.symm hmt]
  · intro y hy
    obtain rfl : x = y := by simpa using hy
    simpa [hxt] using hx.2
  · intro y u hy hor
    simp only [St.goto, Option.some.injEq, List.mem_cons] at hy hor ⊢
    rcases hor with rfl | rfl | hor
    · rw [hpx] at hy; cases hy; exact Or.inl rfl
    · exact Or.inr (h.pred_past y u hy (Or.inl hh))
    · exact Or.inr (h.pred_past y u hy (Or.inr hor))
  · intro m
    have h1 := tally_update Pc.unlocking s.pc i (.unlockHead t c x) m
    have h2 := h.rel m
    rw [hp] at h1
    simp only [Pc.unlocking, List.count_nil, List.count_singleton] at h1
    show s.released.count m + tally Pc.unlocking (update s.pc i (.unlockHead t c x)) m ≤
      (decide (m ∈ t :: s.past)).toNat
    by_cases hm : m = t
    · subst hm; simp [ht] at h1 h2 ⊢; omega
    · simp [hm, Ne.symm hm] at h1 ⊢; omega

/-- The queue reference of a passed node is released. -/
theorem Heads.release [DecidableEq ι] (h : Heads s) {t x : ℕ} {c : Bool} {p : Pc}
    (hp : s.pc i = .unlockHead t c x) (hpu : p.unlocking = []) (hps : p.storing = []) (hpe : p.edges = []) :
    Heads ({ s.unlock t with released := t :: s.released }.goto i p) := by
  refine ⟨h.link, ?_, ?_, h.head_past, h.pred_past, ?_⟩
  · exact forall_update (P := fun q : Pc => ∀ e ∈ q.edges, s.pred e.2 = some e.1) h.edge (by simp [hpe])
  · intro m
    show tally Pc.storing (update s.pc i p) m + (s.entered m).toNat = s.order.count m
    rw [tally_congr (by rw [hp, hps]; rfl)]; exact h.store m
  · intro m
    have h1 := tally_update Pc.unlocking s.pc i p m
    have h2 := h.rel m
    rw [hp, hpu] at h1
    simp only [Pc.unlocking, List.count_nil] at h1
    show (t :: s.released).count m + tally Pc.unlocking (update s.pc i p) m ≤ (decide (m ∈ s.past)).toNat
    rw [count_cons_eq]
    omega

theorem not_mem_of_mine (h : Ids s) {n : ℕ} (hm : n ∈ (s.pc i).mine) : n ∉ s.order := by
  have h1 := h.own n
  have h2 := count_le_tally Pc.mine s.pc i n
  have h3 := List.count_pos_iff.2 hm
  have h4 : (s.pd.used n).toNat ≤ 1 := Bool.toNat_le _
  exact List.count_eq_zero.1 (by omega)

theorem stepThread_heads [DecidableEq ι] (hi : Ids s) (h : Heads s) (hs : s.stepThread i = some s') :
    Heads s' := by
  unfold St.stepThread at hs
  split at hs <;> rename_i hpc
  case h_10 n t x =>
    -- `casNext`
    split at hs <;> obtain rfl := Option.some.inj hs
    · have hn := not_mem_of_mine hi (n := n) (by rw [hpc]; simp [Pc.mine])
      exact (h.link_next hi hn).goto (by simp [Pc.edges]) (by rw [hpc]; rfl) (by rw [hpc]; rfl)
    · exact h.goto (by simp [Pc.edges]) (by rw [hpc]; rfl) (by rw [hpc]; rfl)
  case h_14 n t =>
    -- `casTailNull`
    split at hs <;> obtain rfl := Option.some.inj hs
    · exact h.link_tail n (by rw [hpc]; rfl) (by rw [hpc]; rfl)
    · exact h.goto (by simp [Pc.edges]) (by rw [hpc]; rfl) (by rw [hpc]; rfl)
  case h_15 n =>
    -- `storeHead`
    obtain rfl := Option.some.inj hs
    exact (h.store_head hi hpc).frame
  case h_20 p t =>
    -- the second lock of `head`
    split at hs
    · split at hs <;> obtain rfl := Option.some.inj hs
      · exact h.frame.goto (by simp [Pc.edges]) (by rw [hpc]; rfl) (by rw [hpc]; rfl)
      · exact h.goto (by simp [Pc.edges]) (by rw [hpc]; rfl) (by rw [hpc]; rfl)
    · obtain rfl := Option.some.inj hs
      exact h.lock t (by simp [afterHead, Pc.edges]) (by rw [hpc]; rfl) (by rw [hpc]; rfl) rfl (by rw [hpc]; rfl)
        (by rw [hpc]; rfl)
  case h_21 t =>
    -- `exchange`
    obtain rfl := Option.some.inj hs
    exact (h.consume t).goto (by simp [Pc.edges]) (by rw [hpc]; rfl) (by rw [hpc]; rfl)
  case h_22 t c =>
    -- `popLoadNext`
    obtain rfl := Option.some.inj hs
    refine h.goto (fun e he => ?_) (by rw [hpc]; rfl) (by rw [hpc]; rfl)
    cases hx : (s.node t).next with
    | none => rw [hx] at he; cases he
    | some x =>
      rw [hx] at he
      obtain rfl := List.mem_singleton.1 he
      exact h.link t x hx
  case h_24 t c x =>
    -- `popLockNext`
    obtain rfl := Option.some.inj hs
    refine h.lock x (fun e he => ?_) (by rw [hpc]; rfl) (by rw [hpc]; rfl) rfl (by rw [hpc]; rfl)
      (by rw [hpc]; rfl)
    exact h.edge i e (by rw [hpc]; exact he)
  case h_25 t c x =>
    -- `casHead`
    split at hs <;> obtain rfl := Option.some.inj hs
    · exact h.cas_head hpc (by assumption)
    · cases c <;> exact h.goto (by simp [Pc.edges]) (by rw [hpc]; rfl) (by rw [hpc]; rfl)
  case h_26 t c x =>
    -- `unlockHead`
    obtain rfl := Option.some.inj hs
    cases c <;> exact h.release hpc rfl rfl rfl
  case h_19 p =>
    split at hs <;> obtain rfl := Option.some.inj hs <;>
      exact h.goto (by simp [Pc.edges, afterHead]) (by rw [hpc]; rfl) (by rw [hpc]; rfl)
  all_goals first | cases hs; done | obtain rfl := Option.some.inj hs
  -- the other steps read `head`, `tail` or `next`, or lock or unlock a node
  all_goals
    first
    | exact h.goto (by simp [Pc.edges, afterHead]) (by rw [hpc]; rfl) (by rw [hpc]; rfl)
    | exact h.frame.goto (by simp [Pc.edges]) (by rw [hpc]; rfl) (by rw [hpc]; rfl)
    | exact h.lock _ (by simp [Pc.edges, afterHead]) (by rw [hpc]; rfl) (by rw [hpc]; rfl) rfl (by rw [hpc]; rfl)
        (by rw [hpc]; rfl)

/-! ## Who consumed a node -/

/-- The node that a pop has consumed and not returned yet. -/
def Pc.winning : Pc → List ℕ
  | .popLoadNext t false | .popLockNext t false _ | .casHead t false _ | .unlockHead t false _ | .unlockNext t _
  | .unlockTest t false => [t]
  | _ => []

/-- **A consumed node has one consumer**: a pop that has returned its element, or one that will. -/
def Wins (s : St ι) : Prop :=
  ∀ m, s.popped.count m + tally Pc.winning s.pc m = (s.node m).consumed.toNat

theorem Wins.goto [DecidableEq ι] (h : Wins s) {p : Pc} (hw : p.winning = (s.pc i).winning) :
    Wins (s.goto i p) := by
  intro m
  show s.popped.count m + tally Pc.winning (update s.pc i p) m = (s.node m).consumed.toNat
  rw [tally_congr hw]; exact h m

/-- `Wins` reads only the nodes, the program counters and the returned elements. -/
theorem Wins.frame (h : Wins s) {head tail : Option ℕ} {pd : Pd} {pred : ℕ → Option ℕ}
    {freed order past done released leaked : List ℕ} :
    Wins { s with
      head := head, tail := tail, pd := pd, freed := freed, order := order, pred := pred, past := past,
      done := done, released := released, leaked := leaked } := h

theorem Wins.lock [DecidableEq ι] (h : Wins s) (n : ℕ) {p q : Pc} (hp : p.winning = (s.pc i).winning)
    (hq : q.winning = (s.pc i).winning) : Wins (s.lock i n p q) := by
  unfold St.lock
  split
  · exact h.frame.goto hp
  · exact h.goto hq

theorem stepThread_wins [DecidableEq ι] (h : Wins s) (hs : s.stepThread i = some s') : Wins s' := by
  unfold St.stepThread at hs
  split at hs <;> rename_i hpc
  case h_10 n t x =>
    -- `casNext` changes `next` only
    split at hs <;> obtain rfl := Option.some.inj hs
    · have hw : Wins { s with node := update s.node t { s.node t with next := some n } } := by
        intro m
        by_cases hm : m = t
        · subst hm; simpa using h m
        · simpa [update_of_ne hm] using h m
      exact hw.frame.goto (by rw [hpc]; rfl)
    · exact h.goto (by rw [hpc]; rfl)
  case h_21 t =>
    -- `exchange`: the first to set the flag wins
    obtain rfl := Option.some.inj hs
    intro m
    have h1 := tally_update Pc.winning s.pc i (.popLoadNext t (s.node t).consumed) m
    have h2 := h m
    rw [hpc] at h1
    simp only [Pc.winning, List.count_nil] at h1
    show s.popped.count m + tally Pc.winning (update s.pc i (.popLoadNext t (s.node t).consumed)) m =
      (update s.node t { s.node t with consumed := true } m).consumed.toNat
    by_cases hm : m = t
    · subst hm
      rw [update_self]
      cases hc : (s.node m).consumed <;> rw [hc] at h1 h2 <;> simp at h1 h2 ⊢ <;> omega
    · rw [update_of_ne hm, ← h2]
      cases hc : (s.node t).consumed <;> rw [hc] at h1 <;> simp [Ne.symm hm] at h1 ⊢ <;> omega
  case h_29 t c =>
    -- `unlockTest` returns the element
    obtain rfl := Option.some.inj hs
    intro m
    have h1 := tally_update Pc.winning s.pc i .idle m
    have h2 := h m
    rw [hpc] at h1
    show (if c then s.popped else t :: s.popped).count m + tally Pc.winning (update s.pc i .idle) m =
      (s.node m).consumed.toNat
    cases c
    · simp only [Pc.winning, List.count_nil] at h1
      simp only [Bool.false_eq_true, if_false]
      rw [count_cons_eq]
      omega
    · simp only [Pc.winning, List.count_nil] at h1
      simp only [if_true]
      omega
  case h_20 p t =>
    split at hs
    · split at hs <;> obtain rfl := Option.some.inj hs
      · exact h.frame.goto (by rw [hpc]; rfl)
      · exact h.goto (by rw [hpc]; rfl)
    · obtain rfl := Option.some.inj hs
      exact h.lock t (by rw [hpc]; rfl) (by rw [hpc]; rfl)
  case h_14 n t =>
    split at hs <;> obtain rfl := Option.some.inj hs <;> exact h.frame.goto (by rw [hpc]; rfl)
  case h_19 p =>
    split at hs <;> obtain rfl := Option.some.inj hs <;> exact h.goto (by rw [hpc]; rfl)
  case h_25 t c x =>
    split at hs <;> obtain rfl := Option.some.inj hs <;> cases c <;> exact h.frame.goto (by rw [hpc]; rfl)
  case h_26 t c x =>
    obtain rfl := Option.some.inj hs
    cases c <;> exact h.frame.goto (by rw [hpc]; rfl)
  case h_22 t c =>
    obtain rfl := Option.some.inj hs
    cases c <;> exact h.goto (by rw [hpc]; rfl)
  case h_23 t c =>
    obtain rfl := Option.some.inj hs
    cases c <;> exact h.goto (by rw [hpc]; rfl)
  case h_24 t c x =>
    obtain rfl := Option.some.inj hs
    cases c <;> exact h.lock x (by rw [hpc]; rfl) (by rw [hpc]; rfl)
  all_goals first | cases hs; done | obtain rfl := Option.some.inj hs
  all_goals
    first
    | exact h.frame.goto (by rw [hpc]; rfl)
    | exact h.lock _ (by rw [hpc]; rfl) (by rw [hpc]; rfl)

/-! ## Reference counts -/

/-- **Every reference is accounted for**: the count of a node is the queue's own reference until it is released,
and the locks of the calls in progress. A freed node has count zero. -/
structure Refs (s : St ι) : Prop where
  count : ∀ m, s.pd.refcnt m + s.released.count m =
    (s.pd.used m).toNat + tally Pc.held s.pc m + s.leaked.count m
  unused : ∀ m, s.pd.used m = false → s.pd.refcnt m = 0
  freed : ∀ m ∈ s.freed, s.pd.refcnt m = 0 ∧ s.pd.used m = true
  freed_nodup : s.freed.Nodup

theorem Refs.goto [DecidableEq ι] (h : Refs s) {p : Pc} (hp : p.held = (s.pc i).held) : Refs (s.goto i p) where
  count m := by
    show _ = (s.pd.used m).toNat + tally Pc.held (update s.pc i p) m + s.leaked.count m
    rw [tally_congr hp]; exact h.count m
  unused := h.unused
  freed := h.freed
  freed_nodup := h.freed_nodup

/-- `Refs` does not read the links. -/
theorem Refs.frame (h : Refs s) {head tail : Option ℕ} {node : ℕ → Node} {pred : ℕ → Option ℕ}
    {order past done popped : List ℕ} :
    Refs { s with
      head := head, tail := tail, node := node, order := order, pred := pred, past := past, done := done,
      popped := popped } :=
  ⟨h.count, h.unused, h.freed, h.freed_nodup⟩

theorem Refs.locked [DecidableEq ι] (h : Refs s) {pd : Pd} {n : ℕ} (hl : s.pd.lock n = some pd) {p : Pc}
    (hp : p.held.Perm (n :: (s.pc i).held)) : Refs ({ s with pd := pd }.goto i p) := by
  obtain ⟨h0, -, rfl⟩ := Pd.lock_some hl
  refine ⟨fun m => ?_, fun m hm => ?_, fun m hm => ?_, h.freed_nodup⟩
  · have h1 := tally_update Pc.held s.pc i p m
    have h2 := h.count m
    rw [hp.count_eq, count_cons_eq] at h1
    show update s.pd.refcnt n (s.pd.refcnt n + 1) m + s.released.count m =
      (s.pd.used m).toNat + tally Pc.held (update s.pc i p) m + s.leaked.count m
    by_cases hm : m = n
    · subst hm; rw [update_self]; simp at h1; omega
    · rw [update_of_ne hm]; simp [Ne.symm hm] at h1; omega
  · have hne : m ≠ n := fun e => h0 (e ▸ h.unused m hm)
    show update s.pd.refcnt n (s.pd.refcnt n + 1) m = 0
    rw [update_of_ne hne]; exact h.unused m hm
  · have hne : m ≠ n := fun e => h0 (e ▸ (h.freed m hm).1)
    show update s.pd.refcnt n (s.pd.refcnt n + 1) m = 0 ∧ _
    rw [update_of_ne hne]; exact h.freed m hm

theorem Refs.lock [DecidableEq ι] (h : Refs s) (n : ℕ) {p q : Pc} (hp : p.held.Perm (n :: (s.pc i).held))
    (hq : q.held = (s.pc i).held) : Refs (s.lock i n p q) := by
  unfold St.lock
  split
  · rename_i hl; exact h.locked hl hp
  · exact h.goto hq

/-- Dropping one of at least one reference. `r` says whether it was the queue's own. -/
theorem Refs.unlocked [DecidableEq ι] (h : Refs s) {n : ℕ} (hn : 0 < s.pd.refcnt n) (hu : s.pd.used n = true)
    {p : Pc} {released : List ℕ}
    (hp : ∀ m, p.held.count m + [n].count m + s.released.count m =
      (s.pc i).held.count m + released.count m) :
    Refs ({ s.unlock n with released := released }.goto i p) := by
  refine ⟨fun m => ?_, fun m hm => ?_, fun m hm => ?_, ?_⟩
  · have h1 := tally_update Pc.held s.pc i p m
    have h2 := h.count m
    have h3 := hp m
    show update s.pd.refcnt n (s.pd.refcnt n - 1) m + released.count m =
      (s.pd.used m).toNat + tally Pc.held (update s.pc i p) m + s.leaked.count m
    by_cases hm : m = n
    · subst hm; rw [update_self]; simp at h3; omega
    · rw [update_of_ne hm]; simp [Ne.symm hm] at h3; omega
  · have hm' : s.pd.used m = false := hm
    have hne : m ≠ n := by rintro rfl; rw [hu] at hm'; cases hm'
    show update s.pd.refcnt n (s.pd.refcnt n - 1) m = 0
    rw [update_of_ne hne]; exact h.unused m hm
  · show update s.pd.refcnt n (s.pd.refcnt n - 1) m = 0 ∧ s.pd.used m = true
    change m ∈ (if decide (s.pd.refcnt n = 1) then n :: s.freed else s.freed) at hm
    by_cases hmn : m = n
    · subst hmn
      rw [update_self]
      by_cases h1 : s.pd.refcnt m = 1
      · exact ⟨by omega, hu⟩
      · simp only [h1, decide_false, Bool.false_eq_true, if_false] at hm
        have := (h.freed m hm).1; omega
    · rw [update_of_ne hmn]
      refine h.freed m ?_
      split at hm
      · exact (List.mem_cons.1 hm).resolve_left hmn
      · exact hm
  · show (if decide (s.pd.refcnt n = 1) then n :: s.freed else s.freed).Nodup
    split
    · refine List.nodup_cons.2 ⟨fun hm => ?_, h.freed_nodup⟩
      have := (h.freed n hm).1; omega
    · exact h.freed_nodup

theorem Refs.unlock [DecidableEq ι] (h : Refs s) {n : ℕ} (hn : 0 < s.pd.refcnt n ∧ s.pd.used n = true) {p : Pc}
    (hp : (s.pc i).held.Perm (n :: p.held)) : Refs ((s.unlock n).goto i p) := by
  have h1 := h.unlocked hn.1 hn.2 fun m => show p.held.count m + [n].count m + s.released.count m =
    (s.pc i).held.count m + s.released.count m by rw [hp.count_eq, count_cons_eq n m p.held]; omega
  exact h1

theorem used_of_mem (h : Ids s) {n : ℕ} (hn : n ∈ s.order) : s.pd.used n = true := by
  have h1 := h.own n
  have h2 := List.count_pos_iff.2 hn
  cases hu : s.pd.used n
  · rw [hu] at h1; simp at h1; omega
  · rfl

theorem mem_known_of_held {p : Pc} {m : ℕ} (h : m ∈ p.held) : m ∈ p.known := by
  cases p <;> simp_all [Pc.held, Pc.known]

/-- A node that a call holds is live. -/
theorem Refs.live (hi : Ids s) (hh : Heads s) (h : Refs s) {n : ℕ} (hn : n ∈ (s.pc i).held) :
    0 < s.pd.refcnt n ∧ s.pd.used n = true := by
  have hu := used_of_mem hi (hi.known i n (mem_known_of_held hn))
  have h1 := h.count n
  have h2 := count_le_tally Pc.held s.pc i n
  have h3 := List.count_pos_iff.2 hn
  have h4 := hh.rel n
  have h5 : (decide (n ∈ s.past)).toNat ≤ 1 := Bool.toNat_le _
  rw [hu, Bool.toNat_true] at h1
  exact ⟨by omega, hu⟩

theorem stepThread_refs [DecidableEq ι] (hi : Ids s) (hh : Heads s) (h : Refs s)
    (hs : s.stepThread i = some s') : Refs s' := by
  have live : ∀ n ∈ (s.pc i).held, 0 < s.pd.refcnt n ∧ s.pd.used n = true := fun n hn => h.live hi hh hn
  unfold St.stepThread at hs
  split at hs <;> rename_i hpc <;> rw [hpc] at live <;> simp only [Pc.held] at live
  case h_10 n t x =>
    split at hs <;> obtain rfl := Option.some.inj hs <;> exact h.frame.goto (by rw [hpc]; rfl)
  case h_14 n t =>
    split at hs <;> obtain rfl := Option.some.inj hs <;> exact h.frame.goto (by rw [hpc]; rfl)
  case h_19 p =>
    split at hs <;> obtain rfl := Option.some.inj hs <;> exact h.goto (by rw [hpc]; rfl)
  case h_20 p t =>
    split at hs
    · split at hs <;> obtain rfl := Option.some.inj hs
      · -- the lock stays with the call that has returned
        rename_i pd hl
        have h1 := h.locked (i := i) (p := .exchange t) hl (by rw [hpc]; rfl)
        refine ⟨fun m => ?_, h1.unused, h1.freed, h1.freed_nodup⟩
        have h2 := h1.count m
        have h3 := tally_update Pc.held s.pc i (.exchange t) m
        have h4 := tally_update Pc.held s.pc i .idle m
        change pd.refcnt m + s.released.count m =
          (pd.used m).toNat + tally Pc.held (update s.pc i (.exchange t)) m + s.leaked.count m at h2
        change pd.refcnt m + s.released.count m =
          (pd.used m).toNat + tally Pc.held (update s.pc i .idle) m + (t :: s.leaked).count m
        rw [hpc] at h3 h4
        simp only [Pc.held, List.count_nil] at h3 h4
        rw [count_cons_eq]
        omega
      · exact h.goto (by rw [hpc]; rfl)
    · obtain rfl := Option.some.inj hs
      exact h.lock t (by rw [hpc]; rfl) (by rw [hpc]; rfl)
  case h_25 t c x =>
    split at hs <;> obtain rfl := Option.some.inj hs <;> cases c <;> exact h.frame.goto (by rw [hpc]; rfl)
  case h_26 t c x =>
    -- `unlockHead` drops the queue's own reference
    obtain rfl := Option.some.inj hs
    have hl := live t (by simp)
    refine h.unlocked hl.1 hl.2 fun m => ?_
    rw [hpc, count_cons_eq t m s.released]
    cases c <;> simp only [Pc.held, if_true, if_false, Bool.false_eq_true] <;> omega
  case h_24 t c x =>
    obtain rfl := Option.some.inj hs
    exact h.lock x (by rw [hpc]; exact List.Perm.swap x t []) (by rw [hpc]; rfl)
  case h_9 n t x =>
    obtain rfl := Option.some.inj hs
    exact h.unlock (live t (by simp)) (by rw [hpc]; rfl)
  case h_28 t x =>
    obtain rfl := Option.some.inj hs
    exact h.unlock (live x (by simp)) (by rw [hpc]; exact List.Perm.swap x t [])
  case h_29 t c =>
    obtain rfl := Option.some.inj hs
    exact (h.unlock (live t (by simp)) (by rw [hpc]; rfl)).frame
  all_goals first | cases hs; done | obtain rfl := Option.some.inj hs
  all_goals
    first
    | exact h.frame.goto (by rw [hpc]; rfl)
    | exact h.unlock (live _ (by simp)) (by rw [hpc]; rfl)
    | exact h.lock _ (by rw [hpc]; rfl) (by rw [hpc]; rfl)
    | exact h.lock _ (by rw [hpc]; exact List.Perm.swap _ _ []) (by rw [hpc]; rfl)

/-! ## All runs -/

/-- The four invariants together. -/
structure Inv (s : St ι) : Prop where
  ids : Ids s
  heads : Heads s
  wins : Wins s
  refs : Refs s

theorem inv_init : Inv (St.init : St ι) where
  ids := by
    refine ⟨by simp [St.init, Pc.known], by simp [St.init], by simp [St.init], by simp [St.init], fun n => ?_,
      by simp [St.init]⟩
    rw [tally_eq_zero (by simp [St.init, Pc.mine])]; rfl
  heads := by
    refine ⟨by simp [St.init], by simp [St.init, Pc.edges], fun n => ?_, by simp [St.init], by simp [St.init],
      fun m => ?_⟩
    · rw [tally_eq_zero (by simp [St.init, Pc.storing])]; rfl
    · rw [tally_eq_zero (by simp [St.init, Pc.unlocking])]; simp [St.init]
  wins m := by rw [tally_eq_zero (by simp [St.init, Pc.winning])]; rfl
  refs := by
    refine ⟨fun m => ?_, fun _ _ => rfl, by simp [St.init], by simp [St.init]⟩
    rw [tally_eq_zero (by simp [St.init, Pc.held])]; rfl

theorem Inv.pop [DecidableEq ι] (h : Inv s) (hpc : s.pc i = .idle) : Inv (s.goto i (.loadHead none)) where
  ids := h.ids.goto (by simp [Pc.known]) (by rw [hpc]; rfl)
  heads := h.heads.goto (by simp [Pc.edges]) (by rw [hpc]; rfl) (by rw [hpc]; rfl)
  wins := h.wins.goto (by rw [hpc]; rfl)
  refs := h.refs.goto (by rw [hpc]; rfl)

/-- A node that has not been given out has left no trace. -/
theorem Inv.unused (h : Inv s) {n : ℕ} (hn : s.pd.used n = false) :
    n ∉ s.order ∧ n ∉ s.freed ∧ s.pd.refcnt n = 0 ∧ (s.node n).consumed = false := by
  have h1 := h.ids.own n
  rw [hn, Bool.toNat_false] at h1
  have ho : n ∉ s.order := List.count_eq_zero.1 (by omega)
  refine ⟨ho, fun hf => ?_, h.refs.unused n hn, (h.ids.fresh n ho).2⟩
  rw [(h.refs.freed n hf).2] at hn
  cases hn

theorem Inv.alloc [DecidableEq ι] (h : Inv s) (hpc : s.pc i = .idle) {data n : ℕ}
    (hs : s.alloc i data n = some s') : Inv s' := by
  unfold St.alloc Pd.alloc at hs
  split at hs
  · cases hs
  rename_i hn
  obtain rfl := Option.some.inj hs
  obtain ⟨ho, hf, hr, hc⟩ := h.unused (Bool.not_eq_true _ ▸ hn)
  have hn' : s.pd.used n = false := Bool.not_eq_true _ ▸ hn
  refine ⟨⟨?_, h.ids.head, h.ids.tail, fun u x hx => ?_, fun m => ?_, fun m hm => ?_⟩,
    ⟨fun u x hx => ?_, ?_, fun m => ?_, h.heads.head_past, h.heads.pred_past, fun m => ?_⟩, fun m => ?_,
    ⟨fun m => ?_, fun m hm => ?_, fun m hm => ?_, h.refs.freed_nodup⟩⟩
  · exact forall_update (P := fun q : Pc => ∀ m ∈ q.known, m ∈ s.order) h.ids.known (by simp [Pc.known])
  · change x ∈ (update s.node n ⟨none, false, data⟩ u).next at hx
    by_cases hu : u = n
    · subst hu; simp at hx
    · rw [update_of_ne hu] at hx; exact h.ids.next u x hx
  · have h1 := tally_update Pc.mine s.pc i (.loadTail n) m
    have h2 := h.ids.own m
    rw [hpc] at h1
    simp only [Pc.mine, List.count_nil] at h1
    show s.order.count m + tally Pc.mine (update s.pc i (.loadTail n)) m = (update s.pd.used n true m).toNat
    by_cases hm : m = n
    · subst hm; rw [update_self]; rw [hn'] at h2; simp at h1 h2 ⊢; omega
    · rw [update_of_ne hm]; simp [Ne.symm hm] at h1; omega
  · show (update s.node n ⟨none, false, data⟩ m).next = none ∧
      (update s.node n ⟨none, false, data⟩ m).consumed = false
    by_cases hm' : m = n
    · subst hm'; simp
    · rw [update_of_ne hm']; exact h.ids.fresh m hm
  · change x ∈ (update s.node n ⟨none, false, data⟩ u).next at hx
    by_cases hu : u = n
    · subst hu; simp at hx
    · rw [update_of_ne hu] at hx; exact h.heads.link u x hx
  · exact forall_update (P := fun q : Pc => ∀ e ∈ q.edges, s.pred e.2 = some e.1) h.heads.edge
      (by simp [Pc.edges])
  · show tally Pc.storing (update s.pc i (.loadTail n)) m + _ = _
    rw [tally_congr (by rw [hpc]; rfl)]; exact h.heads.store m
  · show _ + tally Pc.unlocking (update s.pc i (.loadTail n)) m ≤ _
    rw [tally_congr (by rw [hpc]; rfl)]; exact h.heads.rel m
  · show _ + tally Pc.winning (update s.pc i (.loadTail n)) m =
      (update s.node n ⟨none, false, data⟩ m).consumed.toNat
    rw [tally_congr (by rw [hpc]; rfl)]
    by_cases hm : m = n
    · subst hm; rw [update_self]; have := h.wins m; rwa [hc] at this
    · rw [update_of_ne hm]; exact h.wins m
  · show update s.pd.refcnt n 1 m + s.released.count m =
      (update s.pd.used n true m).toNat + tally Pc.held (update s.pc i (.loadTail n)) m + s.leaked.count m
    rw [tally_congr (by rw [hpc]; rfl)]
    have h1 := h.refs.count m
    by_cases hm : m = n
    · subst hm; rw [update_self, update_self]; rw [hr, hn'] at h1; simp at h1 ⊢; omega
    · rw [update_of_ne hm, update_of_ne hm]; exact h1
  · change update s.pd.used n true m = false at hm
    have hne : m ≠ n := by rintro rfl; simp at hm
    rw [update_of_ne hne] at hm
    show update s.pd.refcnt n 1 m = 0
    rw [update_of_ne hne]; exact h.refs.unused m hm
  · have hne : m ≠ n := fun e => hf (e ▸ hm)
    show update s.pd.refcnt n 1 m = 0 ∧ update s.pd.used n true m = true
    rw [update_of_ne hne, update_of_ne hne]; exact h.refs.freed m hm

theorem step_inv [DecidableEq ι] {a : Act ι} (h : Inv s) (hs : s.step a = some s') : Inv s' := by
  cases a with
  | push i data id =>
    simp only [St.step] at hs
    split at hs
    · exact h.alloc (by assumption) hs
    · cases hs
  | pushFail i =>
    simp only [St.step] at hs
    split at hs
    · exact Option.some.inj hs ▸ h
    · cases hs
  | pop i =>
    simp only [St.step] at hs
    split at hs
    · exact Option.some.inj hs ▸ h.pop (by assumption)
    · cases hs
  | step i =>
    exact ⟨stepThread_ids h.ids hs, stepThread_heads h.ids h.heads hs, stepThread_wins h.wins hs,
      stepThread_refs h.ids h.heads h.refs hs⟩

theorem reachable_inv [DecidableEq ι] (h : (sys ι).Reachable s) : Inv s :=
  h.inv (fun _ h => h ▸ inv_init) fun _ _ _ => step_inv

/-- **Each element is returned at most once and no lock outlives its node.** In every state of every run no
element has been returned by two pops, a freed node has been freed once and no call holds a lock on it, and
the queue's own reference on a node has been released at most once. -/
theorem at_most_once_and_lock_safe [DecidableEq ι] (h : (sys ι).Reachable s) :
    s.popped.Nodup ∧ (s.freed.Nodup ∧ ∀ n ∈ s.freed, ∀ i, n ∉ (s.pc i).held) ∧ s.released.Nodup := by
  have hI := reachable_inv h
  refine ⟨List.nodup_iff_count_le_one.2 fun m => ?_, ⟨hI.refs.freed_nodup, fun n hn i hi => ?_⟩,
    List.nodup_iff_count_le_one.2 fun m => ?_⟩
  · have h1 := hI.wins m
    have h2 : (s.node m).consumed.toNat ≤ 1 := Bool.toNat_le _
    omega
  · have h1 := (hI.refs.live hI.ids hI.heads hi).1
    rw [(hI.refs.freed n hn).1] at h1
    exact Nat.lt_irrefl 0 h1
  · have h1 := hI.heads.rel m
    have h2 : (decide (m ∈ s.past)).toNat ≤ 1 := Bool.toNat_le _
    omega

/-- Two pushes and a pop: the pop returns the first element, moves `head` and frees the node. -/
theorem at_most_once_and_lock_safe_pop : ∃ s : St (Fin 1), (sys (Fin 1)).Reachable s ∧
    (s.popped = [1] ∧ s.freed = [1] ∧ s.released = [1]) ∧
    s.popped.Nodup ∧ (s.freed.Nodup ∧ ∀ n ∈ s.freed, ∀ i, n ∉ (s.pc i).held) ∧ s.released.Nodup := by
  obtain ⟨s, hs, hp⟩ := System.exists_of_check (sys (Fin 1)) (fun _ _ => True)
    (fun s => s.popped = [1] ∧ s.freed = [1] ∧ s.released = [1]) .init rfl
    (List.flatten [.push 0 10 1 :: List.replicate 4 (.step 0), .push 0 20 2 :: List.replicate 7 (.step 0),
      .pop 0 :: List.replicate 9 (.step 0)]) (by decide +kernel)
  exact ⟨s, hs, hp, at_most_once_and_lock_safe hs⟩

end Prs.Mpmcq
