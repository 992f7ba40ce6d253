import Prs.Model.Excp
import Prs.Proof.MpscqList

/-!
# Exception handlers are called last in, first out

* `handlers_lifo`: in every run, a thread that raises an exception calls the handlers that were registered
  when it began, the last that was registered first, each once, up to one that does not forward. The default
  handler is called when all have forwarded, and only then. No registration on the way gets between.
-/

namespace Prs.Excp

open Function

variable {ι κ ν δ : Type} {s s' : St ι κ ν δ}
  {j : κ} {r : Result}

/-- Where a thread is in the queue. -/
def Walks (order : List (ν × δ)) (registered : List δ) (asked : List (δ × Result)) : Pc ν → Prop
  | .idle => asked = [] ∧ registered = []
  | .walk node => (∀ e ∈ asked, e.2 = .forward) ∧
    ∃ rest, rest <:+ order ∧ node = rest.head?.map Prod.fst ∧ registered = asked.map Prod.fst ++ rest.map Prod.snd
  | .done r false => ∃ before d todo, asked = before ++ [(d, r)] ∧ r ≠ .forward ∧ (∀ e ∈ before, e.2 = .forward) ∧
    registered = asked.map Prod.fst ++ todo
  | .done r true => r ≠ .forward ∧ (∀ e ∈ asked, e.2 = .forward) ∧ registered = asked.map Prod.fst

structure Inv (s : St ι κ ν δ) : Prop where
  handlers : Mpscq.Inv s.handlers
  walks : ∀ j, Walks s.handlers.order (s.registered j) (s.asked j) (s.pc j)
  /-- Handlers are only added. -/
  kept : ∀ j, s.registered j <:+ s.handlers.order.map Prod.snd

theorem inv_init (next prev : ν → Option ν) (data : ν → δ) : Inv (St.init next prev data : St ι κ ν δ) where
  handlers := Mpscq.inv_init next prev data
  walks := fun _ => ⟨rfl, rfl⟩
  kept := fun _ => List.nil_suffix

variable [DecidableEq κ]

/-- Handlers that are added in front change nothing for a thread in the queue. -/
theorem Walks.mono {order order' : List (ν × δ)} {registered : List δ} {asked : List (δ × Result)} {pc : Pc ν}
    (h : Walks order registered asked pc) (ho : order <:+ order') : Walks order' registered asked pc := by
  cases pc with
  | idle => exact h
  | walk node =>
    obtain ⟨hf, rest, hrest, hnode, hreg⟩ := h
    exact ⟨hf, rest, hrest.trans ho, hnode, hreg⟩
  | done r b =>
    cases b with
    | false => exact h
    | true => exact h

omit [DecidableEq κ] in
theorem Inv.register (h : Inv s) {q : Mpscq.St ι ν δ} (hq : Mpscq.Inv q) (ho : s.handlers.order <:+ q.order) :
    Inv { s with handlers := q } where
  handlers := hq
  walks := fun j => (h.walks j).mono ho
  kept := fun j => (h.kept j).trans (ho.map Prod.snd)

/-- What another thread does in `prs_excp_raise` does not matter. -/
theorem Inv.thread (h : Inv s) {pc : Pc ν} {registered : List δ} {asked : List (δ × Result)}
    (hw : Walks s.handlers.order registered asked pc) (hk : registered <:+ s.handlers.order.map Prod.snd) :
    Inv { s with
      pc := update s.pc j pc, registered := update s.registered j registered, asked :=
      update s.asked j asked } where
  handlers := h.handlers
  walks := fun k => by
    by_cases hk : k = j
    · subst hk
      dsimp only
      rw [update_self, update_self, update_self]
      exact hw
    · dsimp only
      rw [update_of_ne hk, update_of_ne hk, update_of_ne hk]
      exact h.walks k
  kept := fun k => by
    by_cases hk : k = j
    · subst hk
      dsimp only
      rwa [update_self]
    · dsimp only
      rw [update_of_ne hk]
      exact h.kept k

section Queue

variable {q t : Mpscq.St ι ν δ} {i : ι} {n : ν} {d : δ}

/-- A producer keeps the queue, or adds the youngest node. -/
theorem push_suffix [DecidableEq ι] [Fintype ν] [DecidableEq ν] (hs : q.step (.push i n d) = some t) :
    q.order <:+ t.order := by
  simp only [Mpscq.St.step] at hs
  split at hs
  case h_2 => cases hs
  case h_1 =>
    obtain ⟨-, hs⟩ := Option.ite_none_left_eq_some.1 hs
    rw [← Option.some.inj hs]

theorem load_suffix [DecidableEq ι] [Fintype ν] [DecidableEq ν] (hs : q.step (.load i) = some t) :
    q.order <:+ t.order := by
  simp only [Mpscq.St.step] at hs
  split at hs
  case h_2 => cases hs
  case h_1 => rw [← Option.some.inj hs]

theorem cas_suffix [DecidableEq ι] [Fintype ν] [DecidableEq ν] {b : Bool} (hs : q.step (.cas i b) = some t) :
    q.order <:+ t.order := by
  simp only [Mpscq.St.step] at hs
  split at hs
  case h_2 => cases hs
  case h_1 n d _ =>
    split at hs
    case isTrue =>
      rw [← Option.some.inj hs]
      exact List.suffix_cons (n, d) q.order
    case isFalse => rw [← Option.some.inj hs]

/-- The link of a node in the queue is the node behind it. -/
theorem next_of_suffix {e : ν × δ} {rest : List (ν × δ)} (h : Mpscq.Inv q) (hr : e :: rest <:+ q.order) :
    q.live e.1 = true ∧ q.data e.1 = e.2 ∧ q.next e.1 = rest.head?.map Prod.fst := by
  obtain ⟨pre, hpre⟩ := hr
  obtain ⟨fresh, old, -, hc, -⟩ := h.chain
  have hmem : e ∈ q.order := by
    rw [← hpre]
    exact List.mem_append_right pre List.mem_cons_self
  have hl : Links q.next (q.order.map Prod.fst) := hc.links
  rw [← hpre, List.map_append, List.map_cons] at hl
  refine ⟨(h.data e hmem).1, (h.data e hmem).2, hl.next_eq.trans List.head?_map⟩

end Queue

section Runs

/-- A handler of the queue has returned. -/
theorem Inv.process (h : Inv s) {n : ν} (hpc : s.pc j = .walk (some n)) :
    s.handlers.live n = true ∧ Inv (s.process j n r) := by
  have hw := h.walks j
  rw [hpc] at hw
  obtain ⟨hf, rest, hrest, hnode, hreg⟩ := hw
  cases rest with
  | nil => cases hnode
  | cons e rest =>
    obtain rfl : n = e.1 := Option.some.inj hnode
    obtain ⟨hlive, hdata, hnext⟩ := next_of_suffix h.handlers hrest
    have hrest' : rest <:+ s.handlers.order := (List.suffix_cons e rest).trans hrest
    have hall : s.registered j = (s.asked j ++ [(e.2, r)]).map Prod.fst ++ rest.map Prod.snd := by
      rw [hreg]
      simp
    refine ⟨hlive, ?_⟩
    have hproc : s.process j e.1 r = { s with
        pc := update s.pc j (if r = .forward then .walk (rest.head?.map Prod.fst) else .done r false)
        registered := update s.registered j (s.registered j)
        asked := update s.asked j (s.asked j ++ [(e.2, r)]) } := by
      rw [St.process, hdata, hnext, update_eq_self]
    rw [hproc]
    apply h.thread _ (h.kept j)
    by_cases hr : r = .forward
    · rw [if_pos hr]
      refine ⟨?_, rest, hrest', rfl, hall⟩
      intro x hx
      obtain hx | hx := List.mem_append.1 hx
      · exact hf x hx
      · rw [List.mem_singleton.1 hx]
        exact hr
    · rw [if_neg hr]
      exact ⟨s.asked j, e.2, rest.map Prod.snd, rfl, hr, hf, hall⟩

theorem orExit_ne (r : Result) : (if r = .forward then .exit else r) ≠ Result.forward := by
  cases r <;> decide

theorem Inv.step [DecidableEq ι] [Fintype ν] [DecidableEq ν] {act : Act ι κ ν δ} (h : Inv s)
    (hs : s.step act = some s') : Inv s' := by
  cases act with
  | push i n d =>
    obtain ⟨q, hq, rfl⟩ := Option.map_eq_some_iff.1 hs
    exact h.register (h.handlers.push hq) (push_suffix hq)
  | load i =>
    obtain ⟨q, hq, rfl⟩ := Option.map_eq_some_iff.1 hs
    exact h.register (h.handlers.load hq) (load_suffix hq)
  | cas i b =>
    obtain ⟨q, hq, rfl⟩ := Option.map_eq_some_iff.1 hs
    exact h.register (h.handlers.cas hq) (cas_suffix hq)
  | raise j =>
    have hstart : Inv { s with
        pc := update s.pc j (.walk s.handlers.head)
        registered := update s.registered j (s.handlers.order.map Prod.snd)
        asked := update s.asked j [] } := by
      apply h.thread _ (List.suffix_refl _)
      obtain ⟨fresh, old, -, hc, -⟩ := h.handlers.chain
      exact ⟨nofun, s.handlers.order, List.suffix_refl _, hc.head.trans List.head?_map, rfl⟩
    simp only [St.step] at hs
    split at hs
    case h_1 => cases hs
    case h_2 =>
      rw [← Option.some.inj hs]
      exact hstart
  | call j r =>
    simp only [St.step] at hs
    split at hs
    case h_1 n hpc =>
      obtain ⟨hlive, hinv⟩ := h.process (r := r) hpc
      rw [if_pos hlive] at hs
      rw [← Option.some.inj hs]
      exact hinv
    case h_2 hpc =>
      -- all handlers have forwarded
      have hw := h.walks j
      rw [hpc] at hw
      obtain ⟨hf, rest, -, hnode, hreg⟩ := hw
      have hnil : rest = [] := List.head?_eq_none_iff.1 (Option.map_eq_none_iff.1 hnode.symm)
      rw [hnil, List.map_nil, List.append_nil] at hreg
      have hwalks : Walks s.handlers.order (s.registered j) (s.asked j)
        (.done (if r = .forward then .exit else r) true) :=
        ⟨orExit_ne r, hf, hreg⟩
      have hdone := h.thread (j := j) hwalks (h.kept j)
      rw [update_eq_self, update_eq_self] at hdone
      rw [← Option.some.inj hs]
      exact hdone
    case h_3 => cases hs

/-- **Handlers are called last in, first out.** In every state of every run, nothing has failed. What a thread
has called is the first of the handlers that were registered when it has raised the exception, the youngest
first, and all but the last have forwarded. It goes on while they do. When it is done, the last one has not
forwarded; or the default handler was called, and then all of them have. -/
theorem handlers_lifo [DecidableEq ι] [Fintype ν] [DecidableEq ν] (h : (sys ι κ ν δ).Reachable s) (j : κ) :
    s.handlers.failed = false ∧ s.registered j <:+ s.handlers.order.map Prod.snd ∧
      (s.asked j).map Prod.fst <+: s.registered j ∧ (∀ e ∈ (s.asked j).dropLast, e.2 = .forward) ∧
      (∀ node, s.pc j = .walk node → (∀ e ∈ s.asked j, e.2 = .forward) ∧
        (node = none → (s.asked j).map Prod.fst = s.registered j)) ∧
      (∀ r, s.pc j = .done r false → ∃ d, (s.asked j).getLast? = some (d, r) ∧ r ≠ .forward) ∧
      (∀ r, s.pc j = .done r true → (s.asked j).map Prod.fst = s.registered j ∧ r ≠ .forward ∧
        ∀ e ∈ s.asked j, e.2 = .forward) := by
  have hi : Inv s := by
    refine System.Reachable.inv ?_ (fun _ _ _ h hs => h.step hs) h
    rintro _ ⟨next, prev, data, rfl⟩
    exact inv_init next prev data
  have hw := hi.walks j
  -- where the thread is says what it has called: one case for each
  refine ⟨hi.handlers.failed, hi.kept j, ?_, ?_, ?_, ?_, ?_⟩
  · cases hpc : s.pc j with
    | idle =>
      rw [hpc] at hw
      rw [hw.1, hw.2]
      exact List.prefix_rfl
    | walk node =>
      rw [hpc] at hw
      obtain ⟨-, rest, -, -, hreg⟩ := hw
      rw [hreg]
      exact List.prefix_append ..
    | done r b =>
      rw [hpc] at hw
      cases b with
      | false =>
        obtain ⟨before, d, todo, -, -, -, hreg⟩ := hw
        rw [hreg]
        exact List.prefix_append ..
      | true =>
        rw [hw.2.2]
  · cases hpc : s.pc j with
    | idle =>
      rw [hpc] at hw
      rw [hw.1]
      exact nofun
    | walk node =>
      rw [hpc] at hw
      exact fun e he => hw.1 e (List.dropLast_subset _ he)
    | done r b =>
      rw [hpc] at hw
      cases b with
      | false =>
        obtain ⟨before, d, todo, hasked, -, hf, -⟩ := hw
        rw [hasked, List.dropLast_concat]
        exact hf
      | true => exact fun e he => hw.2.1 e (List.dropLast_subset _ he)
  · intro node hpc
    rw [hpc] at hw
    obtain ⟨hf, rest, -, hnode, hreg⟩ := hw
    refine ⟨hf, ?_⟩
    rintro rfl
    have hnil : rest = [] := List.head?_eq_none_iff.1 (Option.map_eq_none_iff.1 hnode.symm)
    rw [hreg, hnil, List.map_nil, List.append_nil]
  · intro r hpc
    rw [hpc] at hw
    obtain ⟨before, d, todo, hasked, hr, -, -⟩ := hw
    rw [hasked, List.getLast?_concat]
    exact ⟨d, rfl, hr⟩
  · intro r hpc
    rw [hpc] at hw
    exact ⟨hw.2.2.symm, hw.1, hw.2.1⟩

/-- Three handlers are registered, the last of them during the exception. -/
theorem handlers_lifo_three : ∃ s, (sys (Fin 1) (Fin 1) (Fin 3) ℕ).Reachable s ∧
    s.asked 0 = [(8, .forward), (7, .killTask)] ∧
    s.registered 0 = [8, 7] ∧ s.handlers.order.map Prod.snd = [9, 8, 7] ∧
    ∃ d, (s.asked 0).getLast? = some (d, Result.killTask) ∧ Result.killTask ≠ .forward := by
  obtain ⟨s, hs, hpc, ha, hr, ho⟩ := System.exists_of_check (sys (Fin 1) (Fin 1) (Fin 3) ℕ) (fun _ _ => True)
    (fun s => s.pc 0 = .done .killTask false ∧ s.asked 0 = [(8, .forward), (7, .killTask)] ∧
      s.registered 0 = [8, 7] ∧ s.handlers.order.map Prod.snd = [9, 8, 7])
    (.init (fun _ => none) (fun _ => none) fun _ => 0) ⟨_, _, _, rfl⟩
    [.push 0 0 7, .load 0, .cas 0 false, .push 0 1 8, .load 0, .cas 0 false, .raise 0, .push 0 2 9, .load 0,
      .call 0 .forward, .cas 0 false, .call 0 .killTask] (by decide +kernel)
  exact ⟨s, hs, ha, hr, ho, (handlers_lifo hs 0).2.2.2.2.2.1 _ hpc⟩

end Runs

end Prs.Excp
