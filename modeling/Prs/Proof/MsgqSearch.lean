import Mathlib.Data.List.Find
import Prs.Model.Msgq
import Prs.Proof.MpsciqList

/-!
# Selective receive

`hint` is the last node that a search without a result has looked at. It stays in the queue until the receive
returns, and neither it nor a node before it matches, since messages are added at the other end only. So a
search that starts there finds what a search from the oldest node finds.

* `Mail`: the invariant of the queue, the hint and the message that was found.
* `Mail.search`: a search from the hint returns the oldest message that matches.
* `Change`: what a step does to the queue. A message that is received is the one that was found.
-/

namespace Prs.Msgq

open Function

variable {ι ν μ : Type} {s s' : St ι ν μ} {b b' : Box ι ν μ}
  {l l' : Local ν μ}

/-! ## The search -/

/-- **The loop finds the first node that matches.** -/
theorem searchLoop_spec {next : ν → Option ν} {ok : ν → Bool} {nodes : List ν} {fuel : ℕ} (hl : Links next nodes)
    (hf : nodes.length ≤ fuel) (prev : Option ν) :
    ∃ last, searchLoop next ok fuel prev nodes.head? = some (nodes.find? ok, last) ∧
      (nodes.find? ok = none → last = nodes.getLast?.or prev) := by
  induction nodes generalizing fuel prev with
  | nil => exact ⟨prev, by cases fuel <;> rfl, fun _ => rfl⟩
  | cons n nodes ih =>
    obtain ⟨fuel, rfl⟩ : ∃ k, fuel = k + 1 := ⟨fuel - 1, by simp only [List.length_cons] at hf; omega⟩
    simp only [List.head?_cons, searchLoop]
    by_cases hn : ok n = true
    · rw [if_pos hn, List.find?_cons_of_pos hn]
      exact ⟨prev, rfl, fun h => by cases h⟩
    · rw [if_neg hn, List.find?_cons_of_neg hn, hl.1]
      obtain ⟨last, h1, h2⟩ := ih hl.2 (by simpa using hf) (some n)
      refine ⟨last, h1, fun hnone => ?_⟩
      rw [h2 hnone, List.getLast?_cons]
      cases nodes.getLast? <;> rfl

/-- The messages of the queue, the oldest first. -/
def Box.msgs (b : Box ι ν μ) : List ν := b.queue.order.reverse

/-- Whether the message matches. -/
def Box.fits (b : Box ι ν μ) (function : Option (μ → Bool)) (n : ν) : Bool := accepts function (b.data n)

/-- The oldest message that matches. -/
def Box.oldest (b : Box ι ν μ) (function : Option (μ → Bool)) : Option ν := b.msgs.find? (b.fits function)

/-- **The queue, the hint and the message of a receive.** -/
structure Mail (b : Box ι ν μ) (l : Local ν μ) : Prop where
  queue : Mpsciq.Inv b.queue
  hint : ∀ h, l.hint = some h → ∃ pre post, b.msgs = pre ++ h :: post ∧ ∀ n ∈ pre, b.fits l.function n = false
  msg : ∀ n, l.msg = some n → b.oldest l.function = some n
  sorted : (b.msgs.map b.num).Pairwise (· < ·)
  all : (b.received ++ b.msgs.map b.num).Perm (List.range b.sends)

/-- **A search from the hint** returns what a search from the oldest node returns. -/
theorem Mail.search [Fintype ι] [DecidableEq ι] [Fintype ν] [DecidableEq ν] (h : Mail b l)
    (hr : b.queue.removing = none) :
    ∃ r, b.search l.function l.hint = some r ∧ r.2.1 = b.oldest l.function ∧
      Mail r.1 { l with msg := r.2.1, hint := r.2.2 } ∧ r.1.queue.order = b.queue.order ∧
      r.1.queue.pc = b.queue.pc ∧ r.1.queue.removing = none ∧ r.1.data = b.data ∧
      r.1.num = b.num ∧ r.1.sends = b.sends ∧ r.1.received = b.received := by
  obtain ⟨q, hq, horder, hrm, hpc, hhead, hlinks⟩ := h.queue.begin_spec hr
  change Links q.prev b.msgs at hlinks
  -- the node that the loop starts at, and what it goes through from there
  obtain ⟨pre, nodes, hsplit, hnode, hpre⟩ : ∃ pre nodes, b.msgs = pre ++ nodes ∧
    l.hint.or q.reverseHead = nodes.head? ∧ ∀ n ∈ pre, b.fits l.function n = false := by
    cases hh : l.hint with
    | none =>
      refine ⟨[], b.msgs, rfl, ?_, fun n hn => absurd hn List.not_mem_nil⟩
      rw [Option.none_or, hhead, Box.msgs, List.head?_reverse]
    | some n =>
      obtain ⟨pre, post, h1, h2⟩ := h.hint n hh
      exact ⟨pre, n :: post, h1, rfl, h2⟩
  rw [hsplit] at hlinks
  have hlen : nodes.length ≤ Fintype.card ν := by
    have hnd : (pre ++ nodes).Nodup := hsplit ▸ List.nodup_reverse.2 h.queue.nodup
    exact (List.nodup_append.1 hnd).2.1.length_le_card
  have hold : nodes.find? (b.fits l.function) = b.oldest l.function := by
    have hnone : pre.find? (b.fits l.function) = none :=
      List.find?_eq_none.2 fun n hn => by simp [hpre n hn]
    rw [Box.oldest, hsplit, List.find?_append, hnone, Option.none_or]
  obtain ⟨last, hloop, hlast⟩ := searchLoop_spec (Links.suffix hlinks) hlen nodes.head?
  refine ⟨({ b with queue := q }, b.oldest l.function, if b.oldest l.function = none then last else l.hint),
    ?_, rfl, ?_, horder, hpc, hrm, rfl, rfl, rfl, rfl⟩
  · simp only [Box.search, hq, Option.bind_some, hnode]
    rw [← hold]
    exact Option.map_eq_some_iff.2 ⟨_, hloop, rfl⟩
  · have hmsgs : Box.msgs { b with queue := q } = b.msgs := by rw [Box.msgs, Box.msgs, horder]
    constructor
    case queue => exact h.queue.step hq
    case hint =>
      intro n hn
      simp only at hn
      rw [hmsgs]
      by_cases hnone : b.oldest l.function = none
      · rw [if_pos hnone, hlast (hold.trans hnone)] at hn
        have hall := List.find?_eq_none.1 hnone
        obtain ⟨pre', hp⟩ : ∃ pre', b.msgs = pre' ++ [n] := by
          cases nodes with
          | nil => cases hn
          | cons a nodes =>
            rw [List.getLast?_cons, Option.some_or] at hn
            obtain ⟨pre', hp⟩ := List.getLast?_eq_some_iff.1 (List.getLast?_cons.trans hn)
            exact ⟨pre ++ pre', by rw [hsplit, hp, List.append_assoc]⟩
        refine ⟨pre', [], hp, fun x hx => ?_⟩
        exact Bool.eq_false_iff.2 (hall x (hp ▸ List.mem_append_left _ hx))
      · rw [if_neg hnone] at hn
        exact h.hint n hn
    case msg =>
      intro n hn
      rw [Box.oldest, hmsgs]
      exact hn
    case sorted =>
      rw [hmsgs]
      exact h.sorted
    case all =>
      rw [hmsgs]
      exact h.all

/-! ## The steps -/

/-- A message outside the queue is written. -/
theorem Mail.write [DecidableEq ν] (h : Mail b l) {n : ν} (hn : n ∉ b.queue.order) (m : μ) :
    Mail { b with data := update b.data n m } l := by
  have hfits : ∀ x ∈ b.msgs, Box.fits { b with data := update b.data n m } l.function x =
    b.fits l.function x := by
    intro x hx
    have hne : x ≠ n := by
      rintro rfl
      exact hn (List.mem_reverse.1 hx)
    simp only [Box.fits, update_of_ne hne]
  refine ⟨h.queue, fun k hk => ?_, fun k hk => ?_, h.sorted, h.all⟩
  · obtain ⟨pre, post, h1, h2⟩ := h.hint k hk
    exact ⟨pre, post, h1, fun x hx => (hfits x (h1 ▸ List.mem_append_left _ hx)).trans (h2 x hx)⟩
  · rw [← h.msg k hk]
    exact List.find?_congr hfits

theorem Mail.loc (h : Mail b l) (hf : l'.function = l.function) (hh : l'.hint = l.hint)
    (hm : l'.msg = l.msg) : Mail b l' := by
  refine ⟨h.queue, ?_, ?_, h.sorted, h.all⟩
  · rw [hf, hh]
    exact h.hint
  · rw [hf, hm]
    exact h.msg

/-- A receive starts or returns: nothing was searched for yet. -/
theorem Mail.fresh (h : Mail b l) (hh : l'.hint = none) (hm : l'.msg = none) : Mail b l' := by
  refine ⟨h.queue, fun n hn => ?_, fun n hn => ?_, h.sorted, h.all⟩
  · rw [hh] at hn
    cases hn
  · rw [hm] at hn
    cases hn

/-- A step of the queue that keeps its nodes. -/
theorem Mail.same (h : Mail b l) {q : Mpsciq.St ι ν} (hq : Mpsciq.Inv q) (ho : q.order = b.queue.order) :
    Mail { b with queue := q } l := by
  have hmsgs : Box.msgs { b with queue := q } = b.msgs := by rw [Box.msgs, Box.msgs, ho]
  refine ⟨hq, ?_, ?_, ?_, ?_⟩
  · rw [hmsgs]
    exact h.hint
  · unfold Box.oldest
    rw [hmsgs]
    exact h.msg
  · rw [hmsgs]
    exact h.sorted
  · rw [hmsgs]
    exact h.all

theorem Mail.lt_sends (h : Mail b l) {n : ν} (hn : n ∈ b.queue.order) : b.num n < b.sends := by
  have hm : b.num n ∈ b.received ++ b.msgs.map b.num :=
    List.mem_append_right _ (List.mem_map_of_mem (List.mem_reverse.2 hn))
  exact List.mem_range.1 (h.all.mem_iff.1 hm)

/-- A message is pushed. -/
theorem Mail.push [DecidableEq ν] (h : Mail b l) {q : Mpsciq.St ι ν} {n : ν} (hq : Mpsciq.Inv q)
    (ho : q.order = n :: b.queue.order) :
    Mail { b with queue := q, num := update b.num n b.sends, sends := b.sends + 1 } l := by
  have hn : n ∉ b.queue.order := (List.nodup_cons.1 (ho ▸ hq.nodup)).1
  have hmsgs : q.order.reverse = b.msgs ++ [n] := by rw [ho, List.reverse_cons, Box.msgs]
  have hnum : (b.msgs ++ [n]).map (update b.num n b.sends) = b.msgs.map b.num ++ [b.sends] := by
    rw [List.map_append, List.map_cons, update_self, List.map_nil]
    congr 1
    refine List.map_congr_left fun x hx => update_of_ne ?_ _ _
    rintro rfl
    exact hn (List.mem_reverse.1 hx)
  refine ⟨hq, fun k hk => ?_, fun k hk => ?_, ?_, ?_⟩
  · obtain ⟨pre, post, h1, h2⟩ := h.hint k hk
    refine ⟨pre, post ++ [n], ?_, h2⟩
    rw [Box.msgs, hmsgs, h1, List.append_assoc, List.cons_append]
  · have hold := h.msg k hk
    unfold Box.oldest at hold ⊢
    rw [Box.msgs, hmsgs, List.find?_append]
    change (b.msgs.find? (b.fits l.function)).or _ = _
    rw [hold, Option.some_or]
  · rw [Box.msgs, hmsgs, hnum, List.pairwise_append]
    refine ⟨h.sorted, List.pairwise_singleton _ _, fun x hx y hy => ?_⟩
    obtain ⟨m, hm, rfl⟩ := List.mem_map.1 hx
    rw [List.mem_singleton.1 hy]
    exact h.lt_sends (List.mem_reverse.1 hm)
  · rw [Box.msgs, hmsgs, hnum, ← List.append_assoc, List.range_succ]
    exact h.all.append_right _

/-- A message is received. -/
theorem Mail.take [DecidableEq ν] (h : Mail b l) {q : Mpsciq.St ι ν} {n : ν} (hq : Mpsciq.Inv q)
    (hn : n ∈ b.queue.order) (ho : q.order = b.queue.order.erase n) :
    Mail { b with queue := q, received := b.received ++ [b.num n] } (.none : Local ν μ) := by
  have hsub : q.order.reverse.Sublist b.msgs := by
    rw [ho]
    exact List.Sublist.reverse List.erase_sublist
  have hperm : (b.num n :: q.order.reverse.map b.num).Perm (b.msgs.map b.num) := by
    have hp : (n :: q.order.reverse).Perm b.msgs := by
      rw [ho]
      exact ((List.reverse_perm _).cons n).trans ((List.perm_cons_erase hn).symm.trans (List.reverse_perm _).symm)
    exact hp.map b.num
  refine ⟨hq, fun _ hn => (by cases hn), fun _ hn => (by cases hn), h.sorted.sublist (hsub.map _), ?_⟩
  rw [List.append_assoc]
  exact (hperm.append_left b.received).trans h.all

/-- **The queue in a state of the system**: with its senders, and the removal of the message. -/
structure Sound (s : St ι ν μ) : Prop where
  mail : Mail s.box s.loc
  pushing : ∀ i n, s.pc i = .push n ↔ (s.box.queue.pc i).node = some n
  removing : s.box.queue.removing = if s.own = .removing then s.loc.msg else none

theorem sound_init [DecidableEq ι] [DecidableEq ν] (data : ν → μ) : Sound (.init data : St ι ν μ) where
  mail := ⟨Mpsciq.inv_init, fun _ h => (by cases h), fun _ h => (by cases h), .nil, .refl _⟩
  pushing := fun i n => by simp [St.init, Mpsciq.St.init, Mpsciq.Pc.node]
  removing := rfl

theorem Sound.removing_none (h : Sound s) (ho : s.own ≠ .removing) : s.box.queue.removing = none := by
  rw [h.removing, if_neg ho]

/-- A step that leaves the queue and the senders as they are. -/
theorem Sound.keep (h : Sound s) (hm : Mail s'.box s'.loc) (hq : s'.box.queue = s.box.queue) (hpc : s'.pc = s.pc)
    (ho : s.own ≠ .removing) (ho' : s'.own ≠ .removing) : Sound s' := by
  refine ⟨hm, ?_, ?_⟩
  · rw [hpc, hq]
    exact h.pushing
  · rw [if_neg ho', hq]
    exact h.removing_none ho

/-- What a step of `prs_msgq_send` changes after the push. -/
theorem stepSend_other [Fintype ι] [DecidableEq ι] [Fintype ν] [DecidableEq ν] {i : ι} {c : Bool}
    (hs : s.stepSend i c = some s') (hp : ∀ n, s.pc i ≠ .push n) :
    s'.box = s.box ∧ s'.loc = s.loc ∧ s'.own = s.own ∧ s'.sent = s.sent ∧ s'.filterId = s.filterId ∧
      s'.created = s.created ∧ s'.timer = s.timer ∧ ∃ p, s'.pc = update s.pc i p ∧ ∀ n, p ≠ .push n := by
  unfold St.stepSend at hs
  split at hs
  case h_1 => cases hs
  case h_2 n hn => exact absurd hn (hp n)
  all_goals
    repeat' split at hs
    all_goals
      rw [← Option.some.inj hs]
      exact ⟨rfl, rfl, rfl, rfl, rfl, rfl, rfl, _, rfl, fun n hn => by cases hn⟩

/-- A step of `prs_mpsciq_push`: the message is not in the queue yet, or it is the youngest now. -/
theorem Sound.stepPush [Fintype ι] [DecidableEq ι] [Fintype ν] [DecidableEq ν] (h : Sound s) {i : ι} {n : ν}
    {c : Bool} (hi : s.pc i = .push n) (hs : s.stepPush i n c = some s') :
    (∃ a q, s.box.queue.step a = some q ∧ Mpsciq.Same s.box.queue q ∧
      s' = { s with box := { s.box with queue := q } }) ∨
      ∃ a q, s.box.queue.step a = some q ∧ q.order = n :: s.box.queue.order ∧ q.removing = s.box.queue.removing ∧
        q.pc = update s.box.queue.pc i .idle ∧
        s' = { s with
          box := { s.box with queue := q, num := update s.box.num n s.box.sends, sends := s.box.sends + 1 }
          sent := update s.sent i s.box.sends
          pc := update s.pc i (.load n) } := by
  unfold St.stepPush at hs
  split at hs
  · obtain ⟨q, hq, rfl⟩ := Option.map_eq_some_iff.1 hs
    exact .inl ⟨_, q, hq, Mpsciq.load_same hq, rfl⟩
  · obtain ⟨q, hq, rfl⟩ := Option.map_eq_some_iff.1 hs
    rcases Mpsciq.cas_cases hq with ⟨hsame, hne⟩ | ⟨m, hm, ho, hr, hpc⟩
    · rw [if_neg hne]
      exact .inl ⟨_, q, hq, hsame, rfl⟩
    · have hnode := (h.pushing i n).1 hi
      rw [hm] at hnode
      have hidle : q.pc i = .idle := by rw [hpc, update_self]
      rw [if_pos hidle]
      exact .inr ⟨_, q, hq, (Option.some.inj hnode) ▸ ho, hr, hpc, rfl⟩

theorem Sound.send [Fintype ι] [DecidableEq ι] [Fintype ν] [DecidableEq ν] (h : Sound s) {i : ι} {c : Bool}
    (hs : s.stepSend i c = some s') : Sound s' := by
  by_cases hp : ∃ n, s.pc i = .push n
  · obtain ⟨n, hn⟩ := hp
    simp only [St.stepSend, hn] at hs
    rcases h.stepPush hn hs with ⟨a, q, hq, hsame, rfl⟩ | ⟨a, q, hq, ho, hr, hpc, rfl⟩
    · refine ⟨h.mail.same (h.mail.queue.step hq) hsame.order, fun j m => ?_, hsame.removing.trans h.removing⟩
      rw [hsame.node j]
      exact h.pushing j m
    · refine ⟨h.mail.push (h.mail.queue.step hq) ho, fun j m => ?_, hr.trans h.removing⟩
      simp only [hpc]
      by_cases hj : j = i
      · rw [hj, update_self, update_self]
        simp [Mpsciq.Pc.node]
      · rw [update_of_ne hj, update_of_ne hj]
        exact h.pushing j m
  · have hp' : ∀ n, s.pc i ≠ .push n := fun n hn => hp ⟨n, hn⟩
    obtain ⟨hb, hl, ho, -, -, -, -, p, hpc, hpp⟩ := stepSend_other hs hp'
    refine ⟨hb ▸ hl ▸ h.mail, fun j m => ?_, by rw [hb, ho, hl]; exact h.removing⟩
    rw [hb, ← h.pushing j m, hpc]
    by_cases hj : j = i
    · rw [hj, update_self]
      exact iff_of_false (hpp m) (hp' m)
    · rw [update_of_ne hj]

/-- What a search has returned is stored. -/
theorem Sound.found [Fintype ι] [DecidableEq ι] [Fintype ν] [DecidableEq ν] (h : Sound s)
    (ho : s.own ≠ .removing) {r : Box ι ν μ × Option ν × Option ν}
    (hr : s.box.search s.loc.function s.loc.hint = some r) : Sound (s.found r) := by
  obtain ⟨r', hr', -, hm, -, hpc, hrm, -⟩ := h.mail.search (h.removing_none ho)
  obtain rfl := Option.some.inj (hr.symm.trans hr')
  refine ⟨hm, fun i n => ?_, ?_⟩
  · change _ ↔ (r.1.queue.pc i).node = some n
    rw [hpc]
    exact h.pushing i n
  · change r.1.queue.removing = if s.own = .removing then _ else none
    rw [if_neg ho, hrm]

theorem Sound.done (h : Sound s) (ho : s.own ≠ .removing) : Sound s.done :=
  h.keep (h.mail.fresh rfl rfl) rfl rfl ho (fun hd => by cases hd)

theorem Sound.loop (h : Sound s) (ho : s.own ≠ .removing) : Sound s.loop := by
  unfold St.loop
  split
  · exact h.keep h.mail rfl rfl ho (fun hd => by cases hd)
  · split
    · exact h.done ho
    · exact h.keep (h.mail.loc rfl rfl rfl) rfl rfl ho (fun hd => by cases hd)

/-- The message is out of the queue. -/
theorem Sound.take [Fintype ι] [DecidableEq ι] [Fintype ν] [DecidableEq ν] (h : Sound s) {a : Mpsciq.Act ι ν}
    {q : Mpsciq.St ι ν} {n : ν} (hq : s.box.queue.step a = some q) (hn : n ∈ s.box.queue.order)
    (hpc : q.pc = s.box.queue.pc) (hr : q.removing = none) (ho : q.order = s.box.queue.order.erase n) :
    Sound (s.take q n) := by
  refine ⟨h.mail.take (h.mail.queue.step hq) hn ho, fun i m => ?_, hr⟩
  change _ ↔ (q.pc i).node = some m
  rw [hpc]
  exact h.pushing i m

/-- The message of the receive is in the queue. -/
theorem Sound.mem (h : Sound s) {n : ν} (hn : s.loc.msg = some n) : n ∈ s.box.queue.order :=
  List.mem_reverse.1 (List.mem_of_find?_eq_some (h.mail.msg n hn))

/-- A step that only moves the receiver on, with other locals. -/
theorem Sound.goto (h : Sound s) {o : Own} (ho : s.own = o) (hb : s'.box = s.box) (hpc : s'.pc = s.pc)
    (hf : s'.loc.function = s.loc.function) (hh : s'.loc.hint = s.loc.hint) (hm : s'.loc.msg = s.loc.msg)
    (hne : o ≠ .removing) (ho' : s'.own ≠ .removing) : Sound s' :=
  h.keep (hb ▸ h.mail.loc hf hh hm) (congrArg Box.queue hb) hpc (ho ▸ hne) ho'

theorem Sound.own [Fintype ι] [DecidableEq ι] [Fintype ν] [DecidableEq ν] (h : Sound s)
    (hs : s.stepOwn = some s') : Sound s' := by
  cases ho : s.own <;> simp only [St.stepOwn, ho] at hs
  case search =>
    obtain ⟨r, hr, rfl⟩ := Option.map_eq_some_iff.1 hs
    have hne : s.own ≠ .removing := by rw [ho]; decide
    exact (h.found hne hr).loop hne
  case again =>
    obtain ⟨r, hr, rfl⟩ := Option.map_eq_some_iff.1 hs
    have hne : s.own ≠ .removing := by rw [ho]; decide
    have hf := h.found hne hr
    exact hf.keep hf.mail rfl rfl hne (by simp only; split <;> decide)
  case cause =>
    have hne : s.own ≠ .removing := by rw [ho]; decide
    split at hs
    · obtain ⟨r, hr, rfl⟩ := Option.map_eq_some_iff.1 hs
      have hf := h.found hne hr
      exact hf.keep hf.mail rfl rfl hne (fun hd => by cases hd)
    · rw [← Option.some.inj hs]
      exact h.goto ho rfl rfl rfl rfl rfl (by decide) (fun hd => by cases hd)
  case unlock =>
    have hne : s.own ≠ .removing := by rw [ho]; decide
    have hp : Sound { s with pd := (s.pd.unlock s.loc.filter).1 } := h.keep h.mail rfl rfl hne hne
    rw [← Option.some.inj hs]
    split
    · exact hp.done hne
    · exact hp.loop hne
  case remove =>
    obtain ⟨n, hn, hs⟩ := Option.bind_eq_some_iff.1 hs
    obtain ⟨q, hq, rfl⟩ := Option.map_eq_some_iff.1 hs
    obtain ⟨hpc, ⟨hr, hord, -⟩ | ⟨hr, hord, -⟩⟩ := h.mail.queue.remove_spec hq
    · rw [if_pos hr]
      refine ⟨h.mail.same (h.mail.queue.step hq) hord, fun i m => ?_, hr.trans hn.symm⟩
      change _ ↔ (q.pc i).node = some m
      rw [hpc]
      exact h.pushing i m
    · rw [if_neg (by rw [hr]; exact fun hd => by cases hd)]
      exact h.take hq (h.mem hn) hpc hr hord
  case removing =>
    obtain ⟨n, hn, hs⟩ := Option.bind_eq_some_iff.1 hs
    obtain ⟨q, hq, rfl⟩ := Option.map_eq_some_iff.1 hs
    have hrm : s.box.queue.removing = some n := by rw [h.removing, if_pos ho, hn]
    obtain ⟨hpc, hr, hord⟩ := h.mail.queue.removeCas_spec hrm hq
    exact h.take hq (h.mem hn) hpc hr hord
  case unblock early =>
    split at hs
    · rw [← Option.some.inj hs]
      exact h.goto ho rfl rfl rfl rfl rfl (fun hd => by cases hd) (fun hd => by cases hd)
    · rw [← Option.some.inj hs]
      refine h.goto ho rfl rfl rfl rfl rfl (fun hd => by cases hd) ?_
      simp only
      split <;> decide
  -- the other steps do not touch the queue
  all_goals
    repeat' split at hs
    all_goals
      first
      | rw [← Option.some.inj hs]
        exact h.goto ho rfl rfl rfl rfl rfl (fun hd => by cases hd) (fun hd => by cases hd)
      | cases hs

theorem Sound.step [Fintype ι] [DecidableEq ι] [Fintype ν] [DecidableEq ν] (h : Sound s) {a : Act ι ν μ}
    (hs : s.step a = some s') : Sound s' := by
  cases a <;> simp only [St.step] at hs
  case write n m =>
    obtain ⟨hf, rfl⟩ := Option.ite_none_right_eq_some.1 hs |>.imp_right Option.some.inj
    exact ⟨h.mail.write hf.1 m, h.pushing, h.removing⟩
  case send i n =>
    obtain ⟨hi, hs⟩ := Option.ite_none_right_eq_some.1 hs
    obtain ⟨q, hq, rfl⟩ := Option.map_eq_some_iff.1 hs
    have hinv := h.mail.queue.step hq
    obtain ⟨-, rfl⟩ := Mpsciq.push_eq hq
    refine ⟨h.mail.same hinv rfl, fun j m => ?_, h.removing⟩
    by_cases hj : j = i
    · simp only [hj, update_self, Mpsciq.Pc.node, Pc.push.injEq, Option.some.injEq]
    · simp only [update_of_ne hj]
      exact h.pushing j m
  case step i c => exact h.send hs
  case recv f u t =>
    obtain ⟨ho, rfl⟩ := Option.ite_none_right_eq_some.1 hs |>.imp_right Option.some.inj
    exact h.keep (h.mail.fresh rfl rfl) rfl rfl (by rw [ho]; decide) (fun hd => by cases hd)
  case own => exact h.own hs
  case create id =>
    obtain ⟨⟨ho, -⟩, hs⟩ := Option.ite_none_right_eq_some.1 hs
    obtain ⟨pd, -, rfl⟩ := Option.map_eq_some_iff.1 hs
    exact h.goto ho rfl rfl rfl rfl rfl (by decide) (fun hd => by cases hd)
  case woken diff =>
    obtain ⟨ho, hs⟩ := Option.ite_none_right_eq_some.1 hs
    split at hs
    · rw [← Option.some.inj hs]
      exact h.goto ho rfl rfl rfl rfl rfl (by decide) (fun hd => by cases hd)
    · rw [← Option.some.inj hs]
      exact h.goto ho rfl rfl rfl rfl rfl (by decide) (fun hd => by cases hd)
  case expire e =>
    split at hs
    · rw [← Option.some.inj hs]
      exact ⟨h.mail, h.pushing, h.removing⟩
    · cases hs
  case discard e =>
    obtain ⟨-, rfl⟩ := Option.ite_none_right_eq_some.1 hs |>.imp_right Option.some.inj
    exact ⟨h.mail, h.pushing, h.removing⟩
  case timer e =>
    unfold St.stepTimer at hs
    repeat' split at hs
    all_goals
      first
      | rw [← Option.some.inj hs]
        exact ⟨h.mail, h.pushing, h.removing⟩
      | cases hs

/-! ## What a step does to the queue -/

/-- The next step of the receiver takes message `n` out of the queue. -/
def St.Removes (s : St ι ν μ) (n : ν) : Prop :=
  s.loc.msg = some n ∧ (s.own = .removing ∨ s.own = .remove ∧ s.box.queue.head ≠ some n)

instance [DecidableEq ν] (n : ν) : Decidable (s.Removes n) := inferInstanceAs (Decidable (_ ∧ _))

/-- The step is one of a sender. -/
def Act.sends : Act ι ν μ → Bool
  | .send _ _ => true
  | .step _ _ => true
  | _ => false

/-- **What a step does to the queue.** -/
inductive Change [DecidableEq ν] [DecidableEq ι] (s : St ι ν μ) (a : Act ι ν μ) (s' : St ι ν μ) : Prop
  | same (order : s'.box.queue.order = s.box.queue.order) (num : s'.box.num = s.box.num)
  (sends : s'.box.sends = s.box.sends)
      (received : s'.box.received = s.box.received) (sent : s'.sent = s.sent)
      (pc : a.sends = false → s'.pc = s.pc) (quiet : ∀ n, a = .own → ¬ s.Removes n)
  | push (i : ι) (n : ν) (pc : s.pc i = .push n) (pc' : s'.pc = update s.pc i (.load n))
      (order : s'.box.queue.order = n :: s.box.queue.order) (num : s'.box.num = update s.box.num n s.box.sends)
      (sends : s'.box.sends = s.box.sends + 1) (received : s'.box.received = s.box.received)
      (sent : s'.sent = update s.sent i s.box.sends) (act : a.sends = true)
  | take (n : ν) (own : a = .own) (removes : s.Removes n) (order : s'.box.queue.order = s.box.queue.order.erase n)
      (num : s'.box.num = s.box.num) (sends : s'.box.sends = s.box.sends)
      (received : s'.box.received = s.box.received ++ [s.box.num n]) (sent : s'.sent = s.sent) (pc : s'.pc = s.pc)

theorem loop_box : s.loop.box = s.box ∧ s.loop.sent = s.sent ∧ s.loop.pc = s.pc := by
  unfold St.loop
  repeat' split
  all_goals exact ⟨rfl, rfl, rfl⟩

theorem not_removes {o : Own} (ho : s.own = o) (h1 : o ≠ .removing) (h2 : o ≠ .remove) (n : ν) :
    ¬ s.Removes n := by
  rintro ⟨-, hd | ⟨hd, -⟩⟩
  · exact h1 (ho.symm.trans hd)
  · exact h2 (ho.symm.trans hd)

/-- A step of the receiver that does not touch the queue, or only searches it. -/
theorem Sound.idleChange [Fintype ι] [DecidableEq ι] [Fintype ν] [DecidableEq ν] (h : Sound s) {o : Own}
    (ho : s.own = o) (h1 : o ≠ .removing) (h2 : o ≠ .remove) {s₁ : St ι ν μ} (hb : s₁.box = s.box ∨ ∃ r,
      s.box.search s.loc.function s.loc.hint = some r ∧ s₁.box = r.1) (hsent : s₁.sent = s.sent)
    (hpc : s₁.pc = s.pc) : Change s .own s₁ := by
  have hq := not_removes ho h1 h2
  rcases hb with hb | ⟨r, hr, hb⟩
  · exact .same (by rw [hb]) (by rw [hb]) (by rw [hb]) (by rw [hb]) hsent (fun _ => hpc) fun n _ => hq n
  · obtain ⟨r', hr', -, -, hord, -, -, -, hnum, hsends, hrec⟩ := h.mail.search (h.removing_none (ho ▸ h1))
    obtain rfl := Option.some.inj (hr.symm.trans hr')
    exact .same (by rw [hb, hord]) (by rw [hb, hnum]) (by rw [hb, hsends]) (by rw [hb, hrec]) hsent
      (fun _ => hpc) fun n _ => hq n

theorem Sound.own_change [Fintype ι] [DecidableEq ι] [Fintype ν] [DecidableEq ν] (h : Sound s)
    (hs : s.stepOwn = some s') : Change s .own s' := by
  cases ho : s.own <;> simp only [St.stepOwn, ho] at hs
  case search =>
    obtain ⟨r, hr, rfl⟩ := Option.map_eq_some_iff.1 hs
    exact h.idleChange ho (by decide) (by decide) (.inr ⟨r, hr, loop_box.1⟩) loop_box.2.1 loop_box.2.2
  case again =>
    obtain ⟨r, hr, rfl⟩ := Option.map_eq_some_iff.1 hs
    exact h.idleChange ho (by decide) (by decide) (.inr ⟨r, hr, rfl⟩) rfl rfl
  case cause =>
    split at hs
    · obtain ⟨r, hr, rfl⟩ := Option.map_eq_some_iff.1 hs
      exact h.idleChange ho (by decide) (by decide) (.inr ⟨r, hr, rfl⟩) rfl rfl
    · rw [← Option.some.inj hs]
      exact h.idleChange ho (by decide) (by decide) (.inl rfl) rfl rfl
  case unlock =>
    rw [← Option.some.inj hs]
    split
    · exact h.idleChange ho (by decide) (by decide) (.inl rfl) rfl rfl
    · exact h.idleChange ho (by decide) (by decide) (.inl loop_box.1) loop_box.2.1 loop_box.2.2
  case remove =>
    obtain ⟨n, hn, hs⟩ := Option.bind_eq_some_iff.1 hs
    obtain ⟨q, hq, rfl⟩ := Option.map_eq_some_iff.1 hs
    obtain ⟨-, ⟨hr, hord, hhead⟩ | ⟨hr, hord, hhead⟩⟩ := h.mail.queue.remove_spec hq
    · rw [if_pos hr]
      refine .same hord rfl rfl rfl rfl (fun _ => rfl) fun m _ hm => ?_
      rcases hm with ⟨hm, hd | ⟨-, hd⟩⟩
      · rw [ho] at hd
        cases hd
      · rw [hm] at hn
        exact hd (hn ▸ hhead)
    · rw [if_neg (by rw [hr]; exact fun hd => by cases hd)]
      exact .take n rfl ⟨hn, .inr ⟨ho, hhead⟩⟩ hord rfl rfl rfl rfl rfl
  case removing =>
    obtain ⟨n, hn, hs⟩ := Option.bind_eq_some_iff.1 hs
    obtain ⟨q, hq, rfl⟩ := Option.map_eq_some_iff.1 hs
    have hrm : s.box.queue.removing = some n := by rw [h.removing, if_pos ho, hn]
    exact .take n rfl ⟨hn, .inl ho⟩ (h.mail.queue.removeCas_spec hrm hq).2.2 rfl rfl rfl rfl rfl
  all_goals
    repeat' split at hs
    all_goals
      first
      | rw [← Option.some.inj hs]
        exact h.idleChange ho (fun hd => by cases hd) (fun hd => by cases hd) (.inl rfl) rfl rfl
      | cases hs

theorem Sound.step_change [Fintype ι] [DecidableEq ι] [Fintype ν] [DecidableEq ν] (h : Sound s)
    {a : Act ι ν μ} (hs : s.step a = some s') : Change s a s' := by
  cases a <;> simp only [St.step] at hs
  case own => exact h.own_change hs
  case step i c =>
    by_cases hp : ∃ n, s.pc i = .push n
    · obtain ⟨n, hn⟩ := hp
      simp only [St.stepSend, hn] at hs
      rcases h.stepPush hn hs with ⟨a, q, -, hsame, rfl⟩ | ⟨a, q, -, ho, -, -, rfl⟩
      · exact .same hsame.order rfl rfl rfl rfl (fun hd => by cases hd) fun n hd => by cases hd
      · exact .push i n hn rfl ho rfl rfl rfl rfl rfl
    · obtain ⟨hb, -, -, hsent, -⟩ := stepSend_other hs fun n hn => hp ⟨n, hn⟩
      exact .same (by rw [hb]) (by rw [hb]) (by rw [hb]) (by rw [hb]) hsent (fun hd => by cases hd)
        fun n hd => by cases hd
  case send i n =>
    obtain ⟨-, hs⟩ := Option.ite_none_right_eq_some.1 hs
    obtain ⟨q, hq, rfl⟩ := Option.map_eq_some_iff.1 hs
    obtain ⟨-, rfl⟩ := Mpsciq.push_eq hq
    exact .same rfl rfl rfl rfl rfl (fun hd => by cases hd) fun n hd => by cases hd
  case create id =>
    obtain ⟨-, hs⟩ := Option.ite_none_right_eq_some.1 hs
    obtain ⟨pd, -, rfl⟩ := Option.map_eq_some_iff.1 hs
    exact .same rfl rfl rfl rfl rfl (fun _ => rfl) fun n hd => by cases hd
  case timer e =>
    unfold St.stepTimer at hs
    repeat' split at hs
    all_goals
      first
      | rw [← Option.some.inj hs]
        exact .same rfl rfl rfl rfl rfl (fun _ => rfl) fun n hd => by cases hd
      | cases hs
  all_goals
    repeat' split at hs
    all_goals
      first
      | rw [← Option.some.inj hs]
        exact .same rfl rfl rfl rfl rfl (fun _ => rfl) fun n hd => by cases hd
      | cases hs

end Prs.Msgq
