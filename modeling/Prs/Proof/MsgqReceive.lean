import Prs.Proof.MsgqSearch

/-!
# What a receive returns

A message that a search has found stays the oldest one that matches, and the receive goes on with it until it
is out of the queue. Only then does the receive end with it.

* `St.Removing`: the receiver takes out the message that it has found.
* `Takes`, `Keeps`: every step does one of them.
* `selective_receive`: in every run, a search from the hint returns the oldest message that matches, a receive
  that has found a message returns the oldest message that matches, each message is received at most once and
  is in the queue until then, and the messages in the queue keep the order in which they were sent.
-/

namespace Prs.Msgq

open Function

variable {ι ν μ : Type} [DecidableEq ν] {s s' s₁ : St ι ν μ} {n : ν}
  {data : ν → μ}

/-- The receiver is about to take out the message that it has found. -/
def St.Removing (s : St ι ν μ) : Prop := s.own = .remove ∨ s.own = .removing

/-- The receive ends, with the oldest message that matches, which is out of the queue. -/
def Takes (s s' : St ι ν μ) : Prop :=
  s.Removing ∧ s'.own = .idle ∧
    ∃ n, s.loc.msg = some n ∧ s.box.oldest s.loc.function = some n ∧
      s'.box.received = s.box.received ++ [s.box.num n] ∧ s'.box.msgs = s.box.msgs.erase n

/-- Nothing is received. A receive that has found a message does not end, and goes on with it. -/
def Keeps (s s' : St ι ν μ) : Prop :=
  s'.box.received = s.box.received ∧ (s.Removing → s'.Removing) ∧
    (s.own ≠ .idle → ∀ n, s.loc.msg = some n → s'.own ≠ .idle ∧ s'.loc.msg = some n)

/-- The receiver has a message when it takes one out. -/
structure Ready (s : St ι ν μ) : Prop where
  sound : Sound s
  msg : s.Removing → s.loc.msg.isSome = true

/-- The removal is at one of its two steps. -/
def Own.removes : Own → Bool
  | .remove | .removing => true
  | _ => false

omit [DecidableEq ν] in
theorem not_removing {o : Own} (ho : s.own = o) (h : o.removes = false) : ¬ s.Removing := by
  rintro (hr | hr) <;> rw [← ho, hr] at h <;> cases h

omit [DecidableEq ν] in
/-- The receiver goes on elsewhere than in the removal. -/
theorem msg_of_elsewhere (h : s'.own.removes = false) : s'.Removing → s'.loc.msg.isSome = true :=
  fun hr => absurd hr (not_removing rfl h)

omit [DecidableEq ν] in
/-- The head of the loop goes to the removal exactly with a message. -/
theorem loop_message : (∀ n, s.loc.msg = some n → s.loop.own ≠ .idle ∧ s.loop.loc.msg = some n) ∧
    (s.loop.Removing → s.loop.loc.msg.isSome = true) := by
  unfold St.loop
  split
  case isTrue hmsg => exact ⟨fun n hn => ⟨(fun hd => by cases hd), hn⟩, fun _ => hmsg⟩
  case isFalse hmsg =>
    refine ⟨fun n hn => absurd (by rw [hn]; rfl) hmsg, fun hr => ?_⟩
    split at hr
    · rcases hr with hd | hd <;> cases hd
    · rcases hr with hd | hd <;> cases hd

/-- A search finds the message again that was found before. -/
theorem Ready.found [Fintype ι] [DecidableEq ι] [Fintype ν] (h : Ready s) (ho : s.own ≠ .removing)
    {r : Box ι ν μ × Option ν × Option ν} (hr : s.box.search s.loc.function s.loc.hint = some r) :
    r.1.received = s.box.received ∧ ∀ n, s.loc.msg = some n → r.2.1 = some n := by
  obtain ⟨r', hr', hold, -, -, -, -, -, -, -, hrec⟩ := h.sound.mail.search (h.sound.removing_none ho)
  obtain rfl := Option.some.inj (hr.symm.trans hr')
  exact ⟨hrec, fun n hn => hold.trans (h.sound.mail.msg n hn)⟩

/-- The receiver takes the message out. -/
theorem Ready.take (h : Ready s) (hr : s.Removing) (hn : s.loc.msg = some n) {q : Mpsciq.St ι ν}
    (hq : q.order = s.box.queue.order.erase n) : Takes s (s.take q n) := by
  refine ⟨hr, rfl, n, hn, h.sound.mail.msg n hn, rfl, ?_⟩
  have hnd := h.sound.mail.queue.nodup
  change q.order.reverse = s.box.queue.order.reverse.erase n
  rw [hq, hnd.erase_eq_filter, (List.nodup_reverse.2 hnd).erase_eq_filter, List.filter_reverse]

omit [DecidableEq ν] in
/-- A step of the receiver elsewhere. -/
theorem keeps_of_own {o : Own} (ho : s.own = o) (h : o.removes = false)
    (hrec : s'.box.received = s.box.received)
    (hmsg : ∀ n, s.loc.msg = some n → s'.own ≠ .idle ∧ s'.loc.msg = some n) : Keeps s s' :=
  ⟨hrec, fun hr => absurd hr (not_removing ho h), fun _ => hmsg⟩

/-- A step of the receiver that is not of the search and leads elsewhere. -/
theorem elsewhere {o : Own} (ho : s.own = o) (h : o.removes = false) (hrec : s'.box.received = s.box.received)
    (hmsg : s'.loc.msg = s.loc.msg) (h' : s'.own.removes = false) (hidle : s'.own ≠ .idle) :
    (Takes s s' ∨ Keeps s s') ∧ (s'.Removing → s'.loc.msg.isSome = true) :=
  ⟨.inr (keeps_of_own ho h hrec fun _ hn => ⟨hidle, hmsg.trans hn⟩), msg_of_elsewhere h'⟩

/-- **A step of the receiver.** -/
theorem Ready.own [Fintype ι] [DecidableEq ι] [Fintype ν] (h : Ready s) (hs : s.stepOwn = some s') :
    (Takes s s' ∨ Keeps s s') ∧ (s'.Removing → s'.loc.msg.isSome = true) := by
  cases ho : s.own <;> simp only [St.stepOwn, ho] at hs
  case search =>
    obtain ⟨r, hr, rfl⟩ := Option.map_eq_some_iff.1 hs
    obtain ⟨hrec, hfound⟩ := h.found (by rw [ho]; decide) hr
    exact ⟨.inr (keeps_of_own ho rfl ((congrArg Box.received loop_box.1).trans hrec)
      fun n hn => loop_message.1 n (hfound n hn)), loop_message.2⟩
  case again =>
    obtain ⟨r, hr, rfl⟩ := Option.map_eq_some_iff.1 hs
    obtain ⟨hrec, hfound⟩ := h.found (by rw [ho]; decide) hr
    refine ⟨.inr (keeps_of_own ho rfl hrec fun n hn => ⟨?_, hfound n hn⟩), ?_⟩
    · dsimp only
      split <;> decide
    · split <;> exact msg_of_elsewhere rfl
  case cause =>
    split at hs
    · obtain ⟨r, hr, rfl⟩ := Option.map_eq_some_iff.1 hs
      obtain ⟨hrec, hfound⟩ := h.found (by rw [ho]; decide) hr
      exact ⟨.inr (keeps_of_own ho rfl hrec fun n hn => ⟨(fun hd => by cases hd), hfound n hn⟩),
        msg_of_elsewhere rfl⟩
    · obtain rfl := Option.some.inj hs
      exact elsewhere ho rfl rfl rfl rfl fun hd => by cases hd
  case unlock =>
    obtain rfl := Option.some.inj hs
    split
    case isTrue hnone =>
      refine ⟨.inr (keeps_of_own ho rfl rfl fun n hn => ?_), msg_of_elsewhere rfl⟩
      cases hnone.1.symm.trans hn
    case isFalse =>
      exact ⟨.inr (keeps_of_own ho rfl (congrArg Box.received loop_box.1) fun n hn => loop_message.1 n hn),
        loop_message.2⟩
  case remove =>
    obtain ⟨n, hn, hs⟩ := Option.bind_eq_some_iff.1 hs
    obtain ⟨q, hq, rfl⟩ := Option.map_eq_some_iff.1 hs
    obtain ⟨-, ⟨hr, hord, -⟩ | ⟨hr, hord, -⟩⟩ := h.sound.mail.queue.remove_spec hq
    · -- the message is the youngest: an exchange of the head is still to come
      rw [if_pos hr]
      have hkeep : Keeps s { s with box := { s.box with queue := q }, own := .removing } :=
        ⟨rfl, fun _ => .inr rfl, fun _ m hm => ⟨(fun hd => by cases hd), hm⟩⟩
      refine ⟨.inr hkeep, fun _ => ?_⟩
      dsimp only
      rw [hn]
      rfl
    · rw [if_neg (by rw [hr]; exact fun hd => by cases hd)]
      exact ⟨.inl (h.take (.inl ho) hn hord), msg_of_elsewhere rfl⟩
  case removing =>
    obtain ⟨n, hn, hs⟩ := Option.bind_eq_some_iff.1 hs
    obtain ⟨q, hq, rfl⟩ := Option.map_eq_some_iff.1 hs
    have hrm : s.box.queue.removing = some n := by rw [h.sound.removing, if_pos ho, hn]
    have hord := (h.sound.mail.queue.removeCas_spec hrm hq).2.2
    exact ⟨.inl (h.take (.inr ho) hn hord), msg_of_elsewhere rfl⟩
  all_goals
    repeat' split at hs
    all_goals
      first
      | obtain rfl := Option.some.inj hs
        exact elsewhere ho rfl rfl rfl rfl fun hd => by cases hd
      | cases hs

/-- A step that leaves the receiver and what it has received as they are. -/
theorem Ready.other (h : Ready s) (hown : s'.own = s.own) (hloc : s'.loc = s.loc)
    (hrec : s'.box.received = s.box.received) :
    (Takes s s' ∨ Keeps s s') ∧ (s'.Removing → s'.loc.msg.isSome = true) := by
  unfold Takes Keeps St.Removing
  rw [hown, hloc]
  exact ⟨.inr ⟨hrec, fun hr => hr, fun hne n hn => ⟨hne, hn⟩⟩, h.msg⟩

/-- **A step takes the message out, or keeps it.** -/
theorem Ready.takes_or_keeps [Fintype ι] [DecidableEq ι] [Fintype ν] (h : Ready s) {a : Act ι ν μ}
    (hs : s.step a = some s') :
    (Takes s s' ∨ Keeps s s') ∧ (s'.Removing → s'.loc.msg.isSome = true) := by
  cases a with
  | own => exact h.own hs
  | write n m =>
    obtain ⟨-, rfl⟩ := Option.ite_none_right_eq_some.1 hs |>.imp_right Option.some.inj
    exact h.other rfl rfl rfl
  | send i n =>
    obtain ⟨-, hs⟩ := Option.ite_none_right_eq_some.1 hs
    obtain ⟨q, -, rfl⟩ := Option.map_eq_some_iff.1 hs
    exact h.other rfl rfl rfl
  | step i c =>
    by_cases hp : ∃ n, s.pc i = .push n
    · obtain ⟨n, hn⟩ := hp
      simp only [St.step, St.stepSend, hn] at hs
      rcases h.sound.stepPush hn hs with ⟨a, q, -, -, rfl⟩ | ⟨a, q, -, -, -, -, rfl⟩
      · exact h.other rfl rfl rfl
      · exact h.other rfl rfl rfl
    · obtain ⟨hb, hloc, hown, -⟩ := stepSend_other hs fun n hn => hp ⟨n, hn⟩
      exact h.other hown hloc (by rw [hb])
  | recv f u t =>
    obtain ⟨ho, rfl⟩ := Option.ite_none_right_eq_some.1 hs |>.imp_right Option.some.inj
    exact ⟨.inr ⟨rfl, fun hr => absurd hr (not_removing ho rfl), fun hne => absurd ho hne⟩,
      msg_of_elsewhere rfl⟩
  | create id =>
    obtain ⟨⟨ho, -⟩, hs⟩ := Option.ite_none_right_eq_some.1 hs
    obtain ⟨pd, -, rfl⟩ := Option.map_eq_some_iff.1 hs
    exact elsewhere ho rfl rfl rfl rfl fun hd => by cases hd
  | woken diff =>
    obtain ⟨ho, hs⟩ := Option.ite_none_right_eq_some.1 hs
    split at hs
    · obtain rfl := Option.some.inj hs
      exact elsewhere ho rfl rfl rfl rfl fun hd => by cases hd
    · obtain rfl := Option.some.inj hs
      exact elsewhere ho rfl rfl rfl rfl fun hd => by cases hd
  | expire e =>
    simp only [St.step] at hs
    split at hs
    · obtain rfl := Option.some.inj hs
      exact h.other rfl rfl rfl
    · cases hs
  | discard e =>
    obtain ⟨-, rfl⟩ := Option.ite_none_right_eq_some.1 hs |>.imp_right Option.some.inj
    exact h.other rfl rfl rfl
  | timer e =>
    simp only [St.step, St.stepTimer] at hs
    repeat' split at hs
    all_goals
      first
      | obtain rfl := Option.some.inj hs
        exact h.other rfl rfl rfl
      | cases hs

theorem ready_of_reach [Fintype ι] [DecidableEq ι] [Fintype ν] (h : (sys ι ν μ data).Reachable s) : Ready s := by
  refine h.inv ?_ fun s a s' hI hs => ⟨hI.sound.step hs, (hI.takes_or_keeps hs).2⟩
  rintro _ rfl
  exact ⟨sound_init data, msg_of_elsewhere rfl⟩

/-! ## The result -/

/-- The next step of the receiver is a search. -/
def St.Searches (s : St ι ν μ) : Prop := s.own = .search ∨ s.own = .again ∨ (s.own = .cause ∧ s.cause = .send)

instance : Decidable s.Searches := inferInstanceAs (Decidable (_ ∨ _))

instance : Decidable s.Removing := inferInstanceAs (Decidable (_ ∨ _))

/-- **Selective receive.** In every state of every run: a search from the hint and one from the oldest node
end, and both return the oldest message in the queue that matches; a step ends a receive with the oldest
message that matches, which is then out of the queue, or it receives nothing and a receive that has found a
message goes on with it, which is still the oldest one that matches; the messages in the queue are in the
order in which they were sent; and each message that was sent was either received once or is in the queue. -/
theorem selective_receive [Fintype ι] [DecidableEq ι] [Fintype ν] (h : (sys ι ν μ data).Reachable s) :
    (s.Searches → ∃ r r₀, s.box.search s.loc.function s.loc.hint = some r ∧
      s.box.search s.loc.function none = some r₀ ∧
      r.2.1 = r₀.2.1 ∧ r.2.1 = s.box.oldest s.loc.function) ∧
    (∀ a s', s.step a = some s' → Takes s s' ∨ Keeps s s') ∧
    (s.Removing → s.loc.msg.isSome = true) ∧ (∀ n, s.loc.msg = some n → s.box.oldest s.loc.function = some n) ∧
    (s.box.msgs.map s.box.num).Pairwise (· < ·) ∧
    (s.box.received ++ s.box.msgs.map s.box.num).Perm (List.range s.box.sends) := by
  have hready := ready_of_reach h
  have hS := hready.sound
  refine ⟨fun hsr => ?_, fun a s' hs => (hready.takes_or_keeps hs).1, hready.msg, hS.mail.msg, hS.mail.sorted,
    hS.mail.all⟩
  have hr : s.box.queue.removing = none := by
    refine hS.removing_none fun ho => ?_
    rcases hsr with hsr | hsr | ⟨hsr, -⟩ <;> rw [hsr] at ho <;> cases ho
  obtain ⟨r, h1, h2, -⟩ := hS.mail.search hr
  have h0 : Mail s.box { s.loc with hint := none, msg := none } := hS.mail.fresh rfl rfl
  obtain ⟨r₀, h3, h4, -⟩ := h0.search hr
  exact ⟨r, r₀, h1, h3, h2.trans h4.symm, h2⟩

/-- Message 0 does not match. Message 1, which was sent after the first search, matches, and is received: the
receiver is before the exchange that takes it out of the queue. -/
theorem selective_receive_second : ∃ s s', (sys (Fin 1) (Fin 2) (Fin 2) id).Reachable s ∧ s.own = .removing ∧
    s.box.oldest s.loc.function = some 1 ∧ s.step .own = some s' ∧ s'.own = .idle ∧ s'.box.received = [1] ∧
    s'.box.msgs = [0] := by
  obtain ⟨s, hs, hown, hmsg, hrec, hnum, hmsgs, hstep⟩ := System.exists_of_check (sys (Fin 1) (Fin 2) (Fin 2) id)
    (fun _ _ => True)
    (fun s => s.own = .removing ∧ s.loc.msg = some 1 ∧ s.box.received = [] ∧ s.box.num 1 = 1 ∧
      s.box.msgs = [0, 1] ∧ (s.step .own).map (·.own) = some .idle)
    (.init id) rfl
    ([.send 0 0, .step 0 false, .step 0 false, .step 0 false, .step 0 false,
      .recv (some fun m => m == 1) false 0, .own,
      .create 1, .own, .own, .own, .send 0 1, .step 0 false, .step 0 false, .own, .own, .own, .own, .own,
      .own, .own, .own]) (by decide +kernel)
  obtain ⟨s', hs', hidle⟩ := Option.map_eq_some_iff.1 hstep
  obtain ⟨-, htakes, -, hold, -⟩ := selective_receive hs
  obtain ⟨-, -, n, hn, -, hreceived, hleft⟩ | ⟨-, hkeep, -⟩ := htakes .own s' hs'
  · obtain rfl := Option.some.inj (hmsg.symm.trans hn)
    rw [hrec, hnum] at hreceived
    rw [hmsgs] at hleft
    exact ⟨s, s', hs, hown, hold 1 hmsg, hs', hidle, hreceived, hleft⟩
  · obtain hd | hd := hkeep (.inr hown)
    · cases hidle.symm.trans hd
    · cases hidle.symm.trans hd

end Prs.Msgq
