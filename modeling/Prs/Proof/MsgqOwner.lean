import Prs.Proof.MsgqSearch

/-!
# The message that a filter function looks at

A sender looks at its message after it has pushed it. The receiver may have received and freed the message by
then: it only has to come between the push and the lock of the filter, or between the load of the event and
the evaluation, and a later receive with a filter has to be waiting (`evaluates_received`).

* `Sender`: a message that was not received is in the queue, at the node that its sender has.
* `evaluates_queued`: these two orders of steps are the only ones. A run in which they do not occur evaluates
  filter functions on messages in the queue only, and a step that is one of them leads to a sender that
  evaluates a message that was received.
-/

namespace Prs.Msgq

open Function

variable {ι ν μ : Type} [Fintype ι] [DecidableEq ι] [Fintype ν] [DecidableEq ν] {s s' : St ι ν μ} {i : ι} {n : ν}

/-- The message that a sender has pushed and has still to look at. -/
def Pc.message : Pc ν → Option ν
  | .load n => some n
  | .lock n _ => some n
  | .event n _ => some n
  | .evaluate n _ => some n
  | .take n _ => some n
  | _ => none

/-- The sender evaluates a filter function next. -/
def Pc.evaluates : Pc ν → Bool
  | .evaluate _ _ => true
  | _ => false

/-- A sender that evaluates a filter function has a message that was not received. -/
def St.Owned (s : St ι ν μ) : Prop := ∀ i, (s.pc i).evaluates = true → s.sent i ∉ s.box.received

/-- The condition on a step: a sender whose message was received finds no event, or a filter without a
function; and the receiver takes no message out of the queue that its sender evaluates next. -/
def St.Kept (s : St ι ν μ) : Act ι ν μ → Prop
  | .step i _ =>
    match s.pc i with
    | .event _ id => (s.filter id).event ≠ none → (s.filter id).function.isSome = true → s.sent i ∉ s.box.received
    | _ => True
  | .own => ∀ n i, s.Removes n → (s.pc i).evaluates = true → s.sent i ≠ s.box.num n
  | _ => True

instance (a : Act ι ν μ) : Decidable (s.Kept a) := by
  unfold St.Kept
  split
  · split <;> infer_instance
  · infer_instance
  · infer_instance

/-! ## Where a sender's message is -/

/-- **The message of a sender** was received, or is in the queue. -/
def Sender (s : St ι ν μ) : Prop :=
  ∀ i n, (s.pc i).message = some n →
    s.sent i ∈ s.box.received ∨ (n ∈ s.box.queue.order ∧ s.box.num n = s.sent i)

/-- The sender is about to load an event, from a filter with a function. -/
def St.Loads (s : St ι ν μ) (i : ι) : Prop :=
  ∃ n id, s.pc i = .event n id ∧ (s.filter id).event ≠ none ∧ (s.filter id).function.isSome = true

/-- What a step does to a sender, as far as its message goes. -/
structure Moves (s : St ι ν μ) (a : Act ι ν μ) (s' : St ι ν μ) (i : ι) : Prop where
  message : s'.box.sends = s.box.sends → ∀ n, (s'.pc i).message = some n → (s.pc i).message = some n
  evaluates : (s'.pc i).evaluates = true ↔ ((s.pc i).evaluates = true ∧ ∀ c, a ≠ .step i c) ∨
    ((∃ c, a = .step i c) ∧ s.Loads i)

omit [Fintype ι] [DecidableEq ι] [Fintype ν] [DecidableEq ν] in
theorem Moves.stay {a : Act ι ν μ} (hpc : s'.pc i = s.pc i) (ha : ∀ c, a ≠ .step i c) : Moves s a s' i := by
  constructor
  case message =>
    rw [hpc]
    exact fun _ n hn => hn
  case evaluates =>
    rw [hpc]
    refine ⟨fun he => .inl ⟨he, ha⟩, ?_⟩
    rintro (⟨he, -⟩ | ⟨⟨c, hc⟩, -⟩)
    · exact he
    · exact absurd hc (ha c)

omit [Fintype ι] [DecidableEq ι] [Fintype ν] [DecidableEq ν] in
/-- A sender that neither has nor gets anything to look at. -/
theorem Moves.blank {a : Act ι ν μ} {p p' : Pc ν} (hp : s.pc i = p) (hp' : s'.pc i = p')
    (hm : s'.box.sends = s.box.sends →
    p'.message = none) (he : p'.evaluates = false) (hne : p.evaluates = false) (hev : ∀ n id, p ≠ .event n id) :
    Moves s a s' i := by
  constructor
  case message =>
    intro hsends n hn
    rw [hp', hm hsends] at hn
    cases hn
  case evaluates =>
    rw [hp', hp, he, hne]
    refine ⟨fun hd => (by cases hd), ?_⟩
    rintro (⟨hd, -⟩ | ⟨-, n, id, hd, -⟩)
    · cases hd
    · exact absurd (hp.symm.trans hd) (hev n id)

/-- What a step of `prs_msgq_send` after the push does to the sender. -/
theorem stepSend_moves {c : Bool} (hs : s.stepSend i c = some s') (hp : ∀ n, s.pc i ≠ .push n) :
    Moves s (.step i c) s' i := by
  suffices h : (∀ n, (s'.pc i).message = some n → (s.pc i).message = some n) ∧
    ((s'.pc i).evaluates = true ↔ s.Loads i) by
    refine ⟨fun _ => h.1, h.2.trans ⟨fun hl => .inr ⟨⟨c, rfl⟩, hl⟩, ?_⟩⟩
    rintro (⟨-, hd⟩ | ⟨-, hl⟩)
    · exact absurd rfl (hd c)
    · exact hl
  unfold St.Loads
  cases hi : s.pc i <;> simp only [St.stepSend, hi] at hs
  case idle => cases hs
  case push n => exact absurd hi (hp n)
  case event n id =>
    split at hs
    · rename_i he
      rw [← Option.some.inj hs]
      simp only [St.goto, update_self]
      refine ⟨fun m hm => (by cases hm), fun hd => (by cases hd), ?_⟩
      rintro ⟨m, k, hmk, hne, -⟩
      cases hmk
      exact absurd he hne
    · rename_i he
      split at hs
      · rename_i hf
        rw [← Option.some.inj hs]
        simp only [St.goto, update_self]
        exact ⟨fun m hm => hm, fun _ => ⟨n, id, rfl, he, hf⟩, fun _ => rfl⟩
      · rename_i hf
        rw [← Option.some.inj hs]
        simp only [St.goto, update_self]
        refine ⟨fun m hm => hm, fun hd => (by cases hd), ?_⟩
        rintro ⟨m, k, hmk, -, hf'⟩
        cases hmk
        exact absurd hf' hf
  all_goals
    repeat' split at hs
    all_goals
      rw [← Option.some.inj hs]
      simp only [St.goto, update_self]
      refine ⟨fun m hm => ?_, fun hd => (by cases hd), ?_⟩
      · first
        | exact hm
        | cases hm
      · rintro ⟨m, k, hmk, -⟩
        cases hmk

theorem Sound.moves (h : Sound s) {a : Act ι ν μ} (hs : s.step a = some s') (j : ι) : Moves s a s' j := by
  cases hsend : a.sends with
  | false =>
    refine .stay ?_ (fun c hd => by rw [hd] at hsend; cases hsend)
    cases h.step_change hs with
    | same _ _ _ _ _ pc => rw [pc hsend]
    | push _ _ _ _ _ _ _ _ _ act =>
      rw [hsend] at act
      cases act
    | take n _ _ _ _ _ _ _ pc => rw [pc]
  | true =>
    cases a <;> simp only [St.step] at hs <;> first | cases hsend; done | skip
    case send i n =>
      obtain ⟨hi, hs⟩ := Option.ite_none_right_eq_some.1 hs
      obtain ⟨q, -, rfl⟩ := Option.map_eq_some_iff.1 hs
      by_cases hj : j = i
      · subst hj
        exact .blank hi (update_self _ _ _) (fun _ => rfl) rfl rfl fun _ _ hd => by cases hd
      · exact .stay (update_of_ne hj _ _) fun c hd => by cases hd
    case step i c =>
      have hother : j ≠ i → ∀ c', Act.step (ν := ν) (μ := μ) i c ≠ .step j c' := by
        intro hj c' hd
        cases hd
        exact hj rfl
      by_cases hp : ∃ n, s.pc i = .push n
      · obtain ⟨n, hn⟩ := hp
        simp only [St.stepSend, hn] at hs
        rcases h.stepPush hn hs with ⟨a, q, -, -, rfl⟩ | ⟨a, q, -, -, -, -, rfl⟩
        · by_cases hj : j = i
          · subst hj
            exact .blank hn hn (fun _ => rfl) rfl rfl fun _ _ hd => by cases hd
          · exact .stay rfl (hother hj)
        · by_cases hj : j = i
          · subst hj
            refine .blank hn (update_self _ _ _) (fun hd => ?_) rfl rfl fun _ _ hd => by cases hd
            simp only at hd
            omega
          · exact .stay (update_of_ne hj _ _) (hother hj)
      · have hp' : ∀ n, s.pc i ≠ .push n := fun n hn => hp ⟨n, hn⟩
        by_cases hj : j = i
        · subst hj
          exact stepSend_moves hs hp'
        · obtain ⟨-, -, -, -, -, -, -, p, hpc, -⟩ := stepSend_other hs hp'
          exact .stay (by rw [hpc, update_of_ne hj]) (hother hj)

theorem Sender.step (h : Sender s) (hS : Sound s) {a : Act ι ν μ} (hs : s.step a = some s') : Sender s' := by
  intro j m hm
  cases hS.step_change hs with
  | same order num sends received sent =>
    rw [order, num, received, sent]
    exact h j m ((hS.moves hs j).message sends m hm)
  | push i n hi pc' order num sends received sent =>
    rw [order, num, received, sent]
    rw [pc'] at hm
    by_cases hj : j = i
    · subst hj
      rw [update_self] at hm
      cases hm
      exact .inr ⟨List.mem_cons_self, by rw [update_self, update_self]⟩
    · rw [update_of_ne hj] at hm ⊢
      rcases h j m hm with h1 | ⟨h1, h2⟩
      · exact .inl h1
      · -- the node that is pushed was not in the queue
        have hne : m ≠ n := by
          rintro rfl
          exact (hS.mail.queue.held i m ((hS.pushing i m).1 hi)).1 h1
        exact .inr ⟨List.mem_cons_of_mem _ h1, by rw [update_of_ne hne, h2]⟩
  | take n _ removes order num sends received sent pc =>
    rw [order, num, received, sent]
    rw [pc] at hm
    rcases h j m hm with h1 | ⟨h1, h2⟩
    · exact .inl (List.mem_append_left _ h1)
    · by_cases hmn : m = n
      · refine .inl (List.mem_append_right _ ?_)
        rw [← h2, hmn]
        exact List.mem_singleton.2 rfl
      · exact .inr ⟨(List.mem_erase_of_ne hmn).2 h1, h2⟩

/-! ## The result -/

theorem Sound.owned_iff (h : Sound s) (ho : s.Owned) {a : Act ι ν μ} (hs : s.step a = some s') :
    s'.Owned ↔ s.Kept a := by
  constructor
  case mp =>
    intro ho'
    cases a <;> first | trivial | skip
    case step i c =>
      simp only [St.Kept]
      split
      · rename_i n id hi
        intro he hf
        have hev := (h.moves hs i).evaluates.2 (.inr ⟨⟨c, rfl⟩, n, id, hi, he, hf⟩)
        have hno := ho' i hev
        cases h.step_change hs with
        | same _ _ _ received sent => rwa [received, sent] at hno
        | push j m hj pc' =>
          rw [pc'] at hev
          by_cases hij : i = j
          · rw [hij, update_self] at hev
            cases hev
          · rw [update_of_ne hij, hi] at hev
            cases hev
        | take m hd => cases hd
      · trivial
    case own =>
      intro n i hn hev heq
      cases h.step_change hs with
      | same _ _ _ _ _ _ quiet => exact quiet n rfl hn
      | push _ _ _ _ _ _ _ _ _ act => cases act
      | take m _ removes _ _ _ received sent pc =>
        have hno := ho' i (by rw [pc]; exact hev)
        have hmn : m = n := Option.some.inj (removes.1.symm.trans hn.1)
        rw [received, sent, hmn, heq] at hno
        exact hno (List.mem_append_right _ (List.mem_singleton.2 rfl))
  case mpr =>
    intro hk i hev
    rcases (h.moves hs i).evaluates.1 hev with ⟨he, -⟩ | ⟨⟨c, rfl⟩, n, id, hi, hne, hf⟩
    · have hno := ho i he
      cases h.step_change hs with
      | same _ _ _ received sent => rwa [received, sent]
      | push j m hj pc' _ _ _ received sent =>
        have hij : i ≠ j := by
          rintro rfl
          rw [hj] at he
          cases he
        rwa [received, sent, update_of_ne hij]
      | take m hown removes _ _ _ received sent =>
        subst hown
        rw [received, sent]
        intro hd
        rcases List.mem_append.1 hd with hd | hd
        · exact hno hd
        · exact hk m i removes he (List.mem_singleton.1 hd)
    · simp only [St.Kept, hi] at hk
      have hno := hk hne hf
      cases h.step_change hs with
      | same _ _ _ received sent => rwa [received, sent]
      | push j m hj pc' _ _ _ received sent =>
        have hij : i ≠ j := by
          rintro rfl
          rw [hj] at hi
          cases hi
        rwa [received, sent, update_of_ne hij]
      | take m hd => cases hd

/-- **The filter function looks at messages in the queue**, in every run in which no sender whose message was
received finds an event in a filter with a function, and in which the receiver takes no message out of the
queue that its sender evaluates next. And a step that is one of these leads to a sender that evaluates a
message that was received. -/
theorem evaluates_queued {data : ν → μ} (h : (sys ι ν μ data).Reach St.Kept s) :
    (∀ i n id, s.pc i = .evaluate n id →
      s.sent i ∉ s.box.received ∧ n ∈ s.box.queue.order ∧ s.box.num n = s.sent i) ∧
    ∀ a s', s.step a = some s' → (s'.Owned ↔ s.Kept a) := by
  have hI : Sound s ∧ Sender s ∧ s.Owned := by
    refine h.inv (I := fun s => Sound s ∧ Sender s ∧ s.Owned) ?_ ?_
    · rintro _ rfl
      exact ⟨sound_init data, fun i n hn => (by cases hn), fun i hi => by cases hi⟩
    · rintro s a s' ⟨hS, hM, ho⟩ hk hs
      exact ⟨hS.step hs, hM.step hS hs, (hS.owned_iff ho hs).2 hk⟩
  obtain ⟨hS, hM, ho⟩ := hI
  refine ⟨fun i n id hi => ?_, fun a s' hs => hS.owned_iff ho hs⟩
  have hno := ho i (by rw [hi]; rfl)
  have hmsg := hM i n (by rw [hi]; rfl)
  exact ⟨hno, hmsg.resolve_left hno⟩

/-- A sender evaluates the function of a filter on its message, which is in the queue. -/
theorem evaluates_queued_sent : ∃ s, (sys (Fin 1) (Fin 1) (Fin 1) id).Reach St.Kept s ∧ s.pc 0 = .evaluate 0 1 ∧
    s.sent 0 ∉ s.box.received ∧ (0 : Fin 1) ∈ s.box.queue.order := by
  obtain ⟨s, hs, hpc⟩ := System.exists_of_check (sys (Fin 1) (Fin 1) (Fin 1) id) St.Kept
    (fun s => s.pc 0 = .evaluate 0 1)
    (.init id) rfl (List.flatten [[.recv (some fun m => m == 0) false 0, .own, .create 1], List.replicate 5 .own,
      .send 0 0 :: List.replicate 5 (.step 0 false)]) (by decide +kernel)
  obtain ⟨h1, h2, -⟩ := (evaluates_queued hs).1 0 0 1 hpc
  exact ⟨s, hs, hpc, h1, h2⟩

/-- **A filter function looks at a message that was received.** The message is received by one receive between
the push and the load of `filter_id`, and the next receive, which has a filter, is waiting when its sender
gets to the filter. -/
theorem evaluates_received : ∃ s, (sys (Fin 1) (Fin 1) (Fin 1) id).Reachable s ∧ s.pc 0 = .evaluate 0 1 ∧
    s.sent 0 = 0 ∧ s.box.received = [0] := by
  exact System.exists_of_check (sys (Fin 1) (Fin 1) (Fin 1) id) (fun _ _ => True)
    (fun s => s.pc 0 = .evaluate 0 1 ∧ s.sent 0 = 0 ∧ s.box.received = [0]) (.init id) rfl
    (List.flatten [[.send 0 0, .step 0 false, .step 0 false, .recv none false 0, .own, .own, .own,
      .recv (some fun m => m == 0) false 0, .own, .create 1, .own, .own, .own], List.replicate 3 (.step 0 false)])
    (by decide +kernel)

end Prs.Msgq
