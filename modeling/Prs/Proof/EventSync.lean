import Prs.Model.Event
import Prs.Proof.TaskToken

/-!
# The state word and the token of an event

A source compares the state word with the token of its event, of which the task may have left any number
behind. What the comparison finds is a matter of the number of changes alone: the word is the token of an
event exactly when the state has not changed since the task blocked on it (`Sync.word_eq_iff`), because then
no other step can have written the word, and no token comes back before `2 ^ 40` changes.

A change that loads and then stores loses no update (`Sync.loaded`): whoever does one has the task in a state
that no source can take it from.
-/

namespace Prs.Events

open Function Prs.Task
open Prs.Swprio (TaskState)

/-- The state that the owner knows the task to be in. It knows none when the task has blocked and sources may
unblock it. -/
def Owner.fixed : Owner → Option TaskState
  | .load change => some change.expected
  | .store change _ => some change.expected
  | .stopped => some .stopped
  | .push => some .ready
  | .away => none
  | .running => some .running
  | .waiting => none
  | .calling _ waits => if waits then none else some .running
  | .blockLoad _ => some .running
  | .blockStore _ _ => some .running
  | .publish _ _ => some .blocked

/-- The word that the owner has loaded, or has just stored. -/
def Owner.loaded : Owner → Option Token
  | .store _ token => some token
  | .blockStore _ token => some token
  | .publish _ token => some token
  | _ => none

/-- `prs_sched_swprio_get_next` has queued the running task. -/
def Owner.preempts : Owner → Bool
  | .load .preempt => true
  | .store .preempt _ => true
  | _ => false

/-- The token that a call has read. -/
def Call.token : Call → Option Token
  | .drop _ token _ => some token
  | .destroy _ token => some token
  | .unblock _ token _ => some token
  | _ => none

/-- The call has unblocked the task and has not queued it yet. -/
def Call.pushes : Call → Bool
  | .ready _ _ => true
  | _ => false

/-- The state has changed since the task blocked on each of its events. -/
def St.Closed (s : St) : Prop := ∀ e < s.created, (s.event e).stamp < s.changes

/-- The task is blocked on event `e`. -/
structure St.Open (s : St) (e : ℕ) : Prop where
  last : e + 1 = s.created
  word : s.word = (s.event e).token
  stamp : (s.event e).stamp = s.changes
  state : getState s.word = code .blocked

structure Sync (s : St) : Prop where
  count : Count s.word s.changes
  token : ∀ e < s.created, Count (s.event e).token (s.event e).stamp
  stamp : ∀ e < s.created, (s.event e).stamp ≤ s.changes
  older : ∀ e, e + 1 < s.created → (s.event e).stamp < s.changes
  fixed : ∀ x, s.owner.fixed = some x → getState s.word = code x ∧ s.Closed
  waits : s.owner.fixed = none → (getState s.word = code .ready ∧ s.Closed) ∨ ∃ e, s.Open e
  loaded : ∀ t, s.owner.loaded = some t → t = s.word
  queued : s.queued = true → s.owner.preempts = true ∨ s.owner.fixed = none ∧ getState s.word = code .ready
  known : ∀ x, s.call x ≠ .idle → x.1 < s.created
  held : ∀ x t, (s.call x).token = some t → t = (s.event x.1).token
  pushes : ∀ x, (s.call x).pushes = true →
    s.owner.fixed = none ∧ getState s.word = code .ready ∧ s.queued = false ∧
      ∀ y, (s.call y).pushes = true → y = x

variable {s s' : St} {o : Owner} {x : Source} {c : Call}

theorem sync_init : Sync .init where
  count := count_zero
  token e he := by cases he
  stamp e he := by cases he
  older e he := by cases he
  fixed x hx := by
    cases hx
    exact ⟨by decide, fun e he => by cases he⟩
  waits h := by cases h
  loaded t h := by cases h
  queued h := by cases h
  known x h := absurd rfl h
  held x t h := by cases h
  pushes x h := by cases h

/-- The task is blocked on the event that the state has not changed since. -/
theorem Sync.open_of_stamp (h : Sync s) {e : ℕ} (he : e < s.created) (hst : (s.event e).stamp = s.changes) :
    s.owner.fixed = none ∧ s.Open e := by
  have hopen : ¬ s.Closed := fun hcl => absurd (hcl e he) (by omega)
  cases hf : s.owner.fixed with
  | some x => exact absurd (h.fixed x hf).2 hopen
  | none =>
    refine ⟨rfl, ?_⟩
    rcases h.waits hf with ⟨-, hcl⟩ | ⟨e', ho⟩
    · exact absurd hcl hopen
    · obtain rfl : e = e' := by
        by_contra hne
        have := h.older e (by have := ho.last; omega)
        omega
      exact ho

/-- **The comparison of `prs_task_unblock`** finds the token of an event exactly when the state has not
changed since the task blocked on it. -/
theorem Sync.word_eq_iff (h : Sync s) (hn : s.changes < 2 ^ 40) {e : ℕ} (he : e < s.created) :
    s.word = (s.event e).token ↔ (s.event e).stamp = s.changes := by
  constructor
  · intro hw
    have hc : Count s.word (s.event e).stamp := by
      rw [hw]
      exact h.token e he
    exact hc.inj h.count (lt_of_le_of_lt (h.stamp e he) hn) hn
  · intro hst
    exact (h.open_of_stamp he hst).2.word

theorem Sync.not_pushes (h : Sync s) (hs : s.owner.fixed ≠ none ∨ getState s.word = code .blocked ∨
    s.queued = true)
    (x : Source) : (s.call x).pushes ≠ true := by
  intro hx
  obtain ⟨hf, hr, hq, -⟩ := h.pushes x hx
  rcases hs with hs | hs | hs
  · exact hs hf
  · rw [hs] at hr
    exact absurd hr (by decide)
  · rw [hq] at hs
    cases hs

theorem Sync.not_queued (h : Sync s) (hp : s.owner.preempts = false)
    (hs : s.owner.fixed ≠ none ∨ getState s.word = code .blocked) : s.queued = false := by
  rw [← Bool.not_eq_true]
  intro hq
  rcases h.queued hq with hq | ⟨hf, hr⟩
  · rw [hp] at hq
    cases hq
  · rcases hs with hs | hs
    · exact hs hf
    · rw [hs] at hr
      exact absurd hr (by decide)

/-! ## Steps that do not write the word -/

/-- A step in which the owner knows as much as before, and each call is where it was or has come to know only
the token of its event. -/
theorem Sync.congr (h : Sync s) (hw : s'.word = s.word) (hch : s'.changes = s.changes) (hq : s'.queued = s.queued)
    (hcr : s'.created = s.created)
    (hev : ∀ e, (s'.event e).token = (s.event e).token ∧ (s'.event e).stamp = (s.event e).stamp)
    (hf : s'.owner.fixed = s.owner.fixed) (hp : s'.owner.preempts = s.owner.preempts)
    (hl : ∀ t, s'.owner.loaded = some t → t = s.word)
    (hc : ∀ x, s'.call x = s.call x ∨ x.1 < s.created ∧ (s'.call x).pushes = false ∧
      ∀ t, (s'.call x).token = some t → t = (s.event x.1).token) : Sync s' := by
  have hclosed : s.Closed → s'.Closed := by
    intro hcl e he
    rw [(hev e).2, hch]
    exact hcl e (hcr ▸ he)
  have hopen : ∀ e, s.Open e → s'.Open e := by
    intro e ho
    refine ⟨by rw [hcr]; exact ho.last, ?_, ?_, by rw [hw]; exact ho.state⟩
    · rw [hw, (hev e).1]
      exact ho.word
    · rw [hch, (hev e).2]
      exact ho.stamp
  have hpush : ∀ x, (s'.call x).pushes = true → (s.call x).pushes = true := by
    intro x hx
    rcases hc x with he | ⟨-, he, -⟩
    · rwa [he] at hx
    · rw [he] at hx
      cases hx
  constructor
  case count => rw [hw, hch]; exact h.count
  case token =>
    intro e he
    rw [(hev e).1, (hev e).2]
    exact h.token e (hcr ▸ he)
  case stamp =>
    intro e he
    rw [(hev e).2, hch]
    exact h.stamp e (hcr ▸ he)
  case older =>
    intro e he
    rw [(hev e).2, hch]
    exact h.older e (hcr ▸ he)
  case fixed =>
    intro x hx
    rw [hf] at hx
    rw [hw]
    exact (h.fixed x hx).imp_right hclosed
  case waits =>
    intro hx
    rw [hf] at hx
    rw [hw]
    exact (h.waits hx).imp (And.imp_right hclosed) fun ⟨e, he⟩ => ⟨e, hopen e he⟩
  case loaded =>
    intro t ht
    rw [hw]
    exact hl t ht
  case queued =>
    rw [hq, hp, hf, hw]
    exact h.queued
  case known =>
    intro x hx
    rw [hcr]
    rcases hc x with he | ⟨he, -⟩
    · exact h.known x (he ▸ hx)
    · exact he
  case held =>
    intro x t ht
    rw [(hev x.1).1]
    rcases hc x with he | ⟨-, -, he⟩
    · exact h.held x t (he ▸ ht)
    · exact he t ht
  case pushes =>
    intro x hx
    obtain ⟨h1, h2, h3, h4⟩ := h.pushes x (hpush x hx)
    exact ⟨hf ▸ h1, hw ▸ h2, hq ▸ h3, fun y hy => h4 y (hpush y hy)⟩

/-- The owner goes on and knows as much as before. -/
theorem Sync.move (h : Sync s) (hf : o.fixed = s.owner.fixed) (hp : o.preempts = s.owner.preempts)
    (hl : ∀ t, o.loaded = some t → t = s.word) : Sync { s with owner := o } :=
  h.congr rfl rfl rfl rfl (fun _ => ⟨rfl, rfl⟩) hf hp hl fun _ => .inl rfl

theorem Owner.fixed_back (o : Owner) (x : Source) : (o.back x).fixed = o.fixed := by
  unfold Owner.back
  split
  · rename_i y waits
    split_ifs <;> simp_all [Owner.fixed]
  · rfl

theorem Owner.preempts_back (o : Owner) (x : Source) : (o.back x).preempts = o.preempts := by
  unfold Owner.back
  split
  · split_ifs <;> rfl
  · rfl

theorem Owner.loaded_back (o : Owner) (x : Source) : (o.back x).loaded = o.loaded := by
  unfold Owner.back
  split
  · split_ifs <;> rfl
  · rfl

/-- A call goes on. -/
theorem Sync.callMove (h : Sync s) (hx : x.1 < s.created) (hp : c.pushes = false)
    (ht : ∀ t, c.token = some t → t = (s.event x.1).token) : Sync { s with call := update s.call x c } := by
  refine h.congr rfl rfl rfl rfl (fun _ => ⟨rfl, rfl⟩) rfl rfl h.loaded fun y => ?_
  by_cases hy : y = x
  · subst hy
    refine .inr ⟨hx, ?_⟩
    simp only [update_self]
    exact ⟨hp, ht⟩
  · exact .inl (update_of_ne hy _ _)

/-- A call returns without having pushed the task. -/
theorem Sync.finish (h : Sync s) (hx : x.1 < s.created) (type : Option Kind) (signaled freed : Bool) :
    Sync (s.finish x type signaled freed) := by
  have hm : Sync { s with owner := s.owner.back x } :=
    h.move (s.owner.fixed_back x) (s.owner.preempts_back x) fun t ht =>
    h.loaded t (s.owner.loaded_back x ▸ ht)
  exact hm.callMove (c := .done type signaled freed) hx rfl fun t ht => by cases ht

theorem Sync.dropped (h : Sync s) (hx : x.1 < s.created) {type : Option Kind} {t : Token} (freed : Bool)
    (ht : t = (s.event x.1).token) : Sync (s.dropped x type t freed) := by
  cases type with
  | none => exact h.finish hx none false freed
  | some type =>
    exact h.callMove (c := .unblock type t freed) hx rfl fun t' ht' => (Option.some.inj ht').symm.trans ht

/-- The reference count of an event, or that it is freed, changes. -/
theorem Sync.eventMove (h : Sync s) {e : ℕ} {v : Event} (htok : v.token = (s.event e).token)
    (hst : v.stamp = (s.event e).stamp) : Sync { s with event := update s.event e v } := by
  refine h.congr rfl rfl rfl rfl (fun e' => ?_) rfl rfl h.loaded fun _ => .inl rfl
  by_cases he : e' = e
  · subst he
    simp only [update_self]
    exact ⟨htok, hst⟩
  · simp only [update_of_ne he, and_self]

/-! ## Steps that write the word -/

/-- **The owner changes the state.** It has loaded the word from a state that no source changes, so it loses
none of their changes. -/
theorem Sync.store (h : Sync s) {y : TaskState} (hf : s.owner.fixed = some y) {z : TaskState} {ca : BitVec 8}
    {log : List Entry} (hz : o.fixed = some z ∨ o.fixed = none ∧ z = .ready)
    (hl : ∀ t, o.loaded = some t → t = setToken z ca (getCount s.word + countIncrement))
    (hq : s.queued = true → o.fixed = none) :
    Sync { s with
      word := setToken z ca (getCount s.word + countIncrement)
      changes := s.changes + 1
      owner := o
      log := log } := by
  have hclosed : ∀ e < s.created, (s.event e).stamp < s.changes + 1 :=
    fun e he => Nat.lt_succ_of_le (h.stamp e he)
  have hpush : ∀ x, (s.call x).pushes ≠ true := h.not_pushes (.inl (by rw [hf]; nofun))
  constructor
  case count => exact h.count.succ z ca
  case token => exact h.token
  case stamp => exact fun e he => Nat.le_succ_of_le (h.stamp e he)
  case older => exact fun e he => Nat.lt_succ_of_lt (h.older e he)
  case fixed =>
    intro x hx
    rcases hz with hz | ⟨hz, -⟩
    · obtain rfl : z = x := Option.some.inj (hz.symm.trans hx)
      exact ⟨getState_setToken z ca _, hclosed⟩
    · exact absurd (hz.symm.trans hx) nofun
  case waits =>
    intro hx
    rcases hz with hz | ⟨-, rfl⟩
    · exact absurd (hx.symm.trans hz) nofun
    · exact .inl ⟨getState_setToken _ ca _, hclosed⟩
  case loaded => exact hl
  case queued =>
    intro hx
    rcases hz with hz | ⟨hz, rfl⟩
    · exact absurd ((hq hx).symm.trans hz) nofun
    · exact .inr ⟨hz, getState_setToken _ ca _⟩
  case known => exact h.known
  case held => exact h.held
  case pushes => exact fun x hx => absurd hx (hpush x)

/-- **A source unblocks the task**, and the task is then running if it is itself the source. -/
theorem Sync.unblocks (h : Sync s) (hx : x.1 < s.created) (hst : (s.event x.1).stamp = s.changes) {self : Bool}
    {type : Kind} {log : List Entry} (hc : c.token = none)
    (ho : self = true ∧ o = .running ∧ c.pushes = false ∨ self = false ∧ o = s.owner) :
    Sync { s with
      word := unblock (s.event x.1).token self type
      changes := s.changes + 1
      owner := o
      call := update s.call x c
      log := log } := by
  obtain ⟨hf, hopen⟩ := h.open_of_stamp hx hst
  have hb : getState s.word = code .blocked := hopen.state
  have hpush : ∀ y, (s.call y).pushes ≠ true := h.not_pushes (.inr (.inl hb))
  have hclosed : ∀ e < s.created, (s.event e).stamp < s.changes + 1 :=
    fun e he => Nat.lt_succ_of_le (h.stamp e he)
  have hcount : Count (unblock (s.event x.1).token self type) (s.changes + 1) := by
    have := h.count
    rw [hopen.word] at this
    exact this.succ _ type
  have hnp : s.owner.preempts = false := by
    rw [← Bool.not_eq_true]
    intro hp
    cases hso : s.owner with
    | load change => rw [hso] at hf; cases hf
    | store change t => rw [hso] at hf; cases hf
    | _ => rw [hso] at hp; cases hp
  have hq : s.queued = false := h.not_queued hnp (.inr hb)
  constructor
  case count => exact hcount
  case token => exact h.token
  case stamp => exact fun e he => Nat.le_succ_of_le (h.stamp e he)
  case older => exact fun e he => Nat.lt_succ_of_lt (h.older e he)
  case fixed =>
    intro y hy
    rcases ho with ⟨rfl, rfl, -⟩ | ⟨rfl, rfl⟩
    · obtain rfl : TaskState.running = y := Option.some.inj hy
      exact ⟨getState_setToken _ type _, hclosed⟩
    · exact absurd (hf.symm.trans hy) nofun
  case waits =>
    intro hy
    rcases ho with ⟨rfl, rfl, -⟩ | ⟨rfl, rfl⟩
    · cases hy
    · exact .inl ⟨getState_setToken _ type _, hclosed⟩
  case loaded =>
    intro t ht
    rcases ho with ⟨rfl, rfl, -⟩ | ⟨rfl, rfl⟩
    · cases ht
    · cases hso : s.owner with
      | store change t => rw [hso] at hf; cases hf
      | blockStore n t => rw [hso] at hf; cases hf
      | publish n t => rw [hso] at hf; cases hf
      | _ => rw [hso] at ht; cases ht
  case queued =>
    intro hy
    rw [hq] at hy
    cases hy
  case known =>
    intro y hy
    by_cases hyx : y = x
    · exact hyx ▸ hx
    · simp only [update_of_ne hyx] at hy
      exact h.known y hy
  case held =>
    intro y t ht
    by_cases hyx : y = x
    · subst hyx
      simp only [update_self, hc] at ht
      cases ht
    · simp only [update_of_ne hyx] at ht
      exact h.held y t ht
  case pushes =>
    intro y hy
    have honly : ∀ z, (update s.call x c z).pushes = true → z = x ∧ c.pushes = true := by
      intro z hz
      by_cases hzx : z = x
      · subst hzx
        rw [update_self] at hz
        exact ⟨rfl, hz⟩
      · rw [update_of_ne hzx] at hz
        exact absurd hz (hpush z)
    obtain ⟨rfl, hcp⟩ := honly y hy
    rcases ho with ⟨-, -, hno⟩ | ⟨rfl, rfl⟩
    · rw [hno] at hcp
      cases hcp
    · exact ⟨hf, getState_setToken _ type _, hq, fun z hz => (honly z hz).1⟩

/-- A source that has unblocked the task puts it in its ready queue. -/
theorem Sync.ready (h : Sync s) (hx : (s.call x).pushes = true) (type : Option Kind) (signaled freed : Bool) :
    Sync (({ s with queued := true } : St).finish x type signaled freed) := by
  obtain ⟨hf, hr, -, hu⟩ := h.pushes x hx
  have hk : x.1 < s.created := h.known x fun hi => by
    rw [hi] at hx
    cases hx
  have hm : Sync (s.finish x type signaled freed) := h.finish hk type signaled freed
  have hno : ∀ y, ((s.finish x type signaled freed).call y).pushes ≠ true := by
    intro y hy
    by_cases hyx : y = x
    · subst hyx
      simp only [St.finish, update_self] at hy
      cases hy
    · simp only [St.finish, update_of_ne hyx] at hy
      exact hyx (hu y hy)
  exact ⟨hm.count, hm.token, hm.stamp, hm.older, hm.fixed,
    fun hy => (hm.waits hy).imp_right fun ⟨e, he⟩ => ⟨e, he.last, he.word, he.stamp, he.state⟩, hm.loaded,
    fun _ => .inr ⟨(s.owner.fixed_back x).trans hf, hr⟩, hm.known, hm.held, fun y hy => absurd hy (hno y)⟩

/-! ## Steps of the scheduler on the ready queue, and a new event -/

/-- The task goes into its ready queue. -/
theorem Sync.enqueue (h : Sync s) {y : TaskState} (hf : s.owner.fixed = some y)
    (ho : o.fixed = some y ∧ o.preempts = true ∨ o.fixed = none ∧ y = .ready) (hl : o.loaded = none) :
    Sync { s with queued := true, owner := o } := by
  obtain ⟨hy, hcl⟩ := h.fixed y hf
  have hpush : ∀ x, (s.call x).pushes ≠ true := h.not_pushes (.inl (by rw [hf]; nofun))
  refine ⟨h.count, h.token, h.stamp, h.older, ?_, ?_, ?_, ?_, h.known, h.held, fun x hx => absurd hx (hpush x)⟩
  · intro x hx
    rcases ho with ⟨ho, -⟩ | ⟨ho, -⟩
    · obtain rfl : y = x := Option.some.inj (ho.symm.trans hx)
      exact ⟨hy, hcl⟩
    · exact absurd (ho.symm.trans hx) nofun
  · intro hx
    rcases ho with ⟨ho, -⟩ | ⟨-, rfl⟩
    · exact absurd (ho.symm.trans hx) nofun
    · exact .inl ⟨hy, hcl⟩
  · intro t ht
    exact absurd (hl.symm.trans ht) nofun
  · intro _
    rcases ho with ⟨-, ho⟩ | ⟨ho, rfl⟩
    · exact .inl ho
    · exact .inr ⟨ho, hy⟩

/-- The task is taken from its ready queue. -/
theorem Sync.dispatch (h : Sync s) (ho : s.owner = .away) (hq : s.queued = true) :
    Sync { s with queued := false, owner := .load .dispatch } := by
  have hf : s.owner.fixed = none := by rw [ho]; rfl
  have hr : getState s.word = code .ready := by
    rcases h.queued hq with hp | hr
    · rw [ho] at hp
      cases hp
    · exact hr.2
  have hcl : s.Closed := by
    rcases h.waits hf with hcl | ⟨e, he⟩
    · exact hcl.2
    · have := hr.symm.trans he.state
      exact absurd this (by decide)
  have hpush : ∀ x, (s.call x).pushes ≠ true := h.not_pushes (.inr (.inr hq))
  refine ⟨h.count, h.token, h.stamp, h.older, ?_, nofun, nofun, nofun, h.known, h.held,
    fun x hx => absurd hx (hpush x)⟩
  intro x hx
  obtain rfl : TaskState.ready = x := Option.some.inj hx
  exact ⟨hr, hcl⟩

/-- `prs_event_create` returns the event. -/
theorem Sync.publish (h : Sync s) {refcnt : BitVec 64} {t : Token} (ho : s.owner = .publish refcnt t) :
    Sync { s with
      event := update s.event s.created ⟨t, refcnt, refcnt, 0, s.changes⟩
      created := s.created + 1
      owner := .waiting } := by
  obtain ⟨hb, hcl⟩ := h.fixed .blocked (by rw [ho]; rfl)
  obtain rfl : t = s.word := h.loaded t (by rw [ho]; rfl)
  have hold : ∀ e < s.created, update s.event s.created ⟨s.word, refcnt, refcnt, 0, s.changes⟩ e = s.event e :=
    fun e he => update_of_ne (Nat.ne_of_lt he) _ _
  have hpush : ∀ x, (s.call x).pushes ≠ true := h.not_pushes (.inr (.inl hb))
  refine ⟨h.count, ?_, ?_, ?_, nofun, ?_, nofun, ?_, ?_, ?_, fun x hx => absurd hx (hpush x)⟩
  · intro e he
    rcases Nat.lt_succ_iff_lt_or_eq.1 he with he | rfl
    · simp only [hold e he]
      exact h.token e he
    · simp only [update_self]
      exact h.count
  · intro e he
    rcases Nat.lt_succ_iff_lt_or_eq.1 he with he | rfl
    · simp only [hold e he]
      exact h.stamp e he
    · simp only [update_self]
      exact le_rfl
  · intro e he
    have he' : e < s.created := Nat.lt_of_succ_lt_succ he
    simp only [hold e he']
    exact hcl e he'
  · intro _
    refine .inr ⟨s.created, rfl, ?_, ?_, hb⟩
    · simp only [update_self]
    · simp only [update_self]
  · intro hq
    have := h.not_queued (by rw [ho]; rfl) (.inr hb)
    rw [show s.queued = true from hq] at this
    cases this
  · intro x hx
    exact Nat.lt_succ_of_lt (h.known x hx)
  · intro x t ht
    have hx : x.1 < s.created := h.known x fun hi => by
      rw [show s.call x = .idle from hi] at ht
      cases ht
    simp only [hold x.1 hx]
    exact h.held x t ht

/-! ## Every step -/

theorem Sync.stepOwner (h : Sync s) (hs : s.stepOwner = some s') : Sync s' := by
  unfold St.stepOwner at hs
  split at hs <;> rename_i ho
  case h_1 change =>
    rw [← Option.some.inj hs]
    refine (h.move (o := .store change s.word) ?_ ?_ ?_).congr rfl rfl rfl rfl (fun _ => ⟨rfl, rfl⟩) rfl rfl ?_
      fun _ => .inl rfl
    · rw [ho]; rfl
    · rw [ho]; cases change <;> rfl
    · exact fun t ht => (Option.some.inj ht).symm
    · exact fun t ht => (Option.some.inj ht).symm
  case h_2 change t =>
    rw [← Option.some.inj hs]
    obtain rfl : t = s.word := h.loaded t (by rw [ho]; rfl)
    refine h.store (y := change.expected) (by rw [ho]; rfl) ?_ ?_ ?_
    · cases change <;> first | exact .inl rfl | exact .inr ⟨rfl, rfl⟩
    · cases change <;> nofun
    · intro hq
      rcases h.queued hq with hp | ⟨hf, -⟩
      · rw [ho] at hp
        cases change <;> first | rfl | cases hp
      · rw [ho] at hf
        cases hf
  case h_3 =>
    rw [← Option.some.inj hs]
    exact h.enqueue (y := .ready) (by rw [ho]; rfl) (.inr ⟨rfl, rfl⟩) rfl
  case h_4 refcnt =>
    rw [← Option.some.inj hs]
    refine (h.move (o := .blockStore refcnt s.word) ?_ ?_ ?_).congr rfl rfl rfl rfl
      (fun _ => ⟨rfl, rfl⟩) rfl rfl ?_
      fun _ => .inl rfl
    · rw [ho]; rfl
    · rw [ho]; rfl
    · exact fun t ht => (Option.some.inj ht).symm
    · exact fun t ht => (Option.some.inj ht).symm
  case h_5 t =>
    rw [← Option.some.inj hs]
    obtain rfl : t = s.word := h.loaded t (by rw [ho]; rfl)
    refine h.store (y := .running) (by rw [ho]; rfl) (.inl rfl) nofun fun hq => ?_
    have := h.not_queued (by rw [ho]; rfl) (.inl (by rw [ho]; nofun))
    rw [hq] at this
    cases this
  case h_6 refcnt t =>
    rw [← Option.some.inj hs]
    obtain rfl : t = s.word := h.loaded t (by rw [ho]; rfl)
    refine h.store (y := .running) (by rw [ho]; rfl) (.inl rfl)
      (fun t ht => (Option.some.inj ht).symm) fun hq => ?_
    have := h.not_queued (by rw [ho]; rfl) (.inl (by rw [ho]; nofun))
    rw [hq] at this
    cases this
  case h_7 refcnt t =>
    rw [← Option.some.inj hs]
    exact h.publish ho
  case h_8 => cases hs

/-- Fields that the word does not depend on. -/
theorem Sync.withHistory (h : Sync s) (log : List Entry) (touched asserts : Bool) :
    Sync { s with log := log, touched := touched, asserts := asserts } :=
  h.congr rfl rfl rfl rfl (fun _ => ⟨rfl, rfl⟩) rfl rfl h.loaded fun _ => .inl rfl

theorem Sync.cas (h : Sync s) (hn : s.changes < 2 ^ 40) {type : Kind} {t : Token} {freed : Bool}
    (hc : s.call x = .unblock type t freed) : Sync (s.cas x type t freed) := by
  have hx : x.1 < s.created := h.known x (by rw [hc]; nofun)
  obtain rfl : t = (s.event x.1).token := h.held x t (by rw [hc]; rfl)
  unfold St.cas
  split
  · rename_i hw
    have hst := (h.word_eq_iff hn hx).1 hw
    split
    · rename_i hself
      rw [hself]
      exact h.unblocks (c := .done (some type) false freed) hx hst rfl (.inl ⟨rfl, rfl, rfl⟩)
    · rename_i hself
      rw [Bool.not_eq_true] at hself
      rw [hself]
      exact h.unblocks (c := .ready type freed) hx hst rfl (.inr ⟨rfl, rfl⟩)
  · exact (h.withHistory (.signal x type false :: s.log) s.touched s.asserts).finish hx _ _ _

theorem Sync.stepSource (h : Sync s) (hn : s.changes < 2 ^ 40) (hs : s.stepSource x = some s') : Sync s' := by
  unfold St.stepSource at hs
  split at hs <;> rename_i hc
  case h_1 => cases hs
  case h_2 type =>
    rw [← Option.some.inj hs]
    have hx : x.1 < s.created := h.known x (by rw [hc]; nofun)
    exact (h.withHistory s.log _ s.asserts).callMove hx rfl fun t ht => (Option.some.inj ht).symm
  case h_3 type t initial =>
    have hx : x.1 < s.created := h.known x (by rw [hc]; nofun)
    have ht : t = (s.event x.1).token := h.held x t (by rw [hc]; rfl)
    have hm := (h.withHistory s.log (s.touched || decide (0 < (s.event x.1).frees)) (s.asserts &&
      decide (0 < (s.event x.1).refcnt) && decide ((s.event x.1).refcnt ≤ initial))).eventMove (e := x.1)
        (v := { s.event x.1 with refcnt := (s.event x.1).refcnt - 1 }) rfl rfl
    have ht' : t = (update s.event x.1 { s.event x.1 with refcnt := (s.event x.1).refcnt - 1 } x.1).token := by
      rw [update_self]
      exact ht
    rw [← Option.some.inj hs]
    dsimp only
    split
    · exact hm.callMove (c := .destroy type t) hx rfl fun t' htt => (Option.some.inj htt).symm.trans ht'
    · exact hm.dropped hx false ht'
  case h_4 type t =>
    have hx : x.1 < s.created := h.known x (by rw [hc]; nofun)
    have ht : t = (s.event x.1).token := h.held x t (by rw [hc]; rfl)
    have hm := h.eventMove (e := x.1) (v := { s.event x.1 with frees := (s.event x.1).frees + 1 }) rfl rfl
    rw [← Option.some.inj hs]
    refine hm.dropped hx true ?_
    simp only [update_self]
    exact ht
  case h_5 type t freed =>
    rw [← Option.some.inj hs]
    exact h.cas hn hc
  case h_6 type freed =>
    rw [← Option.some.inj hs]
    exact h.ready (by rw [hc]; rfl) _ _ _
  case h_7 => cases hs

theorem Sync.step {a : Act} (h : Sync s) (hn : s.changes < 2 ^ 40) (hs : s.step a = some s') : Sync s' := by
  cases a with
  | owner => exact h.stepOwner hs
  | source x => exact h.stepSource hn hs
  | add =>
    obtain ⟨ho, rfl⟩ := Option.ite_none_right_eq_some.1 hs |>.imp_right Option.some.inj
    exact h.move (by rw [ho]; rfl) (by rw [ho]; rfl) nofun
  | dispatch =>
    obtain ⟨ho, rfl⟩ := Option.ite_none_right_eq_some.1 hs |>.imp_right Option.some.inj
    exact h.dispatch ho.1 ho.2
  | preempt =>
    obtain ⟨ho, rfl⟩ := Option.ite_none_right_eq_some.1 hs |>.imp_right Option.some.inj
    exact h.enqueue (y := .running) (by rw [ho]; rfl) (.inl ⟨rfl, rfl⟩) rfl
  | yield =>
    obtain ⟨ho, rfl⟩ := Option.ite_none_right_eq_some.1 hs |>.imp_right Option.some.inj
    exact h.move (by rw [ho]; rfl) (by rw [ho]; rfl) nofun
  | create refcnt =>
    obtain ⟨ho, rfl⟩ := Option.ite_none_right_eq_some.1 hs |>.imp_right Option.some.inj
    exact h.move (by rw [ho.1]; rfl) (by rw [ho.1]; rfl) nofun
  | schedule =>
    obtain ⟨ho, rfl⟩ := Option.ite_none_right_eq_some.1 hs |>.imp_right Option.some.inj
    exact h.move (by rw [ho]; rfl) (by rw [ho]; rfl) nofun
  | call x type self =>
    obtain ⟨⟨hx, -, -, ho⟩, rfl⟩ := Option.ite_none_right_eq_some.1 hs |>.imp_right Option.some.inj
    cases self with
    | false => exact h.callMove (c := .read type) hx rfl nofun
    | true =>
      have hm : Sync { s with owner := .calling x (decide (s.owner = .waiting)) } := by
        refine h.move ?_ ?_ nofun
        · rcases ho rfl with ho | ho <;> rw [ho] <;> rfl
        · rcases ho rfl with ho | ho <;> rw [ho] <;> rfl
      exact hm.callMove (c := .read type) hx rfl nofun

theorem changes_dropped (s : St) (x : Source) (type : Option Kind) (t : Token) (freed : Bool) :
    (s.dropped x type t freed).changes = s.changes := by
  cases type <;> rfl

theorem changes_le_cas (s : St) (x : Source) (type : Kind) (t : Token) (freed : Bool) :
    s.changes ≤ (s.cas x type t freed).changes := by
  unfold St.cas
  split
  · split <;> exact Nat.le_succ _
  · exact le_rfl

/-- The state is changed no less often than before. -/
theorem changes_le {a : Act} (hs : s.step a = some s') : s.changes ≤ s'.changes := by
  cases a with
  | owner =>
    simp only [St.step, St.stepOwner] at hs
    split at hs <;> cases hs
    all_goals first | exact le_rfl | exact Nat.le_succ _
  | source x =>
    simp only [St.step, St.stepSource] at hs
    split at hs <;> cases hs
    case h_3 =>
      split
      · exact le_rfl
      · rw [changes_dropped]
        exact le_rfl
    case h_4 =>
      rw [changes_dropped]
    case h_5 => exact changes_le_cas _ _ _ _ _
    all_goals exact le_rfl
  | _ =>
    obtain ⟨-, rfl⟩ := Option.ite_none_right_eq_some.1 hs |>.imp_right Option.some.inj
    exact le_rfl

end Prs.Events
