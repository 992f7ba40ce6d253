import Prs.Proof.EventRefs
import Prs.Proof.EventSync

/-!
# An event unblocks its task once

The history of a task is the blocks and the compare-and-swaps of `prs_task_unblock`, in the order in which
they take effect. A signal succeeds exactly when the block in force is that of its own event, and this is the
case exactly when it is the first signal of its event (`Story.told`).
-/

namespace Prs.Events

open Function Prs.Task
open Prs.Swprio (TaskState)

/-- The event whose block is in force. -/
def current : List Entry → Option ℕ
  | [] => none
  | .block event :: _ => event
  | .signal _ _ true :: _ => none
  | .signal _ _ false :: log => current log

/-- The type of the last signal that succeeded since the last block. -/
def lastCause : List Entry → Kind
  | [] => 0
  | .block _ :: _ => 0
  | .signal _ type true :: _ => type
  | .signal _ _ false :: log => lastCause log

/-- A source of event `e` has tried to unblock the task. -/
def Signaled (log : List Entry) (e : ℕ) : Prop := ∃ k type success, Entry.signal (e, k) type success ∈ log

/-- Each signal has succeeded exactly when the block in force was that of its event, and exactly when it was the
first of its event. -/
def Told : List Entry → Prop
  | [] => True
  | .block _ :: log => Told log
  | .signal x _ success :: log =>
    (success = true ↔ current log = some x.1) ∧ (success = true ↔ ¬ Signaled log x.1) ∧ Told log

theorem signaled_cons_block {b : Option ℕ} {log : List Entry} {e : ℕ} :
    Signaled (.block b :: log) e ↔ Signaled log e := by
  simp only [Signaled, List.mem_cons, reduceCtorEq, false_or]

theorem signaled_cons_signal {x : Source} {type : Kind} {success : Bool} {log : List Entry} {e : ℕ} :
    Signaled (.signal x type success :: log) e ↔ e = x.1 ∨ Signaled log e := by
  constructor
  · rintro ⟨k, type', success', hm⟩
    rcases List.mem_cons.1 hm with hm | hm
    · injection hm with hx
      exact .inl (congrArg Prod.fst hx)
    · exact .inr ⟨k, type', success', hm⟩
  · rintro (rfl | ⟨k, type', success', hm⟩)
    · exact ⟨x.2, type, success, List.mem_cons_self⟩
    · exact ⟨k, type', success', List.mem_cons_of_mem _ hm⟩

/-- What the comparison of a call has found: the type, and whether it has unblocked the task. -/
def Call.result : Call → Option (Kind × Bool)
  | .ready type _ => some (type, true)
  | .done (some type) signaled _ => some (type, !signaled)
  | _ => none

/-- The call does not signal and reports that the event is signaled. -/
def Call.misreports : Call → Bool
  | .done none signaled _ => signaled
  | _ => false

structure Story (s : St) : Prop where
  told : Told s.log
  created : ∀ e, Signaled s.log e → e < s.created
  ended : ∀ e < s.created, Signaled s.log e ↔ (s.event e).stamp < s.changes
  current : ∀ e < s.created, current s.log = some e ↔ (s.event e).stamp = s.changes
  publishes : ∀ refcnt t, s.owner = .publish refcnt t → Events.current s.log = some s.created
  cause : getCause s.word = lastCause s.log
  calls : ∀ x type success, .signal x type success ∈ s.log ↔ (s.call x).result = some (type, success)
  reports : ∀ x, (s.call x).misreports = false

variable {s s' : St} {x : Source} {c : Call}

theorem story_init : Story .init where
  told := trivial
  created := by rintro e ⟨k, type, success, hm⟩; cases hm
  ended e he := by cases he
  current e he := by cases he
  publishes refcnt t h := by cases h
  cause := by decide
  calls x type success := ⟨nofun, nofun⟩
  reports x := rfl

/-! ## Steps -/

/-- A step that changes neither the word nor the history. -/
theorem Story.congr (h : Story s) (hw : s'.word = s.word) (hch : s'.changes = s.changes)
    (hcr : s'.created = s.created) (hlog : s'.log = s.log) (hev : ∀ e, (s'.event e).stamp = (s.event e).stamp)
    (ho : ∀ refcnt t, s'.owner = .publish refcnt t → s.owner = .publish refcnt t)
    (hc : ∀ x, (s'.call x).result = (s.call x).result ∧ (s'.call x).misreports = false) : Story s' := by
  constructor
  case told => rw [hlog]; exact h.told
  case created => rw [hlog, hcr]; exact h.created
  case ended =>
    intro e he
    rw [hlog, hev, hch]
    exact h.ended e (hcr ▸ he)
  case current =>
    intro e he
    rw [hlog, hev, hch]
    exact h.current e (hcr ▸ he)
  case publishes =>
    intro refcnt t hp
    rw [hlog, hcr]
    exact h.publishes refcnt t (ho refcnt t hp)
  case cause => rw [hw, hlog]; exact h.cause
  case calls =>
    intro x type success
    rw [hlog, (hc x).1]
    exact h.calls x type success
  case reports => exact fun x => (hc x).2

/-- A call goes on; it has not come to the comparison, or is past it. -/
theorem Story.callMove (h : Story s) (hr : c.result = (s.call x).result) (hm : c.misreports = false) :
    Story { s with call := update s.call x c } := by
  refine h.congr rfl rfl rfl rfl (fun _ => rfl) (fun _ _ ho => ho) fun y => ?_
  by_cases hy : y = x
  · subst hy
    simp only [update_self]
    exact ⟨hr, hm⟩
  · simp only [update_of_ne hy]
    exact ⟨trivial, h.reports y⟩

theorem Story.owner (h : Story s) {o : Owner} (ho : ∀ refcnt t, o ≠ .publish refcnt t) :
    Story { s with owner := o } :=
  h.congr rfl rfl rfl rfl (fun _ => rfl) (fun refcnt t hp => absurd hp (ho refcnt t)) fun x => ⟨rfl, h.reports x⟩

/-- `prs_task_change_state` stores the new state. -/
theorem Story.store (h : Story s) (hcl : s.Closed) {o : Owner} (ho : ∀ refcnt t, o ≠ .publish refcnt t)
    (z : TaskState) :
    Story { s with word := changeState s.word z, changes := s.changes + 1, owner := o } := by
  constructor
  case told => exact h.told
  case created => exact h.created
  case ended =>
    intro e he
    refine (h.ended e he).trans ⟨fun hlt => Nat.lt_succ_of_lt hlt, fun _ => hcl e he⟩
  case current =>
    intro e he
    have := hcl e he
    exact (h.current e he).trans ⟨fun heq => by omega, fun heq => absurd heq (by dsimp only; omega)⟩
  case publishes => exact fun refcnt t hp => absurd hp (ho refcnt t)
  case cause => exact (getCause_setToken z _ _).trans h.cause
  case calls => exact h.calls
  case reports => exact h.reports

/-- `prs_task_block` stores the new state. -/
theorem Story.block (h : Story s) (hcl : s.Closed) {o : Owner} {b : Option ℕ}
    (hb : b = none ∧ (∀ refcnt t, o ≠ .publish refcnt t) ∨ b = some s.created) :
    Story { s with word := block s.word, changes := s.changes + 1, owner := o, log := .block b :: s.log } := by
  constructor
  case told => exact h.told
  case created => exact fun e he => h.created e (signaled_cons_block.1 he)
  case ended =>
    intro e he
    refine signaled_cons_block.trans ((h.ended e he).trans ⟨fun hlt => Nat.lt_succ_of_lt hlt, fun _ => hcl e he⟩)
  case current =>
    intro e he
    have := hcl e he
    refine ⟨fun heq => ?_, fun heq => absurd heq (by dsimp only; omega)⟩
    rcases hb with ⟨rfl, -⟩ | rfl
    · cases heq
    · exact absurd (Option.some.inj heq).symm (Nat.ne_of_lt he)
  case publishes =>
    intro refcnt t hp
    rcases hb with ⟨-, ho⟩ | rfl
    · exact absurd hp (ho refcnt t)
    · rfl
  case cause => exact getCause_setToken _ _ _
  case calls =>
    intro x type success
    rw [← h.calls x type success]
    simp only [List.mem_cons, reduceCtorEq, false_or]
  case reports => exact h.reports

theorem Story.publish (h : Story s) {refcnt : BitVec 64} {t : Token} (ho : s.owner = .publish refcnt t) :
    Story { s with
      event := update s.event s.created ⟨t, refcnt, refcnt, 0, s.changes⟩
      created := s.created + 1
      owner := .waiting } := by
  have hold : ∀ e < s.created, update s.event s.created ⟨t, refcnt, refcnt, 0, s.changes⟩ e = s.event e :=
    fun e he => update_of_ne (Nat.ne_of_lt he) _ _
  constructor
  case told => exact h.told
  case created => exact fun e he => Nat.lt_succ_of_lt (h.created e he)
  case ended =>
    intro e he
    rcases Nat.lt_succ_iff_lt_or_eq.1 he with he | rfl
    · simp only [hold e he]
      exact h.ended e he
    · simp only [update_self, lt_irrefl, iff_false]
      exact fun hsig => absurd (h.created _ hsig) (lt_irrefl _)
  case current =>
    intro e he
    rcases Nat.lt_succ_iff_lt_or_eq.1 he with he | rfl
    · simp only [hold e he]
      exact h.current e he
    · simp only [update_self, iff_true]
      exact h.publishes refcnt t ho
  case publishes => exact nofun
  case cause => exact h.cause
  case calls => exact h.calls
  case reports => exact h.reports

/-- **The compare-and-swap.** The call compares the word with the token of its event, for the first time. -/
theorem Story.signal (h : Story s) (hy : Sync s) (hx : x.1 < s.created) {type : Kind} {success : Bool} {w : Token}
    {n : ℕ} {o : Owner} (hr : (s.call x).result = none) (hcr : c.result = some (type, success))
    (hm : c.misreports = false) (ho : ∀ refcnt t, o = .publish refcnt t → s.owner = .publish refcnt t)
    (hw : success = true ∧ (s.event x.1).stamp = s.changes ∧ n = s.changes + 1 ∧ getCause w = type ∨
      success = false ∧ (s.event x.1).stamp < s.changes ∧ n = s.changes ∧ w = s.word) :
    Story { s with
      word := w
      changes := n
      owner := o
      call := update s.call x c
      log := .signal x type success :: s.log } := by
  have hend := h.ended x.1 hx
  have hcur := h.current x.1 hx
  constructor
  case told =>
    rcases hw with ⟨rfl, hst, -⟩ | ⟨rfl, hst, -⟩
    · exact ⟨iff_of_true rfl (hcur.2 hst), iff_of_true rfl fun hs => absurd (hend.1 hs) (by omega), h.told⟩
    · refine ⟨iff_of_false nofun fun hs => ?_, iff_of_false nofun (not_not.2 (hend.2 hst)), h.told⟩
      exact absurd (hcur.1 hs) (Nat.ne_of_lt hst)
  case created =>
    intro e he
    rcases signaled_cons_signal.1 he with rfl | he
    · exact hx
    · exact h.created e he
  case ended =>
    intro e (he : e < s.created)
    refine signaled_cons_signal.trans ?_
    by_cases hex : e = x.1
    · subst hex
      refine iff_of_true (.inl rfl) ?_
      rcases hw with ⟨-, hst, rfl, -⟩ | ⟨-, hst, rfl, -⟩
      · exact Nat.lt_succ_of_le hst.le
      · exact hst
    · rw [or_iff_right hex, h.ended e he]
      rcases hw with ⟨-, hst, rfl, -⟩ | ⟨-, -, rfl, -⟩
      · have hlast := (hy.open_of_stamp hx hst).2.last
        have := hy.older e (by omega)
        exact ⟨fun hlt => Nat.lt_succ_of_lt hlt, fun _ => this⟩
      · exact Iff.rfl
  case current =>
    intro e he
    rcases hw with ⟨rfl, -, rfl, -⟩ | ⟨rfl, -, rfl, -⟩
    · have := hy.stamp e he
      exact iff_of_false nofun (by dsimp only; omega)
    · exact h.current e he
  case publishes =>
    intro refcnt t hp
    have hp' := ho refcnt t hp
    rcases hw with ⟨-, hst, -⟩ | ⟨rfl, -⟩
    · have hf := (hy.open_of_stamp hx hst).1
      rw [hp'] at hf
      cases hf
    · exact h.publishes refcnt t hp'
  case cause =>
    rcases hw with ⟨rfl, -, -, hca⟩ | ⟨rfl, -, -, rfl⟩
    · exact hca
    · exact h.cause
  case calls =>
    intro y type' success'
    rw [List.mem_cons]
    by_cases hyx : y = x
    · subst hyx
      simp only [update_self, hcr]
      have hno : Entry.signal y type' success' ∉ s.log := fun hin => by
        have := (h.calls y type' success').1 hin
        rw [hr] at this
        cases this
      rw [or_iff_left hno]
      constructor
      · intro he
        injection he with _ ht hs
        rw [ht, hs]
      · intro he
        injection he with he
        injection he with ht hs
        rw [ht, hs]
    · simp only [update_of_ne hyx]
      rw [← h.calls y type' success', or_iff_right]
      intro he
      injection he with he
      exact hyx he
  case reports =>
    intro y
    by_cases hyx : y = x
    · subst hyx
      simp only [update_self]
      exact hm
    · simp only [update_of_ne hyx]
      exact h.reports y

theorem Owner.back_ne (o : Owner) (x : Source) {refcnt : BitVec 64} {t : Token}
    (h : o.back x = .publish refcnt t) :
    o = .publish refcnt t := by
  unfold Owner.back at h
  split at h
  · split_ifs at h
  · exact h

theorem Story.returns (h : Story s) (x : Source) : Story { s with owner := s.owner.back x } :=
  h.congr rfl rfl rfl rfl (fun _ => rfl) (fun _ _ ho => s.owner.back_ne x ho) fun y => ⟨rfl, h.reports y⟩

theorem Story.cas (h : Story s) (hy : Sync s) (hn : s.changes < 2 ^ 40) {type : Kind} {t : Token} {freed : Bool}
    (hc : s.call x = .unblock type t freed) : Story (s.cas x type t freed) := by
  have hx : x.1 < s.created := hy.known x (by rw [hc]; nofun)
  obtain rfl : t = (s.event x.1).token := hy.held x t (by rw [hc]; rfl)
  have hr : (s.call x).result = none := by rw [hc]; rfl
  have hiff := hy.word_eq_iff hn hx
  unfold St.cas
  split
  · rename_i hw
    have hst := hiff.1 hw
    split
    · exact h.signal hy hx (c := .done (some type) false freed) hr rfl rfl nofun
        (.inl ⟨rfl, hst, rfl, getCause_setToken _ _ _⟩)
    · exact h.signal hy hx (c := .ready type freed) hr rfl rfl (fun _ _ ho => ho)
        (.inl ⟨rfl, hst, rfl, getCause_setToken _ _ _⟩)
  · rename_i hw
    have hst : (s.event x.1).stamp < s.changes :=
      lt_of_le_of_ne (hy.stamp x.1 hx) fun he => hw (hiff.2 he)
    exact h.signal hy hx (c := .done (some type) true freed) hr rfl rfl (fun _ _ ho => s.owner.back_ne x ho)
      (.inr ⟨rfl, hst, rfl, rfl⟩)

theorem Story.event (h : Story s) {e : ℕ} {v : Event} (hst : v.stamp = (s.event e).stamp) :
    Story { s with event := update s.event e v } := by
  refine h.congr rfl rfl rfl rfl (fun e' => ?_) (fun _ _ ho => ho) fun y => ⟨rfl, h.reports y⟩
  by_cases he : e' = e
  · subst he
    simp only [update_self]
    exact hst
  · simp only [update_of_ne he]

theorem Story.flags (h : Story s) (queued touched asserts : Bool) :
    Story { s with queued := queued, touched := touched, asserts := asserts } :=
  h.congr rfl rfl rfl rfl (fun _ => rfl) (fun _ _ ho => ho) fun y => ⟨rfl, h.reports y⟩

theorem Story.dropped (h : Story s) (hr : (s.call x).result = none) (type : Option Kind) (t : Token)
    (freed : Bool) :
    Story (s.dropped x type t freed) := by
  cases type with
  | none => exact (h.callMove (c := .done none false freed) hr.symm rfl).returns x
  | some type => exact h.callMove (c := .unblock type t freed) hr.symm rfl

theorem Story.stepSource (h : Story s) (hy : Sync s) (hn : s.changes < 2 ^ 40) (hs : s.stepSource x = some s') :
    Story s' := by
  unfold St.stepSource at hs
  split at hs <;> rename_i hc
  case h_1 => cases hs
  case h_2 type =>
    rw [← Option.some.inj hs]
    exact (h.flags s.queued (s.touched || decide (0 < (s.event x.1).frees)) s.asserts).callMove
      (by rw [hc]; rfl) rfl
  case h_3 type t initial =>
    rw [← Option.some.inj hs]
    have hm := (h.flags s.queued (s.touched || decide (0 < (s.event x.1).frees)) (s.asserts &&
      decide (0 < (s.event x.1).refcnt) && decide ((s.event x.1).refcnt ≤ initial))).event (e := x.1)
        (v := { s.event x.1 with refcnt := (s.event x.1).refcnt - 1 }) rfl
    dsimp only
    split
    · exact hm.callMove (c := .destroy type t) (by rw [hc]; rfl) rfl
    · exact hm.dropped (by rw [hc]; rfl) type t false
  case h_4 type t =>
    rw [← Option.some.inj hs]
    exact (h.event (v := { s.event x.1 with frees := (s.event x.1).frees + 1 }) rfl).dropped
      (by rw [hc]; rfl) type t true
  case h_5 type t freed =>
    rw [← Option.some.inj hs]
    exact h.cas hy hn hc
  case h_6 type freed =>
    rw [← Option.some.inj hs]
    exact ((h.flags true s.touched s.asserts).callMove (c :=
      .done (some type) false freed) (by rw [hc]; rfl) rfl).returns x
  case h_7 => cases hs

theorem Story.stepOwner (h : Story s) (hy : Sync s) (hs : s.stepOwner = some s') : Story s' := by
  unfold St.stepOwner at hs
  split at hs <;> rename_i ho
  case h_1 change =>
    rw [← Option.some.inj hs]
    exact (h.flags s.queued s.touched (s.asserts && getState s.word == code change.expected)).owner nofun
  case h_2 change t =>
    rw [← Option.some.inj hs]
    obtain rfl : t = s.word := hy.loaded t (by rw [ho]; rfl)
    refine h.store (hy.fixed change.expected (by rw [ho]; rfl)).2 (fun refcnt t hp => ?_) change.new
    cases change <;> cases hp
  case h_3 =>
    rw [← Option.some.inj hs]
    exact (h.flags true s.touched s.asserts).owner nofun
  case h_4 refcnt =>
    rw [← Option.some.inj hs]
    exact (h.flags s.queued s.touched (s.asserts && getState s.word != code .blocked)).owner nofun
  case h_5 t =>
    rw [← Option.some.inj hs]
    obtain rfl : t = s.word := hy.loaded t (by rw [ho]; rfl)
    exact h.block (hy.fixed .running (by rw [ho]; rfl)).2 (.inl ⟨rfl, nofun⟩)
  case h_6 refcnt t =>
    rw [← Option.some.inj hs]
    obtain rfl : t = s.word := hy.loaded t (by rw [ho]; rfl)
    exact h.block (hy.fixed .running (by rw [ho]; rfl)).2 (.inr rfl)
  case h_7 refcnt t =>
    rw [← Option.some.inj hs]
    exact h.publish ho
  case h_8 => cases hs

theorem Story.step {a : Act} (h : Story s) (hy : Sync s) (hn : s.changes < 2 ^ 40) (hs : s.step a = some s') :
    Story s' := by
  cases a with
  | owner => exact h.stepOwner hy hs
  | source x => exact h.stepSource hy hn hs
  | call x type self =>
    obtain ⟨⟨-, -, hi, -⟩, rfl⟩ := Option.ite_none_right_eq_some.1 hs |>.imp_right Option.some.inj
    have hm := h.callMove (c := .read type) (x := x) (by rw [hi]; rfl) rfl
    cases self with
    | false => exact hm
    | true => exact hm.owner nofun
  | dispatch =>
    obtain ⟨-, rfl⟩ := Option.ite_none_right_eq_some.1 hs |>.imp_right Option.some.inj
    exact (h.flags false s.touched s.asserts).owner nofun
  | preempt =>
    obtain ⟨-, rfl⟩ := Option.ite_none_right_eq_some.1 hs |>.imp_right Option.some.inj
    exact (h.flags true s.touched s.asserts).owner nofun
  | _ =>
    obtain ⟨-, rfl⟩ := Option.ite_none_right_eq_some.1 hs |>.imp_right Option.some.inj
    exact h.owner nofun

/-! ## Assertions -/

theorem asserts_dropped (s : St) (x : Source) (type : Option Kind) (t : Token) (freed : Bool) :
    (s.dropped x type t freed).asserts = s.asserts := by
  cases type <;> rfl

theorem asserts_cas (s : St) (x : Source) (type : Kind) (t : Token) (freed : Bool) :
    (s.cas x type t freed).asserts = s.asserts := by
  unfold St.cas
  split
  · split <;> rfl
  · rfl

/-- The assertions of `prs_event_unref_internal`. -/
theorem Refs.asserts (h : Refs s) {type : Option Kind} {t : Token} {n : BitVec 64}
    (hc : s.call x = .drop type t n) :
    0 < (s.event x.1).refcnt ∧ (s.event x.1).refcnt ≤ n := by
  have hi : s.call x ≠ .idle := by rw [hc]; nofun
  obtain ⟨hpos, -⟩ := h.alive hi (by rw [hc]; rfl)
  refine ⟨BitVec.lt_def.2 hpos, BitVec.le_def.2 ?_⟩
  rw [h.held x type t n hc]
  have := h.refs x.1 (h.inside x hi).1
  omega

theorem asserts_step {a : Act} (hy : Sync s) (hr : Refs s) (h : s.asserts = true) (hs : s.step a = some s') :
    s'.asserts = true := by
  cases a with
  | owner =>
    simp only [St.step, St.stepOwner] at hs
    split at hs <;> rename_i ho <;> cases hs
    case h_1 change =>
      have := (hy.fixed change.expected (by rw [ho]; rfl)).1
      simp only [h, this, beq_self_eq_true, Bool.and_self]
    case h_4 refcnt =>
      have := (hy.fixed .running (by rw [ho]; rfl)).1
      simp only [h, this]
      decide
    all_goals exact h
  | source x =>
    simp only [St.step, St.stepSource] at hs
    split at hs <;> rename_i hc <;> cases hs
    case h_3 type t n =>
      obtain ⟨h1, h2⟩ := hr.asserts hc
      have hok : (s.asserts && decide (0 < (s.event x.1).refcnt) && decide ((s.event x.1).refcnt ≤ n)) =
        true := by
        rw [h, decide_eq_true h1, decide_eq_true h2]
        rfl
      split
      · exact hok
      · rw [asserts_dropped]
        exact hok
    case h_4 =>
      rw [asserts_dropped]
      exact h
    case h_5 =>
      rw [asserts_cas]
      exact h
    all_goals exact h
  | _ =>
    obtain ⟨-, rfl⟩ := Option.ite_none_right_eq_some.1 hs |>.imp_right Option.some.inj
    exact h

/-! ## The result -/

/-- A history in which each signal is told splits at each of them. -/
theorem Told.split {later earlier : List Entry} {type : Kind} {success : Bool}
    (h : Told (later ++ .signal x type success :: earlier)) :
    (success = true ↔ current earlier = some x.1) ∧ (success = true ↔ ¬ Signaled earlier x.1) := by
  induction later with
  | nil => exact ⟨h.1, h.2.1⟩
  | cons entry later ih =>
    cases entry with
    | block b => exact ih h
    | signal y type' success' => exact ih h.2.2

theorem Told.exists_success {log : List Entry} {e : ℕ} (h : Told log) (hs : Signaled log e) :
    ∃ k type, Entry.signal (e, k) type true ∈ log := by
  induction log with
  | nil =>
    obtain ⟨k, type, success, hm⟩ := hs
    cases hm
  | cons entry log ih =>
    cases entry with
    | block b =>
      obtain ⟨k, type, hm⟩ := ih h (signaled_cons_block.1 hs)
      exact ⟨k, type, List.mem_cons_of_mem _ hm⟩
    | signal y type success =>
      by_cases hl : Signaled log e
      · obtain ⟨k, type', hm⟩ := ih h.2.2 hl
        exact ⟨k, type', List.mem_cons_of_mem _ hm⟩
      · obtain rfl : e = y.1 := (signaled_cons_signal.1 hs).resolve_right hl
        obtain rfl : success = true := h.2.1.2 hl
        exact ⟨y.2, type, List.mem_cons_self⟩

theorem Told.unique_success {log : List Entry} {e k k' : ℕ} {type type' : Kind} (h : Told log)
    (hm : Entry.signal (e, k) type true ∈ log) (hm' : Entry.signal (e, k') type' true ∈ log) : k = k' := by
  induction log with
  | nil => cases hm
  | cons entry log ih =>
    cases entry with
    | block b =>
      exact ih h ((List.mem_cons.1 hm).resolve_left nofun) ((List.mem_cons.1 hm').resolve_left nofun)
    | signal y type'' success =>
      rcases List.mem_cons.1 hm with he | hm
      · injection he with hy _ hsuc
        have hno : ¬ Signaled log e := by
          have := h.2.1.1 hsuc.symm
          rwa [← hy] at this
        rcases List.mem_cons.1 hm' with he' | hm'
        · injection he' with hy'
          exact congrArg Prod.snd (hy.trans hy'.symm)
        · exact absurd ⟨k', type', true, hm'⟩ hno
      · rcases List.mem_cons.1 hm' with he' | hm'
        · injection he' with hy' _ hsuc
          have hno : ¬ Signaled log e := by
            have := h.2.1.1 hsuc.symm
            rwa [← hy'] at this
          exact absurd ⟨k, type, true, hm⟩ hno
        · exact ih h.2.2 hm hm'

/-- No signal succeeds between one that has succeeded and the next block. -/
theorem Told.lastCause_eq {later earlier : List Entry} {type : Kind}
    (h : Told (later ++ .signal x type true :: earlier)) (hb : ∀ b, Entry.block b ∉ later) :
    current (later ++ .signal x type true :: earlier) = none ∧
      lastCause (later ++ .signal x type true :: earlier) = type := by
  induction later with
  | nil => exact ⟨rfl, rfl⟩
  | cons entry later ih =>
    have hb' : ∀ b, Entry.block b ∉ later := fun b hm => hb b (List.mem_cons_of_mem _ hm)
    cases entry with
    | block b => exact absurd List.mem_cons_self (hb b)
    | signal y type' success =>
      obtain ⟨h1, h2⟩ := ih h.2.2 hb'
      cases success with
      | false => exact ⟨h1, h2⟩
      | true => exact absurd (h1.symm.trans (h.1.1 rfl)) nofun

/-- What holds of a task and its events. -/
structure ExactlyOnce (s : St) : Prop where
  /-- A block is ended by nothing but a signal of its own event. -/
  blocked : ∀ e < s.created, ¬ Signaled s.log e →
    current s.log = some e ∧ s.word = (s.event e).token ∧ getState s.word = code .blocked
  /-- A signal unblocks the task exactly when it is the first of its event, and then the task was blocked on that
  event. -/
  first : ∀ later earlier x type success, s.log = later ++ .signal x type success :: earlier →
    (success = true ↔ ¬ Signaled earlier x.1) ∧ (success = true ↔ current earlier = some x.1)
  /-- Of the signals of an event, if there are any, exactly one unblocks the task. -/
  once : ∀ e, Signaled s.log e → ∃! k, ∃ type, Entry.signal (e, k) type true ∈ s.log
  /-- Every other signal reports `PRS_EVENT_STATE_SIGNALED`, and nothing else does. -/
  reports : ∀ x type signaled freed, s.call x = .done type signaled freed →
    match type with
    | some type => Entry.signal x type (!signaled) ∈ s.log
    | none => signaled = false
  /-- `prs_task_get_last_unblock_cause` is the type of the signal that has unblocked the task, until it blocks
  again. -/
  cause : ∀ later earlier x type, s.log = later ++ .signal x type true :: earlier →
    (∀ b, Entry.block b ∉ later) → getCause s.word = type
  /-- An event is freed at most once, when no reference is left, by the one call that reports
  `PRS_EVENT_STATE_FREED`. -/
  freed : ∀ e < s.created, (s.event e).frees = s.sources Call.freed e ∧ (s.event e).frees ≤ 1 ∧
    ((s.event e).frees = 1 → (s.event e).refcnt = 0)
  /-- It is freed when all of its sources have returned. -/
  returned : ∀ e < s.created, (∀ k < (s.event e).initialRefcnt.toNat, ∃ type signaled freed,
    s.call (e, k) = .done type signaled freed) → (s.event e).frees = 1
  untouched : s.touched = false
  asserts : s.asserts = true

theorem Refs.frees_le (h : Refs s) {e : ℕ} (he : e < s.created) :
    (s.event e).frees ≤ 1 ∧ ((s.event e).frees = 1 → (s.event e).refcnt = 0) := by
  have hle : s.sources Call.freed e ≤ s.sources Call.last e := by
    refine sources_mono fun c hc => ?_
    cases c <;> first | exact hc | cases hc
  rw [h.frees e he]
  rcases h.last e he with ⟨h0, hl⟩ | ⟨-, hl⟩
  · exact ⟨by omega, fun _ => h0⟩
  · exact ⟨by omega, fun _ => by omega⟩

theorem Refs.frees_of_done (h : Refs s) {e : ℕ} (he : e < s.created)
    (hd : ∀ k < (s.event e).initialRefcnt.toNat, ∃ type signaled freed,
      s.call (e, k) = .done type signaled freed) :
    (s.event e).frees = 1 := by
  have hpast : s.sources Call.past e = (s.event e).initialRefcnt.toNat := by
    refine (List.countP_eq_length.2 fun k hk => ?_).trans List.length_range
    obtain ⟨type, signaled, freed, hc⟩ := hd k (List.mem_range.1 hk)
    rw [hc]
    rfl
  have hfl : s.sources Call.freed e = s.sources Call.last e := by
    refine List.countP_congr fun k hk => ?_
    obtain ⟨type, signaled, freed, hc⟩ := hd k (List.mem_range.1 hk)
    rw [hc]
    rfl
  have h0 : (s.event e).refcnt = 0 := by
    have := h.refs e he
    refine BitVec.eq_of_toNat_eq ?_
    change _ = 0
    omega
  rw [h.frees e he, hfl]
  exact ((h.last e he).resolve_right fun hne => hne.1 h0).2

theorem invariants_of_reachable (h : sys.Reachable s) :
    s.changes < 2 ^ 40 → Sync s ∧ Refs s ∧ Story s ∧ s.asserts = true := by
  refine h.inv (I := fun s => s.changes < 2 ^ 40 → Sync s ∧ Refs s ∧ Story s ∧ s.asserts = true) ?_ ?_
  · rintro s rfl -
    exact ⟨sync_init, refs_init, story_init, rfl⟩
  · intro s a s' ih hs hn
    have hn' := lt_of_le_of_lt (changes_le hs) hn
    obtain ⟨h1, h2, h3, h4⟩ := ih hn'
    exact ⟨h1.step hn' hs, h2.step hs, h3.step h1 hn' hs, asserts_step h1 h2 h4 hs⟩

/-- **An event unblocks its task exactly once**, in every run with fewer than `2 ^ 40` changes of the task's
state. -/
theorem exactly_once (h : sys.Reachable s) (hn : s.changes < 2 ^ 40) : ExactlyOnce s := by
  obtain ⟨hy, hr, ht, ha⟩ := invariants_of_reachable h hn
  constructor
  case blocked =>
    intro e he hns
    have hst : (s.event e).stamp = s.changes := by
      have := hy.stamp e he
      by_contra hne
      exact hns ((ht.ended e he).2 (lt_of_le_of_ne this hne))
    have ho := (hy.open_of_stamp he hst).2
    exact ⟨(ht.current e he).2 hst, ho.word, ho.state⟩
  case first =>
    intro later earlier x type success hlog
    have hsp := ht.told
    rw [hlog] at hsp
    exact hsp.split.symm
  case once =>
    intro e hs
    obtain ⟨k, type, hm⟩ := ht.told.exists_success hs
    exact ⟨k, ⟨type, hm⟩, fun k' ⟨type', hm'⟩ => ht.told.unique_success hm' hm⟩
  case reports =>
    intro x type signaled freed hc
    cases type with
    | some type => exact (ht.calls x type (!signaled)).2 (by rw [hc]; rfl)
    | none =>
      have := ht.reports x
      rw [hc] at this
      exact this
  case cause =>
    intro later earlier x type hlog hb
    have hto := ht.told
    rw [hlog] at hto
    rw [ht.cause, hlog]
    exact (hto.lastCause_eq hb).2
  case freed => exact fun e he => ⟨hr.frees e he, hr.frees_le he⟩
  case returned => exact fun e he hd => hr.frees_of_done he hd
  case untouched => exact hr.untouched
  case asserts => exact ha

/-- The second source of the first event signals after the task has blocked on a second event, whose only
source is the task itself. -/
theorem exactly_once_stale : ∃ s, sys.Reachable s ∧ s.log = [.signal (1, 0) 5 true, .signal (0, 1) 9 false,
    .block (some 1), .signal (0, 0) 7 true, .block (some 0)] ∧ s.call (0, 1) = .done (some 9) true true ∧
    s.changes < 2 ^ 40 ∧ ExactlyOnce s := by
  obtain ⟨s, hs, hlog, hcall, hn⟩ := System.exists_of_check sys (fun _ _ => True)
    (fun s => s.log = [.signal (1, 0) 5 true, .signal (0, 1) 9 false, .block (some 1), .signal (0, 0) 7 true,
      .block (some 0)] ∧ s.call (0, 1) = .done (some 9) true true ∧ s.changes < 2 ^ 40) .init rfl
    (List.flatten [[.owner, .owner, .add, .owner, .owner, .owner, .dispatch, .owner, .owner, .create 2, .owner,
      .owner, .owner, .call (0, 0) (some 7) false], List.replicate 4 (.source (0, 0)),
      [.schedule, .dispatch, .owner, .owner, .create 1, .owner, .owner, .owner, .call (0, 1) (some 9) false],
      List.replicate 4 (.source (0, 1)), .call (1, 0) (some 5) true :: List.replicate 4 (.source (1, 0))])
    (by decide +kernel)
  exact ⟨s, hs, hlog, hcall, hn, exactly_once hs hn⟩

end Prs.Events
