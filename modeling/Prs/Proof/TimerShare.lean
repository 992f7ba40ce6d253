import Prs.Model.TimerSteps

/-!
# The references and the event of a timer request

Whatever the order in which the caller and the clock thread come to a request, its entry is in one place
(`At`), and where the caller and the entry are decides everything else about it (`Ok`): the references in the
header, whether the clock thread has released its own, whether the event has been signaled or unreferenced,
and whether the entry is free.
-/

namespace Prs.TimerSteps

open Function Prs.Timer

/-- The place of an entry: with its caller or given up, in a list, or with the clock thread. -/
inductive Place
  | out
  | queue
  | tmp
  | slot (q : ℕ × ℕ)
  | move
  | work (at_ : Work)
  deriving DecidableEq

/-- The clock thread has the entry. -/
def Place.hand : Place → Option Place
  | .move => some .move
  | .work w => some (.work w)
  | _ => none

def Tick.hand (id : ℕ) : Tick → Option Place
  | .move _ i => if i = id then some .move else none
  | .work _ i w => if i = id then some (.work w) else none
  | _ => none

/-- The entry `id` is at `p` and nowhere else. -/
structure At (s : St) (id : ℕ) (p : Place) : Prop where
  queue : s.queued.count id = if p = .queue then 1 else 0
  tmp : s.tmpList.count id = if p = .tmp then 1 else 0
  slot : ∀ q, (s.lists q).count id = if p = .slot q then 1 else 0
  hand : s.tick.hand id = p.hand

/-! ## What is true of an entry at a place -/

/-- The references that the caller has; until the push, the clock thread's is one of them. -/
def Caller.hold : Caller → ℕ
  | .lock => 1
  | .lockCas _ => 1
  | .push => 2
  | .waiting => 1
  | .unlock => 1
  | .unlockCas _ => 1
  | _ => 0

/-- `prs_timer_queue` has returned. -/
def Caller.pushed : Caller → Bool
  | .waiting => true
  | .unlock => true
  | .unlockCas _ => true
  | .canceled => true
  | _ => false

def Caller.alloc : Caller → Bool
  | .none => false
  | _ => true

/-- The reference that the clock thread has of an entry. -/
def Place.hold : Place → ℕ
  | .out => 0
  | .work .destructor => 0
  | .work .free => 0
  | _ => 1

/-- The event has been signaled or unreferenced. -/
def Place.shared : Place → ℕ
  | .out => 1
  | .work .unlock => 1
  | .work (.unlockCas _) => 1
  | .work .free => 1
  | _ => 0

/-- The entry has been freed. -/
def freed : Caller → Place → Bool
  | .canceled, .out => true
  | _, _ => false

/-- What there is of one request. -/
structure View where
  caller : Caller
  place : Place
  header : Header
  /-- Calls of `prs_event_signal` and of `prs_event_unref`. -/
  shares : ℕ
  released : ℕ
  frees : ℕ

def St.view (s : St) (id : ℕ) (p : Place) : View :=
  ⟨s.caller id, p, s.header id, s.signals id + s.unrefs id, s.released id, s.frees id⟩

/-- **The life of a request.** -/
structure Ok (v : View) : Prop where
  early : v.caller.pushed = false → v.place = .out
  final : v.place = .work .destructor ∨ v.place = .work .free → v.caller = .canceled
  last : ∀ h, v.place = .work (.tryUnlockCas h) → h.refcnt = 1
  header : v.header = ⟨v.caller.alloc && !freed v.caller v.place, v.caller.hold + v.place.hold⟩
  shares : v.shares = if v.caller.pushed then v.place.shared else 0
  released : v.released = if v.caller.pushed then 1 - v.place.hold else 0
  frees : v.frees = if freed v.caller v.place then 1 else 0

variable {v : View} {c : Caller} {p : Place} {h : Header} {n r f : ℕ}

/-- The caller goes on before the push. -/
theorem Ok.enter (hv : Ok ⟨c, p, h, n, r, f⟩) {c' : Caller} (hc : c.pushed = false) (hc' : c'.pushed = false)
    {h' : Header} (hh : h' = ⟨c'.alloc, c'.hold⟩) : Ok ⟨c', p, h', n, r, f⟩ := by
  obtain rfl : p = .out := hv.early hc
  have hn := hv.shares
  have hr := hv.released
  have hf := hv.frees
  have hfr : freed c .out = false := by cases c <;> first | rfl | cases hc
  have hfr' : freed c' .out = false := by cases c' <;> first | rfl | cases hc'
  simp only [hc, hfr] at hn hr hf
  exact ⟨fun _ => rfl, nofun, nofun, by simp [hh, hfr', Place.hold], by simp [hc', hn], by simp [hc', hr],
    by simp [hfr', hf]⟩

/-- The push. -/
theorem Ok.push (hv : Ok ⟨.push, p, h, n, r, f⟩) : Ok ⟨.waiting, .queue, h, n, r, f⟩ := by
  obtain rfl : p = .out := hv.early rfl
  exact ⟨nofun, nofun, nofun, hv.header, hv.shares, hv.released, hv.frees⟩

/-- The caller goes on in `prs_timer_cancel`, up to the swap. -/
theorem Ok.cancels (hv : Ok ⟨c, p, h, n, r, f⟩) {c' : Caller} (hp : c.pushed = true) (hc : c ≠ .canceled)
    (hp' : c'.pushed = true) (hc' : c' ≠ .canceled) : Ok ⟨c', p, h, n, r, f⟩ := by
  have hold :
      ∀ c : Caller, c.pushed = true → c ≠ .canceled → c.alloc = true ∧ c.hold = 1 ∧ ∀ p, freed c p = false := by
    intro c h1 h2
    cases c <;> first | exact absurd rfl h2 | exact ⟨rfl, rfl, fun _ => rfl⟩ | cases h1
  obtain ⟨ha, hh, hf⟩ := hold c hp hc
  obtain ⟨ha', hh', hf'⟩ := hold c' hp' hc'
  have hhd := hv.header
  have hn := hv.shares
  have hr := hv.released
  have hfr := hv.frees
  simp only [ha, hh, hf, hp] at hhd hn hr hfr
  exact ⟨fun hx => absurd (hx.symm.trans hp') nofun, fun hx => absurd (hv.final hx) hc, hv.last,
    by simp [hhd, ha', hh', hf'], by simp [hn, hp'], by simp [hr, hp'], by simp [hfr, hf']⟩

/-- The caller releases its reference. -/
theorem Ok.unlock {g : Header} (hv : Ok ⟨.unlockCas g, p, h, n, r, f⟩) :
    Ok ⟨.canceled, p, ⟨h.alloc && h.refcnt != 1, h.refcnt - 1⟩, n, r, f + if h.refcnt = 1 then 1 else 0⟩ := by
  have hfin : p ≠ .work .destructor ∧ p ≠ .work .free := ⟨fun hp => absurd (hv.final (.inl hp)) nofun,
    fun hp => absurd (hv.final (.inr hp)) nofun⟩
  have hh : h = ⟨true, 1 + p.hold⟩ := hv.header
  have hhold : p.hold = if p = .out then 0 else 1 := by
    cases p with
    | work w => cases w <;> first | rfl | exact absurd rfl hfin.1 | exact absurd rfl hfin.2
    | _ => rfl
  have hf : freed .canceled p = decide (p = .out) := by
    cases p <;> rfl
  subst hh
  refine ⟨nofun, fun _ => rfl, hv.last, ?_, hv.shares, hv.released, ?_⟩
  · rcases eq_or_ne p .out with rfl | hp
    · rfl
    · simp [hhold, hf, hp, Caller.hold, Caller.alloc]
  · have := hv.frees
    simp only [freed] at this
    rcases eq_or_ne p .out with rfl | hp
    · rw [this]
      rfl
    · simp [hhold, hf, hp, this]

theorem Ok.pushed_of_ne (hv : Ok ⟨c, p, h, n, r, f⟩) (hp : p ≠ .out) : c.pushed = true := by
  by_contra hc
  exact hp (hv.early (by simpa using hc))

theorem freed_of_ne (hp : p ≠ .out) : freed c p = false := by
  cases c <;> cases p <;> first | rfl | exact absurd rfl hp

theorem Place.ne_of_hold (hp : p.hold = 1) : p ≠ .out ∧ p ≠ .work .destructor ∧ p ≠ .work .free := by
  refine ⟨?_, ?_, ?_⟩ <;> rintro rfl <;> cases hp

/-- The clock thread goes on with the entry. `d` is one when it signals the event. -/
theorem Ok.carry (hv : Ok ⟨c, p, h, n, r, f⟩) {p' : Place} (d : ℕ) (hp : p.hold = 1) (hp' : p'.hold = 1)
    (hs : p'.shared = p.shared + d) (hl : ∀ g, p' = .work (.tryUnlockCas g) → g.refcnt = 1) :
    Ok ⟨c, p', h, n + d, r, f⟩ := by
  obtain ⟨hout, -, -⟩ := Place.ne_of_hold hp
  obtain ⟨hout', hdes', hfree'⟩ := Place.ne_of_hold hp'
  have hpush := hv.pushed_of_ne hout
  have hhd := hv.header
  have hn := hv.shares
  have hr := hv.released
  have hf := hv.frees
  simp only [freed_of_ne hout, hp, hpush, if_true] at hhd hn hr hf
  constructor
  case early => exact fun hx => absurd (hx.symm.trans hpush) nofun
  case final => rintro (hx | hx) <;> contradiction
  case last => exact hl
  case header => simp only [freed_of_ne hout', hp', hhd]
  case shares => simp only [hpush, if_true, hs, hn]
  case released => simp only [hpush, if_true, hp', hr]
  case frees => simp only [freed_of_ne hout', hf]

/-- The clock thread releases its reference after it has signaled the event. -/
theorem Ok.release {g : Header} (hv : Ok ⟨c, .work (.unlockCas g), h, n, r, f⟩) :
    Ok ⟨c, .out, ⟨h.alloc && h.refcnt != 1, h.refcnt - 1⟩, n, r + 1, f + if h.refcnt = 1 then 1 else 0⟩ := by
  have hpush := hv.pushed_of_ne nofun
  have hhd := hv.header
  have hn := hv.shares
  have hr := hv.released
  have hf := hv.frees
  simp only [hpush, if_true] at hn hr
  simp only [freed_of_ne (show Place.work (.unlockCas g) ≠ .out from nofun)] at hhd hf
  subst hhd hf
  refine ⟨fun _ => rfl, nofun, nofun, ?_, by simp only [hpush, if_true, hn]; rfl,
    by simp only [hpush, if_true, hr]; rfl, ?_⟩
  · cases c <;> first | rfl | cases hpush
  · cases c <;> first | rfl | cases hpush

/-- The clock thread releases the last reference. -/
theorem Ok.tryUnlock {g : Header} (hv : Ok ⟨c, .work (.tryUnlockCas g), g, n, r, f⟩) :
    Ok ⟨c, .work .destructor, ⟨g.alloc, g.refcnt - 1⟩, n, r + 1, f⟩ := by
  have hpush := hv.pushed_of_ne nofun
  have hone : g.refcnt = 1 := hv.last g rfl
  have href : g.refcnt = c.hold + 1 := congrArg Header.refcnt hv.header
  have hal : g.alloc = (c.alloc && !freed c (.work (.tryUnlockCas g))) := congrArg Header.alloc hv.header
  have hcan : c = .canceled := by
    rw [hone] at href
    cases c <;> first | rfl | (cases href; done) | cases hpush
  subst hcan
  have hr : r = 0 := hv.released
  refine ⟨nofun, fun _ => rfl, nofun, ?_, hv.shares, by rw [hr]; rfl, hv.frees⟩
  rw [hone, hal]
  rfl

/-- The destructor unreferences the event. -/
theorem Ok.destructor (hv : Ok ⟨c, .work .destructor, h, n, r, f⟩) : Ok ⟨c, .work .free, h, n + 1, r, f⟩ := by
  obtain rfl : c = .canceled := hv.final (.inl rfl)
  have hn : n = 0 := hv.shares
  exact ⟨nofun, fun _ => rfl, nofun, hv.header, by rw [hn]; rfl, hv.released, hv.frees⟩

/-- The entry is freed after the destructor. -/
theorem Ok.free (hv : Ok ⟨c, .work .free, h, n, r, f⟩) : Ok ⟨c, .out, ⟨false, 0⟩, n, r, f + 1⟩ := by
  obtain rfl : c = .canceled := hv.final (.inr rfl)
  have hf : f = 0 := hv.frees
  exact ⟨nofun, nofun, nofun, rfl, hv.shares, hv.released, by rw [hf]; rfl⟩

/-- The header of an entry that somebody has a reference of passes the checks of the pool. -/
theorem Ok.locked (hv : Ok ⟨c, p, h, n, r, f⟩) (hh : c.hold ≠ 0 ∨ p.hold ≠ 0) : h.locked = true := by
  have hhd := hv.header
  have hfr : freed c p = false := by
    rcases hh with hh | hh
    · cases c <;> first | rfl | exact absurd rfl hh
    · exact freed_of_ne fun hp => hh (by rw [hp]; rfl)
  have hal : c.alloc = true := by
    by_contra hc
    have hnone : c = .none := by cases c <;> first | rfl | exact absurd rfl hc
    subst hnone
    obtain rfl : p = .out := hv.early rfl
    rcases hh with hh | hh <;> exact hh rfl
  rw [hfr, hal] at hhd
  rw [show h = _ from hhd]
  simp only [Header.locked, Bool.not_false, Bool.and_self, Bool.true_and, bne_iff_ne]
  omega

/-! ## Runs -/

variable {s s' : St} {id : ℕ}

/-- Every request is at one place. -/
def Inv (s : St) : Prop := ∀ id, ∃ p, At s id p ∧ Ok (s.view id p)

theorem inv_init : Inv .init := by
  refine fun id => ⟨.out, ⟨rfl, rfl, fun _ => rfl, rfl⟩, ?_⟩
  exact ⟨fun _ => rfl, nofun, nofun, rfl, rfl, rfl, rfl⟩

/-- A step that concerns the request `id` only. -/
theorem Inv.move (h : Inv s) (id : ℕ) (hat : ∀ i p, i ≠ id → At s i p → At s' i p)
    (hview : ∀ i p, i ≠ id → s'.view i p = s.view i p)
    (hself : ∀ p, At s id p → Ok (s.view id p) → ∃ p', At s' id p' ∧ Ok (s'.view id p')) : Inv s' := by
  intro i
  obtain ⟨p, hp, hv⟩ := h i
  by_cases hi : i = id
  · subst hi
    exact hself p hp hv
  · exact ⟨p, hat i p hi hp, by rw [hview i p hi]; exact hv⟩

/-- A step that concerns no request. -/
theorem Inv.same (h : Inv s) (hq : s'.queued = s.queued) (ht : s'.tmpList = s.tmpList) (hl : s'.lists = s.lists)
    (hh : ∀ i, s'.tick.hand i = s.tick.hand i) (hv : ∀ i p, s'.view i p = s.view i p) : Inv s' := by
  intro i
  obtain ⟨p, hp, hok⟩ := h i
  exact ⟨p, ⟨hq ▸ hp.queue, ht ▸ hp.tmp, hl ▸ hp.slot, (hh i).trans hp.hand⟩, by rw [hv i p]; exact hok⟩

/-- A step of the caller that does not push the entry. -/
theorem Inv.caller (h : Inv s) {c : Caller} {hd : Header} {f : ℕ} (hq : s'.queued = s.queued)
    (ht : s'.tmpList = s.tmpList) (hl : s'.lists = s.lists) (htick : s'.tick = s.tick)
    (hc : s'.caller = update s.caller id c) (hh : s'.header = update s.header id hd)
    (hf : s'.frees = update s.frees id f)
    (hrest : s'.signals = s.signals ∧ s'.unrefs = s.unrefs ∧ s'.released = s.released)
    (hok : ∀ p n r, Ok ⟨s.caller id, p, s.header id, n, r, s.frees id⟩ → Ok ⟨c, p, hd, n, r, f⟩) : Inv s' := by
  have hat : ∀ i p, At s i p → At s' i p := fun i p hp =>
    ⟨hq ▸ hp.queue, ht ▸ hp.tmp, hl ▸ hp.slot, htick ▸ hp.hand⟩
  refine h.move id (fun i p _ => hat i p) (fun i p hi => ?_) fun p hp hv => ⟨p, hat id p hp, ?_⟩
  · simp only [St.view, hc, hh, hf, hrest, update_of_ne hi]
  · simp only [St.view, hc, hh, hf, hrest, update_self]
    exact hok p _ _ hv

theorem count_append_singleton_of_ne {l : List ℕ} {i : ℕ} (hi : i ≠ id) : (l ++ [id]).count i = l.count i := by
  rw [List.count_append, List.count_singleton, if_neg (by simpa using hi.symm), Nat.add_zero]

theorem count_cons_of_ne' {l : List ℕ} {i : ℕ} (hi : i ≠ id) : (id :: l).count i = l.count i :=
  List.count_cons_of_ne hi.symm

theorem Inv.push (h : Inv s) (hc : s.caller id = .push) :
    Inv ({ s with queued := s.queued ++ [id] }.goto id .waiting) := by
  refine h.move id (fun i p hi hp => ?_) (fun i p hi => ?_) fun p hp hv => ⟨.queue, ?_, ?_⟩
  · exact ⟨(count_append_singleton_of_ne hi).trans hp.queue, hp.tmp, hp.slot, hp.hand⟩
  · simp only [St.view, St.goto, update_of_ne hi]
  · obtain rfl : p = .out := hv.early (by simp only [St.view, hc]; rfl)
    refine ⟨?_, hp.tmp, hp.slot, hp.hand⟩
    simp only [St.goto, List.count_append, List.count_singleton_self]
    have := hp.queue
    simp only [reduceCtorEq, if_false] at this
    simp only [this, if_true]
  · simp only [St.view, hc] at hv
    simp only [St.view, St.goto, update_self]
    exact hv.push

/-- A step of the caller that writes to nothing but its own counter. -/
theorem Inv.goto (h : Inv s) {c : Caller}
    (hok : ∀ p n r, Ok ⟨s.caller id, p, s.header id, n, r, s.frees id⟩ →
      Ok ⟨c, p, s.header id, n, r, s.frees id⟩) :
    Inv (s.goto id c) :=
  h.caller rfl rfl rfl rfl rfl (update_eq_self id _).symm (update_eq_self id _).symm ⟨rfl, rfl, rfl⟩ hok

/-- The caller reads the header before it takes the second reference. -/
theorem Inv.lockWith (h : Inv s) (hc : s.caller id = .lock ∨ ∃ g, s.caller id = .lockCas g) :
    Inv (s.goto id (if (s.header id).locked then .lockCas (s.header id) else .push)) := by
  have hcaller : (s.caller id).pushed = false ∧ (s.caller id).hold = 1 ∧ (s.caller id).alloc = true ∧
      freed (s.caller id) .out = false := by
    obtain hc | ⟨g, hc⟩ := hc <;> rw [hc] <;> exact ⟨rfl, rfl, rfl, rfl⟩
  obtain ⟨hpushed, hhold, halloc, hfreed⟩ := hcaller
  apply h.goto
  intro p n r hv
  have hp : p = .out := hv.early hpushed
  subst hp
  have hheader := hv.header
  simp only [halloc, hhold, hfreed] at hheader
  rw [hv.locked (.inl (by simp [hhold])), if_pos rfl]
  exact hv.enter hpushed rfl hheader

/-- The caller reads the header in `prs_timer_cancel`. -/
theorem Inv.cancelWith (h : Inv s) (hc : s.caller id = .unlock ∨ ∃ g, s.caller id = .unlockCas g) :
    Inv (s.cancelWith id (s.header id)) := by
  have hcaller : (s.caller id).hold ≠ 0 ∧ (s.caller id).pushed = true ∧ s.caller id ≠ .canceled := by
    obtain hc | ⟨g, hc⟩ := hc <;> rw [hc] <;> exact ⟨nofun, rfl, nofun⟩
  obtain ⟨hne, hpushed, hcanceled⟩ := hcaller
  apply h.goto
  intro p n r hv
  rw [hv.locked (.inl hne), if_pos rfl]
  exact hv.cancels hpushed hcanceled rfl nofun

theorem Inv.stepCaller (h : Inv s) (hs : s.stepCaller id = some s') : Inv s' := by
  unfold St.stepCaller at hs
  split at hs <;> rename_i hc
  case h_1 => cases hs
  case h_2 timeout =>
    rw [← Option.some.inj hs]
    refine h.caller rfl rfl rfl rfl rfl (update_eq_self id _).symm (update_eq_self id _).symm ⟨rfl, rfl, rfl⟩
      fun p n r hv => ?_
    rw [hc] at hv
    have hp : p = .out := hv.early rfl
    subst hp
    exact hv.enter rfl rfl hv.header
  case h_3 =>
    rw [← Option.some.inj hs]
    refine h.caller rfl rfl rfl rfl rfl rfl (update_eq_self id _).symm ⟨rfl, rfl, rfl⟩ fun p n r hv => ?_
    rw [hc] at hv
    exact hv.enter rfl rfl rfl
  case h_4 =>
    rw [← Option.some.inj hs]
    exact h.lockWith (.inl hc)
  case h_5 g =>
    split at hs
    · rename_i hg
      rw [← Option.some.inj hs]
      refine h.caller rfl rfl rfl rfl rfl rfl (update_eq_self id _).symm ⟨rfl, rfl, rfl⟩ fun p n r hv => ?_
      rw [hc, hg] at hv
      have hp : p = .out := hv.early rfl
      subst hp
      have hgd : g = ⟨true, 1⟩ := hv.header
      exact hv.enter rfl rfl (by rw [hgd]; rfl)
    · rw [← Option.some.inj hs]
      exact h.lockWith (.inr ⟨g, hc⟩)
  case h_6 =>
    rw [← Option.some.inj hs]
    exact h.push hc
  case h_7 => cases hs
  case h_8 =>
    rw [← Option.some.inj hs]
    exact h.cancelWith (.inl hc)
  case h_9 g =>
    split at hs
    · rename_i hg
      rw [← Option.some.inj hs]
      refine h.caller rfl rfl rfl rfl rfl rfl rfl ⟨rfl, rfl, rfl⟩ fun p n r hv => ?_
      rw [hc, hg] at hv
      exact hv.unlock
    · rw [← Option.some.inj hs]
      exact h.cancelWith (.inr ⟨g, hc⟩)
  case h_10 => cases hs

/-! ## The clock thread -/

theorem At.hand_eq (hp : At s id p) {p' : Place} (ht : s.tick.hand id = some p') : p = p' := by
  have := hp.hand
  rw [ht] at this
  cases p <;> cases this <;> rfl

theorem hand_work {b : Bool} {w : Work} : (Tick.work b id w).hand id = some (.work w) := if_pos rfl

theorem hand_work_of_ne {b : Bool} {w : Work} {i : ℕ} (hi : i ≠ id) : (Tick.work b id w).hand i = none :=
  if_neg hi.symm

theorem hand_move_of_ne {slots : List (ℕ × ℕ)} {i : ℕ} (hi : i ≠ id) : (Tick.move slots id).hand i = none :=
  if_neg hi.symm

theorem At.eq_slot (hp : At s id p) {q : ℕ × ℕ} (hm : id ∈ s.lists q) : p = .slot q := by
  by_contra hne
  have := List.count_pos_iff.2 hm
  rw [hp.slot q, if_neg hne] at this
  exact absurd this (lt_irrefl 0)

theorem At.eq_queue (hp : At s id p) (hm : id ∈ s.queued) : p = .queue := by
  by_contra hne
  have := List.count_pos_iff.2 hm
  rw [hp.queue, if_neg hne] at this
  exact absurd this (lt_irrefl 0)

theorem At.eq_tmp (hp : At s id p) (hm : id ∈ s.tmpList) : p = .tmp := by
  by_contra hne
  have := List.count_pos_iff.2 hm
  rw [hp.tmp, if_neg hne] at this
  exact absurd this (lt_irrefl 0)

/-- The clock thread takes an entry from a slot. -/
theorem Inv.take (h : Inv s) {q : ℕ × ℕ} {qs slots : List (ℕ × ℕ)} {l : List ℕ} (ht : s.tick = .flush slots)
    (hl : s.lists q = id :: l) : Inv { s with lists := update s.lists q l, tick := .move qs id } := by
  refine h.move id (fun i p hi hp => ?_) (fun i p _ => rfl) fun p hp hv => ?_
  · refine ⟨hp.queue, hp.tmp, fun q' => ?_, (hand_move_of_ne hi).trans (by rw [← hp.hand, ht]; rfl)⟩
    rw [← hp.slot q']
    by_cases hq : q' = q
    · subst hq
      simp only [update_self, hl, count_cons_of_ne' hi]
    · simp only [update_of_ne hq]
  · obtain rfl : p = .slot q := hp.eq_slot (by rw [hl]; exact List.mem_cons_self)
    refine ⟨.move, ⟨hp.queue, hp.tmp, fun q' => ?_, if_pos rfl⟩, hv.carry 0 rfl rfl rfl nofun⟩
    have hq' := hp.slot q'
    by_cases hq : q' = q
    · subst hq
      rw [hl, List.count_cons_self, if_pos rfl] at hq'
      simp only [update_self, reduceCtorEq, if_false]
      omega
    · rw [if_neg fun he => hq (Place.slot.inj he).symm] at hq'
      simp only [update_of_ne hq, reduceCtorEq, if_false]
      exact hq'

/-- It puts the entry in `tmp_list`. -/
theorem Inv.putTmp (h : Inv s) {slots slots' : List (ℕ × ℕ)} (ht : s.tick = .move slots id) :
    Inv { s with tmpList := s.tmpList ++ [id], tick := .flush slots' } := by
  refine h.move id (fun i p hi hp => ?_) (fun i p _ => rfl) fun p hp hv => ?_
  · refine ⟨hp.queue, (count_append_singleton_of_ne hi).trans hp.tmp, hp.slot, ?_⟩
    rw [← hp.hand, ht, hand_move_of_ne hi]
    rfl
  · obtain rfl : p = .move := hp.hand_eq (by rw [ht]; exact if_pos rfl)
    refine ⟨.tmp, ⟨hp.queue, ?_, hp.slot, rfl⟩, hv.carry 0 rfl rfl rfl nofun⟩
    have := hp.tmp
    simp only [reduceCtorEq, if_false] at this
    simp only [List.count_append, List.count_singleton_self, this, if_true]

/-- It takes an entry from `tmp_list`. -/
theorem Inv.takeTmp (h : Inv s) {l : List ℕ} {b : Bool} (ht : s.tick = .tmp) (hl : s.tmpList = id :: l) :
    Inv { s with tmpList := l, tick := .work b id .enter } := by
  refine h.move id (fun i p hi hp => ?_) (fun i p _ => rfl) fun p hp hv => ?_
  · refine ⟨hp.queue, ?_, hp.slot, (hand_work_of_ne hi).trans (by rw [← hp.hand, ht]; rfl)⟩
    rw [← hp.tmp, hl, count_cons_of_ne' hi]
  · obtain rfl : p = .tmp := hp.eq_tmp (by rw [hl]; exact List.mem_cons_self)
    refine ⟨.work .enter, ⟨hp.queue, ?_, hp.slot, hand_work⟩, hv.carry 0 rfl rfl rfl nofun⟩
    have := hp.tmp
    rw [hl, List.count_cons_self, if_pos rfl] at this
    simp only [reduceCtorEq, if_false]
    omega

/-- It takes an entry from `timer->queued`. -/
theorem Inv.takeQueued (h : Inv s) {l : List ℕ} {b : Bool} (ht : s.tick = .queued) (hl : s.queued = id :: l) :
    Inv { s with queued := l, tick := .work b id .enter } := by
  refine h.move id (fun i p hi hp => ?_) (fun i p _ => rfl) fun p hp hv => ?_
  · refine ⟨?_, hp.tmp, hp.slot, (hand_work_of_ne hi).trans (by rw [← hp.hand, ht]; rfl)⟩
    rw [← hp.queue, hl, count_cons_of_ne' hi]
  · obtain rfl : p = .queue := hp.eq_queue (by rw [hl]; exact List.mem_cons_self)
    refine ⟨.work .enter, ⟨?_, hp.tmp, hp.slot, hand_work⟩, hv.carry 0 rfl rfl rfl nofun⟩
    have := hp.queue
    rw [hl, List.count_cons_self, if_pos rfl] at this
    simp only [reduceCtorEq, if_false]
    omega

/-- A step of `prs_timer_queue_internal` that changes no list: the entry stays with the clock thread, or is given
up. -/
theorem Inv.work (h : Inv s) {b : Bool} {w : Work} {p' : Place} {hd : Header} {n u r f : ℕ}
    (ht : s.tick = .work b id w) (hq : s'.queued = s.queued) (htmp : s'.tmpList = s.tmpList)
    (hl : s'.lists = s.lists) (htick : ∀ i, s'.tick.hand i = if i = id then p'.hand else none)
    (hp' : p' = .out ∨ ∃ w', p' = .work w') (hc : s'.caller = s.caller)
    (hh : s'.header = update s.header id hd) (hn : s'.signals = update s.signals id n)
    (hu : s'.unrefs = update s.unrefs id u) (hr : s'.released = update s.released id r)
    (hf : s'.frees = update s.frees id f) (hok : Ok (s.view id (.work w)) →
      Ok ⟨s.caller id, p', hd, n + u, r, f⟩) : Inv s' := by
  refine h.move id (fun i p hi hp => ?_) (fun i p hi => ?_) fun p hp hv => ?_
  · refine ⟨hq ▸ hp.queue, htmp ▸ hp.tmp, hl ▸ hp.slot, ?_⟩
    rw [htick i, if_neg hi, ← hp.hand, ht, hand_work_of_ne hi]
  · simp only [St.view, hc, hh, hn, hu, hr, hf, update_of_ne hi]
  · obtain rfl : p = .work w := hp.hand_eq (by rw [ht]; exact hand_work)
    refine ⟨p', ⟨?_, ?_, fun q => ?_, by rw [htick id, if_pos rfl]⟩, ?_⟩
    · rw [hq, hp.queue]
      rcases hp' with rfl | ⟨w', rfl⟩ <;> rfl
    · rw [htmp, hp.tmp]
      rcases hp' with rfl | ⟨w', rfl⟩ <;> rfl
    · rw [hl, hp.slot q]
      rcases hp' with rfl | ⟨w', rfl⟩ <;> rfl
    · simp only [St.view, hc, hh, hn, hu, hr, hf, update_self]
      exact hok hv

/-- The entry goes into a slot. -/
theorem Inv.insert (h : Inv s) {b b' : Bool} (ht : s.tick = .work b id .insert) (wheel slot : ℕ) :
    Inv ((s.insert id wheel slot).done b') := by
  have hdone : ∀ i, ((s.insert id wheel slot).done b').tick.hand i = none := fun i => by cases b' <;> rfl
  refine h.move id (fun i p hi hp => ?_) (fun i p _ => rfl) fun p hp hv => ?_
  · refine ⟨hp.queue, hp.tmp, fun q' => ?_, (hdone i).trans (by rw [← hp.hand, ht, hand_work_of_ne hi])⟩
    rw [← hp.slot q']
    by_cases hq : q' = (wheel, slot)
    · subst hq
      simp only [St.done, St.insert, update_self, count_append_singleton_of_ne hi]
    · simp only [St.done, St.insert, update_of_ne hq]
  · obtain rfl : p = .work .insert := hp.hand_eq (by rw [ht]; exact hand_work)
    refine ⟨.slot (wheel, slot), ⟨hp.queue, hp.tmp, fun q' => ?_, hdone id⟩, hv.carry 0 rfl rfl rfl nofun⟩
    have hq' := hp.slot q'
    simp only [reduceCtorEq, if_false] at hq'
    by_cases hq : q' = (wheel, slot)
    · subst hq
      simp only [St.done, St.insert, update_self, List.count_append, List.count_singleton_self, hq', if_true]
    · rw [if_neg fun he => hq (Place.slot.inj he).symm]
      simp only [St.done, St.insert, update_of_ne hq, hq']

theorem hand_at (b : Bool) (w : Work) (id i : ℕ) :
    (Tick.work b id w).hand i = if i = id then (Place.work w).hand else none := by
  by_cases hi : i = id
  · subst hi
    rw [if_pos rfl, hand_work]
    rfl
  · rw [if_neg hi, hand_work_of_ne hi]

theorem hand_done (b : Bool) (s : St) (id i : ℕ) :
    (s.done b).tick.hand i = if i = id then Place.out.hand else none := by
  split <;> cases b <;> rfl

/-- The clock thread goes on with the entry, and nothing else changes. -/
theorem Inv.goOn (h : Inv s) {b : Bool} {w w' : Work} (ht : s.tick = .work b id w)
    (hok : Ok (s.view id (.work w)) → Ok (s.view id (.work w'))) : Inv (s.at b id w') :=
  h.work ht rfl rfl rfl (hand_at b w' id) (.inr ⟨w', rfl⟩) rfl (update_eq_self id _).symm
    (update_eq_self id _).symm
    (update_eq_self id _).symm (update_eq_self id _).symm (update_eq_self id _).symm hok

theorem Inv.unlockWith (h : Inv s) {b : Bool} {w : Work} (ht : s.tick = .work b id w)
    (hw : w = .unlock ∨ ∃ g, w = .unlockCas g) : Inv (s.unlockWith b id (s.header id)) := by
  obtain ⟨p, hp, hv⟩ := h id
  obtain rfl : p = .work w := hp.hand_eq (by rw [ht]; exact hand_work)
  have hhold : (Place.work w).hold = 1 ∧ (Place.work w).shared = 1 := by
    rcases hw with rfl | ⟨g, rfl⟩ <;> exact ⟨rfl, rfl⟩
  have hlk : (s.header id).locked = true := hv.locked (.inr (by rw [hhold.1]; nofun))
  rw [St.unlockWith, if_pos hlk]
  exact h.goOn ht fun hv => hv.carry 0 hhold.1 rfl hhold.2.symm nofun

theorem Inv.tryUnlockWith (h : Inv s) {b : Bool} {w : Work} (ht : s.tick = .work b id w)
    (hw : w = .tryUnlock ∨ ∃ g, w = .tryUnlockCas g) : Inv (s.tryUnlockWith b id (s.header id)) := by
  have hhold : (Place.work w).hold = 1 ∧ (Place.work w).shared = 0 := by
    rcases hw with rfl | ⟨g, rfl⟩ <;> exact ⟨rfl, rfl⟩
  refine h.goOn ht fun hv => ?_
  split
  · rename_i hg
    refine hv.carry 0 hhold.1 rfl hhold.2.symm fun g hg' => ?_
    injection hg' with hg'
    injection hg' with hg'
    rw [← hg']
    simp only [Bool.and_eq_true, beq_iff_eq] at hg
    exact hg.2
  · exact hv.carry 0 hhold.1 rfl hhold.2.symm nofun

theorem Inv.stepWork (h : Inv s) {b : Bool} {w : Work} (ht : s.tick = .work b id w) :
    Inv (s.stepWork b id w) := by
  cases w with
  | enter =>
    refine h.goOn ht fun hv => ?_
    split
    · exact hv.carry 0 rfl rfl rfl nofun
    · exact hv.carry 0 rfl rfl rfl nofun
  | signal =>
    refine h.work ht rfl rfl rfl (hand_at b .unlock id) (.inr ⟨_, rfl⟩) rfl (update_eq_self id _).symm rfl
      (update_eq_self id _).symm (update_eq_self id _).symm (update_eq_self id _).symm fun hv => ?_
    rw [Nat.add_right_comm]
    exact hv.carry 1 rfl rfl rfl nofun
  | unlock => exact h.unlockWith ht (.inl rfl)
  | unlockCas g =>
    simp only [St.stepWork]
    split
    · rename_i hg
      refine h.work ht rfl rfl rfl (hand_done b _ id) (.inl rfl) rfl rfl (update_eq_self id _).symm
        (update_eq_self id _).symm rfl rfl fun hv => ?_
      simp only [St.view, hg] at hv
      exact hv.release
    · exact h.unlockWith ht (.inr ⟨g, rfl⟩)
  | tryUnlock => exact h.tryUnlockWith ht (.inl rfl)
  | tryUnlockCas g =>
    simp only [St.stepWork]
    split
    · rename_i hg
      refine h.work ht rfl rfl rfl (hand_at b .destructor id) (.inr ⟨_, rfl⟩) rfl rfl (update_eq_self id _).symm
        (update_eq_self id _).symm rfl (update_eq_self id _).symm fun hv => ?_
      simp only [St.view, hg] at hv
      exact hv.tryUnlock
    · exact h.tryUnlockWith ht (.inr ⟨g, rfl⟩)
  | destructor =>
    exact h.work ht rfl rfl rfl (hand_at b .free id) (.inr ⟨_, rfl⟩) rfl (update_eq_self id _).symm
      (update_eq_self id _).symm rfl (update_eq_self id _).symm (update_eq_self id _).symm fun hv => hv.destructor
  | free =>
    exact h.work ht rfl rfl rfl (hand_done b _ id) (.inl rfl) rfl rfl (update_eq_self id _).symm
      (update_eq_self id _).symm (update_eq_self id _).symm rfl fun hv => hv.free
  | insert => exact h.insert ht _ _

theorem Inv.stepTick (h : Inv s) (hs : s.stepTick = some s') : Inv s' := by
  unfold St.stepTick at hs
  split at hs <;> rename_i ht
  case h_1 => cases hs
  case h_2 =>
    rw [← Option.some.inj hs]
    exact h.same rfl rfl rfl (fun i => by rw [ht]; rfl) fun _ _ => rfl
  case h_3 =>
    rw [← Option.some.inj hs]
    exact h.same rfl rfl rfl (fun i => by rw [ht]; rfl) fun _ _ => rfl
  case h_4 q qs =>
    split at hs <;> rename_i hl
    · rw [← Option.some.inj hs]
      exact h.same rfl rfl rfl (fun i => by rw [ht]; rfl) fun _ _ => rfl
    · rw [← Option.some.inj hs]
      exact h.take ht hl
  case h_5 slots id =>
    rw [← Option.some.inj hs]
    exact h.putTmp ht
  case h_6 =>
    split at hs <;> rename_i hl
    · rw [← Option.some.inj hs]
      exact h.same rfl rfl rfl (fun i => by rw [ht]; rfl) fun _ _ => rfl
    · rw [← Option.some.inj hs]
      exact h.takeTmp ht hl
  case h_7 =>
    split at hs <;> rename_i hl
    · rw [← Option.some.inj hs]
      exact h.same rfl rfl rfl (fun i => by rw [ht]; rfl) fun _ _ => rfl
    · rw [← Option.some.inj hs]
      exact h.takeQueued ht hl
  case h_8 b id w =>
    rw [← Option.some.inj hs]
    exact h.stepWork ht

theorem Inv.step {a : Act} (h : Inv s) (hs : s.step a = some s') : Inv s' := by
  cases a with
  | request id timeout =>
    obtain ⟨⟨hc, -⟩, rfl⟩ := Option.ite_none_right_eq_some.1 hs |>.imp_right Option.some.inj
    refine h.caller rfl rfl rfl rfl rfl rfl (update_eq_self id _).symm ⟨rfl, rfl, rfl⟩ fun p n r hv => ?_
    rw [hc] at hv
    exact hv.enter rfl rfl rfl
  | caller id => exact h.stepCaller hs
  | cancel id =>
    obtain ⟨hc, rfl⟩ := Option.ite_none_right_eq_some.1 hs |>.imp_right Option.some.inj
    refine h.caller rfl rfl rfl rfl rfl (update_eq_self id _).symm (update_eq_self id _).symm ⟨rfl, rfl, rfl⟩
      fun p n r hv => ?_
    rw [hc] at hv
    exact hv.cancels rfl nofun rfl nofun
  | clock =>
    obtain ⟨ht, rfl⟩ := Option.ite_none_right_eq_some.1 hs |>.imp_right Option.some.inj
    exact h.same rfl rfl rfl (fun i => by rw [ht]; rfl) fun _ _ => rfl
  | tick => exact h.stepTick hs

/-! ## The result -/

/-- What holds of a request. -/
structure Lifetime (s : St) (id : ℕ) : Prop where
  /-- The entry is at one place. -/
  one : ∃ p, At s id p
  /-- Once it is pushed, an entry that the clock thread is not moving is in `timer->queued`, or in one slot,
  or the clock thread has released it. -/
  place : (s.caller id).pushed = true → id ∉ s.tmpList → s.tick.hand id = none →
    s.queued.count id = 1 ∧ (∀ q, id ∉ s.lists q) ∧ s.released id = 0 ∨
    id ∉ s.queued ∧ (∃ q, (s.lists q).count id = 1 ∧ ∀ q', q' ≠ q → id ∉ s.lists q') ∧ s.released id = 0 ∨
    id ∉ s.queued ∧ (∀ q, id ∉ s.lists q) ∧ s.released id = 1
  released : s.released id ≤ 1
  frees : s.frees id ≤ 1
  /-- It is freed after both have released it, and when it is in no list. -/
  after : 0 < s.frees id → s.caller id = .canceled ∧ s.released id = 1 ∧ id ∉ s.queued ∧ id ∉ s.tmpList ∧
    (∀ q, id ∉ s.lists q) ∧ s.tick.hand id = none
  /-- When both have released it, and the clock thread is not about to free it, it is freed. -/
  freed : s.caller id = .canceled → s.released id = 1 → s.tick.hand id = none → s.frees id = 1
  /-- The event is not both signaled and unreferenced, nor either of them twice. -/
  share : s.signals id + s.unrefs id ≤ 1
  /-- When the clock thread has released the entry, one of them has happened. -/
  shared : s.released id = 1 → s.tick.hand id = none → s.signals id + s.unrefs id = 1

theorem At.not_mem_queued (hp : At s id p) (h : p ≠ .queue) : id ∉ s.queued := fun hm => h (hp.eq_queue hm)

theorem At.not_mem_tmp (hp : At s id p) (h : p ≠ .tmp) : id ∉ s.tmpList := fun hm => h (hp.eq_tmp hm)

theorem At.not_mem_slot (hp : At s id p) {q : ℕ × ℕ} (h : p ≠ .slot q) : id ∉ s.lists q :=
  fun hm => h (hp.eq_slot hm)

theorem Place.shared_le (p : Place) : p.shared ≤ 1 := by
  cases p with
  | work w => cases w <;> first | exact le_rfl | exact Nat.zero_le 1
  | _ => first | exact le_rfl | exact Nat.zero_le 1

/-- An entry that the clock thread has released and does not have is at no place. -/
theorem Ok.out_of_released {p : Place} (hv : Ok (s.view id p)) (hr : s.released id = 1) (hh : p.hand = none) :
    p = .out ∧ (s.caller id).pushed = true := by
  have hrel : s.released id = if (s.caller id).pushed then 1 - p.hold else 0 := hv.released
  have hpush : (s.caller id).pushed = true := by
    by_contra hc
    rw [if_neg hc, hr] at hrel
    cases hrel
  rw [hpush, if_pos rfl, hr] at hrel
  refine ⟨?_, hpush⟩
  cases p with
  | out => rfl
  | work w => cases hh
  | move => cases hh
  | _ => cases hrel

/-- **The life of a timer request**, for every interleaving of the requests with the clock thread: its entry
is in one place, is freed once, after the cancel and after the tick has released it, and its event is released
once. -/
theorem request_lifetime (h : sys.Reachable s) (id : ℕ) : Lifetime s id := by
  have hinv : Inv s := by
    refine h.inv (I := Inv) ?_ fun s a s' hi hs => hi.step hs
    rintro s rfl
    exact inv_init
  obtain ⟨p, hp, hv⟩ := hinv id
  have hn : s.signals id + s.unrefs id = if (s.caller id).pushed then p.shared else 0 := hv.shares
  have hr : s.released id = if (s.caller id).pushed then 1 - p.hold else 0 := hv.released
  have hf : s.frees id = if freed (s.caller id) p then 1 else 0 := hv.frees
  constructor
  case one => exact ⟨p, hp⟩
  case place =>
    intro hpush htmp hhand
    rw [hpush, if_pos rfl] at hr
    have hph : p.hand = none := hp.hand.symm.trans hhand
    cases p with
    | out => exact .inr (.inr ⟨hp.not_mem_queued nofun, fun q => hp.not_mem_slot nofun, hr⟩)
    | queue => exact .inl ⟨hp.queue, fun q => hp.not_mem_slot nofun, hr⟩
    | tmp => exact absurd (List.count_pos_iff.1 (by rw [hp.tmp]; exact Nat.one_pos)) htmp
    | slot q =>
      refine .inr (.inl ⟨hp.not_mem_queued nofun, ⟨q, (hp.slot q).trans (if_pos rfl), fun q' hq' => ?_⟩, hr⟩)
      exact hp.not_mem_slot fun he => hq' (Place.slot.inj he).symm
    | move => cases hph
    | work w => cases hph
  case released =>
    rw [hr]
    split
    · exact Nat.sub_le 1 _
    · exact Nat.zero_le 1
  case frees =>
    rw [hf]
    split
    · exact le_rfl
    · exact Nat.zero_le 1
  case after =>
    intro hpos
    have hfr : freed (s.caller id) p = true := by
      by_contra hfr
      rw [if_neg hfr] at hf
      omega
    obtain ⟨hc, rfl⟩ : s.caller id = .canceled ∧ p = .out := by
      unfold freed at hfr
      split at hfr
      · rename_i hc
        exact ⟨hc, rfl⟩
      · cases hfr
    rw [hc] at hr
    exact ⟨hc, hr, hp.not_mem_queued nofun, hp.not_mem_tmp nofun, fun q => hp.not_mem_slot nofun, hp.hand⟩
  case freed =>
    intro hc hrel hhand
    obtain ⟨rfl, -⟩ := hv.out_of_released hrel (hp.hand.symm.trans hhand)
    rw [hf, hc]
    rfl
  case share =>
    rw [hn]
    split
    · exact p.shared_le
    · exact Nat.zero_le 1
  case shared =>
    intro hrel hhand
    obtain ⟨rfl, hpush⟩ := hv.out_of_released hrel (hp.hand.symm.trans hhand)
    rw [hn, hpush]
    rfl

/-- A request is canceled while the tick is about to look at its reference count, and the tick gives it up. -/
theorem request_lifetime_canceled : ∃ s, sys.Reachable s ∧ s.frees 0 = 1 ∧ s.unrefs 0 = 1 ∧ s.signals 0 = 0 ∧
    Lifetime s 0 := by
  obtain ⟨s, hs, h1, h2, h3⟩ := System.exists_of_check sys (fun _ _ => True)
    (fun s => s.frees 0 = 1 ∧ s.unrefs 0 = 1 ∧ s.signals 0 = 0) .init rfl
    (List.flatten [.request 0 3 :: List.replicate 5 (.caller 0), .clock :: List.replicate 6 .tick,
      [.cancel 0, .caller 0, .caller 0], List.replicate 4 .tick]) (by decide +kernel)
  exact ⟨s, hs, h1, h2, h3, request_lifetime hs 0⟩

end Prs.TimerSteps
