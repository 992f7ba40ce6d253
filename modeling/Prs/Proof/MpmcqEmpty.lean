import Prs.Proof.MpmcqList

/-!
# When a pop may say that the queue is empty

The queue is drained when every element whose push has returned is consumed. `watched` records for each thread
whether the queue has been drained since the thread's pop started.

* `empty_truthful`: in every run in which stale compare-and-swaps fail and a pop sees past the nodes it finds
  consumed (`PopSees`), a pop that does not return an element has seen the queue drained.
* `empty_untruthful`: without that, a pop that was delayed on an old `head` returns `PRS_EMPTY` from a queue with
  an element in it, because the node behind it has been released.

A step only ever extends what has happened (`Ext`), so what a call knows stays true (`Knows.mono`) and the
invariant is a matter of the one thread that moves.
-/

namespace Prs.Mpmcq

open Function

/-- Every element whose push has returned is consumed. -/
def St.Drained {ι : Type} (s : St ι) : Prop := ∀ n ∈ s.done, (s.node n).consumed = true

instance {ι : Type} (s : St ι) : Decidable s.Drained :=
  inferInstanceAs (Decidable (∀ n ∈ s.done, (s.node n).consumed = true))

/-- What a pop relies on: the node behind a consumed one can be locked, the count of the node at `head` is not at
its limit, and when `head` is still unset at the second look, no push has linked a node behind the first one. -/
def St.PopSees {ι : Type} (s : St ι) : Act ι → Prop
  | .step i =>
    match s.pc i with
    | .popLockNext _ true (some x) => (s.pd.lock x).isSome
    | .lockHead _ (some t) => s.pd.refcnt t ≠ Pd.refcntMax
    | .loadHead (some none) => s.head.isSome ∨ s.order.length ≤ 1
    | _ => True
  | _ => True

/-- `PopSees`, evaluated. -/
def St.popSees {ι : Type} (s : St ι) : Act ι → Bool
  | .step i =>
    match s.pc i with
    | .popLockNext _ true (some x) => (s.pd.lock x).isSome
    | .lockHead _ (some t) => s.pd.refcnt t != Pd.refcntMax
    | .loadHead (some none) => s.head.isSome || decide (s.order.length ≤ 1)
    | _ => true
  | _ => true

theorem popSees_iff {ι : Type} {s : St ι} {a : Act ι} : s.popSees a = true ↔ s.PopSees a := by
  unfold St.popSees St.PopSees
  split
  · split <;> simp
  · simp

instance {ι : Type} (s : St ι) (a : Act ι) : Decidable (s.PopSees a) := decidable_of_iff _ popSees_iff

/-- Whether an action starts a pop of thread `j`. -/
def Act.startsPop {ι : Type} [DecidableEq ι] (j : ι) : Act ι → Bool
  | .pop i => decide (i = j)
  | _ => false

/-- The queue, and for each thread whether it has been drained since the start of the thread's pop. -/
def watched (ι : Type) [DecidableEq ι] : System (St ι × (ι → Bool)) (Act ι) :=
  (sys ι).withHistory (fun _ => true) fun a s w j => (!a.startsPop j && w j) || decide s.Drained

variable {ι : Type} {s s' : St ι} {i : ι} {w : ι → Bool}

/-! ## What a step extends -/

/-- What has happened stays so. -/
structure Ext (s s' : St ι) : Prop where
  order : s.order <+: s'.order
  consumed : ∀ m, (s.node m).consumed = true → (s'.node m).consumed = true
  past : ∀ m ∈ s.past, m ∈ s'.past
  entered : ∀ m, s.entered m = true → s'.entered m = true

theorem Ext.of_eq (ho : s'.order = s.order) (hn : s'.node = s.node) (hp : s'.past = s.past)
    (hpred : s'.pred = s.pred) (hh : s'.head = s.head) : Ext s s' where
  order := ho ▸ List.prefix_rfl
  consumed m hm := by rw [hn]; exact hm
  past m hm := by rw [hp]; exact hm
  entered m hm := by unfold St.entered at hm ⊢; rw [hpred, hh, hp]; exact hm

theorem Ext.lock [DecidableEq ι] (s : St ι) (n : ℕ) (p q : Pc) : Ext s (s.lock i n p q) := by
  unfold St.lock
  split <;> exact .of_eq rfl rfl rfl rfl rfl

theorem entered_iff {m : ℕ} : s.entered m = true ↔ s.pred m ≠ none ∨ s.head = some m ∨ m ∈ s.past := by
  simp only [St.entered, Bool.or_eq_true, decide_eq_true_eq, or_assoc, Option.isSome_iff_ne_none]

theorem stepThread_ext [DecidableEq ι] (hs : s.stepThread i = some s') : Ext s s' := by
  unfold St.stepThread at hs
  split at hs <;> rename_i hpc
  case h_10 n t x =>
    split at hs <;> obtain rfl := Option.some.inj hs
    · refine ⟨List.prefix_append _ _, fun m hm => ?_, fun _ h => h, fun m hm => ?_⟩
      · show (update s.node t { s.node t with next := some n } m).consumed = true
        by_cases hmt : m = t
        · subst hmt; rwa [update_self]
        · rwa [update_of_ne hmt]
      · rw [entered_iff] at hm ⊢
        refine hm.imp_left fun h => ?_
        show update s.pred n (some t) m ≠ none
        by_cases hmn : m = n
        · subst hmn; simp
        · rwa [update_of_ne hmn]
    · exact .of_eq rfl rfl rfl rfl rfl
  case h_14 n t =>
    split at hs <;> obtain rfl := Option.some.inj hs
    · exact ⟨List.prefix_append _ _, fun _ h => h, fun _ h => h, fun _ h => h⟩
    · exact .of_eq rfl rfl rfl rfl rfl
  case h_15 n =>
    obtain rfl := Option.some.inj hs
    refine ⟨List.prefix_rfl, fun _ h => h, fun m hm => List.mem_append_right _ hm, fun m hm => ?_⟩
    rw [entered_iff] at hm ⊢
    rcases hm with hm | hm | hm
    · exact Or.inl hm
    · exact Or.inr (Or.inr (List.mem_append_left _ (Option.mem_toList.2 hm)))
    · exact Or.inr (Or.inr (List.mem_append_right _ hm))
  case h_21 t =>
    obtain rfl := Option.some.inj hs
    exact ⟨List.prefix_rfl, fun m hm => consumed_consume hm, fun _ h => h, fun _ h => h⟩
  case h_25 t c x =>
    split at hs <;> obtain rfl := Option.some.inj hs
    · rename_i ht
      refine ⟨List.prefix_rfl, fun _ h => h, fun m hm => List.mem_cons_of_mem _ hm, fun m hm => ?_⟩
      rw [entered_iff] at hm ⊢
      rcases hm with hm | hm | hm
      · exact Or.inl hm
      · rw [ht] at hm
        obtain rfl := Option.some.inj hm
        exact Or.inr (Or.inr List.mem_cons_self)
      · exact Or.inr (Or.inr (List.mem_cons_of_mem _ hm))
    · exact .of_eq rfl rfl rfl rfl rfl
  case h_19 p => split at hs <;> obtain rfl := Option.some.inj hs <;> exact .of_eq rfl rfl rfl rfl rfl
  case h_20 p t =>
    split at hs
    · split at hs <;> obtain rfl := Option.some.inj hs <;> exact .of_eq rfl rfl rfl rfl rfl
    · obtain rfl := Option.some.inj hs; exact Ext.lock s _ _ _
  all_goals first | cases hs; done | obtain rfl := Option.some.inj hs
  all_goals first | exact .of_eq rfl rfl rfl rfl rfl | exact Ext.lock s _ _ _

theorem alloc_ext [Fintype ι] [DecidableEq ι] (hI : Inv s) {data n : ℕ} (hs : s.alloc i data n = some s') :
    Ext s s' := by
  unfold St.alloc Pd.alloc at hs
  split at hs
  · cases hs
  rename_i hn
  obtain rfl := Option.some.inj hs
  obtain ⟨-, -, -, hc⟩ := hI.unused (Bool.not_eq_true _ ▸ hn)
  refine ⟨List.prefix_rfl, fun m hm => ?_, fun _ h => h, fun _ h => h⟩
  have hmn : m ≠ n := by rintro rfl; rw [hc] at hm; cases hm
  show (update s.node n ⟨none, false, data⟩ m).consumed = true
  rwa [update_of_ne hmn]

/-! ## What a call knows -/

/-- The nodes before `t` are consumed. -/
def St.Before (s : St ι) (t : ℕ) : Prop :=
  ∃ pre post, s.order = pre ++ t :: post ∧ ∀ m ∈ pre, (s.node m).consumed = true

theorem Ext.before (he : Ext s s') {t : ℕ} (h : s.Before t) : s'.Before t := by
  obtain ⟨pre, post, ho, hc⟩ := h
  obtain ⟨more, hmore⟩ := he.order
  exact ⟨pre, post ++ more, by rw [← hmore, ho]; simp, fun m hm => he.consumed m (hc m hm)⟩

/-- What a thread at `p` knows, where `b` says whether the queue has been drained since its pop started: a linked
node has a predecessor, the nodes before the one a pop looks at are consumed, a node at `head` that could not be
locked has left it, and a pop that is about to return no element has seen the queue drained. -/
def Knows (s : St ι) (b : Bool) : Pc → Prop
  | .unlockLinked n _ | .casTail n _ => s.entered n = true
  | .loadHead (some (some t)) => t ∈ s.past
  | .lockHead p u => (∀ t ∈ u, s.Before t) ∧ (∀ t, p = some (some t) → t ∈ s.past ∧ u ≠ some t) ∧
      (p = some none → u = none → b = true)
  | .exchange t | .popLoadNext t _ | .casHead t _ _ => s.Before t
  | .popLockNext t c x => s.Before t ∧ (c = true → x = none → b = true)
  | .unlockHead _ _ x | .unlockPassed _ x => s.Before x
  | .unlockTest _ c => c = true → b = true
  | _ => True

/-- **What a call knows stays true.** -/
theorem Knows.mono (he : Ext s s') {b b' : Bool} (hb : b = true → b' = true) {p : Pc} (h : Knows s b p) :
    Knows s' b' p := by
  cases p with
  | unlockLinked n t => exact he.entered n h
  | casTail n t => exact he.entered n h
  | loadHead p =>
    rcases p with _ | _ | t
    · trivial
    · trivial
    · exact he.past t h
  | lockHead p u =>
    obtain ⟨h1, h2, h3⟩ := h
    exact ⟨fun t ht => he.before (h1 t ht), fun t ht => ⟨he.past t (h2 t ht).1, (h2 t ht).2⟩,
      fun hp hu => hb (h3 hp hu)⟩
  | exchange t => exact he.before h
  | popLoadNext t c => exact he.before h
  | popLockNext t c x => exact ⟨he.before h.1, fun hc hx => hb (h.2 hc hx)⟩
  | casHead t c x => exact he.before h
  | unlockHead t c x => exact he.before h
  | unlockPassed t x => exact he.before h
  | unlockTest t c => exact fun hc => hb (h hc)
  | _ => trivial

/-- **Every thread knows what it needs**, and the watch is up to date. -/
structure Sight (s : St ι) (w : ι → Bool) : Prop where
  drained : s.Drained → ∀ j, w j = true
  knows : ∀ j, Knows s (w j) (s.pc j)
  done : ∀ n ∈ s.done, s.entered n = true

/-- The nodes before `head` are consumed. -/
theorem Line.before_head (h : Line s) {t : ℕ} (ht : s.head = some t) : s.Before t := by
  obtain ⟨post, hpost⟩ := h.split t ht
  exact ⟨s.past.reverse, post, hpost, fun m hm => h.past m (List.mem_reverse.1 hm)⟩

/-- The node behind a consumed node. -/
theorem Line.before_next (h : Line s) {t x : ℕ} (hb : s.Before t) (hc : (s.node t).consumed = true)
    (hx : (s.node t).next = some x) : s.Before x := by
  obtain ⟨pre, post, ho, hpre⟩ := hb
  have hl := h.links
  rw [ho] at hl
  obtain ⟨post', rfl⟩ := hl.next_split hx
  refine ⟨pre ++ [t], post', by rw [ho]; simp, fun m hm => ?_⟩
  rcases List.mem_append.1 hm with hm | hm
  · exact hpre m hm
  · rw [List.mem_singleton.1 hm]; exact hc

/-- A consumed node with nothing behind it. -/
theorem Line.drained_of_last (h : Line s) {t : ℕ} (hb : s.Before t) (hc : (s.node t).consumed = true)
    (hx : (s.node t).next = none) : s.Drained := by
  obtain ⟨pre, post, ho, hpre⟩ := hb
  have hl := h.links
  rw [ho] at hl
  have hpost := hl.next_eq
  rw [hx] at hpost
  have hnil : post = [] := List.head?_eq_none_iff.1 hpost.symm
  subst hnil
  intro n hn
  have hn' := h.done n hn
  rw [ho] at hn'
  rcases List.mem_append.1 hn' with hm | hm
  · exact hpre n hm
  · rw [List.mem_singleton.1 hm]; exact hc

/-- No push has returned while `head` is unset and only one node is linked. -/
theorem Sight.drained_of_none (h : Sight s w) (hL : Line s) (hh : s.head = none) (ho : s.order.length ≤ 1) :
    s.Drained := by
  intro n hn
  have h1 := hL.done n hn
  have h2 := h.done n hn
  cases hord : s.order with
  | nil => rw [hord] at h1; cases h1
  | cons a rest =>
    rw [hord] at h1 ho
    have hrest : rest = [] := List.length_eq_zero_iff.1 (by simpa using ho)
    subst hrest
    obtain rfl := List.mem_singleton.1 h1
    rw [entered_iff, hh, hL.none_past hh] at h2
    exact absurd (hL.pred_head n (by rw [hord]; rfl)) (by simpa using h2)

/-- The lock of a node at `head` fails only when the node has left it. -/
theorem past_of_lock_none [Fintype ι] (hI : Inv s) {t : ℕ} (ht : t ∈ s.order)
    (hmax : s.pd.refcnt t ≠ Pd.refcntMax) (hl : s.pd.lock t = none) : t ∈ s.past := by
  have h0 : s.pd.refcnt t = 0 := by
    unfold Pd.lock at hl
    split at hl
    · rename_i h; exact h.resolve_right hmax
    · cases hl
  have h1 := hI.refs.count t
  have h2 := hI.heads.rel t
  rw [h0, used_of_mem hI.ids ht, Bool.toNat_true] at h1
  by_contra hp
  rw [decide_eq_false hp, Bool.toNat_false] at h2
  omega

theorem lock_pc [DecidableEq ι] (s : St ι) (n : ℕ) (p q : Pc) :
    (s.lock i n p q).pc = update s.pc i (if (s.pd.lock n).isSome then p else q) := by
  unfold St.lock
  cases s.pd.lock n <;> rfl

/-- What the thread that moves knows at its new place. -/
theorem stepThread_knows [Fintype ι] [DecidableEq ι] (hI : Inv s) (hL : Line s) (hS : Sight s w)
    (hok : s.PopSees (.step i)) (hs : s.stepThread i = some s') :
    ∃ p, s'.pc = update s.pc i p ∧ Knows s' (w i) p := by
  have he := stepThread_ext hs
  have hk := hI.ids.known i
  have hkn := hS.knows i
  have hed := hL.edge i
  have hsn := hL.seen i
  simp only [St.PopSees] at hok
  unfold St.stepThread at hs
  split at hs <;> rename_i hpc <;> rw [hpc] at hk hkn hed hsn hok
  case h_10 n t x =>
    split at hs <;> obtain rfl := Option.some.inj hs
    · refine ⟨_, rfl, entered_iff.2 (Or.inl ?_)⟩
      show update s.pred n (some t) n ≠ none
      simp
    · exact ⟨_, rfl, trivial⟩
  case h_14 n t => split at hs <;> obtain rfl := Option.some.inj hs <;> exact ⟨_, rfl, trivial⟩
  case h_12 n t =>
    obtain rfl := Option.some.inj hs
    exact ⟨_, rfl, Knows.mono he id (p := .casTail n t) hkn⟩
  case h_16 p =>
    -- `loadHead`
    obtain rfl := Option.some.inj hs
    refine ⟨_, rfl, fun t ht => he.before (hL.before_head ht), fun t hp => ?_, fun hp hh => ?_⟩
    · subst hp
      exact ⟨hkn, fun ht => hI.heads.head_past t ht hkn⟩
    · subst hp
      have hlen : s.order.length ≤ 1 := hok.resolve_left (by rw [hh]; simp)
      exact hS.drained (hS.drained_of_none hL hh hlen) i
  case h_18 t =>
    -- the first lock of `head`
    obtain rfl := Option.some.inj hs
    refine ⟨_, lock_pc s t _ _, Knows.mono he id ?_⟩
    cases hl : s.pd.lock t with
    | some pd => exact hkn.1 t rfl
    | none => exact past_of_lock_none hI (hk t (by simp [Pc.known])) hok hl
  case h_19 p =>
    split at hs <;> obtain rfl := Option.some.inj hs <;> exact ⟨_, rfl, trivial⟩
  case h_20 p t =>
    split at hs
    · split at hs <;> obtain rfl := Option.some.inj hs <;> exact ⟨_, rfl, trivial⟩
    · obtain rfl := Option.some.inj hs
      refine ⟨_, lock_pc s t _ _, Knows.mono he id ?_⟩
      cases hl : s.pd.lock t with
      | some pd => exact hkn.1 t rfl
      | none => exact past_of_lock_none hI (hk t (by simp [Pc.known])) hok hl
  case h_21 t =>
    obtain rfl := Option.some.inj hs
    exact ⟨_, rfl, he.before hkn⟩
  case h_22 t c =>
    -- `popLoadNext`
    obtain rfl := Option.some.inj hs
    refine ⟨_, rfl, he.before hkn, fun hc hx => ?_⟩
    exact hS.drained (hL.drained_of_last hkn (hsn t (by simp [Pc.seen])) hx) i
  case h_23 t c =>
    obtain rfl := Option.some.inj hs
    exact ⟨_, rfl, fun hc => hkn.2 hc rfl⟩
  case h_24 t c x =>
    -- `popLockNext`
    obtain rfl := Option.some.inj hs
    refine ⟨_, lock_pc s x _ _, Knows.mono he id ?_⟩
    cases hl : s.pd.lock x with
    | some pd => exact hkn.1
    | none =>
      rintro rfl
      change (s.pd.lock x).isSome = true at hok
      rw [hl] at hok
      cases hok
  case h_25 t c x =>
    -- `casHead`
    have hb : s.Before x := hL.before_next hkn (hsn t (by simp [Pc.seen])) (hed (t, x) (by simp [Pc.edges]))
    split at hs <;> obtain rfl := Option.some.inj hs
    · exact ⟨_, rfl, he.before hb⟩
    · refine ⟨_, rfl, ?_⟩
      cases c
      · trivial
      · exact he.before hb
  case h_26 t c x =>
    obtain rfl := Option.some.inj hs
    refine ⟨_, rfl, ?_⟩
    cases c
    · trivial
    · exact he.before hkn
  case h_27 t x =>
    obtain rfl := Option.some.inj hs
    exact ⟨_, rfl, he.before hkn⟩
  case h_28 t x =>
    obtain rfl := Option.some.inj hs
    exact ⟨_, rfl, fun hc => by cases hc⟩
  case h_4 n t =>
    obtain rfl := Option.some.inj hs
    refine ⟨_, lock_pc s t _ _, ?_⟩
    split <;> trivial
  case h_7 n t x =>
    obtain rfl := Option.some.inj hs
    refine ⟨_, lock_pc s x _ _, ?_⟩
    split <;> trivial
  all_goals first | cases hs; done | obtain rfl := Option.some.inj hs
  all_goals exact ⟨_, rfl, trivial⟩

/-- A push that returns has linked its node and, if it is the first, stored `head`. -/
theorem stepThread_done [DecidableEq ι] (hS : Sight s w) (hs : s.stepThread i = some s') :
    ∀ n ∈ s'.done, s'.entered n = true := by
  have he := stepThread_ext hs
  have hkn := hS.knows i
  have hd : ∀ n ∈ s.done, s'.entered n = true := fun n hn => he.entered n (hS.done n hn)
  unfold St.stepThread at hs
  split at hs <;> rename_i hpc <;> rw [hpc] at hkn
  case h_13 n t =>
    obtain rfl := Option.some.inj hs
    intro m hm
    rcases List.mem_cons.1 hm with rfl | hm
    · exact he.entered _ hkn
    · exact hd m hm
  case h_15 n =>
    obtain rfl := Option.some.inj hs
    intro m hm
    rcases List.mem_cons.1 hm with rfl | hm
    · exact entered_iff.2 (Or.inr (Or.inl rfl))
    · exact hd m hm
  case h_10 n t x => split at hs <;> obtain rfl := Option.some.inj hs <;> exact hd
  case h_14 n t => split at hs <;> obtain rfl := Option.some.inj hs <;> exact hd
  case h_19 p => split at hs <;> obtain rfl := Option.some.inj hs <;> exact hd
  case h_25 t c x => split at hs <;> obtain rfl := Option.some.inj hs <;> exact hd
  case h_20 p t =>
    split at hs
    · split at hs <;> obtain rfl := Option.some.inj hs <;> exact hd
    · obtain rfl := Option.some.inj hs
      unfold St.lock at hd ⊢
      split at hd <;> exact hd
  all_goals first | cases hs; done | obtain rfl := Option.some.inj hs
  all_goals first | exact hd | (unfold St.lock at hd ⊢; split at hd <;> exact hd)

/-- The conditions of both kinds on a step. -/
def Sound (p : St ι × (ι → Bool)) (a : Act ι) : Prop := p.1.StaleCasFails a ∧ p.1.PopSees a

instance (p : St ι × (ι → Bool)) (a : Act ι) : Decidable (Sound p a) := inferInstanceAs (Decidable (_ ∧ _))

/-- The watch of a thread whose pop does not start only grows. -/
theorem watch_mono [DecidableEq ι] {a : Act ι} {j : ι} {b : Bool} (ha : a.startsPop j = false) (h : w j = true) :
    ((!a.startsPop j && w j) || b) = true := by
  rw [ha, h]; rfl

theorem step_sight [Fintype ι] [DecidableEq ι] {a : Act ι} (hI : Inv s) (hL : Line s) (hS : Sight s w)
    (hok : s.PopSees a) (hs : s.step a = some s') :
    Sight s' fun j => (!a.startsPop j && w j) || decide s'.Drained := by
  have hdr : s'.Drained → ∀ j, ((!a.startsPop j && w j) || decide s'.Drained) = true := fun h j => by simp [h]
  cases a with
  | step i =>
    obtain ⟨p, hpc, hp⟩ := stepThread_knows hI hL hS hok hs
    have he := stepThread_ext hs
    refine ⟨hdr, fun j => ?_, stepThread_done hS hs⟩
    have hw : w j = true → ((!(Act.step i).startsPop j && w j) || decide s'.Drained) = true := watch_mono rfl
    rw [hpc]
    by_cases hj : j = i
    · subst hj; rw [update_self]; exact hp.mono (.of_eq rfl rfl rfl rfl rfl) hw
    · rw [update_of_ne hj]; exact (hS.knows j).mono he hw
  | push i data id =>
    simp only [St.step] at hs
    split at hs
    · have he := alloc_ext hI hs
      obtain ⟨pd, -, rfl⟩ := Option.map_eq_some_iff.1 hs
      refine ⟨hdr, fun j => ?_, fun n hn => he.entered n (hS.done n hn)⟩
      show Knows _ _ (update s.pc i (.loadTail id) j)
      by_cases hj : j = i
      · subst hj; rw [update_self]; trivial
      · rw [update_of_ne hj]; exact (hS.knows j).mono he (watch_mono rfl)
    · cases hs
  | pushFail i =>
    simp only [St.step] at hs
    split at hs
    · obtain rfl := Option.some.inj hs
      exact ⟨hdr, fun j => (hS.knows j).mono (.of_eq rfl rfl rfl rfl rfl) (watch_mono rfl), hS.done⟩
    · cases hs
  | pop i =>
    simp only [St.step] at hs
    split at hs
    · obtain rfl := Option.some.inj hs
      refine ⟨hdr, fun j => ?_, hS.done⟩
      show Knows _ _ (update s.pc i (.loadHead none) j)
      by_cases hj : j = i
      · subst hj; rw [update_self]; trivial
      · rw [update_of_ne hj]
        have ha : (Act.pop i).startsPop j = false := decide_eq_false (Ne.symm hj)
        exact (hS.knows j).mono (.of_eq rfl rfl rfl rfl rfl) (watch_mono ha)
    · cases hs

theorem reach_sight [Fintype ι] [DecidableEq ι] {p : St ι × (ι → Bool)} (h : (watched ι).Reach Sound p) :
    Inv p.1 ∧ Line p.1 ∧ Sight p.1 p.2 := by
  refine h.inv (I := fun p => Inv p.1 ∧ Line p.1 ∧ Sight p.1 p.2) ?_ ?_
  · rintro ⟨s, w⟩ ⟨rfl, rfl⟩
    exact ⟨inv_init, line_init, fun _ _ => rfl, fun _ => trivial, by simp [St.init]⟩
  · rintro ⟨s, w⟩ a ⟨s', w'⟩ ⟨hI, hL, hS⟩ ⟨hok1, hok2⟩ hs
    obtain ⟨hs1, hw⟩ := System.withHistory_step hs
    refine ⟨step_inv hI hs1, step_line hI hL hok1 hs1, ?_⟩
    rw [hw]
    exact step_sight hI hL hS hok2 hs1

end Prs.Mpmcq
