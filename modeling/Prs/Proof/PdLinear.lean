import Prs.Model.PdSteps
import Prs.Proof.PdMap

/-!
# The pointer directory under concurrency

The header of an entry is changed by one exchange in each operation, which takes effect there.

* `references_counted`: in every run, the count of an id is the number of references to it that threads have,
  and each life of an id ends with exactly one release that says so.
* `linearizable`: in every run, the calls take effect one after the other as operations of an atomic directory.
-/

namespace Prs.PdSteps

open Function
open PdWords (getId getRefcnt refcntMax refcntInc invalid first incr decr getId_first getRefcnt_first getId_incr
  getRefcnt_incr getId_decr getRefcnt_decr getId_zero getRefcnt_zero)

variable {ι P : Type} {k : ℕ} {s s' : St ι P} {j : ι} {t : Thread P} {id m w : ℕ} {b : Bool}

/-- Every id that an allocation takes has its 52 bits. -/
def St.Fits (s : St ι P) : Act ι P → Prop
  | .step j _ => match (s.thread j).pc with
    | .allocCas _ i _ _ => i < refcntInc
    | _ => True
  | _ => True

instance (s : St ι P) (a : Act ι P) : Decidable (s.Fits a) := by
  unfold St.Fits
  split
  · split <;> infer_instance
  · infer_instance

/-- The atomic directory. -/
def St.abs (k : ℕ) (s : St ι P) : Pd where
  refcnt := fun id => if getId (s.header (id % 2 ^ k)) = id then getRefcnt (s.header (id % 2 ^ k)) else 0
  used := fun id => decide (.alloc id ∈ s.log)

/-- The reference that a thread has obtained in a call that has not returned. -/
def Pc.refs : Pc P → List ℕ
  | .allocIndex _ i => [i]
  | .allocPtr _ i => [i]
  | .lockPtr id => [id]
  | _ => []

def Thread.owned (t : Thread P) : List ℕ := t.pc.refs ++ t.refs

/-- What a thread knows of the header that it has read, and of its references. -/
def Known (t : Thread P) : Prop :=
  match t.pc with
  | .allocCas _ i _ header => getRefcnt header = 0 ∧ getId header ≠ i
  | .lockCas id header => getId header = id ∧ getRefcnt header ≠ 0 ∧ getRefcnt header ≠ refcntMax
  | .unlockLoad id => id ∈ t.refs
  | .unlockCas id header => id ∈ t.refs ∧ getId header = id ∧ getRefcnt header ≠ 0
  | _ => True

section Refcnt

/-- **A header that is written** changes the count of its id only. -/
theorem refcnt_write (hh : s'.header = update s.header (id % 2 ^ k) w)
    (hw : getId w = id) (hold : getRefcnt (s.header (id % 2 ^ k)) = 0 ∨ getId (s.header (id % 2 ^ k)) = id) :
    (s'.abs k).refcnt = update (s.abs k).refcnt id (getRefcnt w) := by
  funext m
  unfold St.abs
  dsimp only
  rw [hh]
  by_cases hm : m = id
  · subst hm
    rw [update_self, update_self, if_pos hw]
  · rw [update_of_ne hm]
    by_cases he : m % 2 ^ k = id % 2 ^ k
    · -- another id of the same entry
      rw [he, update_self, if_neg (hw.symm ▸ Ne.symm hm)]
      obtain h0 | hid := hold
      · rw [h0, ite_self]
      · rw [if_neg (hid.symm ▸ Ne.symm hm)]
    · rw [update_of_ne he]

theorem refcnt_of_getId (h : getId (s.header (id % 2 ^ k)) = id) :
    (s.abs k).refcnt id = getRefcnt (s.header (id % 2 ^ k)) := if_pos h

/-- An id that is referenced is the one of its entry. -/
theorem of_refcnt_ne (h : (s.abs k).refcnt id ≠ 0) :
    getId (s.header (id % 2 ^ k)) = id ∧ getRefcnt (s.header (id % 2 ^ k)) ≠ 0 := by
  unfold St.abs at h
  dsimp only at h
  by_cases hid : getId (s.header (id % 2 ^ k)) = id
  · rw [if_pos hid] at h
    exact ⟨hid, h⟩
  · rw [if_neg hid] at h
    exact absurd rfl h

/-- The ids given out change in an allocation only. -/
theorem used_cons {e : Event} (he : ∀ m, e ≠ .alloc m) :
    (fun m => decide (.alloc m ∈ e :: s.log)) = (s.abs k).used := by
  funext m
  simp only [List.mem_cons, (he m).symm, false_or]
  rfl

theorem apply_alloc (h : (s.abs k).refcnt id = 0) : apply (s.abs k) (.alloc id) =
    some ⟨update (s.abs k).refcnt id 1, fun m => decide (.alloc m ∈ Event.alloc id :: s.log)⟩ := by
  have hused : (fun m => decide (.alloc m ∈ Event.alloc id :: s.log)) = update (s.abs k).used id true := by
    funext m
    by_cases hm : m = id
    · subst hm
      simp only [List.mem_cons, true_or, decide_true, update_self]
    · rw [update_of_ne hm]
      simp only [List.mem_cons, Event.alloc.injEq, hm, false_or]
      rfl
  unfold apply
  dsimp only
  rw [if_pos h, hused]

theorem apply_lock (h0 : (s.abs k).refcnt id ≠ 0) (hmax : (s.abs k).refcnt id ≠ refcntMax) :
    apply (s.abs k) (.lock id) = some ⟨update (s.abs k).refcnt id ((s.abs k).refcnt id + 1),
      fun m => decide (.alloc m ∈ Event.lock id :: s.log)⟩ := by
  rw [used_cons (k := k) (by nofun)]
  exact if_neg (not_or.2 ⟨h0, hmax⟩)

theorem apply_unlock {last : Bool} (h0 : (s.abs k).refcnt id ≠ 0) (hlast : ((s.abs k).refcnt id == 1) = last) :
    apply (s.abs k) (.unlock id last) = some ⟨update (s.abs k).refcnt id ((s.abs k).refcnt id - 1),
      fun m => decide (.alloc m ∈ Event.unlock id last :: s.log)⟩ := by
  rw [used_cons (k := k) (by nofun)]
  exact if_pos ⟨h0, hlast⟩

/-- **The lives of an id.** In a log that the atomic directory can do, each life is opened by an allocation
and closed by the one release that is told so. -/
theorem lives_of_replay {log : List Event} {pd : Pd} (h : replay log = some pd) (id : ℕ) :
    log.count (.alloc id) = log.count (.unlock id true) + if pd.refcnt id = 0 then 0 else 1 := by
  induction log generalizing pd with
  | nil =>
    rw [← Option.some.inj h]
    rfl
  | cons e log ih =>
    obtain ⟨pd', hlog, he⟩ := Option.bind_eq_some_iff.1 h
    -- the last call changes one id, and both sides by the same
    have ih := ih hlog
    rw [List.count_cons, List.count_cons, ih]
    cases e with
    | alloc m =>
      unfold apply at he
      dsimp only at he
      split at he
      case isFalse => cases he
      case isTrue hzero =>
        rw [← Option.some.inj he]
        by_cases hm : m = id
        · subst hm
          simp [hzero]
        · simp [hm, Ne.symm hm]
    | lock m =>
      unfold apply Pd.lock at he
      dsimp only at he
      split at he
      case isTrue => cases he
      case isFalse hne =>
        rw [← Option.some.inj he]
        by_cases hm : m = id
        · subst hm
          simp [(not_or.1 hne).1]
        · simp [Ne.symm hm]
    | lockFailed m =>
      unfold apply at he
      dsimp only at he
      split at he
      case isFalse => cases he
      case isTrue =>
        rw [← Option.some.inj he]
        simp
    | unlock m last =>
      unfold apply Pd.unlock at he
      dsimp only at he
      split at he
      case isFalse => cases he
      case isTrue hlast =>
        rw [← Option.some.inj he]
        by_cases hm : m = id
        · subst hm
          obtain ⟨hne, rfl⟩ := hlast
          by_cases h1 : pd'.refcnt m = 1
          · simp [h1]
          · have hsub : pd'.refcnt m - 1 ≠ 0 := by omega
            simp [h1, hne, hsub]
        · simp [hm, Ne.symm hm]
    | unlockFailed m =>
      unfold apply at he
      dsimp only at he
      split at he
      case isFalse => cases he
      case isTrue =>
        rw [← Option.some.inj he]
        simp

end Refcnt

theorem abs_init (null : P) : (St.init null : St ι P).abs k = Pd.init := by
  unfold St.abs St.init Pd.init
  dsimp only
  congr 1
  funext id
  rw [getRefcnt_zero, ite_self]

section References

variable [Fintype ι]

/-- **The counts are those of the references**, and those that the log gives. -/
structure Inv (k : ℕ) (s : St ι P) : Prop where
  known : ∀ j, Known (s.thread j)
  owned : ∀ id, tally Thread.owned s.thread id = (s.abs k).refcnt id
  linear : replay s.log = some (s.abs k)
  released : ∀ id, .unlockFailed id ∉ s.log

theorem inv_init (null : P) : Inv k (St.init null : St ι P) where
  known := fun _ => trivial
  owned := fun id => by
    rw [abs_init]
    exact tally_eq_zero fun _ => List.not_mem_nil
  linear := by
    rw [abs_init]
    rfl
  released := fun _ => List.not_mem_nil

/-- A thread that has a reference keeps the id of the entry. -/
theorem Inv.of_mem (h : Inv k s) (hm : id ∈ (s.thread j).owned) :
    getId (s.header (id % 2 ^ k)) = id ∧ getRefcnt (s.header (id % 2 ^ k)) ≠ 0 := by
  apply of_refcnt_ne
  rw [← h.owned id]
  have hle := count_le_tally Thread.owned s.thread j id
  have hpos := List.count_pos_iff.2 hm
  omega

variable [DecidableEq ι]

/-- A step that changes no header. -/
theorem Inv.quiet (h : Inv k s) (ht : s'.thread = update s.thread j t) (hh : s'.header = s.header) (hk : Known t)
    (ho : t.owned = (s.thread j).owned) (hlog : s'.log = s.log) : Inv k s' := by
  have habs : s'.abs k = s.abs k := by
    unfold St.abs
    rw [hh, hlog]
  refine ⟨?_, fun id => ?_, ?_, fun id => ?_⟩
  · rw [ht]
    exact forall_update h.known hk
  · rw [ht, tally_congr ho, h.owned, habs]
  · rw [hlog, habs, h.linear]
  · rw [hlog]
    exact h.released id

/-- An exchange of the header of `id`, which is where the operation `e` takes effect. -/
theorem Inv.write {e : Event} (h : Inv k s) (ht : s'.thread = update s.thread j t)
    (hh : s'.header = update s.header (id % 2 ^ k) w) (hw : getId w = id)
    (hold : getRefcnt (s.header (id % 2 ^ k)) = 0 ∨ getId (s.header (id % 2 ^ k)) = id)
    (hk : Known t) (ho : ∀ m ≠ id, t.owned.count m = (s.thread j).owned.count m)
    (hid : t.owned.count id + (s.abs k).refcnt id = (s.thread j).owned.count id + getRefcnt w)
    (hlog : s'.log = e :: s.log) (hfail : ∀ m, e ≠ .unlockFailed m)
    (he : apply (s.abs k) e =
      some ⟨update (s.abs k).refcnt id (getRefcnt w), fun m => decide (.alloc m ∈ e :: s.log)⟩) : Inv k s' := by
  have hr := refcnt_write (k := k) hh hw hold
  refine ⟨?_, fun m => ?_, ?_, fun m => ?_⟩
  · rw [ht]
    exact forall_update h.known hk
  · rw [ht, hr]
    by_cases hm : m = id
    · subst hm
      have htally := tally_update Thread.owned s.thread j t m
      have howned := h.owned m
      rw [update_self]
      omega
    · rw [update_of_ne hm, tally_of_count (ho m hm), h.owned]
  · rw [hlog]
    unfold replay
    rw [h.linear, Option.bind_some, he, ← hr, ← hlog]
    rfl
  · rw [hlog, List.mem_cons, not_or]
    exact ⟨(hfail m).symm, h.released m⟩

/-- A thread goes on without a reference in its hands. -/
theorem Inv.goto (h : Inv k s) {pc : Pc P} (hpc : (s.thread j).pc.refs = pc.refs)
    (hk : Known { s.thread j with pc := pc }) : Inv k (s.goto j pc) := by
  refine h.quiet rfl rfl hk ?_ rfl
  unfold Thread.owned
  rw [hpc]

theorem Inv.probe (h : Inv k s) (hpc : (s.thread j).pc.refs = []) (ptr : P) (i stop : ℕ) :
    Inv k (s.goto j (.probe ptr i stop)) := by
  unfold Pc.probe
  split
  case isTrue => exact h.goto hpc trivial
  case isFalse => exact h.goto hpc trivial

/-- A lock that fails leaves the directory as it is. -/
theorem Inv.lockFailed (h : Inv k s) (hpc : (s.thread j).pc.refs = []) (hn : ((s.abs k).lock id).isNone) :
    Inv k { s.goto j .idle with log := .lockFailed id :: s.log } := by
  have hidle : Inv k (s.goto j .idle) := h.goto hpc trivial
  have habs : St.abs k { s.goto j .idle with log := .lockFailed id :: s.log } = s.abs k := by
    unfold St.abs
    simp only [List.mem_cons, reduceCtorEq, false_or]
    rfl
  refine ⟨hidle.known, fun m => ?_, ?_, fun m => ?_⟩
  · rw [habs]
    exact hidle.owned m
  · rw [habs]
    unfold replay
    rw [h.linear, Option.bind_some]
    exact if_pos hn
  · rw [List.mem_cons, not_or]
    exact ⟨nofun, h.released m⟩

theorem Inv.checkLock (h : Inv k s) (hpc : (s.thread j).pc.refs = []) (id : ℕ) :
    Inv k (s.checkLock j id (s.header (id % 2 ^ k))) := by
  unfold St.checkLock
  split
  case isTrue hc =>
    refine h.lockFailed hpc ?_
    have hfail : (s.abs k).refcnt id = 0 ∨ (s.abs k).refcnt id = Pd.refcntMax := by
      by_cases hid : getId (s.header (id % 2 ^ k)) = id
      · rw [refcnt_of_getId hid]
        exact hc.resolve_left (not_not.2 hid)
      · exact .inl (if_neg hid)
    unfold Pd.lock
    rw [if_pos hfail]
    rfl
  case isFalse hc =>
    rw [not_or, not_or, not_not] at hc
    exact h.goto hpc hc

/-- A release finds the id. -/
theorem Inv.checkUnlock (h : Inv k s) (hpc : (s.thread j).pc.refs = []) (hmem : id ∈ (s.thread j).refs) :
    Inv k (s.checkUnlock j id (s.header (id % 2 ^ k))) := by
  have hfound := h.of_mem (List.mem_append_right (s.thread j).pc.refs hmem)
  unfold St.checkUnlock
  split
  case isTrue hc => exact absurd hfound.2 (not_not.2 (hc.resolve_left (not_not.2 hfound.1)))
  case isFalse => exact h.goto hpc ⟨hmem, hfound⟩

theorem Inv.stepThread (h : Inv k s) (hf : s.Fits (.step j b)) (hs : s.stepThread k j b = some s') :
    Inv k s' := by
  have hknown := h.known j
  unfold Known at hknown
  unfold St.Fits at hf
  dsimp only at hf
  unfold St.stepThread at hs
  split at hs
  case h_1 => cases hs
  case h_2 ptr hpc =>
    rw [← Option.some.inj hs]
    exact h.probe (by rw [hpc]; rfl) _ _ _
  case h_3 ptr i stop hpc =>
    have hrefs : (s.thread j).pc.refs = [] := by rw [hpc]; rfl
    dsimp only at hs
    split at hs
    case isTrue =>
      rw [← Option.some.inj hs]
      exact h.probe hrefs _ _ _
    case isFalse hr =>
      split at hs
      case isTrue =>
        rw [← Option.some.inj hs]
        exact h.probe hrefs _ _ _
      case isFalse hi =>
        rw [← Option.some.inj hs]
        exact h.goto hrefs ⟨not_not.1 hr, hi⟩
  case h_4 ptr i stop header hpc =>
    have hrefs : (s.thread j).pc.refs = [] := by rw [hpc]; rfl
    rw [hpc] at hknown hf
    split at hs
    case isTrue hcas =>
      -- the entry is free, and its last id is another
      rw [← Option.some.inj hs]
      have hzero : (s.abs k).refcnt i = 0 := by
        unfold St.abs
        dsimp only
        rw [hcas, if_neg hknown.2]
      have howned : (s.thread j).owned = (s.thread j).refs := by
        unfold Thread.owned
        rw [hrefs]
        rfl
      refine h.write (t := { s.thread j with pc := .allocIndex ptr i }) rfl rfl (getId_first hf)
        (.inl (by rw [hcas]; exact hknown.1)) trivial ?_ ?_ rfl (by nofun) ?_
      · intro m hm
        rw [howned]
        exact List.count_cons_of_ne (Ne.symm hm)
      · rw [howned, hzero, getRefcnt_first]
        exact List.count_cons_self
      · rw [apply_alloc hzero, getRefcnt_first]
    case isFalse =>
      rw [← Option.some.inj hs]
      exact h.probe hrefs _ _ _
  case h_5 ptr i hpc =>
    rw [← Option.some.inj hs]
    refine h.quiet (t := { s.thread j with pc := .allocPtr ptr i }) rfl rfl trivial ?_ rfl
    unfold Thread.owned
    rw [hpc]
    rfl
  case h_6 ptr i hpc =>
    rw [← Option.some.inj hs]
    refine h.quiet (t := ⟨.idle, i :: (s.thread j).refs⟩) rfl rfl trivial ?_ rfl
    unfold Thread.owned
    rw [hpc]
    rfl
  case h_7 id hpc =>
    rw [← Option.some.inj hs]
    exact h.checkLock (by rw [hpc]; rfl) _
  case h_8 id header hpc =>
    have hrefs : (s.thread j).pc.refs = [] := by rw [hpc]; rfl
    rw [hpc] at hknown
    split at hs
    case isTrue hcas =>
      obtain ⟨hcas, -⟩ := hcas
      obtain ⟨hid, hne, hmax⟩ := hknown
      rw [← Option.some.inj hs]
      have hr : (s.abs k).refcnt id = getRefcnt header := by
        rw [← hcas] at hid
        rw [refcnt_of_getId hid, hcas]
      have howned : (s.thread j).owned = (s.thread j).refs := by
        unfold Thread.owned
        rw [hrefs]
        rfl
      refine h.write (t := { s.thread j with pc := .lockPtr id }) rfl rfl ((getId_incr header).trans hid)
        (.inr (by rw [hcas]; exact hid)) trivial ?_ ?_ rfl (by nofun) ?_
      · intro m hm
        rw [howned]
        exact List.count_cons_of_ne (Ne.symm hm)
      · have hcons : ({ s.thread j with pc := .lockPtr id } : Thread P).owned.count id =
          (s.thread j).refs.count id + 1 :=
          List.count_cons_self
        rw [howned, hr, hcons, getRefcnt_incr hmax]
        omega
      · rw [apply_lock (by rw [hr]; exact hne) (by rw [hr]; exact hmax), getRefcnt_incr hmax, hr]
    case isFalse =>
      rw [← Option.some.inj hs]
      exact h.checkLock hrefs _
  case h_9 id hpc =>
    rw [← Option.some.inj hs]
    refine h.quiet (t := ⟨.idle, id :: (s.thread j).refs⟩) rfl rfl trivial ?_ rfl
    unfold Thread.owned
    rw [hpc]
    rfl
  case h_10 id hpc =>
    rw [hpc] at hknown
    rw [← Option.some.inj hs]
    exact h.checkUnlock (by rw [hpc]; rfl) hknown
  case h_11 id header hpc =>
    have hrefs : (s.thread j).pc.refs = [] := by rw [hpc]; rfl
    rw [hpc] at hknown
    obtain ⟨hmem, hid, hne⟩ := hknown
    split at hs
    case isTrue hcas =>
      obtain ⟨hcas, -⟩ := hcas
      rw [← Option.some.inj hs]
      have hr : (s.abs k).refcnt id = getRefcnt header := by
        rw [← hcas] at hid
        rw [refcnt_of_getId hid, hcas]
      have howned : (s.thread j).owned = (s.thread j).refs := by
        unfold Thread.owned
        rw [hrefs]
        rfl
      have hpos := List.count_pos_iff.2 hmem
      refine h.write (t := ⟨.idle, (s.thread j).refs.erase id⟩) rfl rfl ((getId_decr header).trans hid)
        (.inr (by rw [hcas]; exact hid)) trivial ?_ ?_ rfl (by nofun) ?_
      · intro m hm
        rw [howned]
        exact List.count_erase_of_ne hm
      · have herase : (⟨.idle, (s.thread j).refs.erase id⟩ : Thread P).owned.count id =
          (s.thread j).refs.count id - 1 :=
          List.count_erase_self
        rw [howned, hr, herase, getRefcnt_decr hne]
        omega
      · rw [apply_unlock (by rw [hr]; exact hne) (by rw [hr]), getRefcnt_decr hne, hr]
    case isFalse =>
      rw [← Option.some.inj hs]
      exact h.checkUnlock hrefs hmem

theorem Inv.step {a : Act ι P} (h : Inv k s) (hf : s.Fits a) (hs : (sys k ι P).step s a = some s') :
    Inv k s' := by
  change s.step k a = some s' at hs
  unfold St.step at hs
  cases a with
  | alloc j ptr =>
    dsimp only at hs
    split at hs
    case h_1 hpc =>
      rw [← Option.some.inj hs]
      exact h.goto (by rw [hpc]; rfl) trivial
    case h_2 => cases hs
  | lock j id =>
    dsimp only at hs
    split at hs
    case h_1 hpc =>
      split at hs
      case isTrue => cases hs
      case isFalse =>
        rw [← Option.some.inj hs]
        exact h.goto (by rw [hpc]; rfl) trivial
    case h_2 => cases hs
  | unlock j id =>
    dsimp only at hs
    split at hs
    case h_1 hpc =>
      split at hs
      case isTrue hmem =>
        rw [← Option.some.inj hs]
        exact h.goto (by rw [hpc]; rfl) hmem
      case isFalse => cases hs
    case h_2 => cases hs
  | step j b => exact h.stepThread hf hs

theorem inv_reach (h : (sys k ι P).Reach St.Fits s) : Inv k s :=
  h.inv (by rintro _ ⟨null, rfl⟩; exact inv_init null) fun _ _ _ hI hok hs => hI.step hok hs

/-- **References are counted.** In every run, the count of an id is the number of references that threads have
to it, a release finds the id, and each life of an id is opened by an allocation and closed by the one release
that is told so. -/
theorem references_counted (h : (sys k ι P).Reach St.Fits s) (id : ℕ) :
    tally Thread.owned s.thread id = (s.abs k).refcnt id ∧ .unlockFailed id ∉ s.log ∧
      s.log.count (.alloc id) =
        s.log.count (.unlock id true) + if tally Thread.owned s.thread id = 0 then 0 else 1 := by
  have hinv := inv_reach h
  refine ⟨hinv.owned id, hinv.released id, ?_⟩
  rw [hinv.owned id]
  exact lives_of_replay hinv.linear id

/-- Two threads lock and unlock an id of a directory of two entries, and its entry is then taken by another id. -/
theorem references_counted_two : ∃ s, (sys 1 (Fin 2) ℕ).Reach St.Fits s ∧ tally Thread.owned s.thread 3 = 1 ∧
    s.log.count (.alloc 3) = 1 ∧ .unlockFailed 3 ∉ s.log := by
  obtain ⟨s, hs, hclosed, hrefs⟩ := System.exists_of_check (sys 1 (Fin 2) ℕ) St.Fits
    (fun s => s.log.count (.unlock 3 true) = 0 ∧ (s.abs 1).refcnt 3 = 1)
    (.init 0) ⟨_, rfl⟩
    [.alloc 0 7, .step 0 false, .step 0 false, .step 0 false, .step 0 false, .step 0 false, .lock 1 1,
      .step 1 false, .step 1 true, .step 1 false, .step 1 false, .unlock 0 1, .step 0 false, .step 0 false,
      .alloc 0 8, .step 0 false, .step 0 false, .step 0 false, .step 0 false, .step 0 false, .unlock 1 1,
      .step 1 false, .step 1 false, .alloc 1 9,
      .step 1 false, .step 1 false, .step 1 false] (by decide +kernel)
  obtain ⟨htally, hfail, hlives⟩ := references_counted hs 3
  rw [hrefs] at htally
  rw [htally, hclosed] at hlives
  exact ⟨s, hs, htally, hlives, hfail⟩

end References

end Prs.PdSteps
