import Prs.Proof.PdLinear

/-!
# What a lock of the pointer directory returns

`prs_pd_alloc_and_lock` takes the entry with the exchange of the header and stores the pointer afterwards, so
an id can be locked before its pointer is there. A caller knows the id only when the call has returned.

* `locked_registered`: an id that is locked once it has been returned gives the pointer that it was registered
  with, and each id is given out once, in every run in which the ids of an entry increase.
-/

namespace Prs.PdSteps

open Function
open PdWords (getId getRefcnt refcntInc invalid first incr getId_first getId_incr getId_decr getId_zero)

variable {ι P : Type} {k : ℕ} {s s' : St ι P} {j : ι} {t : Thread P} {id : ℕ} {b : Bool}

/-- The id that a thread is about to give to an entry, with the header that it expects. -/
def Pc.claim : Pc P → Option (ℕ × ℕ)
  | .allocCas _ i _ header => some (i, header)
  | _ => none

/-- An allocation gives its entry an id of 52 bits above the last one. It does when no whole round of the
directory is allocated while it looks for an entry. -/
def St.Ahead (k : ℕ) (s : St ι P) : Act ι P → Prop
  | .step j _ => ((s.thread j).pc.claim.all fun c =>
      decide (c.1 < refcntInc ∧ (s.header (c.1 % 2 ^ k) = c.2 → getId c.2 < c.1))) = true
  | _ => True

/-- Ids are locked once they have been returned. -/
def St.Published (k : ℕ) (s : St ι P) (a : Act ι P) : Prop :=
  s.Ahead k a ∧ match a with
    | .lock _ id => id ∈ s.returned.map Prod.fst
    | _ => True

instance (s : St ι P) (a : Act ι P) : Decidable (s.Ahead k a) :=
  match a with
  | .step _ _ => inferInstanceAs (Decidable (_ = true))
  | .alloc _ _ => inferInstanceAs (Decidable True)
  | .lock _ _ => inferInstanceAs (Decidable True)
  | .unlock _ _ => inferInstanceAs (Decidable True)

instance (s : St ι P) (a : Act ι P) : Decidable (s.Published k a) :=
  match a with
  | .lock _ _ => inferInstanceAs (Decidable (_ ∧ _ ∈ _))
  | .alloc _ _ => inferInstanceAs (Decidable (_ ∧ True))
  | .unlock _ _ => inferInstanceAs (Decidable (_ ∧ True))
  | .step _ _ => inferInstanceAs (Decidable (_ ∧ True))

theorem St.Ahead.fits {a : Act ι P} (h : s.Ahead k a) : s.Fits a := by
  cases a with
  | step j b =>
    unfold St.Ahead at h
    unfold St.Fits
    revert h
    dsimp only
    generalize (s.thread j).pc = pc
    intro h
    cases pc with
    | allocCas ptr i stop header => exact (of_decide_eq_true h).1
    | _ => trivial
  | _ => trivial

/-- The id that a thread has allocated and not returned. -/
def Pc.pending : Pc P → List ℕ
  | .allocIndex _ i => [i]
  | .allocPtr _ i => [i]
  | _ => []

/-- The id that a thread locks. -/
def Pc.locking : Pc P → Option ℕ
  | .lockLoad id => some id
  | .lockCas id _ => some id
  | .lockPtr id => some id
  | _ => none

def Thread.pending (t : Thread P) : List ℕ := t.pc.pending

section Registered

variable [Fintype ι]

structure Registered (k : ℕ) (s : St ι P) : Prop where
  counted : Inv k s
  /-- The ids of an entry are at most its last one. -/
  below : ∀ id, .alloc id ∈ s.log → id ≤ getId (s.header (id % 2 ^ k))
  /-- Each id that is given out has been returned or is about to be, once. -/
  once : ∀ id, tally Thread.pending s.thread id + (s.returned.map Prod.fst).count id = s.log.count (.alloc id)
  fresh : ∀ id, s.log.count (.alloc id) ≤ 1
  ptr : ∀ q ∈ s.returned, getId (s.header (q.1 % 2 ^ k)) = q.1 → s.ptr (q.1 % 2 ^ k) = q.2
  locking : ∀ j, ∀ id ∈ (s.thread j).pc.locking, id ∈ s.returned.map Prod.fst
  locked : ∀ q ∈ s.locked, q ∈ s.returned

theorem registered_init (null : P) : Registered k (St.init null : St ι P) where
  counted := inv_init null
  below := nofun
  once := fun _ => tally_eq_zero fun _ => List.not_mem_nil
  fresh := fun _ => Nat.zero_le 1
  ptr := nofun
  locking := nofun
  locked := nofun

/-- An id that has been returned has been allocated. -/
theorem Registered.alloc_mem (h : Registered k s) (hm : id ∈ s.returned.map Prod.fst) : .alloc id ∈ s.log := by
  have hpos := List.count_pos_iff.2 hm
  have honce := h.once id
  exact List.count_pos_iff.1 (by omega)

variable [DecidableEq ι]

/-- A step that keeps the ids of the entries and the pointers. -/
theorem Registered.quiet (h : Registered k s) (hinv : Inv k s') (ht : s'.thread = update s.thread j t)
    (hh : ∀ e, getId (s'.header e) = getId (s.header e)) (hp : s'.ptr = s.ptr) (hr : s'.returned = s.returned)
    (hl : s'.locked = s.locked) (hlog : ∀ m, s'.log.count (.alloc m) = s.log.count (.alloc m))
    (hpending : t.pending = (s.thread j).pending)
    (hlocking : ∀ id ∈ t.pc.locking, id ∈ s.returned.map Prod.fst) : Registered k s' := by
  refine ⟨hinv, fun m hm => ?_, fun m => ?_, fun m => ?_, ?_, ?_, ?_⟩
  · rw [hh]
    rw [← List.count_pos_iff, hlog, List.count_pos_iff] at hm
    exact h.below m hm
  · rw [ht, tally_congr hpending, hr, hlog, h.once]
  · rw [hlog]
    exact h.fresh m
  · intro q hq
    rw [hr] at hq
    rw [hh, hp]
    exact h.ptr q hq
  · rw [ht, hr]
    exact forall_update (P := fun t : Thread P => ∀ id ∈ t.pc.locking,
      id ∈ s.returned.map Prod.fst) h.locking hlocking
  · rw [hl, hr]
    exact h.locked

/-- The ids of the entries are kept by an exchange that keeps the one of the entry. -/
theorem getId_update {header : ℕ → ℕ} {e w : ℕ} (h : getId w = getId (header e)) (m : ℕ) :
    getId (update header e w m) = getId (header m) := by
  by_cases hm : m = e
  · rw [hm, update_self, h]
  · rw [update_of_ne hm]

theorem Registered.goto (h : Registered k s) {pc : Pc P} (hinv : Inv k (s.goto j pc))
    (hpending : pc.pending = (s.thread j).pc.pending) (hlocking : pc.locking = none) :
    Registered k (s.goto j pc) :=
  h.quiet (t := { s.thread j with pc := pc }) hinv rfl (fun _ => rfl) rfl rfl rfl (fun _ => rfl) hpending (by
    dsimp only
    rw [hlocking]
    nofun)

theorem Registered.probe (h : Registered k s) (hpending : (s.thread j).pc.pending = []) {ptr : P} {i stop : ℕ}
    (hinv : Inv k (s.goto j (.probe ptr i stop))) : Registered k (s.goto j (.probe ptr i stop)) := by
  refine h.goto hinv ?_ ?_
  · rw [hpending]
    unfold Pc.probe
    split <;> rfl
  · unfold Pc.probe
    split <;> rfl

theorem Registered.checkLock (h : Registered k s) (hpending : (s.thread j).pc.pending = []) {header : ℕ}
    (hm : id ∈ s.returned.map Prod.fst) (hinv : Inv k (s.checkLock j id header)) :
    Registered k (s.checkLock j id header) := by
  unfold St.checkLock at hinv ⊢
  split
  case isTrue hc =>
    rw [if_pos hc] at hinv
    refine h.quiet (t := { s.thread j with pc := .idle }) hinv rfl (fun _ => rfl) rfl rfl rfl (fun _ => ?_)
      hpending.symm (by nofun)
    exact List.count_cons_of_ne (by nofun)
  case isFalse hc =>
    rw [if_neg hc] at hinv
    refine h.quiet (t := { s.thread j with pc := .lockCas id header }) hinv rfl (fun _ => rfl) rfl rfl rfl
      (fun _ => rfl) hpending.symm ?_
    rintro _ ⟨⟩
    exact hm

theorem Registered.checkUnlock (h : Registered k s) (hpending : (s.thread j).pc.pending = []) {header : ℕ}
    (hinv : Inv k (s.checkUnlock j id header)) : Registered k (s.checkUnlock j id header) := by
  unfold St.checkUnlock at hinv ⊢
  split
  case isTrue hc =>
    rw [if_pos hc] at hinv
    refine h.quiet (t := { s.thread j with pc := .idle }) hinv rfl (fun _ => rfl) rfl rfl rfl (fun _ => ?_)
      hpending.symm (by nofun)
    exact List.count_cons_of_ne (by nofun)
  case isFalse hc =>
    rw [if_neg hc] at hinv
    exact h.goto hinv hpending.symm rfl

/-- The exchange of an allocation: the id is a new one. -/
theorem Registered.alloc {ptr : P} {i stop header : ℕ} (h : Registered k s)
    (hpc : (s.thread j).pc = .allocCas ptr i stop header) (hi : i < refcntInc)
    (hcas : s.header (i % 2 ^ k) = header) (hlt : getId header < i)
    (hs' : s' = { s.goto j (.allocIndex ptr i) with
      header := update s.header (i % 2 ^ k) (first i)
      log := .alloc i :: s.log }) (hinv : Inv k s') : Registered k s' := by
  -- ids of an entry increase, so this one has not been given out
  have hnew : .alloc i ∉ s.log := by
    intro hm
    have hle := h.below i hm
    rw [hcas] at hle
    omega
  have hcount : s.log.count (.alloc i) = 0 := List.count_eq_zero.2 hnew
  subst hs'
  refine ⟨hinv, fun m hm => ?_, fun m => ?_, fun m => ?_, ?_, ?_, h.locked⟩
  · dsimp only at hm ⊢
    rw [List.mem_cons, Event.alloc.injEq] at hm
    by_cases he : m % 2 ^ k = i % 2 ^ k
    · rw [he, update_self, getId_first hi]
      obtain rfl | hm := hm
      · exact le_rfl
      · have hle := h.below m hm
        rw [he, hcas] at hle
        omega
    · rw [update_of_ne he]
      refine h.below m (hm.resolve_left ?_)
      rintro rfl
      exact he rfl
  · have htally := tally_update Thread.pending s.thread j ⟨.allocIndex ptr i, (s.thread j).refs⟩ m
    have hold : (s.thread j).pending = [] := by
      unfold Thread.pending
      rw [hpc]
      rfl
    have hpending : (⟨.allocIndex ptr i, (s.thread j).refs⟩ : Thread P).pending = [i] := rfl
    have honce := h.once m
    rw [hold, hpending, List.count_nil] at htally
    unfold St.goto
    dsimp only
    rw [count_cons_eq]
    by_cases hm : m = i
    · subst hm
      rw [List.count_singleton_self] at htally ⊢
      omega
    · have hi0 : [i].count m = 0 := List.count_eq_zero.2 fun hmem => hm (List.mem_singleton.1 hmem)
      have he0 : [Event.alloc i].count (.alloc m) = 0 :=
        List.count_eq_zero.2 fun hmem => hm (Event.alloc.inj (List.mem_singleton.1 hmem))
      omega
  · dsimp only
    rw [List.count_cons]
    have hfresh := h.fresh m
    split
    case isTrue he =>
      rw [Event.alloc.inj (eq_of_beq he)] at hcount
      omega
    case isFalse => exact hfresh
  · intro q hq hid
    dsimp only at hid ⊢
    by_cases he : q.1 % 2 ^ k = i % 2 ^ k
    · -- it would be the new id, which has not been returned
      rw [he, update_self, getId_first hi] at hid
      exact absurd (h.alloc_mem (List.mem_map_of_mem hq)) (hid ▸ hnew)
    · rw [update_of_ne he] at hid
      exact h.ptr q hq hid
  · exact forall_update (P := fun t : Thread P => ∀ id ∈ t.pc.locking, id ∈ s.returned.map Prod.fst) h.locking
      (by nofun)

/-- The store of the pointer: the entry is still that of the id. -/
theorem Registered.register {ptr : P} {i : ℕ} (h : Registered k s) (hpc : (s.thread j).pc = .allocPtr ptr i)
    (hs' : s' = { s with
      ptr := update s.ptr (i % 2 ^ k) ptr
      thread := update s.thread j ⟨.idle, i :: (s.thread j).refs⟩
      returned := (i, ptr) :: s.returned }) (hinv : Inv k s') : Registered k s' := by
  have hpending : (s.thread j).pending = [i] := by
    unfold Thread.pending
    rw [hpc]
    rfl
  have hentry : getId (s.header (i % 2 ^ k)) = i := by
    refine (h.counted.of_mem (j := j) ?_).1
    unfold Thread.owned
    rw [hpc]
    exact List.mem_cons_self
  -- it has not been returned, as the thread is about to return it
  have hnew : i ∉ s.returned.map Prod.fst := by
    intro hm
    have hpos := List.count_pos_iff.2 hm
    have hle := count_le_tally Thread.pending s.thread j i
    have honce := h.once i
    have hfresh := h.fresh i
    rw [hpending, List.count_singleton_self] at hle
    omega
  subst hs'
  refine ⟨hinv, h.below, fun m => ?_, h.fresh, ?_, ?_, ?_⟩
  · have htally := tally_update Thread.pending s.thread j ⟨.idle, i :: (s.thread j).refs⟩ m
    have hdone : (⟨.idle, i :: (s.thread j).refs⟩ : Thread P).pending = [] := rfl
    have honce := h.once m
    rw [hpending, hdone, List.count_nil] at htally
    dsimp only
    rw [List.map_cons, count_cons_eq]
    dsimp only
    omega
  · intro q hq hid
    dsimp only at hid ⊢
    obtain rfl | hq := List.mem_cons.1 hq
    · exact update_self ..
    · rw [update_of_ne]
      · exact h.ptr q hq hid
      · intro he
        rw [he, hentry] at hid
        exact hnew (hid ▸ List.mem_map_of_mem hq)
  · refine forall_update (P := fun t : Thread P => ∀ id ∈ t.pc.locking,
      id ∈ ((i, ptr) :: s.returned).map Prod.fst) ?_
      (by nofun)
    intro j' id hid
    exact List.mem_cons_of_mem _ (h.locking j' id hid)
  · exact fun q hq => List.mem_cons_of_mem _ (h.locked q hq)

/-- The load of the pointer: it is the one that the id was registered with. -/
theorem Registered.load (h : Registered k s) (hpc : (s.thread j).pc = .lockPtr id)
    (hs' : s' = { s with
      thread := update s.thread j ⟨.idle, id :: (s.thread j).refs⟩
      locked := (id, s.ptr (id % 2 ^ k)) :: s.locked }) (hinv : Inv k s') : Registered k s' := by
  have hentry : getId (s.header (id % 2 ^ k)) = id := by
    refine (h.counted.of_mem (j := j) ?_).1
    unfold Thread.owned
    rw [hpc]
    exact List.mem_cons_self
  have hm : id ∈ s.returned.map Prod.fst := h.locking j id (by rw [hpc]; rfl)
  obtain ⟨⟨_, p⟩, hq, rfl⟩ := List.mem_map.1 hm
  have hp := h.ptr _ hq hentry
  subst hs'
  refine ⟨hinv, h.below, fun m => ?_, h.fresh, h.ptr, ?_, ?_⟩
  · dsimp only
    rw [tally_congr, h.once]
    unfold Thread.pending
    rw [hpc]
    rfl
  · exact forall_update (P := fun t : Thread P => ∀ id ∈ t.pc.locking, id ∈ s.returned.map Prod.fst) h.locking
      (by nofun)
  · dsimp only at hp ⊢
    rw [hp]
    intro q hmem
    obtain rfl | hmem := List.mem_cons.1 hmem
    · exact hq
    · exact h.locked q hmem

theorem Registered.stepThread (h : Registered k s) (ha : s.Ahead k (.step j b))
    (hs : s.stepThread k j b = some s') :
    Registered k s' := by
  have hinv : Inv k s' := h.counted.stepThread ha.fits hs
  have hlocking := h.locking j
  unfold St.Ahead at ha
  dsimp only at ha
  unfold St.stepThread at hs
  split at hs
  case h_1 => cases hs
  case h_2 ptr hpc =>
    obtain rfl := Option.some.inj hs
    exact h.probe (by rw [hpc]; rfl) hinv
  case h_3 ptr i stop hpc =>
    have hpending : (s.thread j).pc.pending = [] := by rw [hpc]; rfl
    dsimp only at hs
    split at hs
    case isTrue =>
      obtain rfl := Option.some.inj hs
      exact h.probe hpending hinv
    case isFalse =>
      split at hs
      case isTrue =>
        obtain rfl := Option.some.inj hs
        exact h.probe hpending hinv
      case isFalse =>
        obtain rfl := Option.some.inj hs
        exact h.goto hinv hpending.symm rfl
  case h_4 ptr i stop header hpc =>
    rw [hpc] at ha
    obtain ⟨hi, hlast⟩ := of_decide_eq_true ha
    split at hs
    case isTrue hcas => exact h.alloc hpc hi hcas (hlast hcas) (Option.some.inj hs).symm hinv
    case isFalse =>
      obtain rfl := Option.some.inj hs
      exact h.probe (by rw [hpc]; rfl) hinv
  case h_5 ptr i hpc =>
    obtain rfl := Option.some.inj hs
    refine h.quiet (t := { s.thread j with pc := .allocPtr ptr i }) hinv rfl (fun _ => rfl) rfl rfl rfl
      (fun _ => rfl) ?_
      (by nofun)
    unfold Thread.pending
    rw [hpc]
    rfl
  case h_6 ptr i hpc => exact h.register hpc (Option.some.inj hs).symm hinv
  case h_7 id hpc =>
    obtain rfl := Option.some.inj hs
    exact h.checkLock (by rw [hpc]; rfl) (hlocking id (by rw [hpc]; rfl)) hinv
  case h_8 id header hpc =>
    have hpending : (s.thread j).pc.pending = [] := by rw [hpc]; rfl
    have hm := hlocking id (by rw [hpc]; rfl)
    split at hs
    case isTrue hcas =>
      -- a lock leaves the id of the entry as it is
      obtain rfl := Option.some.inj hs
      refine h.quiet (t := { s.thread j with pc := .lockPtr id }) hinv rfl
        (getId_update (by rw [hcas.1, getId_incr])) rfl rfl rfl
          (fun _ => List.count_cons_of_ne (by nofun)) hpending.symm ?_
      rintro _ ⟨⟩
      exact hm
    case isFalse =>
      obtain rfl := Option.some.inj hs
      exact h.checkLock hpending hm hinv
  case h_9 id hpc => exact h.load hpc (Option.some.inj hs).symm hinv
  case h_10 id hpc =>
    obtain rfl := Option.some.inj hs
    exact h.checkUnlock (by rw [hpc]; rfl) hinv
  case h_11 id header hpc =>
    have hpending : (s.thread j).pc.pending = [] := by rw [hpc]; rfl
    split at hs
    case isTrue hcas =>
      -- so does a release, also the last one
      obtain rfl := Option.some.inj hs
      exact h.quiet (t := ⟨.idle, (s.thread j).refs.erase id⟩) hinv rfl
        (getId_update (by rw [hcas.1, getId_decr])) rfl rfl rfl (fun _ => List.count_cons_of_ne (by nofun))
        hpending.symm (by nofun)
    case isFalse =>
      obtain rfl := Option.some.inj hs
      exact h.checkUnlock hpending hinv

theorem Registered.step {a : Act ι P} (h : Registered k s) (ha : s.Published k a)
    (hs : (sys k ι P).step s a = some s') : Registered k s' := by
  have hinv : Inv k s' := h.counted.step ha.1.fits hs
  obtain ⟨hahead, hpublished⟩ := ha
  change s.step k a = some s' at hs
  unfold St.step at hs
  cases a with
  | alloc j ptr =>
    dsimp only at hs
    split at hs
    case h_1 hpc =>
      obtain rfl := Option.some.inj hs
      exact h.goto hinv (by rw [hpc]; rfl) rfl
    case h_2 => cases hs
  | lock j id =>
    dsimp only at hs
    split at hs
    case h_1 hpc =>
      split at hs
      case isTrue => cases hs
      case isFalse =>
        obtain rfl := Option.some.inj hs
        refine h.quiet (t := { s.thread j with pc := .lockLoad id }) hinv rfl (fun _ => rfl) rfl rfl rfl
          (fun _ => rfl) ?_ ?_
        · unfold Thread.pending
          rw [hpc]
          rfl
        · rintro _ ⟨⟩
          exact hpublished
    case h_2 => cases hs
  | unlock j id =>
    dsimp only at hs
    split at hs
    case h_1 hpc =>
      split at hs
      case isTrue =>
        obtain rfl := Option.some.inj hs
        exact h.goto hinv (by rw [hpc]; rfl) rfl
      case isFalse => cases hs
    case h_2 => cases hs
  | step j b => exact h.stepThread hahead hs

/-- **A lock returns what was registered.** In every run in which the ids of an entry increase and ids are
locked once they have been returned, each id is given out once, and a lock that succeeds returns the pointer
that its id was registered with. -/
theorem locked_registered (h : (sys k ι P).Reach (St.Published k) s) :
    (s.returned.map Prod.fst).Nodup ∧ ∀ q ∈ s.locked, q ∈ s.returned := by
  have hinv : Registered k s :=
    h.inv (by rintro _ ⟨null, rfl⟩; exact registered_init null) fun _ _ _ hI hok hs => hI.step hok hs
  refine ⟨List.nodup_iff_count_le_one.2 fun id => ?_, hinv.locked⟩
  have honce := hinv.once id
  have hfresh := hinv.fresh id
  omega

/-- The entry is taken again while the second allocation has its pointer to store. -/
theorem locked_registered_again : ∃ s, (sys 1 (Fin 2) ℕ).Reach (St.Published 1) s ∧ s.locked = [(3, 9), (1, 7)] ∧
    ∀ q ∈ s.locked, q ∈ s.returned := by
  obtain ⟨s, hs, hlocked⟩ := System.exists_of_check (sys 1 (Fin 2) ℕ) (St.Published 1)
    (fun s => s.locked = [(3, 9), (1, 7)])
    (.init 0) ⟨_, rfl⟩
    [.alloc 0 7, .step 0 false, .step 0 false, .step 0 false, .step 0 false, .step 0 false, .lock 1 1,
      .step 1 false, .step 1 true, .step 1 false, .step 1 false, .unlock 0 1, .step 0 false, .step 0 false,
      .alloc 0 8, .step 0 false, .step 0 false, .step 0 false, .step 0 false, .step 0 false, .unlock 1 1,
      .step 1 false, .step 1 false, .alloc 1 9,
      .step 1 false, .step 1 false, .step 1 false, .step 1 false, .step 1 false, .lock 0 3, .step 0 false,
        .step 0 false,
      .step 0 false] (by decide +kernel)
  exact ⟨s, hs, hlocked, (locked_registered hs).2⟩

end Registered

end Prs.PdSteps
