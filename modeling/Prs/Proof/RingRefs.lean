import Prs.Model.RingSteps
import Prs.Proof.PoolShared

/-!
# The references to the entries of a shared ring

A reference to an entry is one that a thread has locked, or one that goes with the element: from user to user,
to the ring with the push, until `head_id` is moved away from the element, and from the ring to the user that
pops it.

* `Counts`: what holds of the references in every run in which the ids of an entry increase. An id is locked
  once for each reference, and is with one thread, user or ring until it is pushed.
* `Counts.move`, `Counts.allocCas`, `Counts.allocFirst`: what keeps it.
-/

namespace Prs.RingSteps

open Function PoolWords

variable {ι : Type} {k id : ℕ} {s s' : St ι} {j : ι} {q : Pc}

/-- The id that a thread is about to give to an entry, with the header that it expects. -/
def Pc.claim : Pc → Option (ℕ × ℕ)
  | .allocCas i _ header => some (i, header)
  | _ => none

/-- An allocation gives its entry an id of 52 bits above the last one. It does when no whole round of the ring
is allocated while it looks for an entry. -/
def St.Ahead (k : ℕ) (s : St ι) : Act ι → Prop
  | .step j _ => ((s.pc j).claim.all fun c =>
      decide (c.1 < refcntInc ∧ (s.pool.header (c.1 % 2 ^ k) = c.2 → PoolWords.getId c.2 < c.1))) = true
  | _ => True

instance (s : St ι) (a : Act ι) : Decidable (s.Ahead k a) :=
  match a with
  | .step _ _ => inferInstanceAs (Decidable (_ = true))
  | .alloc _ => inferInstanceAs (Decidable True)
  | .push _ _ => inferInstanceAs (Decidable True)
  | .pop _ => inferInstanceAs (Decidable True)
  | .free _ _ => inferInstanceAs (Decidable True)

/-- The references that a thread has: to the element of its call, and to the entries that it has locked. -/
def Pc.refs : Pc → List ℕ
  | .pushLoad id => [id]
  | .pushLock id _ => [id]
  | .pushNext id tailId _ => [id, tailId]
  | .pushLockNext id tailId _ _ => [id, tailId]
  | .pushUnlock id tailId nextId _ => [id, tailId, nextId]
  | .pushMove id _ nextId _ => [id, nextId]
  | .pushLink id tailId _ _ => [id, tailId]
  | .pushRetry id tailId _ => [id, tailId]
  | .pushReload id _ => [id]
  | .pushLinked _ tailId => [tailId]
  | .pushFirst id _ => [id]
  | .popConsume headId _ => [headId]
  | .popNext headId _ _ => [headId]
  | .popCas headId _ _ _ => [headId]
  | .popPass headId _ _ => [headId, headId]
  | .popAgain headId _ => [headId]
  | .popEmpty headId => [headId]
  | .freeUnlock id => [id]
  | _ => []

/-- The id that a thread allocates. -/
def Pc.fresh : Pc → List ℕ
  | .allocIndex id => [id]
  | .allocConsumed id => [id]
  | .allocNext id => [id]
  | .allocFirst id => [id]
  | _ => []

/-- The id that a thread allocates, or pushes and has not linked. -/
def Pc.unpushed : Pc → List ℕ
  | .allocIndex id => [id]
  | .allocConsumed id => [id]
  | .allocNext id => [id]
  | .allocFirst id => [id]
  | .pushLoad id => [id]
  | .pushLock id _ => [id]
  | .pushNext id _ _ => [id]
  | .pushLockNext id _ _ _ => [id]
  | .pushUnlock id _ _ _ => [id]
  | .pushMove id _ _ _ => [id]
  | .pushLink id _ _ _ => [id]
  | .pushRetry id _ _ => [id]
  | .pushReload id _ => [id]
  | .pushFirst id _ => [id]
  | _ => []

theorem Pc.unpushed_of_fresh {pc : Pc} (h : id ∈ pc.fresh) : id ∈ pc.unpushed := by
  cases pc with
  | allocIndex | allocConsumed | allocNext | allocFirst => exact h
  | _ => cases h

/-- What a thread knows of a header that it has read. -/
def Pc.Free : Pc → Prop
  | .allocCas _ _ header => testAlloc header = false
  | _ => True

variable [Fintype ι]

/-- Where an id is that has been given out. -/
def St.places (s : St ι) (m : ℕ) : ℕ := tally Pc.unpushed s.pc m + s.owned.count m + s.pushed.count m

structure Counts (k : ℕ) (s : St ι) : Prop where
  sound : Sound k s.pool
  total : ∀ m, tally Pc.refs s.pc m + s.owned.count m + s.popped.count m + s.listed.count m = s.pool.count k m
  /-- An id is in one place, and is not above the one of its entry. -/
  once : ∀ m, s.places m ≤ 1
  given : ∀ m, s.places m ≠ 0 → m ≤ s.getId (m % 2 ^ k)
  zero : ∀ j, ∀ m ∈ (s.pc j).fresh, s.pool.find k m = some 0
  free : ∀ j, (s.pc j).Free

theorem places_init (m : ℕ) : (St.init : St ι).places m = 0 := by
  have hzero : tally Pc.unpushed (fun _ : ι => Pc.idle) m = 0 := tally_eq_zero fun _ => List.not_mem_nil
  unfold St.places St.init
  dsimp only
  rw [hzero]
  rfl

theorem counts_init : Counts k (St.init : St ι) where
  sound := sound_create k
  total := fun m => by
    have hzero : tally Pc.refs (fun _ : ι => Pc.idle) m = 0 := tally_eq_zero fun _ => List.not_mem_nil
    have hcount : Pool.create.count k m = 0 := by
      have hcreate : Pool.create.find k m = none := by
        refine if_neg fun hc => ?_
        rw [create_header, if_neg hc.1] at hc
        exact Bool.false_ne_true hc.2.2
      unfold Pool.count
      rw [hcreate]
      rfl
    unfold St.init
    dsimp only
    rw [hzero, hcount]
    rfl
  once := fun m => by
    rw [places_init]
    exact Nat.zero_le 1
  given := fun m hm => absurd (places_init m) hm
  zero := fun _ _ hm => absurd hm List.not_mem_nil
  free := fun _ => trivial

/-- A reference keeps its id locked. -/
theorem Counts.count_ne (h : Counts k s) (hm : id ∈ (s.pc j).refs) : s.pool.count k id ≠ 0 := by
  have htotal := h.total id
  have hle := count_le_tally Pc.refs s.pc j id
  have hpos := List.count_pos_iff.2 hm
  omega

theorem Counts.owned_ne (h : Counts k s) (hm : id ∈ s.owned) : s.pool.count k id ≠ 0 := by
  have htotal := h.total id
  have hpos := List.count_pos_iff.2 hm
  omega

theorem Counts.popped_ne (h : Counts k s) (hm : id ∈ s.popped) : s.pool.count k id ≠ 0 := by
  have htotal := h.total id
  have hpos := List.count_pos_iff.2 hm
  omega

/-- An id that is not pushed yet. -/
theorem Counts.not_pushed (h : Counts k s) (hm : id ∈ (s.pc j).unpushed) : id ∉ s.pushed := by
  intro hp
  have hle := h.once id
  have htally := count_le_tally Pc.unpushed s.pc j id
  unfold St.places at hle
  have hpos := List.count_pos_iff.2 hm
  have hpos' := List.count_pos_iff.2 hp
  omega

/-- An id that is locked has another entry than one that is being allocated. -/
theorem Counts.entry_ne (h : Counts k s) {m : ℕ} (hm : m ∈ (s.pc j).fresh) (hid : s.pool.count k id ≠ 0) :
    id % 2 ^ k ≠ m % 2 ^ k := by
  intro he
  have hzero := h.zero j m hm
  obtain ⟨n, hf⟩ := find_of_count hid
  rw [find_inj hf hzero he, hzero] at hf
  cases hf

omit [Fintype ι] in
/-- Ids that are locked have different entries. -/
theorem eq_of_entry {m : ℕ} (hid : s.pool.count k id ≠ 0) (hm : s.pool.count k m ≠ 0)
    (he : id % 2 ^ k = m % 2 ^ k) :
    id = m := by
  obtain ⟨n, hf⟩ := find_of_count hid
  obtain ⟨n', hf'⟩ := find_of_count hm
  exact find_inj hf hf' he

variable [DecidableEq ι]

/-- A thread moves on with an id, or drops it. -/
theorem places_le {m : ℕ} (hpc : s'.pc = update s.pc j q)
    (h : q.unpushed.count m + s'.owned.count m + s'.pushed.count m ≤
      (s.pc j).unpushed.count m + s.owned.count m + s.pushed.count m) : s'.places m ≤ s.places m := by
  have htally := tally_update Pc.unpushed s.pc j q m
  unfold St.places
  rw [hpc]
  omega

/-- **A step between two allocations** that moves the references. -/
theorem Counts.move (h : Counts k s) (hpc : s'.pc = update s.pc j q) (hkept : Kept k s.pool s'.pool)
    (hrefs : ∀ m,
      s'.pool.count k m + ((s.pc j).refs.count m + s.owned.count m + s.popped.count m + s.listed.count m) =
      s.pool.count k m + (q.refs.count m + s'.owned.count m + s'.popped.count m + s'.listed.count m))
    (honce : ∀ m, q.unpushed.count m + s'.owned.count m + s'.pushed.count m ≤
      (s.pc j).unpushed.count m + s.owned.count m + s.pushed.count m)
    (hfresh : ∀ m ∈ q.fresh, m ∈ (s.pc j).fresh) (hfree : q.Free) : Counts k s' where
  sound := hkept.sound
  total := fun m => by
    have htally := tally_update Pc.refs s.pc j q m
    have htotal := h.total m
    have hm := hrefs m
    rw [hpc]
    omega
  once := fun m => le_trans (places_le hpc (honce m)) (h.once m)
  given := fun m hm => by
    have hle := places_le hpc (honce m)
    unfold St.getId
    rw [hkept.ids]
    exact h.given m (by omega)
  zero := by
    rw [hpc]
    refine forall_update (P := fun pc : Pc => ∀ m ∈ pc.fresh, s'.pool.find k m = some 0) ?_ ?_
    · intro i m hm
      exact (hkept.zero m).2 (h.zero i m hm)
    · intro m hm
      exact (hkept.zero m).2 (h.zero j m (hfresh m hm))
  free := by
    rw [hpc]
    exact forall_update h.free hfree

/-- The exchange of `prs_pool_alloc`. -/
theorem Counts.allocCas {i stop header : ℕ} (h : Counts k s) (hpc : s.pc j = .allocCas i stop header)
    (hi : i < refcntInc) (hcas : s.pool.header (i % 2 ^ k) = header) (hlt : PoolWords.getId header < i) :
    Sound k { s.pool with header := update s.pool.header (i % 2 ^ k) (PoolWords.fresh i) } ∧
      (∀ m, Pool.count k { s.pool with header := update s.pool.header (i % 2 ^ k) (PoolWords.fresh i) } m =
        s.pool.count k m) ∧
      Counts k { s with
        pool := { s.pool with header := update s.pool.header (i % 2 ^ k) (PoolWords.fresh i) }
        pc := update s.pc j (.allocIndex i) } := by
  have hfree : testAlloc (s.pool.header (i % 2 ^ k)) = false := by
    have hknown := h.free j
    rw [hpc] at hknown
    rw [hcas]
    exact hknown
  obtain ⟨hsound, hnone, hfind⟩ := h.sound.fresh_find hi hfree
  have hcount (m : ℕ) :
    Pool.count k { s.pool with header := update s.pool.header (i % 2 ^ k) (PoolWords.fresh i) } m =
      s.pool.count k m := by
    rw [count_of_update hfind]
    by_cases hm : m = i
    · subst hm
      unfold Pool.count
      rw [update_self, hnone]
      rfl
    · rw [update_of_ne hm]
  -- the id is above the last one of the entry, so it has not been given out
  have hnew : s.places i = 0 := by
    by_contra hm
    have hle := h.given i hm
    unfold St.getId at hle
    rw [hcas] at hle
    omega
  have hplaces (m : ℕ) : (m ≠ i → St.places { s with
      pool := { s.pool with header := update s.pool.header (i % 2 ^ k) (PoolWords.fresh i) }
      pc := update s.pc j (.allocIndex i) } m = s.places m) ∧ St.places { s with
      pool := { s.pool with header := update s.pool.header (i % 2 ^ k) (PoolWords.fresh i) }
      pc := update s.pc j (.allocIndex i) } m ≤ 1 := by
    have htally := tally_update Pc.unpushed s.pc j (.allocIndex i) m
    have honce := h.once m
    have hold : (s.pc j).unpushed = [] := by
      rw [hpc]
      rfl
    have hids : (Pc.allocIndex i).unpushed = [i] := rfl
    rw [hold, hids, List.count_nil] at htally
    unfold St.places at honce hnew ⊢
    dsimp only
    by_cases hm : m = i
    · subst hm
      rw [List.count_singleton_self] at htally
      exact ⟨fun hne => absurd rfl hne, by omega⟩
    · rw [List.count_eq_zero.2 fun hmem => hm (List.mem_singleton.1 hmem)] at htally
      exact ⟨fun _ => by omega, by omega⟩
  refine ⟨hsound, hcount, hsound, fun m => ?_, fun m => ?_, fun m => ?_, ?_, forall_update h.free trivial⟩
  · dsimp only
    rw [hcount, tally_congr (by rw [hpc]; rfl), h.total]
  · exact (hplaces m).2
  · intro hm
    unfold St.getId
    dsimp only
    by_cases hmi : m = i
    · subst hmi
      rw [update_self, fresh_eq hi, getId_held hi]
    · have hle := h.given m ((hplaces m).1 hmi ▸ hm)
      unfold St.getId at hle
      by_cases he : m % 2 ^ k = i % 2 ^ k
      · rw [he, hcas] at hle
        rw [he, update_self, fresh_eq hi, getId_held hi]
        omega
      · rwa [update_of_ne he]
  · refine forall_update (P := fun pc : Pc => ∀ m ∈ pc.fresh, Pool.find k { s.pool with
      header := update s.pool.header (i % 2 ^ k) (PoolWords.fresh i) } m = some 0) ?_ ?_
    · intro j' m hm
      rw [hfind]
      by_cases hmi : m = i
      · rw [hmi, update_self]
      · rw [update_of_ne hmi]
        exact h.zero j' m hm
    · intro m hm
      rw [List.mem_singleton.1 hm, hfind, update_self]

/-- The first lock of an allocation. -/
theorem Counts.allocFirst (h : Counts k s) (hpc : s.pc j = .allocFirst id) :
    (∀ m, (s.pool.lockFirst k id).count k m = s.pool.count k m + [id].count m) ∧
    Counts k { s with pool := s.pool.lockFirst k id, pc := update s.pc j .idle, owned := id :: s.owned } := by
  have hmem : id ∈ (s.pc j).fresh := by
    rw [hpc]
    exact List.mem_singleton_self id
  have hzero := h.zero j id hmem
  obtain ⟨hsound, hids, hfind⟩ := h.sound.lockFirst_find hzero
  have hcount (m : ℕ) : (s.pool.lockFirst k id).count k m = s.pool.count k m + [id].count m := by
    rw [count_of_update hfind]
    by_cases hm : m = id
    · subst hm
      rw [update_self, count_of_find hzero, List.count_singleton_self]
      rfl
    · rw [update_of_ne hm, List.count_eq_zero.2 fun hc => hm (List.mem_singleton.1 hc)]
      rfl
  have hplaces (m : ℕ) :
      St.places { s with pool := s.pool.lockFirst k id, pc := update s.pc j .idle, owned := id :: s.owned } m ≤
        s.places m := by
    refine places_le rfl ?_
    rw [hpc]
    dsimp only
    rw [count_cons_eq id m s.owned]
    exact le_of_eq (Nat.zero_add _ ▸ rfl)
  refine ⟨hcount, hsound, fun m => ?_, fun m => le_trans (hplaces m) (h.once m), fun m hm => ?_, ?_,
    forall_update h.free trivial⟩
  · have htotal := h.total m
    dsimp only
    rw [hcount, tally_congr (by rw [hpc]; rfl), count_cons_eq]
    omega
  · have hle := hplaces m
    unfold St.getId
    dsimp only
    rw [hids]
    exact h.given m (by omega)
  · -- no other thread allocates the id
    intro j' m hm
    dsimp only at hm
    by_cases hj : j' = j
    · subst hj
      rw [update_self] at hm
      cases hm
    · rw [update_of_ne hj] at hm
      rw [hfind]
      by_cases hmi : m = id
      · subst hmi
        have hle := h.once m
        unfold St.places at hle
        exact absurd (eq_of_tally_le_one (by omega) (Pc.unpushed_of_fresh hm) (Pc.unpushed_of_fresh hmem)) hj
      · rw [update_of_ne hmi]
        exact h.zero j' m hm

end Prs.RingSteps
