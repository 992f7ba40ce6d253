import Prs.Proof.GodObjects

/-!
# Whether ids are issued again

`prs_god_alloc_and_lock` takes `write_index` as the first id to try, and passes over an id only if it is the
one that the entry had last. A thread that has read `write_index` and is held up tries ids that are old by
then (`Ahead` says that this does not happen).

* `ids_unique`: in every run in which an exchange succeeds only with an id above the last one of the entry, no
  id is returned twice, so a lock returns the object that was registered under the id.
* `id_reissued`: without that, three allocations in a table of two entries return an id twice.
-/

namespace Prs.God

open Function

/-- The id that a thread is about to claim, with the header that it expects. -/
def Pc.claim : Pc → Option (ℕ × Header)
  | .allocCas _ i _ header => some (i, header)
  | _ => none

/-- The exchange of an allocation fails, or its id is above the last one of the entry. -/
def St.Ahead {ι : Type} (k : ℕ) (s : St ι) : Act ι → Prop
  | .step j _ => ((s.pc j).claim.all fun c => s.header (c.1 % 2 ^ k) != c.2 || decide (c.2.id < c.1)) = true
  | _ => True

instance {ι : Type} (k : ℕ) (s : St ι) (a : Act ι) : Decidable (s.Ahead k a) :=
  match a with
  | .step _ _ => inferInstanceAs (Decidable (_ = true))
  | .alloc _ _ => inferInstanceAs (Decidable True)
  | .lock _ _ => inferInstanceAs (Decidable True)
  | .unlock _ _ _ => inferInstanceAs (Decidable True)

variable {ι : Type} [DecidableEq ι] {k : ℕ} {s s' : St ι} {j : ι} {e : ℕ}

/-- The id that a thread has claimed and not returned. -/
def Pc.claimed : Pc → Option ℕ
  | .allocIndex _ i => some i
  | .allocStore _ i => some i
  | _ => none

theorem allocs_of_claimed {p : Pc} {i : ℕ} (h : p.claimed = some i) : i % 2 ^ k ∈ p.allocs k := by
  cases p <;> simp only [Pc.claimed, reduceCtorEq, Option.some.injEq] at h <;> subst h <;> simp [Pc.allocs]

/-- **The ids of an entry go up.** -/
structure Ids (k : ℕ) (s : St ι) : Prop where
  nodup : (s.returned.map Prod.fst).Nodup
  le : ∀ id o, (id, o) ∈ s.returned → id ≤ (s.header (id % 2 ^ k)).id
  fresh : ∀ j i, (s.pc j).claimed = some i → ∀ o, (i, o) ∉ s.returned
  locked : ∀ p ∈ s.locked, p ∈ s.returned

omit [DecidableEq ι] in
theorem ids_init : Ids k (St.init : St ι) where
  nodup := List.nodup_nil
  le := fun id o h => by cases h
  fresh := fun j i h => by cases h
  locked := fun p h => by cases h

theorem claimed_update {p : Pc} {i : ι} {c : ℕ} (hp : ∀ c, p.claimed = some c → (s.pc j).claimed = some c)
    (hi : (update s.pc j p i).claimed = some c) : (s.pc i).claimed = some c := by
  by_cases hij : i = j
  · subst hij
    rw [update_self] at hi
    exact hp c hi
  · rwa [update_of_ne hij] at hi

/-- A step that claims and returns no id. -/
theorem Ids.move (h : Ids k s) {p : Pc} {header : ℕ → Header} {refs : ι → List ℕ} {writeIndex : ℕ}
    {objects freed : List ℕ} {locked : List (ℕ × ℕ)} (hp : ∀ c, p.claimed = some c → (s.pc j).claimed = some c)
    (hid : ∀ e, (header e).id = (s.header e).id) (hl : ∀ p ∈ locked, p ∈ s.returned) :
    Ids k { s with pc := update s.pc j p, header, refs, writeIndex, objects, freed, locked } where
  nodup := h.nodup
  le := fun id o ho => by
    simp only [hid]
    exact h.le id o ho
  fresh := fun i c hi => h.fresh i c (claimed_update hp hi)
  locked := hl

theorem Ids.goto (h : Ids k s) {p : Pc} (hp : p.claimed = none) : Ids k (s.goto j p) :=
  h.move (fun c hc => by rw [hp] at hc; cases hc) (fun _ => rfl) h.locked

/-- An id is claimed. -/
theorem Ids.allocCas (h : Ids k s) {o i : ℕ} (hlt : (s.header (i % 2 ^ k)).id < i) :
    Ids k { s with
      header := update s.header (i % 2 ^ k) ⟨i, true, false, false, 1⟩
      pc := update s.pc j (.allocIndex o i) } where
  nodup := h.nodup
  le := fun id o' ho => by
    have hle := h.le id o' ho
    by_cases hide : id % 2 ^ k = i % 2 ^ k
    · simp only [hide, update_self] at hle ⊢
      omega
    · simp only [update_of_ne hide]
      exact hle
  fresh := fun i' c hc o' ho => by
    by_cases hij : i' = j
    · subst hij
      simp only [update_self] at hc
      rw [← Option.some.inj hc] at ho
      have := h.le i o' ho
      omega
    · simp only [update_of_ne hij] at hc
      exact h.fresh i' c hc o' ho
  locked := h.locked

/-- An id is returned. -/
theorem Ids.allocStore [Fintype ι] (h : Ids k s) (hI : Inv k s) {o i : ℕ} (hpc : s.pc j = .allocStore o i) :
    Ids k { s with
      object := update s.object (i % 2 ^ k) o
      header := update s.header (i % 2 ^ k) ⟨i, true, true, false, 1⟩
      pc := update s.pc j .idle
      refs := update s.refs j (i :: s.refs j)
      returned := (i, o) :: s.returned } := by
  have hclaim : (s.pc j).claimed = some i := by rw [hpc]; rfl
  have hid : (s.header (i % 2 ^ k)).id = i := hI.owns j i (by rw [hpc]; rfl)
  obtain ⟨he, hpos⟩ := hI.allocs_pos (allocs_of_claimed (k := k) hclaim)
  have hone : tally (Pc.allocs k) s.pc (i % 2 ^ k) ≤ 1 := le_of_eq ((hI.phase _ he).of_allocs hpos).2.1
  refine ⟨?_, fun id o' ho => ?_, fun i' c hc o' ho => ?_, fun p hp => List.mem_cons_of_mem _ (h.locked p hp)⟩
  · rw [List.map_cons, List.nodup_cons]
    refine ⟨fun hm => ?_, h.nodup⟩
    obtain ⟨⟨id, o'⟩, ho, rfl⟩ := List.mem_map.1 hm
    exact h.fresh j id hclaim o' ho
  · rcases List.mem_cons.1 ho with heq | ho
    · obtain ⟨rfl, -⟩ := Prod.mk.inj heq
      simp only [update_self]
      exact le_refl _
    · have hle := h.le id o' ho
      by_cases hide : id % 2 ^ k = i % 2 ^ k
      · simp only [hide, update_self] at hle ⊢
        omega
      · simp only [update_of_ne hide]
        exact hle
  · by_cases hij : i' = j
    · subst hij
      simp only [update_self] at hc
      cases hc
    · simp only [update_of_ne hij] at hc
      rcases List.mem_cons.1 ho with heq | ho
      · -- nobody else has claimed an id of the entry
        obtain ⟨rfl, -⟩ := Prod.mk.inj heq
        exact hij (eq_of_tally_le_one hone (allocs_of_claimed hc) (allocs_of_claimed hclaim))
      · exact h.fresh i' c hc o' ho

omit [DecidableEq ι] in
theorem id_keep {h' : Header} (hid : h'.id = (s.header e).id) (x : ℕ) :
    (update s.header e h' x).id = (s.header x).id := by
  by_cases hx : x = e
  · rw [hx, update_self, hid]
  · rw [update_of_ne hx]

theorem probe_claimed {o i stop : ℕ} : (Pc.probe o i stop).claimed = none := by
  unfold Pc.probe
  split <;> rfl

theorem checkLock_claimed {id : ℕ} {header : Header} : (Pc.checkLock id header).claimed = none := by
  unfold Pc.checkLock
  split <;> rfl

theorem checkUnlock_claimed {id : ℕ} {final : Bool} {header : Header} :
    (Pc.checkUnlock id final header).claimed = none := by
  unfold Pc.checkUnlock
  split <;> rfl

theorem Ids.stepThread [Fintype ι] (h : Ids k s) (hI : Inv k s) (hO : Objects k s) {spurious : Bool}
    (hah : s.Ahead k (.step j spurious)) (hs : s.stepThread k j spurious = some s') : Ids k s' := by
  have hok := hI.ok j
  simp only [St.Ahead] at hah
  unfold St.stepThread at hs
  split at hs <;> rename_i hpc <;> rw [hpc] at hok hah
  case h_1 => cases hs
  case h_2 o => rw [← Option.some.inj hs]; exact h.goto probe_claimed
  case h_3 o i stop =>
    simp only at hs
    split at hs
    · rw [← Option.some.inj hs]; exact h.goto probe_claimed
    · split at hs <;> rw [← Option.some.inj hs]
      · exact h.goto probe_claimed
      · exact h.goto rfl
  case h_4 o i stop header =>
    split at hs
    case isTrue hcas =>
      have hlt : header.id < i := by
        simpa [Pc.claim, hcas] using hah
      rw [← Option.some.inj hs]
      exact h.allocCas (by rw [hcas]; exact hlt)
    case isFalse => rw [← Option.some.inj hs]; exact h.goto probe_claimed
  case h_5 o i =>
    rw [← Option.some.inj hs]
    exact h.move (fun c hc => by rw [hpc]; exact hc) (fun _ => rfl) h.locked
  case h_6 o i => rw [← Option.some.inj hs]; exact h.allocStore hI hpc
  case h_7 id => rw [← Option.some.inj hs]; exact h.goto checkLock_claimed
  case h_8 id header =>
    split at hs
    case isTrue hcas =>
      obtain ⟨h0, hid, hu, -, hmax⟩ := hok
      have hfit : header.Fits := hcas.1 ▸ hI.header_fits (id % 2 ^ k)
      have he : id % 2 ^ k ≠ 0 := by
        intro hz
        have hne := (hI.lockCas hpc hcas.1).1.ne'
        rw [hz, hI.zero.2.2.2] at hne
        exact hne rfl
      rw [← Option.some.inj hs]
      refine h.move (fun c hc => by cases hc) (id_keep ?_) fun p hp => ?_
      · rw [ofWord_succ hfit hmax, hcas.1]
      · rcases List.mem_cons.1 hp with rfl | hp
        · have := hO.entry _ he (by rw [hcas.1]; exact hu)
          rwa [hcas.1, hid] at this
        · exact h.locked p hp
    case isFalse => rw [← Option.some.inj hs]; exact h.goto checkLock_claimed
  case h_9 id final => rw [← Option.some.inj hs]; exact h.goto checkUnlock_claimed
  case h_10 id final header =>
    split at hs
    case isTrue hcas =>
      have hfit : header.Fits := hcas.1 ▸ hI.header_fits (id % 2 ^ k)
      rw [← Option.some.inj hs]
      refine h.move (fun c hc => ?_) (id_keep ?_) h.locked
      · split at hc <;> cases hc
      · rw [(unlocked_keeps hfit hok.2.2.2).2, hcas.1]
    case isFalse => rw [← Option.some.inj hs]; exact h.goto checkUnlock_claimed
  case h_11 id => rw [← Option.some.inj hs]; exact h.goto rfl
  case h_12 id header =>
    rw [← Option.some.inj hs]
    exact h.move (fun c hc => by cases hc) (fun _ => rfl) h.locked
  case h_13 id header =>
    split at hs
    case isTrue hcas =>
      rw [← Option.some.inj hs]
      refine h.move (fun c hc => by cases hc) (id_keep ?_) h.locked
      rw [← hcas.1]
      rfl
    case isFalse => rw [← Option.some.inj hs]; exact h.goto rfl

theorem Ids.step [Fintype ι] (h : Ids k s) (hI : Inv k s) (hO : Objects k s) {a : Act ι} (hah : s.Ahead k a)
    (hs : s.step k a = some s') : Ids k s' := by
  cases a with
  | alloc j o =>
    obtain ⟨-, rfl⟩ := Option.ite_none_right_eq_some.1 hs |>.imp_right Option.some.inj
    exact h.move (fun c hc => by cases hc) (fun _ => rfl) h.locked
  | lock j id =>
    obtain ⟨-, rfl⟩ := Option.ite_none_right_eq_some.1 hs |>.imp_right Option.some.inj
    exact h.goto rfl
  | unlock j id final =>
    obtain ⟨-, rfl⟩ := Option.ite_none_right_eq_some.1 hs |>.imp_right Option.some.inj
    exact h.goto rfl
  | step j spurious => exact h.stepThread hI hO hah hs

/-! ## The result -/

/-- **Ids are unique** in every run in which an exchange of `prs_god_alloc_and_lock` succeeds only with an id
above the last one of the entry: no id is returned twice, and an object that a lock has returned is the one
and only that was registered under the id. -/
theorem ids_unique [Fintype ι] (h : (sys k ι).Reach (St.Ahead k) s) :
    (s.returned.map Prod.fst).Nodup ∧
    ∀ id o, (id, o) ∈ s.locked → (id, o) ∈ s.returned ∧ ∀ o', (id, o') ∈ s.returned → o' = o := by
  have hi : Inv k s ∧ Objects k s ∧ Ids k s := by
    refine System.Reach.inv (I := fun s => Inv k s ∧ Objects k s ∧ Ids k s) ?_ ?_ h
    · rintro _ rfl
      exact ⟨inv_init, objects_init, ids_init⟩
    · rintro _ _ _ ⟨h1, h2, h3⟩ hah hs
      exact ⟨h1.step hs, h2.step h1 hs, h3.step h1 h2 hah hs⟩
  obtain ⟨-, -, hids⟩ := hi
  refine ⟨hids.nodup, fun id o hl => ⟨hids.locked _ hl, fun o' ho' => ?_⟩⟩
  have hinj := List.inj_on_of_nodup_map hids.nodup ho' (hids.locked _ hl) rfl
  exact (Prod.mk.inj hinj).2

/-- Two allocations and a lock in a table of two entries. -/
theorem ids_unique_two : ∃ s, (sys 1 (Fin 2)).Reach (St.Ahead 1) s ∧ s.returned = [(3, 8), (1, 7)] ∧
    s.locked = [(3, 8)] ∧ (s.returned.map Prod.fst).Nodup := by
  obtain ⟨s, hs, hr, hl⟩ := System.exists_of_check (sys 1 (Fin 2)) (St.Ahead 1)
    (fun s => s.returned = [(3, 8), (1, 7)] ∧ s.locked = [(3, 8)]) .init rfl
    (List.flatten [.alloc 0 7 :: List.replicate 5 (.step 0 false),
      .unlock 0 1 false :: List.replicate 5 (.step 0 false), .alloc 0 8 :: List.replicate 6 (.step 0 false),
      [.lock 1 3, .step 1 false, .step 1 false]]) (by decide +kernel)
  exact ⟨s, hs, hr, hl, (ids_unique hs).1⟩

/-- **An id is issued again.** A thread reads `write_index` and is held up; meanwhile the entry is registered,
freed and registered under its next id and freed. The first id of the entry is free to be taken then. -/
theorem id_reissued : ∃ s, (sys 1 (Fin 2)).Reachable s ∧ s.objects.length = 3 ∧
    s.returned = [(1, 9), (3, 8), (1, 7)] := by
  obtain ⟨s, hs, ho, hr⟩ := System.exists_of_check (sys 1 (Fin 2)) (fun _ _ => True)
    (fun s => s.objects.length = 3 ∧ s.returned = [(1, 9), (3, 8), (1, 7)]) .init rfl
    (List.flatten [[.alloc 1 9, .step 1 false], .alloc 0 7 :: List.replicate 5 (.step 0 false),
      .unlock 0 1 false :: List.replicate 5 (.step 0 false), .alloc 0 8 :: List.replicate 6 (.step 0 false),
      .unlock 0 3 false :: List.replicate 5 (.step 0 false), List.replicate 4 (.step 1 false)])
        (by decide +kernel)
  exact ⟨s, hs, ho, hr⟩

end Prs.God
