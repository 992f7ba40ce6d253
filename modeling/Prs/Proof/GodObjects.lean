import Prs.Proof.GodLife

/-!
# The objects of the directory

An object is registered in one entry until that is freed, and is passed to the free callback by the thread
that frees the entry (`Objects`).

* `Inv.dying`: a used entry without references is being freed by one thread, which runs the free callback on
  its way.
* `entry_lifetime`: the reference count of a used entry is the number of references to it and stays within its
  bits; the free callback runs once for an object, when there are no references to it; a lock succeeds only on
  an entry with a reference to it; and an entry is registered anew only after it was freed.
-/

namespace Prs.God

open Function

variable {ι : Type} {k : ℕ} {s s' : St ι} {j : ι} {e : ℕ}

/-- The object that a thread registers. -/
def Pc.object : Pc → Option ℕ
  | .allocLoad o => some o
  | .allocHeader o _ _ => some o
  | .allocCas o _ _ _ => some o
  | .allocIndex o _ => some o
  | .allocStore o _ => some o
  | _ => none

/-- The entry for whose object a thread has run the free callback. -/
def Pc.called (k : ℕ) : Pc → List ℕ
  | .freeCas id _ => [id % 2 ^ k]
  | _ => []

/-- **The invariant of the objects.** -/
structure Objects (k : ℕ) (s : St ι) : Prop where
  pending : ∀ j o, (s.pc j).object = some o → o ∈ s.objects ∧ ∀ id, (id, o) ∉ s.returned
  distinct : ∀ i j o, (s.pc i).object = some o → (s.pc j).object = some o → i = j
  known : ∀ id o, (id, o) ∈ s.returned → o ∈ s.objects
  entry : ∀ e, e ≠ 0 → (s.header e).used = true → ((s.header e).id, s.object e) ∈ s.returned
  inj : ∀ e e', e ≠ 0 → e' ≠ 0 → (s.header e).used = true → (s.header e').used = true →
    s.object e = s.object e' → e = e'
  nodup : s.freed.Nodup
  freed : ∀ o ∈ s.freed, ∃ id, (id, o) ∈ s.returned
  called : ∀ j, ∀ e ∈ (s.pc j).called k, s.object e ∈ s.freed
  alive : ∀ e, e ≠ 0 → (s.header e).used = true → s.object e ∈ s.freed → ∃ j, e ∈ (s.pc j).called k
  kept : ∀ id o, (id, o) ∈ s.returned → o ∈ s.freed ∨ ∃ e, e ≠ 0 ∧ (s.header e).used = true ∧ s.object e = o

theorem objects_init : Objects k (St.init : St ι) where
  pending := fun j o h => by cases h
  distinct := fun i j o h => by cases h
  known := fun id o h => by cases h
  entry := fun e he h => by simp [St.init, he] at h
  inj := fun e e' he _ h => by simp [St.init, he] at h
  nodup := List.nodup_nil
  freed := fun o h => by cases h
  called := fun j e h => by cases h
  alive := fun e he h => by simp [St.init, he] at h
  kept := fun id o h => by cases h

variable [DecidableEq ι]

theorem object_update {p : Pc} {o : ℕ} {i : ι} (hp : ∀ o, p.object = some o → (s.pc j).object = some o)
    (hi : (update s.pc j p i).object = some o) : (s.pc i).object = some o := by
  by_cases hij : i = j
  · subst hij
    rw [update_self] at hi
    exact hp o hi
  · rwa [update_of_ne hij] at hi

theorem called_update {p : Pc} {i : ι} (hp : p.called k = (s.pc j).called k) :
    (update s.pc j p i).called k = (s.pc i).called k := by
  by_cases hij : i = j
  · subst hij
    rw [update_self, hp]
  · rw [update_of_ne hij]

variable [Fintype ι]

omit [Fintype ι] in
/-- A thread moves on, and an entry is in use as before under the id that it had. -/
theorem Objects.move (h : Objects k s) {p : Pc} {header : ℕ → Header} {refs : ι → List ℕ} {writeIndex : ℕ}
    {locked : List (ℕ × ℕ)} (hp : ∀ o, p.object = some o → (s.pc j).object = some o)
    (hc : p.called k = (s.pc j).called k) (hu : ∀ e, (header e).used = (s.header e).used)
    (hid : ∀ e, (s.header e).used = true → (header e).id = (s.header e).id) :
    Objects k { s with pc := update s.pc j p, header, refs, writeIndex, locked } where
  pending := fun i o hi => h.pending i o (object_update hp hi)
  distinct := fun i i' o hi hi' => h.distinct i i' o (object_update hp hi) (object_update hp hi')
  known := h.known
  entry := fun e he hue => by
    simp only [hu] at hue
    simp only [hid e hue]
    exact h.entry e he hue
  inj := fun e e' he he' hue hue' => by
    simp only [hu] at hue hue'
    exact h.inj e e' he he' hue hue'
  nodup := h.nodup
  freed := h.freed
  called := fun i e he => by
    simp only [called_update hc] at he
    exact h.called i e he
  alive := fun e he hue hf => by
    simp only [hu] at hue
    obtain ⟨i, hi⟩ := h.alive e he hue hf
    refine ⟨i, ?_⟩
    simp only [called_update hc]
    exact hi
  kept := fun id o ho => by
    simp only [hu]
    exact h.kept id o ho

omit [Fintype ι] in
/-- A thread goes on with the same object. -/
theorem Objects.goto (h : Objects k s) {p : Pc} (hp : ∀ o, p.object = some o → (s.pc j).object = some o)
    (hc : p.called k = (s.pc j).called k) : Objects k (s.goto j p) :=
  h.move hp hc (fun _ => rfl) (fun _ _ => rfl)

omit [Fintype ι] in
/-- A call of `prs_god_alloc` begins, for a new object. -/
theorem Objects.alloc (h : Objects k s) {o : ℕ} (hpc : s.pc j = .idle) (ho : o ∉ s.objects) :
    Objects k { s with pc := update s.pc j (.allocLoad o), objects := o :: s.objects } := by
  have hcase : ∀ {i o'}, (update s.pc j (.allocLoad o) i).object = some o' →
      (i = j ∧ o' = o) ∨ (s.pc i).object = some o' := by
    intro i o' hi
    by_cases hij : i = j
    · subst hij
      rw [update_self] at hi
      exact .inl ⟨rfl, (Option.some.inj hi).symm⟩
    · rw [update_of_ne hij] at hi
      exact .inr hi
  have hc : ∀ i, (update s.pc j (.allocLoad o) i).called k = (s.pc i).called k := fun i =>
    called_update (by rw [hpc]; rfl)
  exact
    { pending := fun i o' hi => by
        rcases hcase hi with ⟨-, rfl⟩ | hi
        · exact ⟨List.mem_cons_self, fun id hid => ho (h.known id o' hid)⟩
        · exact ⟨List.mem_cons_of_mem o (h.pending i o' hi).1, (h.pending i o' hi).2⟩
      distinct := fun i i' o' hi hi' => by
        rcases hcase hi with ⟨h1, h2⟩ | hi1
        · rcases hcase hi' with ⟨h3, -⟩ | hi2
          · rw [h1, h3]
          · exact absurd (h2 ▸ (h.pending i' o' hi2).1) ho
        · rcases hcase hi' with ⟨-, h2⟩ | hi2
          · exact absurd (h2 ▸ (h.pending i o' hi1).1) ho
          · exact h.distinct i i' o' hi1 hi2
      known := fun id o' hid => List.mem_cons_of_mem o (h.known id o' hid)
      entry := h.entry
      inj := h.inj
      nodup := h.nodup
      freed := h.freed
      called := fun i e he => by
        simp only [hc] at he
        exact h.called i e he
      alive := fun e he hue hf => by
        simp only [hc]
        exact h.alive e he hue hf
      kept := h.kept }

theorem called_subset {p : Pc} (he : e ∈ p.called k) : e ∈ p.frees k := by
  cases p <;> simp_all [Pc.called, Pc.frees]

/-- The object is registered in an entry that was not in use. -/
theorem Objects.allocStore (h : Objects k s) (hI : Inv k s) {o i : ℕ} (hpc : s.pc j = .allocStore o i) :
    Objects k { s with
      object := update s.object (i % 2 ^ k) o
      header := update s.header (i % 2 ^ k) ⟨i, true, true, false, 1⟩
      pc := update s.pc j .idle
      refs := update s.refs j (i :: s.refs j)
      returned := (i, o) :: s.returned } := by
  obtain ⟨he, hpos⟩ := hI.allocs_pos (j := j) (e := i % 2 ^ k) (by rw [hpc]; exact List.mem_singleton_self _)
  obtain ⟨hh, ha, hf, hr⟩ := (hI.phase _ he).of_allocs hpos
  have hunused : (s.header (i % 2 ^ k)).used = false := by rw [hh]
  have hnew : ∀ id, (id, o) ∉ s.returned := (h.pending j o (by rw [hpc]; rfl)).2
  have hobj : ∀ {i' o'}, (update s.pc j .idle i').object = some o' → i' ≠ j ∧ (s.pc i').object = some o' := by
    intro i' o' hi
    by_cases hij : i' = j
    · subst hij
      rw [update_self] at hi
      cases hi
    · rw [update_of_ne hij] at hi
      exact ⟨hij, hi⟩
  have hne : ∀ {x}, x ≠ 0 → (s.header x).used = true → x ≠ i % 2 ^ k ∧ s.object x ≠ o := by
    intro x hx hu
    refine ⟨?_, ?_⟩
    · rintro rfl
      rw [hunused] at hu
      cases hu
    · intro ho
      exact hnew _ (ho ▸ h.entry x hx hu)
  have hof : o ∉ s.freed := fun ho => by
    obtain ⟨id, hid⟩ := h.freed o ho
    exact hnew id hid
  have hc : ∀ i', (update s.pc j .idle i').called k = (s.pc i').called k := fun i' =>
    called_update (by rw [hpc]; rfl)
  have hcall : ∀ i', ∀ x ∈ (s.pc i').called k, x ≠ i % 2 ^ k := by
    rintro i' x hx rfl
    exact not_mem_of_tally_eq_zero hf i' (called_subset hx)
  -- the entries in use are the old ones and this one
  have hused : ∀ x, x ≠ i % 2 ^ k → (update s.header (i % 2 ^ k) ⟨i, true, true, false, 1⟩ x) = s.header x :=
    fun x hx =>
    update_of_ne hx _ _
  exact
    { pending := fun i' o' hi => by
        obtain ⟨hij, hi'⟩ := hobj hi
        refine ⟨(h.pending i' o' hi').1, fun id hid => ?_⟩
        rcases List.mem_cons.1 hid with heq | hid
        · obtain ⟨-, rfl⟩ := Prod.mk.inj heq
          exact hij (h.distinct i' j o' hi' (by rw [hpc]; rfl))
        · exact (h.pending i' o' hi').2 id hid
      distinct := fun i1 i2 o' h1 h2 => h.distinct i1 i2 o' (hobj h1).2 (hobj h2).2
      known := fun id o' hid => by
        rcases List.mem_cons.1 hid with heq | hid
        · obtain ⟨-, rfl⟩ := Prod.mk.inj heq
          exact (h.pending j o' (by rw [hpc]; rfl)).1
        · exact h.known id o' hid
      entry := fun x hx hu => by
        by_cases hxe : x = i % 2 ^ k
        · subst hxe
          simp only [update_self]
          exact List.mem_cons_self
        · simp only [hused x hxe, update_of_ne hxe] at hu ⊢
          exact List.mem_cons_of_mem _ (h.entry x hx hu)
      inj := fun x y hx hy hu hv hxy => by
        by_cases hxe : x = i % 2 ^ k <;> by_cases hye : y = i % 2 ^ k
        · rw [hxe, hye]
        · subst hxe
          simp only [hused y hye, update_of_ne hye, update_self] at hv hxy
          exact absurd hxy.symm (hne hy hv).2
        · subst hye
          simp only [hused x hxe, update_of_ne hxe, update_self] at hu hxy
          exact absurd hxy (hne hx hu).2
        · simp only [hused x hxe, hused y hye, update_of_ne hxe, update_of_ne hye] at hu hv hxy
          exact h.inj x y hx hy hu hv hxy
      nodup := h.nodup
      freed := fun o' ho => by
        obtain ⟨id, hid⟩ := h.freed o' ho
        exact ⟨id, List.mem_cons_of_mem _ hid⟩
      called := fun i' x hx => by
        simp only [hc] at hx
        simp only [update_of_ne (hcall i' x hx)]
        exact h.called i' x hx
      alive := fun x hx hu hfr => by
        by_cases hxe : x = i % 2 ^ k
        · subst hxe
          simp only [update_self] at hfr
          exact absurd hfr hof
        · simp only [hused x hxe, update_of_ne hxe] at hu hfr
          simp only [hc]
          exact h.alive x hx hu hfr
      kept := fun id o' hid => by
        rcases List.mem_cons.1 hid with heq | hid
        · obtain ⟨rfl, rfl⟩ := Prod.mk.inj heq
          exact .inr ⟨_, he, by simp only [update_self], by simp only [update_self]⟩
        · rcases h.kept id o' hid with hfr | ⟨x, hx, hu, ho⟩
          · exact .inl hfr
          · have hxe := (hne hx hu).1
            refine .inr ⟨x, hx, ?_, ?_⟩
            · simp only [hused x hxe]
              exact hu
            · simp only [update_of_ne hxe]
              exact ho }

omit [DecidableEq ι] in
/-- The thread that frees an entry is the only one. -/
theorem Inv.free_unique (hI : Inv k s) {i : ι} (hi : e ∈ (s.pc i).frees k) (hj : e ∈ (s.pc j).frees k) :
    i = j := by
  obtain ⟨he, hpos⟩ := hI.frees_pos hi
  obtain ⟨-, -, hf, -⟩ := (hI.phase e he).of_frees hpos
  exact eq_of_tally_le_one (le_of_eq hf) hi hj

omit [DecidableEq ι] in
/-- The callback has not run for the object that it is about to be run for. -/
theorem Objects.not_freed (h : Objects k s) (hI : Inv k s) {id : ℕ} {header : Header}
    (hpc : s.pc j = .freeCall id header) : s.object (id % 2 ^ k) ∉ s.freed := by
  intro hfr
  have hmem : id % 2 ^ k ∈ (s.pc j).frees k := by rw [hpc]; exact List.mem_singleton_self _
  obtain ⟨he, hpos⟩ := hI.frees_pos hmem
  have hu : (s.header (id % 2 ^ k)).used = true := by rw [((hI.phase _ he).of_frees hpos).1]
  obtain ⟨i, hi⟩ := h.alive _ he hu hfr
  have hij := hI.free_unique (called_subset hi) hmem
  rw [hij, hpc] at hi
  cases hi

/-- The free callback of the object runs. -/
theorem Objects.freeCall (h : Objects k s) (hI : Inv k s) {id : ℕ} {header : Header}
    (hpc : s.pc j = .freeCall id header) :
    Objects k { s with pc := update s.pc j (.freeCas id header), freed := s.object (id % 2 ^ k) :: s.freed } := by
  have hmem : id % 2 ^ k ∈ (s.pc j).frees k := by rw [hpc]; exact List.mem_singleton_self _
  obtain ⟨he, hpos⟩ := hI.frees_pos hmem
  have hu : (s.header (id % 2 ^ k)).used = true := by rw [((hI.phase _ he).of_frees hpos).1]
  have hobj : ∀ {i o}, (update s.pc j (.freeCas id header) i).object = some o → (s.pc i).object = some o :=
    fun hi =>
    object_update (fun o ho => by cases ho) hi
  have hcall : ∀ i, ∀ x ∈ (s.pc i).called k, x ∈ (update s.pc j (.freeCas id header) i).called k := by
    intro i x hx
    have hij : i ≠ j := by
      rintro rfl
      rw [hpc] at hx
      cases hx
    rw [update_of_ne hij]
    exact hx
  exact
    { pending := fun i o hi => h.pending i o (hobj hi)
      distinct := fun i i' o hi hi' => h.distinct i i' o (hobj hi) (hobj hi')
      known := h.known
      entry := h.entry
      inj := h.inj
      nodup := List.nodup_cons.2 ⟨h.not_freed hI hpc, h.nodup⟩
      freed := fun o ho => by
        rcases List.mem_cons.1 ho with rfl | ho
        · exact ⟨_, h.entry _ he hu⟩
        · exact h.freed o ho
      called := fun i x hx => by
        by_cases hij : i = j
        · subst hij
          simp only [update_self] at hx
          rw [List.mem_singleton.1 hx]
          exact List.mem_cons_self
        · simp only [update_of_ne hij] at hx
          exact List.mem_cons_of_mem _ (h.called i x hx)
      alive := fun x hx hux hfr => by
        rcases List.mem_cons.1 hfr with hox | hfr
        · have hxe := h.inj x _ hx he hux hu hox
          subst hxe
          refine ⟨j, ?_⟩
          simp only [update_self]
          exact List.mem_singleton_self _
        · obtain ⟨i, hi⟩ := h.alive x hx hux hfr
          exact ⟨i, hcall i x hi⟩
      kept := fun id' o ho => by
        rcases h.kept id' o ho with hfr | hx
        · exact .inl (List.mem_cons_of_mem _ hfr)
        · exact .inr hx }

omit [Fintype ι] in
/-- The entry is not in use any more. -/
theorem Objects.freeCas (h : Objects k s) {id : ℕ} {header : Header} (hpc : s.pc j = .freeCas id header) :
    Objects k { s with header := update s.header (id % 2 ^ k) header.onlyId, pc := update s.pc j .idle } := by
  have hfr : s.object (id % 2 ^ k) ∈ s.freed := h.called j _ (by rw [hpc]; exact List.mem_singleton_self _)
  have hobj : ∀ {i o}, (update s.pc j .idle i).object = some o → (s.pc i).object = some o := fun hi =>
    object_update (fun o ho => by cases ho) hi
  -- an entry in use is another one
  have hother : ∀ {x}, (update s.header (id % 2 ^ k) header.onlyId x).used = true →
      x ≠ id % 2 ^ k ∧ (s.header x).used = true := by
    intro x hu
    by_cases hxe : x = id % 2 ^ k
    · rw [hxe, update_self] at hu
      cases hu
    · rw [update_of_ne hxe] at hu
      exact ⟨hxe, hu⟩
  exact
    { pending := fun i o hi => h.pending i o (hobj hi)
      distinct := fun i i' o hi hi' => h.distinct i i' o (hobj hi) (hobj hi')
      known := h.known
      entry := fun x hx hu => by
        obtain ⟨hxe, hu⟩ := hother hu
        simp only [update_of_ne hxe]
        exact h.entry x hx hu
      inj := fun x y hx hy hu hv => h.inj x y hx hy (hother hu).2 (hother hv).2
      nodup := h.nodup
      freed := h.freed
      called := fun i x hx => by
        by_cases hij : i = j
        · subst hij
          simp only [update_self] at hx
          cases hx
        · simp only [update_of_ne hij] at hx
          exact h.called i x hx
      alive := fun x hx hu hfx => by
        obtain ⟨hxe, hu⟩ := hother hu
        obtain ⟨i, hi⟩ := h.alive x hx hu hfx
        have hij : i ≠ j := by
          rintro rfl
          rw [hpc] at hi
          exact hxe (List.mem_singleton.1 hi)
        refine ⟨i, ?_⟩
        simp only [update_of_ne hij]
        exact hi
      kept := fun id' o ho => by
        rcases h.kept id' o ho with hf | ⟨x, hx, hu, hxo⟩
        · exact .inl hf
        · by_cases hxe : x = id % 2 ^ k
          · rw [hxe] at hxo
            exact .inl (hxo ▸ hfr)
          · refine .inr ⟨x, hx, ?_, hxo⟩
            simp only [update_of_ne hxe]
            exact hu }

omit [DecidableEq ι] [Fintype ι] in
/-- An exchange that keeps an entry in use under its id. -/
theorem used_update {h' : Header} (hu : h'.used = (s.header e).used) (x : ℕ) :
    (update s.header e h' x).used = (s.header x).used := by
  by_cases hx : x = e
  · rw [hx, update_self, hu]
  · rw [update_of_ne hx]

omit [DecidableEq ι] [Fintype ι] in
theorem id_update {h' : Header} (hid : (s.header e).used = true → h'.id = (s.header e).id) (x : ℕ)
    (hu : (s.header x).used = true) : (update s.header e h' x).id = (s.header x).id := by
  by_cases hx : x = e
  · rw [hx, update_self, hid (hx ▸ hu)]
  · rw [update_of_ne hx]

theorem unlocked_keeps {header : Header} (hf : header.Fits) (hn : header.refcnt ≠ 0) :
    header.unlocked.used = header.used ∧ header.unlocked.id = header.id := by
  unfold Header.unlocked
  split
  · exact ⟨rfl, rfl⟩
  · rw [ofWord_pred hf hn]
    exact ⟨rfl, rfl⟩

theorem probe_object {o i stop o' : ℕ} (h : (Pc.probe o i stop).object = some o') : some o = some o' := by
  unfold Pc.probe at h
  split at h
  · exact h
  · cases h

theorem probe_called {o i stop : ℕ} : (Pc.probe o i stop).called k = [] := by
  unfold Pc.probe
  split <;> rfl

theorem checkLock_object {id : ℕ} {header : Header} : (Pc.checkLock id header).object = none := by
  unfold Pc.checkLock
  split <;> rfl

theorem checkLock_called {id : ℕ} {header : Header} : (Pc.checkLock id header).called k = [] := by
  unfold Pc.checkLock
  split <;> rfl

theorem checkUnlock_object {id : ℕ} {final : Bool} {header : Header} :
    (Pc.checkUnlock id final header).object = none := by
  unfold Pc.checkUnlock
  split <;> rfl

theorem checkUnlock_called {id : ℕ} {final : Bool} {header : Header} :
    (Pc.checkUnlock id final header).called k = [] := by
  unfold Pc.checkUnlock
  split <;> rfl

theorem Objects.stepThread (h : Objects k s) (hI : Inv k s) {spurious : Bool}
    (hs : s.stepThread k j spurious = some s') : Objects k s' := by
  have hok := hI.ok j
  unfold St.stepThread at hs
  split at hs <;> rename_i hpc <;> rw [hpc] at hok
  case h_1 => cases hs
  case h_2 o =>
    rw [← Option.some.inj hs]
    exact h.goto (fun o' ho => by rw [hpc]; exact probe_object ho) (by rw [hpc]; exact probe_called)
  case h_3 o i stop =>
    simp only at hs
    split at hs
    · rw [← Option.some.inj hs]
      exact h.goto (fun o' ho => by rw [hpc]; exact probe_object ho) (by rw [hpc]; exact probe_called)
    · split at hs <;> rw [← Option.some.inj hs]
      · exact h.goto (fun o' ho => by rw [hpc]; exact probe_object ho) (by rw [hpc]; exact probe_called)
      · exact h.goto (fun o' ho => by rw [hpc]; exact ho) (by rw [hpc]; rfl)
  case h_4 o i stop header =>
    split at hs
    case isTrue hcas =>
      have hunused : (s.header (i % 2 ^ k)).used = false := by
        have he : i % 2 ^ k ≠ 0 := by
          intro h0
          rw [h0, hI.zero.1] at hcas
          have := hok.2
          rw [← hcas] at this
          cases this
        rw [((hI.phase _ he).of_unreserved (by rw [hcas]; exact hok.2)).1]
      rw [← Option.some.inj hs]
      refine h.move (fun o' ho => by rw [hpc]; exact ho) (by rw [hpc]; rfl) (used_update hunused.symm)
        (id_update ?_)
      intro hu
      rw [hunused] at hu
      cases hu
    case isFalse =>
      rw [← Option.some.inj hs]
      exact h.goto (fun o' ho => by rw [hpc]; exact probe_object ho) (by rw [hpc]; exact probe_called)
  case h_5 o i =>
    rw [← Option.some.inj hs]
    exact h.move (fun o' ho => by rw [hpc]; exact ho) (by rw [hpc]; rfl) (fun _ => rfl) (fun _ _ => rfl)
  case h_6 o i => rw [← Option.some.inj hs]; exact h.allocStore hI hpc
  case h_7 id =>
    rw [← Option.some.inj hs]
    exact h.goto (fun o' ho => by rw [checkLock_object] at ho; cases ho) (by rw [hpc]; exact checkLock_called)
  case h_8 id header =>
    split at hs
    case isTrue hcas =>
      rw [← Option.some.inj hs]
      have hfit : header.Fits := hcas.1 ▸ hI.header_fits (id % 2 ^ k)
      have hsucc := ofWord_succ hfit hok.2.2.2.2
      refine h.move (fun o' ho => by cases ho) (by rw [hpc]; rfl) (used_update ?_) (id_update fun _ => ?_)
      · rw [hsucc, hcas.1]
      · rw [hsucc, hcas.1]
    case isFalse =>
      rw [← Option.some.inj hs]
      exact h.goto (fun o' ho => by rw [checkLock_object] at ho; cases ho) (by rw [hpc]; exact checkLock_called)
  case h_9 id final =>
    rw [← Option.some.inj hs]
    exact h.goto (fun o' ho => by rw [checkUnlock_object] at ho; cases ho) (by rw [hpc]; exact checkUnlock_called)
  case h_10 id final header =>
    split at hs
    case isTrue hcas =>
      rw [← Option.some.inj hs]
      have hfit : header.Fits := hcas.1 ▸ hI.header_fits (id % 2 ^ k)
      obtain ⟨h1, h2⟩ := unlocked_keeps hfit hok.2.2.2
      refine h.move (fun o' ho => ?_) ?_ (used_update ?_) (id_update fun _ => ?_)
      · split at ho <;> cases ho
      · rw [hpc]
        split <;> rfl
      · rw [h1, hcas.1]
      · rw [h2, hcas.1]
    case isFalse =>
      rw [← Option.some.inj hs]
      exact h.goto (fun o' ho => by rw [checkUnlock_object] at ho; cases ho)
        (by rw [hpc]; exact checkUnlock_called)
  case h_11 id =>
    rw [← Option.some.inj hs]
    exact h.goto (fun o' ho => by cases ho) (by rw [hpc]; rfl)
  case h_12 id header => rw [← Option.some.inj hs]; exact h.freeCall hI hpc
  case h_13 id header =>
    split at hs
    case isTrue hcas => rw [← Option.some.inj hs]; exact h.freeCas hpc
    case isFalse =>
      rw [← Option.some.inj hs]
      exact h.goto (fun o' ho => by cases ho) (by rw [hpc]; rfl)

theorem Objects.step (h : Objects k s) (hI : Inv k s) {a : Act ι} (hs : s.step k a = some s') : Objects k s' := by
  cases a with
  | alloc j o =>
    obtain ⟨⟨hpc, ho⟩, rfl⟩ := Option.ite_none_right_eq_some.1 hs |>.imp_right Option.some.inj
    exact h.alloc hpc ho
  | lock j id =>
    obtain ⟨⟨hpc, -⟩, rfl⟩ := Option.ite_none_right_eq_some.1 hs |>.imp_right Option.some.inj
    exact h.goto (fun o ho => by cases ho) (by rw [hpc]; rfl)
  | unlock j id final =>
    obtain ⟨⟨hpc, -⟩, rfl⟩ := Option.ite_none_right_eq_some.1 hs |>.imp_right Option.some.inj
    exact h.goto (fun o ho => by cases ho) (by rw [hpc]; rfl)
  | step j spurious => exact h.stepThread hI hs

/-- Both invariants in every state of every run. -/
theorem reachable_inv (h : (sys k ι).Reachable s) : Inv k s ∧ Objects k s :=
  System.Reachable.inv (I := fun s => Inv k s ∧ Objects k s) (fun _ h => h ▸ ⟨inv_init, objects_init⟩)
    (fun _ _ _ h hs => ⟨h.1.step hs, h.2.step h.1 hs⟩) h

/-! ## The result -/

omit [DecidableEq ι] in
/-- **The last reference is gone.** One thread is freeing the entry then, and the free callback has run when
that thread is past its call of it. -/
theorem Inv.dying (hI : Inv k s) (hO : Objects k s) (he : e ≠ 0) (hu : (s.header e).used = true)
    (h0 : s.outstanding k e = 0) :
    ∃ j, e ∈ (s.pc j).frees k ∧ (∀ i, e ∈ (s.pc i).frees k → i = j) ∧
      (s.object e ∈ s.freed ↔ e ∈ (s.pc j).called k) := by
  have hone : tally (Pc.frees k) s.pc e = 1 := (hI.phase e he).frees_eq_one hu h0
  obtain ⟨j, hj⟩ : ∃ j, e ∈ (s.pc j).frees k := by
    by_contra hno
    have hnone : tally (Pc.frees k) s.pc e = 0 := tally_eq_zero fun i hi => hno ⟨i, hi⟩
    omega
  refine ⟨j, hj, fun i hi => eq_of_tally_le_one hone.le hi hj, fun hfreed => ?_, hO.called j e⟩
  obtain ⟨i, hi⟩ := hO.alive e he hu hfreed
  rwa [eq_of_tally_le_one hone.le hj (called_subset hi)]

/-- **Lifetime.** In every state of every run: the reference count of a used entry is the number of references
to it, and no field of a header reaches into another one; the free callback has run at most once for an object
and runs when there are no references to it, and an object for which it has not run is in a used entry; when
the last reference to an entry is gone, one thread is freeing it, and has run the callback or comes to its
call next; without references an entry is marked, and a lock that succeeds finds a reference; and a
registration that succeeds finds an entry that is not in use and that nobody is freeing. -/
theorem entry_lifetime (h : (sys k ι).Reachable s) :
    (∀ e, e ≠ 0 → (s.header e).used = true → (s.header e).refcnt = s.outstanding k e) ∧
    (∀ e, Header.ofWord (s.header e).word = s.header e) ∧
    (s.freed.Nodup ∧
      (∀ j id header, s.pc j = .freeCall id header →
        s.outstanding k (id % 2 ^ k) = 0 ∧ s.object (id % 2 ^ k) ∉ s.freed) ∧
      (∀ e, e ≠ 0 → (s.header e).used = true → s.object e ∈ s.freed → s.outstanding k e = 0) ∧
      (∀ id o, (id, o) ∈ s.returned → o ∈ s.freed ∨ ∃ e, e ≠ 0 ∧ (s.header e).used = true ∧ s.object e = o) ∧
      (∀ e, e ≠ 0 → (s.header e).used = true → s.outstanding k e = 0 →
        ∃ j, e ∈ (s.pc j).frees k ∧ (∀ i, e ∈ (s.pc i).frees k → i = j) ∧
          (s.object e ∈ s.freed ↔ e ∈ (s.pc j).called k))) ∧
    (∀ e, e ≠ 0 → (s.header e).used = true → s.outstanding k e = 0 → (s.header e).deleteMark = true) ∧
    (∀ j id header, s.pc j = .lockCas id header → s.header (id % 2 ^ k) = header →
      0 < s.outstanding k (id % 2 ^ k)) ∧
    (∀ j o i stop header, s.pc j = .allocCas o i stop header → s.header (i % 2 ^ k) = header →
      (s.header (i % 2 ^ k)).used = false ∧ ∀ j', i % 2 ^ k ∉ (s.pc j').frees k) := by
  obtain ⟨hI, hO⟩ := reachable_inv h
  have hdying : ∀ {j e}, e ∈ (s.pc j).frees k → s.outstanding k e = 0 := by
    intro j e hm
    obtain ⟨he, hpos⟩ := hI.frees_pos hm
    exact ((hI.phase e he).of_frees hpos).2.2.2
  refine ⟨fun e he hu => (hI.phase e he).refcnt_eq hu, fun e => ofWord_word (hI.header_fits e),
    ⟨hO.nodup, fun j id header hpc => ⟨?_, hO.not_freed hI hpc⟩, fun e he hu hfr => ?_, hO.kept,
      fun e he hu h0 => hI.dying hO he hu h0⟩,
    fun e he hu h0 => ?_, fun j id header hpc hcas => (hI.lockCas hpc hcas).1,
    fun j o i stop header hpc hcas => ?_⟩
  · exact hdying (j := j) (by rw [hpc]; exact List.mem_singleton_self _)
  · obtain ⟨j, hj⟩ := hO.alive e he hu hfr
    exact hdying (called_subset hj)
  · by_contra hd
    have hpos := ((hI.phase e he).of_unmarked hu (by simpa using hd)).2.1
    omega
  · have hres : header.reserved = false := by
      have := hI.ok j
      rw [hpc] at this
      exact this.2
    have he : i % 2 ^ k ≠ 0 := by
      intro h0
      rw [h0, hI.zero.1] at hcas
      rw [← hcas] at hres
      cases hres
    obtain ⟨hh, -, hf, -⟩ := (hI.phase _ he).of_unreserved (by rw [hcas]; exact hres)
    exact ⟨by rw [hh], not_mem_of_tally_eq_zero hf⟩

/-- Two threads have had references to an object, in a table of two entries. The second of them to release its
reference has run the free callback, and the entry is still in use. -/
theorem entry_lifetime_shared : ∃ s, (sys 1 (Fin 2)).Reachable s ∧ s.locked = [(1, 7)] ∧ s.returned = [(1, 7)] ∧
    s.freed = [7] ∧ (s.header 1).refcnt = s.outstanding 1 1 ∧ (s.header 1).deleteMark = true ∧
    ∃ j, 1 ∈ (s.pc j).frees 1 ∧ (∀ i, 1 ∈ (s.pc i).frees 1 → i = j) ∧
      (s.object 1 ∈ s.freed ↔ 1 ∈ (s.pc j).called 1) := by
  obtain ⟨s, hs, hu, h0, hlocked, hreturned, hfreed⟩ := System.exists_of_check (sys 1 (Fin 2)) (fun _ _ => True)
    (fun s => (s.header 1).used = true ∧ s.outstanding 1 1 = 0 ∧ s.locked = [(1, 7)] ∧ s.returned = [(1, 7)] ∧
      s.freed = [7]) .init rfl
    (List.flatten [.alloc 0 7 :: List.replicate 5 (.step 0 false),
      [.lock 1 1, .step 1 false, .step 1 true, .step 1 false],
      [.unlock 0 1 false, .unlock 1 1 true, .step 0 false, .step 1 false, .step 0 false],
      .unlock 1 1 true :: List.replicate 4 (.step 1 false)])
    (by decide +kernel)
  obtain ⟨hcount, -, ⟨-, -, -, -, hdying⟩, hmark, -, -⟩ := entry_lifetime hs
  exact ⟨s, hs, hlocked, hreturned, hfreed, hcount 1 (by decide) hu, hmark 1 (by decide) hu h0,
    hdying 1 (by decide) hu h0⟩

end Prs.God
