import Prs.Model.PoolSteps
import Prs.Proof.PoolTable

/-!
# Lifetime of the entries of a pool

An entry is free, fresh, live, or given up by a release that carries a destructor (`Phase`). The header of the
last phase is that of a fresh entry. What tells them apart is who can be where: a fresh entry has at most one
thread that may lock it firsthand, and an entry that is given up has one thread that runs the destructor, and
no reference to it.
-/

namespace Prs.PoolSteps

open Function PoolWords

/-! ## Phases of an entry -/

/-- The entry that a thread has taken and may lock firsthand. -/
def Pc.claims (k : ℕ) : Pc → List ℕ
  | .allocIndex i => [i % 2 ^ k]
  | .firstLoad id => [id % 2 ^ k]
  | .firstCas id _ => [id % 2 ^ k]
  | _ => []

/-- The entry that a thread is about to destroy. -/
def Pc.dies (k : ℕ) : Pc → List ℕ
  | .destructor id _ => [id % 2 ^ k]
  | _ => []

/-- The entry that a thread destroys. -/
def Pc.runs (k : ℕ) : Pc → List ℕ
  | .destCas id _ => [id % 2 ^ k]
  | _ => []

/-- The id and the new header of a release that carries a destructor. -/
def Pc.dying : Pc → Option (ℕ × ℕ)
  | .destructor id header => some (id, header)
  | .destCas id header => some (id, header)
  | _ => none

/-- One release has returned `PRS_TRUE`, and the destructor that it carried, if any, was started once. -/
structure Life.Over (l : Life) : Prop where
  first : l.first = true
  trues : l.trues = 1
  carried : l.carried ≤ 1
  runs : l.runs = l.carried

/-- **Phases.** How often the entry was allocated, its header, how many threads may lock it firsthand, are
about to destroy it and destroy it, how many references to it there are, and its latest lifetime. -/
inductive Phase (g : ℕ) : ℕ → ℕ → ℕ → ℕ → ℕ → Life → Prop
  | free (i : ℕ) (l : Life) (hi : i < refcntInc) (hl : 0 < g → l.Over) : Phase g i 0 0 0 0 l
  | fresh (i c : ℕ) (hi : i < refcntInc) (hc : c ≤ 1) : Phase g (held 0 i) c 0 0 0 .new
  | live (i n : ℕ) (hi : i < refcntInc) (h0 : 0 < n) (hn : n ≤ refcntMax) :
    Phase g (held n i) 0 0 0 n Life.new.lockFirst
  | dying (i : ℕ) (hi : i < refcntInc) : Phase g (held 0 i) 0 1 0 0 Life.new.lockFirst
  | destroyed (i : ℕ) (hi : i < refcntInc) : Phase g (held 0 i) 0 0 1 0 Life.new.lockFirst.start

section Phases

variable {g w c d r n : ℕ} {l : Life}

theorem Phase.of_refs (h : Phase g w c d r n l) (hn : 0 < n) :
    w = held n (getId w) ∧ getId w < refcntInc ∧ n ≤ refcntMax ∧ c = 0 ∧ d = 0 ∧ r = 0 ∧
      l = Life.new.lockFirst := by
  cases h with
  | free i l hi hl => cases hn
  | fresh i c hi hc => cases hn
  | live i n hi h0 hmax =>
    rw [getId_held hi]
    exact ⟨rfl, hi, hmax, rfl, rfl, rfl, rfl⟩
  | dying i hi => cases hn
  | destroyed i hi => cases hn

theorem Phase.of_claims (h : Phase g w c d r n l) (hc : 0 < c) :
    w = held 0 (getId w) ∧ getId w < refcntInc ∧ c = 1 ∧ d = 0 ∧ r = 0 ∧ n = 0 ∧ l = .new := by
  cases h with
  | free i l hi hl => cases hc
  | fresh i c hi hle =>
    rw [getId_held hi]
    exact ⟨rfl, hi, by omega, rfl, rfl, rfl, rfl⟩
  | live i n hi h0 hmax => cases hc
  | dying i hi => cases hc
  | destroyed i hi => cases hc

theorem Phase.of_dies (h : Phase g w c d r n l) (hd : 0 < d) :
    w = held 0 (getId w) ∧ getId w < refcntInc ∧ c = 0 ∧ d = 1 ∧ r = 0 ∧ n = 0 ∧ l = Life.new.lockFirst := by
  cases h with
  | free i l hi hl => cases hd
  | fresh i c hi hle => cases hd
  | live i n hi h0 hmax => cases hd
  | dying i hi =>
    rw [getId_held hi]
    exact ⟨rfl, hi, rfl, rfl, rfl, rfl, rfl⟩
  | destroyed i hi => cases hd

theorem Phase.of_runs (h : Phase g w c d r n l) (hr : 0 < r) :
    w = held 0 (getId w) ∧ getId w < refcntInc ∧ c = 0 ∧ d = 0 ∧ r = 1 ∧ n = 0 ∧
      l = Life.new.lockFirst.start := by
  cases h with
  | free i l hi hl => cases hr
  | fresh i c hi hle => cases hr
  | live i n hi h0 hmax => cases hr
  | dying i hi => cases hr
  | destroyed i hi =>
    rw [getId_held hi]
    exact ⟨rfl, hi, rfl, rfl, rfl, rfl, rfl⟩

/-- An entry that can be allocated is free. -/
theorem Phase.of_unallocated (h : Phase g w c d r n l) (ha : testAlloc w = false) :
    c = 0 ∧ d = 0 ∧ r = 0 ∧ n = 0 ∧ (0 < g → l.Over) := by
  have hheld : ∀ {i n}, i < refcntInc → n ≤ refcntMax → testAlloc (held n i) ≠ false := by
    intro i n hi hn
    rw [testAlloc_held hi hn]
    exact Bool.true_eq_false_eq_False
  cases h with
  | free i l hi hl => exact ⟨rfl, rfl, rfl, rfl, hl⟩
  | fresh i c hi hc => exact absurd ha (hheld hi (Nat.zero_le _))
  | live i n hi h0 hmax => exact absurd ha (hheld hi hmax)
  | dying i hi => exact absurd ha (hheld hi (Nat.zero_le _))
  | destroyed i hi => exact absurd ha (hheld hi (Nat.zero_le _))

/-- **The count of an allocated entry** is the number of the references. -/
theorem Phase.of_allocated (h : Phase g w c d r n l) (ha : testAlloc w = true) :
    w = held n (getId w) ∧ getId w < refcntInc ∧ n ≤ refcntMax := by
  cases h with
  | free i l hi hl =>
    rw [testAlloc_free hi] at ha
    cases ha
  | fresh i c hi hc =>
    rw [getId_held hi]
    exact ⟨rfl, hi, Nat.zero_le _⟩
  | live i n hi h0 hmax =>
    rw [getId_held hi]
    exact ⟨rfl, hi, hmax⟩
  | dying i hi =>
    rw [getId_held hi]
    exact ⟨rfl, hi, Nat.zero_le _⟩
  | destroyed i hi =>
    rw [getId_held hi]
    exact ⟨rfl, hi, Nat.zero_le _⟩

end Phases

/-! ## The invariant -/

variable {ι : Type} [Fintype ι]

/-- How many references to entry `e` there are. -/
def St.outstanding (k : ℕ) (s : St ι) (e : ℕ) : ℕ := tally (List.map (· % 2 ^ k)) s.refs e

/-- How many may lock entry `e` firsthand. -/
def St.claims (k : ℕ) (s : St ι) (e : ℕ) : ℕ := tally (Pc.claims k) s.pc e + (s.allocated.map (· % 2 ^ k)).count e

/-- What a thread knows of the values that it has read, and which reference it has. -/
def Pc.Ok (refs : List ℕ) : Pc → Prop
  | .allocCas _ _ w => testAlloc w = false
  | .firstCas id w => getId w = id
  | .lockCas id w => getId w = id ∧ testAlloc w = true ∧ getRefcnt w ≠ 0 ∧ getRefcnt w ≠ refcntMax
  | .unlockLoad id _ _ => id ∈ refs
  | .unlockCas id _ _ _ => id ∈ refs
  | _ => True

/-- **The invariant of an entry.** -/
structure Entry (k : ℕ) (s : St ι) (e : ℕ) : Prop where
  phase : Phase (s.gen e) (s.header e) (s.claims k e) (tally (Pc.dies k) s.pc e) (tally (Pc.runs k) s.pc e)
    (s.outstanding k e) (s.life (e, s.gen e))
  closed : ∀ g, 0 < g → g < s.gen e → (s.life (e, g)).Over
  later : ∀ g, s.gen e < g → s.life (e, g) = .new
  refs : ∀ j, ∀ id ∈ s.refs j, id % 2 ^ k = e → getId (s.header e) = id
  dying : ∀ j id w, (s.pc j).dying = some (id, w) → id % 2 ^ k = e → s.header e = w

structure Inv (k : ℕ) (s : St ι) : Prop where
  entry : ∀ e, Entry k s e
  ok : ∀ j, (s.pc j).Ok (s.refs j)

variable {k : ℕ} {s s' : St ι} {j : ι} {e : ℕ}

theorem inv_init : Inv k (St.init : St ι) where
  entry := fun e => by
    have hpc : ∀ f : Pc → List ℕ, f .idle = [] → tally f (St.init : St ι).pc e = 0 := fun f hf =>
      tally_eq_zero fun i => by simp [St.init, hf]
    have hrefs : St.outstanding k (St.init : St ι) e = 0 := tally_eq_zero fun i => by simp [St.init]
    refine ⟨?_, fun g h0 hg => ?_, fun g _ => rfl, fun j id h => ?_, fun j id w h => ?_⟩
    · rw [hrefs, hpc _ rfl, hpc _ rfl, St.claims, hpc _ rfl]
      have hheader : (St.init : St ι).header e = if e = 0 then held 0 0 else 0 := create_header e
      rw [hheader]
      split
      · exact .fresh 0 0 (by decide) (by decide)
      · exact .free 0 _ (by decide) fun h => absurd h (lt_irrefl 0)
    · exact absurd hg (Nat.not_lt_zero g)
    · cases h
    · cases h
  ok := fun j => trivial

/-! ### What a step leaves alone -/

/-- Nothing about entry `e` has changed. -/
structure Same (k : ℕ) (s s' : St ι) (e : ℕ) : Prop where
  header : s'.header e = s.header e
  gen : s'.gen e = s.gen e
  life : ∀ g, s'.life (e, g) = s.life (e, g)
  claims : s'.claims k e = s.claims k e
  dies : tally (Pc.dies k) s'.pc e = tally (Pc.dies k) s.pc e
  runs : tally (Pc.runs k) s'.pc e = tally (Pc.runs k) s.pc e
  outstanding : s'.outstanding k e = s.outstanding k e
  refs : ∀ j, ∀ id ∈ s'.refs j, id % 2 ^ k = e → ∃ i, id ∈ s.refs i
  dying : ∀ j id w, (s'.pc j).dying = some (id, w) → id % 2 ^ k = e → (s.pc j).dying = some (id, w)

theorem Entry.same (h : Entry k s e) (hs : Same k s s' e) : Entry k s' e where
  phase := by
    rw [hs.header, hs.gen, hs.life, hs.claims, hs.dies, hs.runs, hs.outstanding]
    exact h.phase
  closed := fun g h0 hg => by
    rw [hs.gen] at hg
    rw [hs.life]
    exact h.closed g h0 hg
  later := fun g hg => by
    rw [hs.gen] at hg
    rw [hs.life]
    exact h.later g hg
  refs := fun j id hid he => by
    obtain ⟨i, hi⟩ := hs.refs j id hid he
    rw [hs.header]
    exact h.refs i id hi he
  dying := fun j id w hj he => by
    rw [hs.header]
    exact h.dying j id w (hs.dying j id w hj he) he

/-- A place at which a thread has to do with entry `e` alone. -/
def Pc.Only (k e : ℕ) (p : Pc) : Prop :=
  (∀ x ∈ p.claims k, x = e) ∧ (∀ x ∈ p.dies k, x = e) ∧ (∀ x ∈ p.runs k, x = e) ∧
    ∀ id w, p.dying = some (id, w) → id % 2 ^ k = e

variable [DecidableEq ι]

section Refs

variable {id x : ℕ} {l : List ℕ}

theorem count_map_erase (h : id ∈ l) (hx : id % 2 ^ k = x) :
    ((l.erase id).map (· % 2 ^ k)).count x + 1 = (l.map (· % 2 ^ k)).count x := by
  have hp := ((List.perm_cons_erase h).map (· % 2 ^ k)).count_eq x
  rw [hp, List.map_cons, hx, List.count_cons_self]

theorem count_map_erase_of_ne (hx : id % 2 ^ k ≠ x) :
    ((l.erase id).map (· % 2 ^ k)).count x = (l.map (· % 2 ^ k)).count x := by
  by_cases h : id ∈ l
  · have hp := ((List.perm_cons_erase h).map (· % 2 ^ k)).count_eq x
    rw [hp, List.map_cons, List.count_cons_of_ne hx]
  · rw [List.erase_of_not_mem h]

omit [Fintype ι] in
theorem mem_update_cons {refs : ι → List ℕ} {i : ι} {id' : ℕ} (h : id' ∈ update refs j (id :: refs j) i) :
    id' = id ∨ id' ∈ refs i := by
  by_cases hij : i = j
  · subst hij
    rw [update_self] at h
    exact List.mem_cons.1 h
  · rw [update_of_ne hij] at h
    exact .inr h

omit [Fintype ι] in
theorem mem_update_erase {refs : ι → List ℕ} {i : ι} {id' : ℕ} (h : id' ∈ update refs j ((refs j).erase id) i) :
    id' ∈ refs i := by
  by_cases hij : i = j
  · subst hij
    rw [update_self] at h
    exact List.mem_of_mem_erase h
  · rwa [update_of_ne hij] at h

theorem count_map_cons_of_ne (hx : id % 2 ^ k ≠ x) :
    ((id :: l).map (· % 2 ^ k)).count x = (l.map (· % 2 ^ k)).count x := by
  rw [List.map_cons, List.count_cons_of_ne hx]

end Refs

theorem count_of_only {l l' : List ℕ} (hl : ∀ x ∈ l, x = e) (hl' : ∀ x ∈ l', x = e) {x : ℕ} (hx : x ≠ e) :
    l.count x = l'.count x := by
  rw [List.count_eq_zero.2 fun hm => hx (hl x hm), List.count_eq_zero.2 fun hm => hx (hl' x hm)]

/-- **A step of a thread** that keeps what it has to do with entry `x`. -/
theorem same_of_count {p : Pc} {r : List ℕ} {x : ℕ} (hpc : s'.pc = update s.pc j p)
    (hrefs : s'.refs = update s.refs j r) (hheader : s'.header x = s.header x) (hgen : s'.gen x = s.gen x)
    (hlife : ∀ g, s'.life (x, g) = s.life (x, g))
    (hclaims : (p.claims k).count x + (s'.allocated.map (· % 2 ^ k)).count x =
      ((s.pc j).claims k).count x + (s.allocated.map (· % 2 ^ k)).count x)
    (hdies : (p.dies k).count x = ((s.pc j).dies k).count x)
    (hruns : (p.runs k).count x = ((s.pc j).runs k).count x)
    (hdying : ∀ id w, p.dying = some (id, w) → id % 2 ^ k = x → (s.pc j).dying = some (id, w))
    (hr : (r.map (· % 2 ^ k)).count x = ((s.refs j).map (· % 2 ^ k)).count x)
    (hsub : ∀ id ∈ r, id % 2 ^ k = x → id ∈ s.refs j) : Same k s s' x where
  header := hheader
  gen := hgen
  life := hlife
  claims := by
    have ht := tally_update (Pc.claims k) s.pc j p x
    rw [St.claims, St.claims, hpc]
    omega
  dies := by
    rw [hpc]
    exact tally_of_count hdies
  runs := by
    rw [hpc]
    exact tally_of_count hruns
  outstanding := by
    rw [St.outstanding, hrefs]
    exact tally_of_count hr
  refs := fun i id hid hmod => by
    by_cases hij : i = j
    · subst hij
      rw [hrefs, update_self] at hid
      exact ⟨i, hsub id hid hmod⟩
    · rw [hrefs, update_of_ne hij] at hid
      exact ⟨i, hid⟩
  dying := fun i id w hi hmod => by
    by_cases hij : i = j
    · subst hij
      rw [hpc, update_self] at hi
      exact hdying id w hi hmod
    · rwa [hpc, update_of_ne hij] at hi

theorem ok_update {p : Pc} {r : List ℕ} (h : Inv k s) (hpc : s'.pc = update s.pc j p)
    (hrefs : s'.refs = update s.refs j r) (hok : p.Ok r) (i : ι) : (s'.pc i).Ok (s'.refs i) := by
  rw [hpc, hrefs]
  by_cases hij : i = j
  · subst hij
    rwa [update_self, update_self]
  · rw [update_of_ne hij, update_of_ne hij]
    exact h.ok i

/-- **A thread changes entry `e`.** What is to be shown is about `e` alone. -/
theorem Inv.change {p : Pc} {r : List ℕ} (h : Inv k s) (hold : (s.pc j).Only k e) (hnew : p.Only k e)
    (hpc : s'.pc = update s.pc j p) (hrefs : s'.refs = update s.refs j r)
    (hheader : ∀ x, x ≠ e → s'.header x = s.header x) (hgen : ∀ x, x ≠ e → s'.gen x = s.gen x)
    (hlife : ∀ x, x ≠ e → ∀ g, s'.life (x, g) = s.life (x, g)) (halloc : s'.allocated = s.allocated)
    (hr : ∀ x, x ≠ e → (r.map (· % 2 ^ k)).count x = ((s.refs j).map (· % 2 ^ k)).count x)
    (hsub : ∀ id ∈ r, id % 2 ^ k ≠ e → id ∈ s.refs j) (hok : p.Ok r) (he : Entry k s' e) : Inv k s' where
  entry := fun x => by
    by_cases hx : x = e
    · rwa [hx]
    · refine (h.entry x).same (same_of_count hpc hrefs (hheader x hx) (hgen x hx) (hlife x hx) ?_
        (count_of_only hnew.2.1 hold.2.1 hx) (count_of_only hnew.2.2.1 hold.2.2.1 hx) (fun id w hd hmod => ?_)
          (hr x hx)
        fun id hid hmod => hsub id hid (hmod.symm ▸ hx))
      · rw [halloc, count_of_only hnew.1 hold.1 hx]
      · exact absurd (hmod.symm.trans (hnew.2.2.2 id w hd)) hx
  ok := ok_update h hpc hrefs hok

omit [DecidableEq ι] in
/-- An entry that is not allocated in the step. -/
theorem Entry.change (h : Entry k s e) (hgen : s'.gen e = s.gen e)
    (hlife : ∀ g, g ≠ s.gen e → s'.life (e, g) = s.life (e, g))
    (hphase : Phase (s.gen e) (s'.header e) (s'.claims k e) (tally (Pc.dies k) s'.pc e)
      (tally (Pc.runs k) s'.pc e)
      (s'.outstanding k e) (s'.life (e, s.gen e)))
    (hrefs : ∀ j, ∀ id ∈ s'.refs j, id % 2 ^ k = e → getId (s'.header e) = id)
    (hdying : ∀ j id w, (s'.pc j).dying = some (id, w) → id % 2 ^ k = e → s'.header e = w) : Entry k s' e where
  phase := by rwa [hgen]
  closed := fun g h0 hg => by
    rw [hgen] at hg
    rw [hlife g hg.ne]
    exact h.closed g h0 hg
  later := fun g hg => by
    rw [hgen] at hg
    rw [hlife g hg.ne']
    exact h.later g hg
  refs := hrefs
  dying := hdying

omit [DecidableEq ι] in
/-- Nobody destroys an entry that no thread is about to destroy or destroys. -/
theorem not_dying {pc : ι → Pc} (hd : tally (Pc.dies k) pc e = 0) (hr : tally (Pc.runs k) pc e = 0) {i : ι}
    {id w : ℕ} (hi : (pc i).dying = some (id, w)) : id % 2 ^ k ≠ e := by
  rintro rfl
  have hd' := not_mem_of_tally_eq_zero hd i
  have hr' := not_mem_of_tally_eq_zero hr i
  generalize pc i = p at hi hd' hr'
  cases p <;> simp only [Pc.dying, reduceCtorEq, Option.some.injEq, Prod.mk.injEq] at hi
  · obtain ⟨rfl, -⟩ := hi
    exact hd' (List.mem_singleton_self _)
  · obtain ⟨rfl, -⟩ := hi
    exact hr' (List.mem_singleton_self _)

omit [DecidableEq ι] in
theorem not_ref {refs : ι → List ℕ} (hr : tally (List.map (· % 2 ^ k)) refs e = 0) {i : ι} {id : ℕ}
    (hi : id ∈ refs i) : id % 2 ^ k ≠ e := by
  rintro rfl
  exact not_mem_of_tally_eq_zero hr i (List.mem_map.2 ⟨id, hi, rfl⟩)

omit [Fintype ι] [DecidableEq ι] in
@[simp]
theorem inLife_self (f : Life → Life) : s.inLife e f (e, s.gen e) = f (s.life (e, s.gen e)) := update_self ..

omit [Fintype ι] [DecidableEq ι] in
theorem inLife_of_gen (f : Life → Life) {g : ℕ} (hg : g ≠ s.gen e) : s.inLife e f (e, g) = s.life (e, g) :=
  update_of_ne (by simpa using hg) ..

omit [Fintype ι] [DecidableEq ι] in
theorem inLife_of_ne (f : Life → Life) {x : ℕ} (hx : x ≠ e) (g : ℕ) : s.inLife e f (x, g) = s.life (x, g) :=
  update_of_ne (by simp [hx]) ..

/-! ### Steps -/

/-- A place at which a thread has to do with no entry. -/
def Pc.Plain (k : ℕ) (p : Pc) : Prop := p.claims k = [] ∧ p.dies k = [] ∧ p.runs k = [] ∧ p.dying = none

theorem Pc.Plain.only {p : Pc} (h : p.Plain k) (e : ℕ) : p.Only k e := by
  obtain ⟨hc, hd, hr, hn⟩ := h
  refine ⟨?_, ?_, ?_, ?_⟩
  · rw [hc]
    exact fun x hx => absurd hx List.not_mem_nil
  · rw [hd]
    exact fun x hx => absurd hx List.not_mem_nil
  · rw [hr]
    exact fun x hx => absurd hx List.not_mem_nil
  · rw [hn]
    exact fun id w hw => absurd hw (Option.some_ne_none _).symm

theorem idle_plain : Pc.idle.Plain k := ⟨rfl, rfl, rfl, rfl⟩

omit [Fintype ι] [DecidableEq ι] in
theorem plain_of_pc {p : Pc} (hpc : s.pc j = p) (hp : p.Plain k) : (s.pc j).Plain k := by rwa [hpc]

/-- **A thread moves on** and the entries stay as they are. -/
theorem Inv.move (h : Inv k s) {p : Pc} {allocated : List ℕ} {writeIndex : ℕ}
    (hclaims : ∀ x, (p.claims k).count x + (allocated.map (· % 2 ^ k)).count x =
      ((s.pc j).claims k).count x + (s.allocated.map (· % 2 ^ k)).count x)
    (hdies : p.dies k = (s.pc j).dies k) (hruns : p.runs k = (s.pc j).runs k) (hdying : p.dying = none)
    (hok : p.Ok (s.refs j)) : Inv k { s with pc := update s.pc j p, allocated, writeIndex } where
  entry := fun x => by
    have hrefs : s.refs = update s.refs j (s.refs j) := (update_eq_self j s.refs).symm
    refine (h.entry x).same
      (same_of_count rfl hrefs rfl rfl (fun _ => rfl) (hclaims x) ?_ ?_ ?_ rfl fun id hid _ => hid)
    · rw [hdies]
    · rw [hruns]
    · intro id w hw
      rw [hdying] at hw
      cases hw
  ok := ok_update h rfl (update_eq_self j s.refs).symm hok

theorem Inv.goto {p : Pc} (h : Inv k s) (hj : (s.pc j).Plain k) (hp : p.Plain k) (hok : p.Ok (s.refs j)) :
    Inv k (s.goto j p) := by
  refine h.move (fun x => ?_) (hp.2.1.trans hj.2.1.symm) (hp.2.2.1.trans hj.2.2.1.symm) hp.2.2.2 hok
  rw [hp.1, hj.1]

omit [DecidableEq ι] in
theorem Inv.claims_pos (he : e ∈ (s.pc j).claims k) : 0 < s.claims k e := by
  have hpos := lt_of_lt_of_le (List.count_pos_iff.2 he) (count_le_tally (Pc.claims k) s.pc j e)
  exact Nat.lt_of_lt_of_le hpos (Nat.le_add_right _ _)

omit [DecidableEq ι] in
theorem Inv.refs_pos {id : ℕ} (hid : id ∈ s.refs j) : 0 < s.outstanding k (id % 2 ^ k) := by
  have hle := count_le_tally (List.map (· % 2 ^ k)) s.refs j (id % 2 ^ k)
  have hc : 0 < ((s.refs j).map (· % 2 ^ k)).count (id % 2 ^ k) :=
    List.count_pos_iff.2 (List.mem_map.2 ⟨id, hid, rfl⟩)
  exact lt_of_lt_of_le hc hle

theorem fresh_mod (i : ℕ) : fresh i = held 0 (i % refcntInc) := by
  unfold fresh held
  rw [Nat.zero_mul, Nat.add_zero]

/-- The exchange of `prs_pool_alloc` succeeds. -/
theorem Inv.allocCas (h : Inv k s) {i stop header : ℕ} (hpc : s.pc j = .allocCas i stop header)
    (hcas : s.header (i % 2 ^ k) = header) :
    Inv k { s with
      header := update s.header (i % 2 ^ k) (fresh i)
      pc := update s.pc j (.allocIndex i)
      gen := update s.gen (i % 2 ^ k) (s.gen (i % 2 ^ k) + 1) } := by
  have hok := h.ok j
  rw [hpc] at hok
  have he := h.entry (i % 2 ^ k)
  have hphase := he.phase
  obtain ⟨hc, hd, hr, hn, hover⟩ := hphase.of_unallocated (by rw [hcas]; exact hok)
  have tc := tally_update (Pc.claims k) s.pc j (.allocIndex i) (i % 2 ^ k)
  have td : tally (Pc.dies k) (update s.pc j (.allocIndex i)) (i % 2 ^ k) = 0 :=
    (tally_congr (by rw [hpc]; rfl) _).trans hd
  have tr : tally (Pc.runs k) (update s.pc j (.allocIndex i)) (i % 2 ^ k) = 0 :=
    (tally_congr (by rw [hpc]; rfl) _).trans hr
  rw [hpc] at tc
  simp only [Pc.claims, List.count_nil, List.count_singleton_self] at tc
  have hold := plain_of_pc (k := k) hpc ⟨rfl, rfl, rfl, rfl⟩
  refine h.change (hold.only _) ?_ rfl (update_eq_self j s.refs).symm (fun x hx => update_of_ne hx _ _)
    (fun x hx => update_of_ne hx _ _) (fun _ _ _ => rfl) rfl (fun _ _ => rfl) (fun _ hid _ => hid) trivial ?_
  · refine ⟨fun x hx => List.mem_singleton.1 hx, fun x hx => ?_, fun x hx => ?_, fun id w hw => ?_⟩
    · cases hx
    · cases hx
    · cases hw
  · refine ⟨?_, fun g h0 hg => ?_, fun g hg => ?_, fun i' id hid hmod => ?_, fun i' id w hi hmod => ?_⟩
    · have hlater := he.later (s.gen (i % 2 ^ k) + 1) (Nat.lt_succ_self _)
      have hclaims : tally (Pc.claims k) (update s.pc j (.allocIndex i)) (i % 2 ^ k) +
          (s.allocated.map (· % 2 ^ k)).count (i % 2 ^ k) = 1 := by
        unfold St.claims at hc
        omega
      unfold St.outstanding at hn
      simp only [update_self, hlater, St.claims, St.outstanding, hclaims, td, tr, hn, fresh_mod]
      exact .fresh _ 1 (Nat.mod_lt _ (by decide)) le_rfl
    · simp only [update_self] at hg
      obtain hlt | rfl := Nat.lt_or_eq_of_le (Nat.le_of_lt_succ hg)
      · exact he.closed g h0 hlt
      · exact hover h0
    · simp only [update_self] at hg
      exact he.later g (by omega)
    · exact absurd hmod (not_ref hn hid)
    · exact absurd hmod (not_dying td tr hi)

theorem Inv.allocIndex (h : Inv k s) {i : ℕ} (hpc : s.pc j = .allocIndex i) :
    Inv k { s with writeIndex := succ i, pc := update s.pc j .idle, allocated := i :: s.allocated } := by
  refine h.move (fun x => ?_) (by rw [hpc]; rfl) (by rw [hpc]; rfl) rfl trivial
  rw [hpc, List.map_cons, count_cons_eq]
  simp only [Pc.claims, List.count_nil, Nat.zero_add]

/-- `prs_pool_lock_first` is called. -/
theorem Inv.callFirst (h : Inv k s) {id : ℕ} (hpc : s.pc j = .idle) (hid : id ∈ s.allocated) :
    Inv k { s with pc := update s.pc j (.firstLoad id), allocated := s.allocated.erase id } := by
  refine h.move (fun x => ?_) (by rw [hpc]; rfl) (by rw [hpc]; rfl) rfl trivial
  have hp := ((List.perm_cons_erase hid).map (· % 2 ^ k)).count_eq x
  rw [hpc, hp, List.map_cons, count_cons_eq]
  simp only [Pc.claims, List.count_nil, Nat.zero_add]

/-- A place at which a thread may lock the entry of an id firsthand. -/
def Pc.Claims (k id : ℕ) (p : Pc) : Prop := p.claims k = [id % 2 ^ k] ∧ p.dies k = [] ∧ p.runs k = [] ∧
    p.dying = none

theorem Pc.Claims.only {id : ℕ} {p : Pc} (h : p.Claims k id) : p.Only k (id % 2 ^ k) := by
  obtain ⟨hc, hd, hr, hn⟩ := h
  refine ⟨?_, ?_, ?_, ?_⟩
  · rw [hc]
    exact fun x hx => List.mem_singleton.1 hx
  · rw [hd]
    exact fun x hx => absurd hx List.not_mem_nil
  · rw [hr]
    exact fun x hx => absurd hx List.not_mem_nil
  · rw [hn]
    exact fun id w hw => absurd hw (Option.some_ne_none _).symm

omit [DecidableEq ι] in
/-- What is known of an entry that a thread may lock firsthand. -/
theorem Inv.claimed (h : Inv k s) {id : ℕ} (hj : (s.pc j).Claims k id) :
    s.header (id % 2 ^ k) = held 0 (getId (s.header (id % 2 ^ k))) ∧ getId (s.header (id % 2 ^ k)) < refcntInc ∧
      s.claims k (id % 2 ^ k) = 1 ∧ tally (Pc.dies k) s.pc (id % 2 ^ k) = 0 ∧
      tally (Pc.runs k) s.pc (id % 2 ^ k) = 0 ∧
      s.outstanding k (id % 2 ^ k) = 0 ∧ s.life (id % 2 ^ k, s.gen (id % 2 ^ k)) = .new := by
  have hmem : id % 2 ^ k ∈ (s.pc j).claims k := by
    rw [hj.1]
    exact List.mem_singleton_self _
  exact (h.entry (id % 2 ^ k)).phase.of_claims (claims_pos hmem)

/-- The counts when a thread is done with the entry that it could lock firsthand. -/
theorem Inv.unclaim (h : Inv k s) {id : ℕ} (hj : (s.pc j).Claims k id) :
    tally (Pc.claims k) (update s.pc j .idle) (id % 2 ^ k) +
        (s.allocated.map (· % 2 ^ k)).count (id % 2 ^ k) = 0 ∧
      tally (Pc.dies k) (update s.pc j .idle) (id % 2 ^ k) = 0 ∧
      tally (Pc.runs k) (update s.pc j .idle) (id % 2 ^ k) = 0 := by
  obtain ⟨-, -, hc, hd, hr, -⟩ := h.claimed hj
  have tc := tally_update (Pc.claims k) s.pc j .idle (id % 2 ^ k)
  rw [hj.1] at tc
  simp only [Pc.claims, List.count_nil, List.count_singleton_self] at tc
  unfold St.claims at hc
  refine ⟨by omega, (tally_congr ?_ _).trans hd, (tally_congr ?_ _).trans hr⟩
  · rw [hj.2.1]
    rfl
  · rw [hj.2.2.1]
    rfl

/-- `prs_pool_lock_first` returns without a lock. -/
theorem Inv.dropFirst (h : Inv k s) {id : ℕ} (hj : (s.pc j).Claims k id) : Inv k (s.goto j .idle) := by
  obtain ⟨hh, hi, -, -, -, hn, hl⟩ := h.claimed hj
  obtain ⟨hc, hd, hr⟩ := h.unclaim hj
  refine h.change hj.only (idle_plain.only _) rfl (update_eq_self j s.refs).symm (fun _ _ => rfl) (fun _ _ => rfl)
    (fun _ _ _ => rfl) rfl (fun _ _ => rfl) (fun _ hid _ => hid) trivial ?_
  refine (h.entry _).change rfl (fun _ _ => rfl) ?_ (h.entry _).refs fun i id' w hi' hmod => ?_
  · unfold St.outstanding at hn
    simp only [St.goto, St.claims, St.outstanding, hc, hd, hr, hn, hl]
    rw [hh]
    exact .fresh _ 0 hi (Nat.zero_le _)
  · exact absurd hmod (not_dying hd hr hi')

/-- The load of `prs_pool_lock_first`. -/
theorem Inv.firstLoad (h : Inv k s) {id : ℕ} (hpc : s.pc j = .firstLoad id) :
    Inv k (s.goto j (.checkFirst id (s.header (id % 2 ^ k)))) := by
  unfold Pc.checkFirst
  split
  case isTrue hc =>
    refine h.move (fun x => ?_) (by rw [hpc]; rfl) (by rw [hpc]; rfl) rfl hc.1
    rw [hpc]
    rfl
  case isFalse =>
    have hj : (s.pc j).Claims k id := by
      rw [hpc]
      exact ⟨rfl, rfl, rfl, rfl⟩
    exact h.dropFirst hj

/-- The exchange of `prs_pool_lock_first` succeeds. -/
theorem Inv.firstCas (h : Inv k s) {id header : ℕ} (hpc : s.pc j = .firstCas id header)
    (hcas : s.header (id % 2 ^ k) = header) :
    Inv k { s with
      header := update s.header (id % 2 ^ k) (first header)
      pc := update s.pc j .idle
      refs := update s.refs j (id :: s.refs j)
      life := s.inLife (id % 2 ^ k) .lockFirst } := by
  have hid : getId header = id := by
    have hok := h.ok j
    rwa [hpc] at hok
  have hj : (s.pc j).Claims k id := by
    rw [hpc]
    exact ⟨rfl, rfl, rfl, rfl⟩
  obtain ⟨hh, hi, -, -, -, hn, hl⟩ := h.claimed hj
  obtain ⟨hc, hd, hr⟩ := h.unclaim hj
  rw [hcas, hid] at hh hi
  have hnew : first header = held 1 id := by rw [hh, first_held]
  have tn := tally_update (List.map (· % 2 ^ k)) s.refs j (id :: s.refs j) (id % 2 ^ k)
  rw [List.map_cons, List.count_cons_self] at tn
  refine h.change (e := id % 2 ^ k) hj.only (idle_plain.only _) rfl rfl (fun x hx => update_of_ne hx _ _)
    (fun _ _ => rfl) (fun x hx g => inLife_of_ne _ hx g) rfl (fun x hx => count_map_cons_of_ne hx.symm)
    (fun id' hm hmod => ?_) trivial ?_
  · obtain rfl | hm := List.mem_cons.1 hm
    · exact absurd rfl hmod
    · exact hm
  · refine (h.entry _).change rfl (fun g hg => inLife_of_gen _ hg) ?_ (fun i id' hm hmod => ?_)
      fun i id' w hi' hmod => ?_
    · unfold St.outstanding at hn
      have hone : tally (List.map (· % 2 ^ k)) (update s.refs j (id :: s.refs j)) (id % 2 ^ k) = 1 := by omega
      simp only [St.claims, St.outstanding, hc, hd, hr, hone, inLife_self, hl, update_self, hnew]
      exact .live id 1 hi Nat.one_pos (by decide)
    · simp only [update_self, hnew, getId_held hi]
      obtain rfl | hm := mem_update_cons hm
      · rfl
      · exact absurd hmod (not_ref hn hm)
    · exact absurd hmod (not_dying hd hr hi')

/-- The exchange of `prs_pool_lock` succeeds. -/
theorem Inv.lockCas (h : Inv k s) {id header : ℕ} (hpc : s.pc j = .lockCas id header)
    (hcas : s.header (id % 2 ^ k) = header) :
    Inv k { s with
      header := update s.header (id % 2 ^ k) (incr header)
      pc := update s.pc j .idle
      refs := update s.refs j (id :: s.refs j) } := by
  have hok := h.ok j
  rw [hpc] at hok
  obtain ⟨hid, ha, h0, hmax⟩ := hok
  have hphase := (h.entry (id % 2 ^ k)).phase
  obtain ⟨hh, hi, hle⟩ := hphase.of_allocated (by rw [hcas]; exact ha)
  rw [hcas, hid] at hh hi
  rw [hh, getRefcnt_held hi hle] at h0 hmax
  -- the entry is live
  obtain ⟨-, -, -, hc, hd, hr, hl⟩ := hphase.of_refs (Nat.pos_of_ne_zero h0)
  have hlt : s.outstanding k (id % 2 ^ k) < refcntMax := lt_of_le_of_ne hle hmax
  have hnew : incr header = held (s.outstanding k (id % 2 ^ k) + 1) id := by
    rw [hh]
    exact incr_held hi hlt
  have hj := plain_of_pc (k := k) hpc ⟨rfl, rfl, rfl, rfl⟩
  have tn := tally_update (List.map (· % 2 ^ k)) s.refs j (id :: s.refs j) (id % 2 ^ k)
  rw [List.map_cons, List.count_cons_self] at tn
  have hd' : tally (Pc.dies k) (update s.pc j .idle) (id % 2 ^ k) = 0 := (tally_congr hj.2.1.symm _).trans hd
  have hr' : tally (Pc.runs k) (update s.pc j .idle) (id % 2 ^ k) = 0 := (tally_congr hj.2.2.1.symm _).trans hr
  refine h.change (e := id % 2 ^ k) (hj.only _) (idle_plain.only _) rfl rfl (fun x hx => update_of_ne hx _ _)
    (fun _ _ => rfl) (fun _ _ _ => rfl) rfl (fun x hx => count_map_cons_of_ne hx.symm)
      (fun id' hm hmod => ?_) trivial ?_
  · obtain rfl | hm := List.mem_cons.1 hm
    · exact absurd rfl hmod
    · exact hm
  · refine (h.entry _).change rfl (fun g hg => rfl) ?_ (fun i id' hm hmod => ?_) fun i id' w hi' hmod => ?_
    · unfold St.claims at hc
      unfold St.outstanding at hnew hlt
      have hsucc : tally (List.map (· % 2 ^ k)) (update s.refs j (id :: s.refs j)) (id % 2 ^ k) =
        tally (List.map (· % 2 ^ k)) s.refs (id % 2 ^ k) + 1 := by omega
      have hc' : tally (Pc.claims k) (update s.pc j .idle) (id % 2 ^ k) +
          (s.allocated.map (· % 2 ^ k)).count (id % 2 ^ k) = 0 := by
        rw [tally_congr (by rw [hj.1]; rfl)]
        exact hc
      simp only [St.claims, St.outstanding, hc', hd', hr', hl, hsucc, update_self, hnew]
      exact .live id _ hi (Nat.succ_pos _) hlt
    · simp only [update_self, hnew, getId_held hi]
      obtain rfl | hm := mem_update_cons hm
      · rfl
      · rw [← hid, ← hcas]
        exact (h.entry _).refs i id' hm hmod
    · exact absurd hmod (not_dying hd' hr' hi')

omit [DecidableEq ι] in
/-- What is known of an entry to which a thread has a reference. -/
theorem Inv.live (h : Inv k s) {id : ℕ} (hm : id ∈ s.refs j) :
    s.header (id % 2 ^ k) = held (s.outstanding k (id % 2 ^ k)) id ∧ id < refcntInc ∧
      s.outstanding k (id % 2 ^ k) ≤ refcntMax ∧ s.claims k (id % 2 ^ k) = 0 ∧
      tally (Pc.dies k) s.pc (id % 2 ^ k) = 0 ∧ tally (Pc.runs k) s.pc (id % 2 ^ k) = 0 ∧
      s.life (id % 2 ^ k, s.gen (id % 2 ^ k)) = Life.new.lockFirst := by
  have hid := (h.entry (id % 2 ^ k)).refs j id hm rfl
  have hphase := (h.entry (id % 2 ^ k)).phase.of_refs (refs_pos hm)
  rwa [hid] at hphase

/-- **A reference is released.** The entry keeps its id; what is to be shown is its phase. -/
theorem Inv.releaseRef (h : Inv k s) {id w : ℕ} {p : Pc} {life : ℕ × ℕ → Life} (hm : id ∈ s.refs j)
    (hj : (s.pc j).Plain k) (hp : p.Only k (id % 2 ^ k)) (hok : p.Ok ((s.refs j).erase id)) (hw : getId w = id)
    (hgen : ∀ g, g ≠ s.gen (id % 2 ^ k) → life (id % 2 ^ k, g) = s.life (id % 2 ^ k, g))
    (hne : ∀ x, x ≠ id % 2 ^ k → ∀ g, life (x, g) = s.life (x, g))
    (hdying : ∀ id' w', p.dying = some (id', w') → w = w')
    (hphase : Phase (s.gen (id % 2 ^ k)) w ((p.claims k).count (id % 2 ^ k)) ((p.dies k).count (id % 2 ^ k))
      ((p.runs k).count (id % 2 ^ k)) (s.outstanding k (id % 2 ^ k) - 1)
      (life (id % 2 ^ k, s.gen (id % 2 ^ k)))) :
    Inv k { s with
      header := update s.header (id % 2 ^ k) w
      pc := update s.pc j p
      refs := update s.refs j ((s.refs j).erase id)
      life } := by
  obtain ⟨-, -, -, hc, hd, hr, -⟩ := h.live hm
  have tc := tally_update (Pc.claims k) s.pc j p (id % 2 ^ k)
  have td := tally_update (Pc.dies k) s.pc j p (id % 2 ^ k)
  have tr := tally_update (Pc.runs k) s.pc j p (id % 2 ^ k)
  have tn := tally_update (List.map (· % 2 ^ k)) s.refs j ((s.refs j).erase id) (id % 2 ^ k)
  have herase := count_map_erase (k := k) hm rfl
  rw [hj.1, List.count_nil] at tc
  rw [hj.2.1, List.count_nil] at td
  rw [hj.2.2.1, List.count_nil] at tr
  refine h.change (e := id % 2 ^ k) (hj.only _) hp rfl rfl (fun x hx => update_of_ne hx _ _)
    (fun _ _ => rfl) hne rfl
    (fun x hx => count_map_erase_of_ne hx.symm) (fun id' hm' _ => List.mem_of_mem_erase hm') hok ?_
  refine (h.entry _).change rfl hgen ?_ (fun i id' hm' hmod => ?_) fun i id' w' hi hmod => ?_
  · unfold St.claims at hc
    have hc' : tally (Pc.claims k) (update s.pc j p) (id % 2 ^ k) +
      (s.allocated.map (· % 2 ^ k)).count (id % 2 ^ k) = (p.claims k).count (id % 2 ^ k) := by omega
    have hd' : tally (Pc.dies k) (update s.pc j p) (id % 2 ^ k) = (p.dies k).count (id % 2 ^ k) := by omega
    have hr' : tally (Pc.runs k) (update s.pc j p) (id % 2 ^ k) = (p.runs k).count (id % 2 ^ k) := by omega
    have hn' : tally (List.map (· % 2 ^ k)) (update s.refs j ((s.refs j).erase id)) (id % 2 ^ k) =
        s.outstanding k (id % 2 ^ k) - 1 := by
      unfold St.outstanding
      omega
    simp only [St.claims, hc', hd', hr', update_self]
    rw [St.outstanding, hn']
    exact hphase
  · simp only [update_self, hw]
    have hold := (h.entry _).refs i id' (mem_update_erase hm') hmod
    have hown := (h.entry _).refs j id hm rfl
    rw [← hold, hown]
  · by_cases hij : i = j
    · subst hij
      simp only [update_self] at hi ⊢
      exact hdying id' w' hi
    · simp only [update_of_ne hij] at hi
      exact absurd hmod (not_dying hd hr hi)

theorem destructor_only (id w : ℕ) : (Pc.destructor id w).Only k (id % 2 ^ k) := by
  refine ⟨fun x hx => ?_, fun x hx => List.mem_singleton.1 hx, fun x hx => ?_, fun id' w' hw => ?_⟩
  · cases hx
  · cases hx
  · cases hw
    rfl

theorem destCas_only (id w : ℕ) : (Pc.destCas id w).Only k (id % 2 ^ k) := by
  refine ⟨fun x hx => ?_, fun x hx => ?_, fun x hx => List.mem_singleton.1 hx, fun id' w' hw => ?_⟩
  · cases hx
  · cases hx
  · cases hw
    rfl

/-- The exchange of a release succeeds. -/
theorem Inv.release (h : Inv k s) {id header : ℕ} {final dest : Bool}
    (hpc : s.pc j = .unlockCas id final dest header) (hcas : s.header (id % 2 ^ k) = header) :
    Inv k (s.release k j id dest header) := by
  have hm : id ∈ s.refs j := by
    have hok := h.ok j
    rwa [hpc] at hok
  have hj := plain_of_pc (k := k) hpc ⟨rfl, rfl, rfl, rfl⟩
  have hpos := refs_pos (k := k) hm
  obtain ⟨hh, hi, hle, -, -, -, hl⟩ := h.live hm
  rw [hcas] at hh
  obtain ⟨n, hn⟩ := Nat.exists_eq_succ_of_ne_zero hpos.ne'
  rw [hn] at hh hle
  have hdecr : decr header = held n id := by
    rw [hh]
    exact decr_held hi hle
  have hcount : getRefcnt header = n + 1 := by
    rw [hh]
    exact getRefcnt_held hi hle
  unfold St.release
  dsimp only
  split
  case isTrue hne =>
    -- others have references
    refine h.releaseRef hm hj (idle_plain.only _) trivial (by rw [hdecr, getId_held hi]) (fun _ _ => rfl)
      (fun _ _ _ => rfl) (fun _ _ hw => by cases hw) ?_
    rw [hdecr, hn, hl]
    exact .live id n hi (by omega) (by omega)
  case isFalse hone =>
    have hn0 : n = 0 := by omega
    subst hn0
    split
    case isTrue =>
      refine h.releaseRef hm hj (destructor_only _ _) trivial (by rw [hdecr, getId_held hi]) (fun _ _ => rfl)
        (fun _ _ _ => rfl) (fun _ _ hw => by cases hw; rfl) ?_
      rw [hdecr, hn, hl]
      simp only [Pc.claims, Pc.dies, Pc.runs, List.count_nil, List.count_singleton_self]
      exact .dying id hi
    case isFalse =>
      have hclear : clearAlloc (decr header) = id := by rw [hdecr, clearAlloc_held hi]
      refine h.releaseRef hm hj (idle_plain.only _) trivial (by rw [hclear, getId_free hi])
        (fun g hg => inLife_of_gen _ hg) (fun x hx g => inLife_of_ne _ hx g) (fun _ _ hw => by cases hw) ?_
      rw [hclear, hn, inLife_self, hl]
      exact .free id _ hi fun _ => ⟨rfl, rfl, Nat.zero_le _, rfl⟩

/-- A destructor is started. -/
theorem Inv.destructor (h : Inv k s) {id header : ℕ} (hpc : s.pc j = .destructor id header) :
    Inv k { s with pc := update s.pc j (.destCas id header), life := s.inLife (id % 2 ^ k) .start } := by
  have hmem : id % 2 ^ k ∈ (s.pc j).dies k := by
    rw [hpc]
    exact List.mem_singleton_self _
  have hpos := lt_of_lt_of_le (List.count_pos_iff.2 hmem) (count_le_tally (Pc.dies k) s.pc j _)
  obtain ⟨hh, hi, hc, hd, hr, hn, hl⟩ := (h.entry _).phase.of_dies hpos
  have tc := tally_update (Pc.claims k) s.pc j (.destCas id header) (id % 2 ^ k)
  have td := tally_update (Pc.dies k) s.pc j (.destCas id header) (id % 2 ^ k)
  have tr := tally_update (Pc.runs k) s.pc j (.destCas id header) (id % 2 ^ k)
  rw [hpc] at tc td tr
  simp only [Pc.claims, Pc.dies, Pc.runs, List.count_nil, List.count_singleton_self] at tc td tr
  refine h.change (e := id % 2 ^ k) (by rw [hpc]; exact destructor_only _ _) (destCas_only _ _) rfl
    (update_eq_self j s.refs).symm (fun _ _ => rfl) (fun _ _ => rfl) (fun x hx g => inLife_of_ne _ hx g) rfl
    (fun _ _ => rfl) (fun _ hid _ => hid) trivial ?_
  refine (h.entry _).change rfl (fun g hg => inLife_of_gen _ hg) ?_ (h.entry _).refs fun i id' w' hi' hmod => ?_
  · unfold St.claims at hc
    have hc' : tally (Pc.claims k) (update s.pc j (.destCas id header)) (id % 2 ^ k) +
      (s.allocated.map (· % 2 ^ k)).count (id % 2 ^ k) = 0 := by omega
    have hd' : tally (Pc.dies k) (update s.pc j (.destCas id header)) (id % 2 ^ k) = 0 := by omega
    have hr' : tally (Pc.runs k) (update s.pc j (.destCas id header)) (id % 2 ^ k) = 1 := by omega
    unfold St.outstanding at hn
    simp only [St.claims, St.outstanding, hc', hd', hr', hn, inLife_self, hl]
    rw [hh]
    exact .destroyed _ hi
  · by_cases hij : i = j
    · subst hij
      simp only [update_self] at hi'
      exact (h.entry _).dying i id' w' (by rw [hpc]; exact hi') hmod
    · simp only [update_of_ne hij] at hi'
      exact (h.entry _).dying i id' w' hi' hmod

omit [DecidableEq ι] in
/-- What is known of an entry that a thread destroys. -/
theorem Inv.destroyed (h : Inv k s) {id header : ℕ} (hpc : s.pc j = .destCas id header) :
    s.header (id % 2 ^ k) = header ∧ header = held 0 (getId header) ∧ getId header < refcntInc ∧
      s.claims k (id % 2 ^ k) = 0 ∧ tally (Pc.dies k) s.pc (id % 2 ^ k) = 0 ∧
      tally (Pc.runs k) s.pc (id % 2 ^ k) = 1 ∧
      s.outstanding k (id % 2 ^ k) = 0 ∧ s.life (id % 2 ^ k, s.gen (id % 2 ^ k)) = Life.new.lockFirst.start := by
  have hmem : id % 2 ^ k ∈ (s.pc j).runs k := by
    rw [hpc]
    exact List.mem_singleton_self _
  have hpos := lt_of_lt_of_le (List.count_pos_iff.2 hmem) (count_le_tally (Pc.runs k) s.pc j _)
  have hheader := (h.entry _).dying j id header (by rw [hpc]; rfl) rfl
  have hphase := (h.entry _).phase.of_runs hpos
  rw [hheader] at hphase
  exact ⟨hheader, hphase⟩

/-- **The exchange behind a destructor.** It ends the lifetime. -/
theorem Inv.destCas (h : Inv k s) {id header : ℕ} (hpc : s.pc j = .destCas id header) :
    Inv k { s with
      header := update s.header (id % 2 ^ k) (getId header)
      pc := update s.pc j .idle
      life := s.inLife (id % 2 ^ k) (·.returnTrue true) } := by
  obtain ⟨-, -, hi, hc, hd, hr, hn, hl⟩ := h.destroyed hpc
  have tc := tally_update (Pc.claims k) s.pc j .idle (id % 2 ^ k)
  have td := tally_update (Pc.dies k) s.pc j .idle (id % 2 ^ k)
  have tr := tally_update (Pc.runs k) s.pc j .idle (id % 2 ^ k)
  rw [hpc] at tc td tr
  simp only [Pc.claims, Pc.dies, Pc.runs, List.count_nil, List.count_singleton_self] at tc td tr
  have hd' : tally (Pc.dies k) (update s.pc j .idle) (id % 2 ^ k) = 0 := by omega
  have hr' : tally (Pc.runs k) (update s.pc j .idle) (id % 2 ^ k) = 0 := by omega
  refine h.change (e := id % 2 ^ k) (by rw [hpc]; exact destCas_only _ _) (idle_plain.only _) rfl
    (update_eq_self j s.refs).symm (fun x hx => update_of_ne hx _ _) (fun _ _ => rfl)
    (fun x hx g => inLife_of_ne (·.returnTrue true) hx g) rfl (fun _ _ => rfl) (fun _ hid _ => hid) trivial ?_
  refine (h.entry _).change rfl (fun g hg => inLife_of_gen (·.returnTrue true) hg) ?_ (fun i id' hm hmod => ?_)
    fun i id' w' hi' hmod => ?_
  · unfold St.claims at hc
    have hc' : tally (Pc.claims k) (update s.pc j .idle) (id % 2 ^ k) +
      (s.allocated.map (· % 2 ^ k)).count (id % 2 ^ k) = 0 := by omega
    unfold St.outstanding at hn
    simp only [St.claims, St.outstanding, hc', hd', hr', hn, inLife_self, hl, update_self]
    exact .free _ _ hi fun _ => ⟨rfl, rfl, le_rfl, rfl⟩
  · exact absurd hmod (not_ref hn hm)
  · exact absurd hmod (not_dying hd' hr' hi')

theorem Pc.Ok.mono {p : Pc} {r r' : List ℕ} (h : p.Ok r) (hsub : ∀ id ∈ r, id ∈ r') : p.Ok r' := by
  cases p with
  | unlockLoad id final dest => exact hsub id h
  | unlockCas id final dest w => exact hsub id h
  | _ => exact h

theorem ok_outside {p : Pc} (h : p.outside = true) (r : List ℕ) : p.Ok r := by
  cases p <;> trivial

/-- A reference is handed over. -/
theorem Inv.give (h : Inv k s) {i : ι} {id : ℕ} (hj : (s.pc j).outside = true) (hm : id ∈ s.refs j) :
    Inv k { s with
      refs := update (update s.refs j ((s.refs j).erase id)) i
        (id :: update s.refs j ((s.refs j).erase id) i) } where
  entry := fun e => by
    refine (h.entry e).same ⟨rfl, rfl, fun _ => rfl, rfl, rfl, rfl, ?_, fun i' id' hm' _ => ?_,
      fun _ _ _ hd _ => hd⟩
    · have t1 := tally_update (List.map (· % 2 ^ k)) s.refs j ((s.refs j).erase id) e
      have t2 := tally_update (List.map (· % 2 ^ k)) (update s.refs j ((s.refs j).erase id)) i
        (id :: update s.refs j ((s.refs j).erase id) i) e
      rw [List.map_cons, count_cons_eq] at t2
      have hp := ((List.perm_cons_erase hm).map (· % 2 ^ k)).count_eq e
      rw [List.map_cons, count_cons_eq] at hp
      have hsum : tally (List.map (· % 2 ^ k)) (update (update s.refs j ((s.refs j).erase id)) i
          (id :: update s.refs j ((s.refs j).erase id) i)) e = s.outstanding k e := by
        unfold St.outstanding
        omega
      exact hsum
    · obtain rfl | hm' := mem_update_cons hm'
      · exact ⟨j, hm⟩
      · exact ⟨i', mem_update_erase hm'⟩
  ok := fun i' => by
    by_cases hij : i' = j
    · subst hij
      exact ok_outside hj _
    · refine (h.ok i').mono fun id' hid' => ?_
      have hkeep : id' ∈ update s.refs j ((s.refs j).erase id) i' := by rwa [update_of_ne hij]
      by_cases hi : i' = i
      · subst hi
        simp only [update_self]
        exact List.mem_cons_of_mem _ hkeep
      · simp only [update_of_ne hi]
        exact hkeep

/-! ### Runs -/

theorem probe_plain (i stop : ℕ) : (Pc.probe i stop).Plain k := by
  unfold Pc.probe
  split <;> exact ⟨rfl, rfl, rfl, rfl⟩

theorem probe_ok (i stop : ℕ) (refs : List ℕ) : (Pc.probe i stop).Ok refs := by
  unfold Pc.probe
  split <;> trivial

theorem checkLock_plain (id header : ℕ) : (Pc.checkLock id header).Plain k := by
  unfold Pc.checkLock
  split <;> exact ⟨rfl, rfl, rfl, rfl⟩

theorem checkLock_ok (id header : ℕ) (refs : List ℕ) : (Pc.checkLock id header).Ok refs := by
  unfold Pc.checkLock
  split
  case isTrue hc => exact hc
  case isFalse => trivial

theorem checkUnlock_plain (id : ℕ) (final dest : Bool) (header : ℕ) :
    (Pc.checkUnlock id final dest header).Plain k := by
  unfold Pc.checkUnlock
  split <;> exact ⟨rfl, rfl, rfl, rfl⟩

theorem checkUnlock_ok {id : ℕ} {refs : List ℕ} (hm : id ∈ refs) (final dest : Bool) (header : ℕ) :
    (Pc.checkUnlock id final dest header).Ok refs := by
  unfold Pc.checkUnlock
  split
  · exact hm
  · trivial

theorem Inv.stepThread (h : Inv k s) {spurious : Bool} (hs : s.stepThread k j spurious = some s') : Inv k s' := by
  have hok := h.ok j
  unfold St.stepThread at hs
  split at hs <;> rename_i hpc <;> rw [hpc] at hok
  case h_1 => cases hs
  case h_2 =>
    rw [← Option.some.inj hs]
    exact h.goto (plain_of_pc hpc ⟨rfl, rfl, rfl, rfl⟩) (probe_plain _ _) (probe_ok _ _ _)
  case h_3 i stop =>
    have hplain := plain_of_pc (k := k) hpc ⟨rfl, rfl, rfl, rfl⟩
    dsimp only at hs
    split at hs
    · rw [← Option.some.inj hs]
      exact h.goto hplain (probe_plain _ _) (probe_ok _ _ _)
    · split at hs
      · rw [← Option.some.inj hs]
        exact h.goto hplain (probe_plain _ _) (probe_ok _ _ _)
      · rename_i hfree _
        rw [← Option.some.inj hs]
        exact h.goto hplain ⟨rfl, rfl, rfl, rfl⟩ (Bool.eq_false_of_not_eq_true hfree)
  case h_4 i stop header =>
    split at hs
    case isTrue hcas =>
      rw [← Option.some.inj hs]
      exact h.allocCas hpc hcas
    case isFalse =>
      rw [← Option.some.inj hs]
      exact h.goto (plain_of_pc hpc ⟨rfl, rfl, rfl, rfl⟩) (probe_plain _ _) (probe_ok _ _ _)
  case h_5 i =>
    rw [← Option.some.inj hs]
    exact h.allocIndex hpc
  case h_6 id =>
    rw [← Option.some.inj hs]
    exact h.firstLoad hpc
  case h_7 id header =>
    split at hs
    case isTrue hcas =>
      rw [← Option.some.inj hs]
      exact h.firstCas hpc hcas
    case isFalse =>
      rw [← Option.some.inj hs]
      have hj : (s.pc j).Claims k id := by
        rw [hpc]
        exact ⟨rfl, rfl, rfl, rfl⟩
      exact h.dropFirst hj
  case h_8 id =>
    rw [← Option.some.inj hs]
    exact h.goto (plain_of_pc hpc ⟨rfl, rfl, rfl, rfl⟩) (checkLock_plain _ _) (checkLock_ok _ _ _)
  case h_9 id header =>
    split at hs
    case isTrue hcas =>
      rw [← Option.some.inj hs]
      exact h.lockCas hpc hcas.1
    case isFalse =>
      rw [← Option.some.inj hs]
      exact h.goto (plain_of_pc hpc ⟨rfl, rfl, rfl, rfl⟩) (checkLock_plain _ _) (checkLock_ok _ _ _)
  case h_10 id final dest =>
    rw [← Option.some.inj hs]
    exact h.goto (plain_of_pc hpc ⟨rfl, rfl, rfl, rfl⟩) (checkUnlock_plain _ _ _ _) (checkUnlock_ok hok _ _ _)
  case h_11 id final dest header =>
    split at hs
    case isTrue hcas =>
      rw [← Option.some.inj hs]
      exact h.release hpc hcas.1
    case isFalse =>
      rw [← Option.some.inj hs]
      exact h.goto (plain_of_pc hpc ⟨rfl, rfl, rfl, rfl⟩) (checkUnlock_plain _ _ _ _) (checkUnlock_ok hok _ _ _)
  case h_12 id header =>
    rw [← Option.some.inj hs]
    exact h.destructor hpc
  case h_13 id header =>
    rw [if_pos (h.destroyed hpc).1] at hs
    rw [← Option.some.inj hs]
    exact h.destCas hpc

theorem Inv.step (h : Inv k s) {a : Act ι} (hs : s.step k a = some s') : Inv k s' := by
  cases a with
  | alloc j =>
    obtain ⟨hpc, rfl⟩ := Option.ite_none_right_eq_some.1 hs |>.imp_right Option.some.inj
    exact h.goto (plain_of_pc hpc idle_plain) ⟨rfl, rfl, rfl, rfl⟩ trivial
  | lockFirst j id =>
    obtain ⟨⟨hpc, hid⟩, rfl⟩ := Option.ite_none_right_eq_some.1 hs |>.imp_right Option.some.inj
    exact h.callFirst hpc hid
  | lock j id =>
    obtain ⟨⟨hpc, -⟩, rfl⟩ := Option.ite_none_right_eq_some.1 hs |>.imp_right Option.some.inj
    exact h.goto (plain_of_pc hpc idle_plain) ⟨rfl, rfl, rfl, rfl⟩ trivial
  | unlock j id final dest =>
    obtain ⟨⟨hpc, hm⟩, rfl⟩ := Option.ite_none_right_eq_some.1 hs |>.imp_right Option.some.inj
    exact h.goto (plain_of_pc hpc idle_plain) ⟨rfl, rfl, rfl, rfl⟩ hm
  | give j i id =>
    obtain ⟨⟨hpc, hm⟩, rfl⟩ := Option.ite_none_right_eq_some.1 hs |>.imp_right Option.some.inj
    exact h.give hpc hm
  | step j spurious => exact h.stepThread hs

theorem inv_reachable (h : (sys k ι).Reachable s) : Inv k s := by
  refine System.Reachable.inv ?_ (fun s a s' hI hs => hI.step hs) h
  rintro s rfl
  exact inv_init

end Prs.PoolSteps
