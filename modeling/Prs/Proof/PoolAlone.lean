import Mathlib.Logic.Relation
import Prs.Model.PoolSteps

/-!
# A call that no other thread disturbs

A thread that goes through a call of the pool while the others stand still does to the words what the call does in
`Prs.Model.PoolWords`: `lockFirst_alone`, `lock_alone`, `unlock_alone` and `alloc_alone`.
-/

namespace Prs.PoolSteps

open Function PoolWords

variable {ι : Type} [DecidableEq ι] {k id : ℕ} {s s' : St ι} {j : ι}

omit [DecidableEq ι] in
/-- The words. -/
def St.pool (s : St ι) : Pool := ⟨s.header, s.writeIndex⟩

omit [DecidableEq ι] in
theorem pool_header (s : St ι) : s.pool.header = s.header := rfl

/-- Thread `j` goes on alone, and none of its weak exchanges fails without a reason. -/
def Alone (k : ℕ) (j : ι) : St ι → St ι → Prop :=
  Relation.ReflTransGen fun s s' => s.stepThread k j false = some s'

theorem Alone.refl (s : St ι) : Alone k j s s := Relation.ReflTransGen.refl

theorem Alone.step {s₁ : St ι} (hs : s.stepThread k j false = some s₁) (h : Alone k j s₁ s') : Alone k j s s' :=
  Relation.ReflTransGen.head hs h

@[simp]
theorem goto_pc (s : St ι) (j : ι) (p : Pc) : (s.goto j p).pc j = p := update_self ..

@[simp]
theorem goto_goto (s : St ι) (j : ι) (p q : Pc) : (s.goto j p).goto j q = s.goto j q := by
  unfold St.goto
  simp only [update_idem]

/-! ## Locks and releases -/

section Checks

variable {p : Pool}

theorem lockFirst_eq (k id : ℕ) (p : Pool) :
    p.lockFirst k id =
      if getId (p.header (id % 2 ^ k)) = id ∧ testAlloc (p.header (id % 2 ^ k)) = true ∧
          getRefcnt (p.header (id % 2 ^ k)) = 0 then
        { p with header := update p.header (id % 2 ^ k) (first (p.header (id % 2 ^ k))) }
      else p := by
  unfold Pool.lockFirst
  by_cases hid : getId (p.header (id % 2 ^ k)) = id <;> by_cases ha : testAlloc (p.header (id % 2 ^ k)) = true <;>
    simp [hid, ha]

theorem lock_eq (hinv : id ≠ invalid) :
    p.lock k id =
      if getId (p.header (id % 2 ^ k)) = id ∧ testAlloc (p.header (id % 2 ^ k)) = true ∧
          getRefcnt (p.header (id % 2 ^ k)) ≠ 0 ∧ getRefcnt (p.header (id % 2 ^ k)) ≠ refcntMax then
        (true, { p with header := update p.header (id % 2 ^ k) (incr (p.header (id % 2 ^ k))) })
      else (false, p) := by
  unfold Pool.lock
  by_cases hid : getId (p.header (id % 2 ^ k)) = id <;> by_cases ha : testAlloc (p.header (id % 2 ^ k)) = true <;>
    by_cases hn : getRefcnt (p.header (id % 2 ^ k)) = 0 <;> simp [hid, ha, hn, hinv]

theorem unlock_eq (hinv : id ≠ invalid) :
    p.unlock k id =
      if getId (p.header (id % 2 ^ k)) = id ∧ testAlloc (p.header (id % 2 ^ k)) = true ∧
          getRefcnt (p.header (id % 2 ^ k)) ≠ 0 then
        if getRefcnt (p.header (id % 2 ^ k)) = 1 then
          (true, { p with header := update p.header (id % 2 ^ k) (clearAlloc (decr (p.header (id % 2 ^ k)))) })
        else (false, { p with header := update p.header (id % 2 ^ k) (decr (p.header (id % 2 ^ k))) })
      else (false, p) := by
  unfold Pool.unlock
  by_cases hid : getId (p.header (id % 2 ^ k)) = id <;> by_cases ha : testAlloc (p.header (id % 2 ^ k)) = true <;>
    by_cases hn : getRefcnt (p.header (id % 2 ^ k)) = 1 <;> simp [hid, ha, hn, hinv]

end Checks

/-- **A first lock.** -/
theorem lockFirst_alone (s : St ι) (j : ι) (id : ℕ) :
    ∃ s', Alone k j (s.goto j (.firstLoad id)) s' ∧ s'.pc j = .idle ∧ s'.pool = s.pool.lockFirst k id := by
  have hload : (s.goto j (.firstLoad id)).stepThread k j false =
      some (s.goto j (.checkFirst id (s.header (id % 2 ^ k)))) := by
    unfold St.stepThread
    simp only [goto_pc, goto_goto]
    rfl
  have hcas : (s.goto j (.firstCas id (s.header (id % 2 ^ k)))).stepThread k j false = some { s with
      header := update s.header (id % 2 ^ k) (first (s.header (id % 2 ^ k)))
      pc := update s.pc j .idle
      refs := update s.refs j (id :: s.refs j)
      life := s.inLife (id % 2 ^ k) .lockFirst } := by
    unfold St.stepThread
    rw [goto_pc]
    refine (if_pos rfl).trans ?_
    simp only [St.goto, update_idem]
    rfl
  unfold Pc.checkFirst at hload
  rw [lockFirst_eq]
  split at hload
  case isTrue hc => exact ⟨_, .step hload (.step hcas (.refl _)), update_self .., (if_pos hc).symm⟩
  case isFalse hc => exact ⟨_, .step hload (.refl _), goto_pc s j .idle, (if_neg hc).symm⟩

/-- **A lock.** It gets a reference when it returns the entry. -/
theorem lock_alone (s : St ι) (j : ι) (hinv : id ≠ invalid) :
    ∃ s', Alone k j (s.goto j (.lockLoad id)) s' ∧ s'.pc j = .idle ∧ s'.pool = (s.pool.lock k id).2 ∧
      s'.refs = if (s.pool.lock k id).1 = true then update s.refs j (id :: s.refs j) else s.refs := by
  have hload : (s.goto j (.lockLoad id)).stepThread k j false =
      some (s.goto j (.checkLock id (s.header (id % 2 ^ k)))) := by
    unfold St.stepThread
    simp only [goto_pc, goto_goto]
    rfl
  have hcas : (s.goto j (.lockCas id (s.header (id % 2 ^ k)))).stepThread k j false = some { s with
      header := update s.header (id % 2 ^ k) (incr (s.header (id % 2 ^ k)))
      pc := update s.pc j .idle
      refs := update s.refs j (id :: s.refs j) } := by
    unfold St.stepThread
    rw [goto_pc]
    refine (if_pos ⟨rfl, rfl⟩).trans ?_
    simp only [St.goto, update_idem]
  unfold Pc.checkLock at hload
  rw [lock_eq hinv, pool_header]
  split at hload
  case isTrue hc =>
    rw [if_pos hc]
    exact ⟨_, .step hload (.step hcas (.refl _)), update_self .., rfl, rfl⟩
  case isFalse hc =>
    rw [if_neg hc]
    exact ⟨_, .step hload (.refl _), goto_pc s j .idle, rfl, rfl⟩

/-- **A release without a destructor.** -/
theorem unlock_alone (s : St ι) (j : ι) (hinv : id ≠ invalid) :
    ∃ s', Alone k j (s.goto j (.unlockLoad id false false)) s' ∧ s'.pc j = .idle ∧
      s'.pool = (s.pool.unlock k id).2 := by
  have hload : (s.goto j (.unlockLoad id false false)).stepThread k j false =
      some (s.goto j (.checkUnlock id false false (s.header (id % 2 ^ k)))) := by
    unfold St.stepThread
    simp only [goto_pc, goto_goto]
    rfl
  have hcas : (s.goto j (.unlockCas id false false (s.header (id % 2 ^ k)))).stepThread k j false =
      some (s.release k j id false (s.header (id % 2 ^ k))) := by
    unfold St.stepThread
    rw [goto_pc]
    refine (if_pos ⟨rfl, rfl⟩).trans ?_
    unfold St.release
    simp only [St.goto, update_idem]
    rfl
  unfold Pc.checkUnlock at hload
  rw [unlock_eq hinv, pool_header]
  split at hload
  case isTrue hc =>
    obtain ⟨hid, ha, hn, -⟩ := hc
    rw [if_pos ⟨hid, ha, hn⟩]
    refine ⟨_, .step hload (.step hcas (.refl _)), ?_⟩
    unfold St.release
    by_cases hone : getRefcnt (s.header (id % 2 ^ k)) = 1
    · simp only [hone, ne_eq, not_true_eq_false, if_false, if_true, Bool.false_eq_true]
      exact ⟨update_self .., rfl⟩
    · simp only [hone, ne_eq, not_false_eq_true, if_false, if_true]
      exact ⟨update_self .., rfl⟩
  case isFalse hc =>
    rw [if_neg fun hc' => hc ⟨hc'.1, hc'.2.1, hc'.2.2, .inl rfl⟩]
    exact ⟨_, .step hload (.refl _), goto_pc s j .idle, rfl⟩

/-! ## Allocations -/

theorem allocIndex_step (s : St ι) (j : ι) (i : ℕ) : (s.goto j (.allocIndex i)).stepThread k j false =
    some { s with writeIndex := succ i, pc := update s.pc j .idle, allocated := i :: s.allocated } := by
  unfold St.stepThread
  rw [goto_pc]
  simp only [St.goto, update_idem]

/-- **The loop of an allocation** takes the first index with a free entry that had another id. -/
theorem probe_alone (s : St ι) (j : ι) {stop : ℕ} (hstop : stop < 2 ^ 64) (n i : ℕ) (hn : stop - i = n) :
    ∃ s', Alone k j (s.goto j (.probe i stop)) s' ∧ s'.pc j = .idle ∧
      match (List.range' i n).find? fun i =>
        !testAlloc (s.header (i % 2 ^ k)) && getId (s.header (i % 2 ^ k)) != i with
      | some i => s'.pool = ⟨update s.header (i % 2 ^ k) (fresh i), succ i⟩ ∧ s'.allocated = i :: s.allocated
      | none => s'.pool = s.pool ∧ s'.allocated = s.allocated := by
  induction n generalizing i with
  | zero =>
    have hdone : Pc.probe i stop = .idle := if_neg (by omega)
    rw [hdone]
    exact ⟨_, .refl _, goto_pc s j .idle, rfl, rfl⟩
  | succ n ih =>
    have hlt : i < stop := by omega
    have hprobe : Pc.probe i stop = .allocHeader i stop := if_pos hlt
    have hsucc : succ i = i + 1 := Nat.mod_eq_of_lt (by omega)
    rw [hprobe, List.range'_succ, List.find?_cons]
    by_cases hfree : testAlloc (s.header (i % 2 ^ k)) = false ∧ getId (s.header (i % 2 ^ k)) ≠ i
    · obtain ⟨ha, hid⟩ := hfree
      have hload : (s.goto j (.allocHeader i stop)).stepThread k j false =
          some (s.goto j (.allocCas i stop (s.header (i % 2 ^ k)))) := by
        unfold St.stepThread
        simp only [goto_pc, goto_goto]
        refine (if_neg ?_).trans (if_neg hid)
        exact Bool.eq_false_iff.1 ha
      have hcas : (s.goto j (.allocCas i stop (s.header (i % 2 ^ k)))).stepThread k j false = some ({ s with
          header := update s.header (i % 2 ^ k) (fresh i)
          gen := update s.gen (i % 2 ^ k) (s.gen (i % 2 ^ k) + 1) }.goto j (.allocIndex i)) := by
        unfold St.stepThread
        rw [goto_pc]
        refine (if_pos rfl).trans ?_
        simp only [St.goto, update_idem]
      have hfound : (!testAlloc (s.header (i % 2 ^ k)) && getId (s.header (i % 2 ^ k)) != i) = true := by
        simp [ha, hid]
      rw [hfound]
      exact ⟨_, .step hload (.step hcas (.step (allocIndex_step _ j i) (.refl _))), update_self .., rfl, rfl⟩
    · have hload : (s.goto j (.allocHeader i stop)).stepThread k j false =
          some (s.goto j (.probe (i + 1) stop)) := by
        unfold St.stepThread
        simp only [goto_pc, goto_goto, hsucc]
        by_cases ha : testAlloc (s.header (i % 2 ^ k)) = true
        · exact if_pos ha
        · refine (if_neg ha).trans (if_pos ?_)
          by_contra hid
          exact hfree ⟨by simpa using ha, hid⟩
      obtain ⟨s', hrun, hpc, hres⟩ := ih (i + 1) (by omega)
      have hskip : (!testAlloc (s.header (i % 2 ^ k)) && getId (s.header (i % 2 ^ k)) != i) = false := by
        simpa using hfree
      rw [hskip]
      exact ⟨s', .step hload hrun, hpc, hres⟩

/-- **An allocation.** Its id can be locked firsthand. -/
theorem alloc_alone (s : St ι) (j : ι) :
    ∃ s', Alone k j (s.goto j .allocLoad) s' ∧ s'.pc j = .idle ∧ s'.pool = (s.pool.alloc k).2 ∧
      s'.allocated = (s.pool.alloc k).1.toList ++ s.allocated := by
  have hload : (s.goto j .allocLoad).stepThread k j false =
      some (s.goto j (.probe s.writeIndex ((s.writeIndex + 2 ^ k) % 2 ^ 64))) := by
    unfold St.stepThread
    simp only [goto_pc, goto_goto]
    rfl
  obtain ⟨s', hrun, hpc, hres⟩ :=
    probe_alone (k := k) s j (Nat.mod_lt (s.writeIndex + 2 ^ k) (Nat.two_pow_pos 64)) _ s.writeIndex rfl
  refine ⟨s', .step hload hrun, hpc, ?_⟩
  have hprobe : probe 64 (2 ^ k) s.writeIndex (fun e => !testAlloc (s.header e)) (fun e => getId (s.header e)) =
    (List.range' s.writeIndex ((s.writeIndex + 2 ^ k) % 2 ^ 64 - s.writeIndex)).find?
      fun i => !testAlloc (s.header (i % 2 ^ k)) && getId (s.header (i % 2 ^ k)) != i := rfl
  have halloc : s.pool.alloc k = match probe 64 (2 ^ k) s.writeIndex (fun e => !testAlloc (s.header e))
      (fun e => getId (s.header e)) with
    | some i => (some i, ⟨update s.header (i % 2 ^ k) (fresh i), succ i⟩)
    | none => (none, s.pool) := rfl
  rw [← hprobe] at hres
  rw [halloc]
  split at hres
  · exact hres
  · exact hres

end Prs.PoolSteps
