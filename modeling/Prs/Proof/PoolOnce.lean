import Prs.Proof.PoolLife

/-!
# Each lifetime of an entry ends once

* `entry_lifetimes`: in every run the count of an allocated entry is the number of the references to it. A
  lifetime that was locked firsthand lasts as long as there are references or a thread with the destructor;
  when it is over, exactly one release has returned `PRS_TRUE`, and its destructor, if it carried one, was
  started once. While an entry is destroyed, no exchange of an allocation, a lock or a release succeeds there,
  and an allocation succeeds only where the lifetimes are over.
-/

namespace Prs.PoolSteps

open Function PoolWords

variable {ι : Type} [Fintype ι] {k : ℕ} {s : St ι} {j : ι} {e : ℕ}

/-- The thread is between the exchange of a release that carries a destructor and the store behind it. -/
def Pc.Destroys (k e : ℕ) (p : Pc) : Prop := ∃ id header, p.dying = some (id, header) ∧ id % 2 ^ k = e

omit [Fintype ι] in
/-- With the action an allocation, a lock or a release succeeds on entry `e`. -/
def St.Succeeds (k : ℕ) (s : St ι) (e : ℕ) : Act ι → Prop
  | .step j spurious =>
    match s.pc j with
    | .allocCas i _ header => i % 2 ^ k = e ∧ s.header e = header
    | .firstCas id header => id % 2 ^ k = e ∧ s.header e = header
    | .lockCas id header => id % 2 ^ k = e ∧ s.header e = header ∧ spurious = false
    | .unlockCas id _ _ header => id % 2 ^ k = e ∧ s.header e = header ∧ spurious = false
    | _ => False
  | _ => False

/-- The latest lifetime of an entry is not over. No release in it has returned `PRS_TRUE`, and it waits for
the first lock, has references, or a thread has released the last one and destroys the entry. -/
structure St.Lasts (k : ℕ) (s : St ι) (e : ℕ) : Prop where
  allocated : testAlloc (s.header e) = true
  trues : (s.life (e, s.gen e)).trues = 0
  waits : (s.life (e, s.gen e)).first = false ∧ s.outstanding k e = 0 ∧ (s.life (e, s.gen e)).runs = 0 ∨
    (s.life (e, s.gen e)).first = true ∧ 0 < s.outstanding k e ∧ (s.life (e, s.gen e)).runs = 0 ∨
    (s.life (e, s.gen e)).first = true ∧ s.outstanding k e = 0 ∧ ∃ j id header, id % 2 ^ k = e ∧
      (s.pc j = .destructor id header ∧ (s.life (e, s.gen e)).runs = 0 ∨
        s.pc j = .destCas id header ∧ (s.life (e, s.gen e)).runs = 1)

theorem exists_of_tally_pos {β : Type*} {f : β → List ℕ} {pc : ι → β} {m : ℕ} (h : 0 < tally f pc m) :
    ∃ j, m ∈ f (pc j) := by
  by_contra hno
  push Not at hno
  rw [tally_eq_zero hno] at h
  cases h

theorem eq_destructor {p : Pc} (h : e ∈ p.dies k) : ∃ id header, id % 2 ^ k = e ∧ p = .destructor id header := by
  cases p <;> simp only [Pc.dies, List.not_mem_nil, List.mem_singleton] at h
  exact ⟨_, _, h.symm, rfl⟩

theorem eq_destCas {p : Pc} (h : e ∈ p.runs k) : ∃ id header, id % 2 ^ k = e ∧ p = .destCas id header := by
  cases p <;> simp only [Pc.runs, List.not_mem_nil, List.mem_singleton] at h
  exact ⟨_, _, h.symm, rfl⟩

/-- The latest lifetime of an entry is over or lasts. -/
theorem Inv.over_or_lasts (h : Inv k s) (hg : 0 < s.gen e) : (s.life (e, s.gen e)).Over ∨ s.Lasts k e := by
  have hphase := (h.entry e).phase
  generalize hw : s.header e = w at hphase
  generalize hc : s.claims k e = c at hphase
  generalize hd : tally (Pc.dies k) s.pc e = d at hphase
  generalize hr : tally (Pc.runs k) s.pc e = r at hphase
  generalize hn : s.outstanding k e = n at hphase
  generalize hl : s.life (e, s.gen e) = l at hphase
  cases hphase with
  | free i l hi hover => exact .inl (hover hg)
  | fresh i c hi hle =>
    refine .inr ⟨?_, ?_, .inl ⟨?_, hn, ?_⟩⟩
    · rw [hw]
      exact testAlloc_held hi (Nat.zero_le _)
    all_goals rw [hl]; rfl
  | live i n hi h0 hmax =>
    refine .inr ⟨?_, ?_, .inr (.inl ⟨?_, hn.symm ▸ h0, ?_⟩)⟩
    · rw [hw]
      exact testAlloc_held hi hmax
    all_goals rw [hl]; rfl
  | dying i hi =>
    obtain ⟨j, hj⟩ := exists_of_tally_pos (hd.symm ▸ Nat.one_pos)
    obtain ⟨id, header, hid, hpc⟩ := eq_destructor hj
    refine .inr ⟨?_, ?_, .inr (.inr ⟨?_, hn, j, id, header, hid, .inl ⟨hpc, ?_⟩⟩)⟩
    · rw [hw]
      exact testAlloc_held hi (Nat.zero_le _)
    all_goals rw [hl]; rfl
  | destroyed i hi =>
    obtain ⟨j, hj⟩ := exists_of_tally_pos (hr.symm ▸ Nat.one_pos)
    obtain ⟨id, header, hid, hpc⟩ := eq_destCas hj
    refine .inr ⟨?_, ?_, .inr (.inr ⟨?_, hn, j, id, header, hid, .inr ⟨hpc, ?_⟩⟩)⟩
    · rw [hw]
      exact testAlloc_held hi (Nat.zero_le _)
    all_goals rw [hl]; rfl

/-- What is known of an entry that is being destroyed. -/
theorem Inv.of_destroys (h : Inv k s) (hj : (s.pc j).Destroys k e) :
    (∃ i, i < refcntInc ∧ s.header e = held 0 i) ∧ s.claims k e = 0 ∧ s.outstanding k e = 0 := by
  obtain ⟨id, w, hd, rfl⟩ := hj
  have hphase := (h.entry (id % 2 ^ k)).phase
  generalize hp : s.pc j = p at hd
  cases p with
  | destructor id' w' =>
    obtain ⟨rfl, rfl⟩ := Prod.mk.inj (Option.some.inj hd)
    have hmem := count_le_tally (Pc.dies k) s.pc j (id' % 2 ^ k)
    rw [hp] at hmem
    simp only [Pc.dies, List.count_singleton_self] at hmem
    obtain ⟨hh, hi, hc, -, -, hn, -⟩ := hphase.of_dies hmem
    exact ⟨⟨_, hi, hh⟩, hc, hn⟩
  | destCas id' w' =>
    obtain ⟨rfl, rfl⟩ := Prod.mk.inj (Option.some.inj hd)
    obtain ⟨hheader, hh, hi, hc, -, -, hn, -⟩ := h.destroyed hp
    exact ⟨⟨_, hi, hheader.trans hh⟩, hc, hn⟩
  | _ => cases hd

/-- **Nobody else changes an entry that is being destroyed.** -/
theorem Inv.not_succeeds (h : Inv k s) (hj : (s.pc j).Destroys k e) (a : Act ι) : ¬ s.Succeeds k e a := by
  obtain ⟨⟨i, hi, hh⟩, hc, hn⟩ := h.of_destroys hj
  intro ha
  cases a with
  | step i' spurious =>
    have hok := h.ok i'
    unfold St.Succeeds at ha
    dsimp only at ha
    split at ha <;> rename_i hpc
    · -- an allocation expects an entry that is not allocated
      rw [hpc] at hok
      obtain ⟨rfl, rfl⟩ := ha
      rw [hh] at hok
      exact Bool.false_ne_true (hok.symm.trans (testAlloc_held hi (Nat.zero_le _)))
    · -- a first lock has a claim
      obtain ⟨rfl, -⟩ := ha
      have hpos : 0 < s.claims k (_ % 2 ^ k) := claims_pos (by rw [hpc]; exact List.mem_singleton_self _)
      exact hpos.ne' hc
    · -- a lock expects a count
      rw [hpc] at hok
      obtain ⟨rfl, rfl, -⟩ := ha
      obtain ⟨-, -, hcount, -⟩ := hok
      rw [hh] at hcount
      exact hcount (getRefcnt_held hi (Nat.zero_le _))
    · -- a release has a reference
      rw [hpc] at hok
      obtain ⟨rfl, -⟩ := ha
      exact (refs_pos hok).ne' hn
    · exact ha
  | _ => exact ha

/-- **Each lifetime of an entry ends once.** -/
theorem entry_lifetimes [DecidableEq ι] (h : (sys k ι).Reachable s) :
    (∀ e, testAlloc (s.header e) = true →
      getRefcnt (s.header e) = s.outstanding k e ∧ s.outstanding k e ≤ refcntMax ∧
        s.header e = held (s.outstanding k e) (getId (s.header e))) ∧
    (∀ e, 0 < s.outstanding k e → testAlloc (s.header e) = true) ∧
    (∀ e g, 0 < g → g ≤ s.gen e → (s.life (e, g)).Over ∨ g = s.gen e ∧ s.Lasts k e) ∧
    (∀ j e, (s.pc j).Destroys k e → ∀ a, ¬ s.Succeeds k e a) ∧
    ∀ j i stop header, s.pc j = .allocCas i stop header → s.header (i % 2 ^ k) = header →
      ∀ g, 0 < g → g ≤ s.gen (i % 2 ^ k) → (s.life (i % 2 ^ k, g)).Over := by
  have hI := inv_reachable h
  refine ⟨fun e ha => ?_, fun e hn => ?_, fun e g h0 hg => ?_, fun j e hj => hI.not_succeeds hj,
    fun j i stop header hpc hcas g h0 hg => ?_⟩
  · obtain ⟨hh, hi, hle⟩ := (hI.entry e).phase.of_allocated ha
    refine ⟨?_, hle, hh⟩
    rw [hh, getRefcnt_held hi hle]
  · obtain ⟨hh, hi, hle, -⟩ := (hI.entry e).phase.of_refs hn
    rw [hh]
    exact testAlloc_held hi hle
  · obtain hlt | rfl := Nat.lt_or_eq_of_le hg
    · exact .inl ((hI.entry e).closed g h0 hlt)
    · exact (hI.over_or_lasts h0).imp_right fun hl => ⟨rfl, hl⟩
  · have hok := hI.ok j
    rw [hpc] at hok
    have hfree := (hI.entry (i % 2 ^ k)).phase.of_unallocated (by rw [hcas]; exact hok)
    obtain hlt | rfl := Nat.lt_or_eq_of_le hg
    · exact (hI.entry _).closed g h0 hlt
    · exact hfree.2.2.2.2 h0

/-- Two threads share an entry, and the second to release it destroys it: the other can do nothing to the
entry. -/
theorem entry_lifetimes_two :
    ∃ s : St (Fin 2), (sys 1 (Fin 2)).Reachable s ∧ s.pc 1 = .destCas 1 (held 0 1) ∧ s.gen 1 = 1 ∧
      ∀ a, ¬ s.Succeeds 1 1 a := by
  obtain ⟨s, hs, hpc, hgen⟩ := System.exists_of_check (sys 1 (Fin 2)) (fun _ _ => True)
    (fun s => s.pc 1 = .destCas 1 (held 0 1) ∧ s.gen 1 = 1) .init rfl
    (List.flatten [.alloc 0 :: List.replicate 4 (.step 0 false),
      .lockFirst 0 1 :: List.replicate 2 (.step 0 false),
      .lock 1 1 :: List.replicate 2 (.step 1 false), .unlock 0 1 false true :: List.replicate 2 (.step 0 false),
      .unlock 1 1 true true :: List.replicate 3 (.step 1 false)])
    (by decide +kernel)
  refine ⟨s, hs, hpc, hgen, (entry_lifetimes hs).2.2.2.1 1 1 ⟨1, held 0 1, ?_, by decide⟩⟩
  rw [hpc]
  rfl

end Prs.PoolSteps
