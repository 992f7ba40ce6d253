import Prs.Model.SchedThreads
import Prs.Proof.DllistList
import Prs.Proof.GodTable

/-!
# When a failed addition of a thread leaves the scheduler as it was

`prs_dllist_insert_before` without a node puts the new worker at the end, and the error path of
`prs_sched_add_thread` takes out the first one.

* `workerCreate_of_none`: a worker that is not created does not change the directory.
* `addThread_failed`: what a failed call does. The reference count of the scheduler is as before.
* `elements_undone`: the first worker is gone, the new one stays.
* `addThread_intact_iff`: the workers are as before exactly when there was none, or the call failed before the
  insertion.
* `addThread_lost`: a scheduler loses its only worker.
-/

namespace Prs.SchedThreads

open Function GodSeq Dllist

variable {k id sw node : ℕ} {s s' : State} {m : Mallocs} {r : Result} {l l' : Dllist} {nodes : List ℕ}
    {dir dir' : Dir Obj}
  {malloc : Option ℕ} {o : Obj}

/-- The list is one of live nodes, with live workers. -/
structure Valid (k : ℕ) (s : State) (nodes : List ℕ) : Prop where
  sane : Sane k s.dir
  list : IsList s.workers nodes
  nodes_live : ∀ node ∈ nodes, node ∈ s.live
  workers_live : ∀ sw ∈ s.workers.elements, sw ∈ s.live

/-- `prs_pal_malloc` does not return a block that is live. -/
structure Mallocs.Fresh (m : Mallocs) (live : List ℕ) : Prop where
  schedWorker : ∀ sw, m.schedWorker = some sw → sw ∉ live
  node : ∀ node, m.node = some node → node ∉ live

/-- The list has the same workers in the same order, and the object of the id is locked as often. -/
structure Intact (k id : ℕ) (s s' : State) : Prop where
  workers : s'.workers.elements = s.workers.elements
  refcnt : s'.dir.find k id = s.dir.find k id

section Calls

/-- A worker that is not created does not change the directory. -/
theorem workerCreate_of_none (hk : k ≤ 31) (h : Sane k dir) (hw : workerCreate k dir malloc = (none, dir')) :
    dir' = dir := by
  unfold workerCreate at hw
  cases malloc with
  | none => exact (congrArg Prod.snd hw).symm
  | some worker =>
    dsimp only at hw
    obtain hno | ⟨i, hpos, -, -, -, halloc⟩ := h.alloc_cases hk (.worker worker)
    · rw [hno] at hw
      exact (congrArg Prod.snd hw).symm
    · have hi : i ≠ invalid := by
        rintro rfl
        exact absurd hpos (by rw [invalid, Nat.zero_mod]; exact Nat.lt_irrefl 0)
      rw [halloc] at hw
      rw [if_neg hi] at hw
      cases hw

theorem removeBegin_dir (s : State) : s.removeBegin.dir = s.dir := by
  unfold State.removeBegin
  split <;> rfl

theorem error_dir (s : State) (sw : ℕ) : (s.error sw).dir = s.dir := by
  unfold State.error
  split
  · exact removeBegin_dir s
  · rfl

theorem error_workers (h : s.sched sw = true) : (s.error sw).workers = s.removeBegin.workers := by
  unfold State.error
  rw [h]
  rfl

/-- **What a failed call does.** -/
theorem addThread_failed (hk : k ≤ 31) (h : Sane k s.dir) (ha : s.addThread k id m = some (r, s'))
    (hr : r ≠ .ok) :
    s'.dir = s.dir ∧
      (s'.workers = s.workers ∧ (m.schedWorker = none ∨ m.node = none ∨ (s.dir.lock k id).1 = none) ∨
        ∃ sw node, m.schedWorker = some sw ∧ m.node = some node ∧ (s.dir.lock k id).1 ≠ none ∧
          ∃ s₁ : State, s₁.workers = (s.workers.insertBefore (some node) none sw).2 ∧
            s'.workers = s₁.removeBegin.workers) := by
  unfold State.addThread at ha
  cases hl : s.dir.lock k id with
  | mk o dir =>
    rw [hl] at ha
    cases o with
    | none =>
      obtain ⟨-, rfl⟩ := Prod.mk.inj (Option.some.inj ha)
      exact ⟨rfl, .inl ⟨rfl, .inr (.inr rfl)⟩⟩
    | some o =>
      have hlock : (s.dir.lock k id).1 = some o := by rw [hl]
      have hdir : (dir.unlock k id).2 = s.dir := by
        have := h.unlock_lock hlock
        rw [hl] at this
        rw [this]
      have hsane : Sane k dir := by
        have := h.lock id
        rwa [hl] at this
      dsimp only at ha
      cases hsw : m.schedWorker with
      | none =>
        rw [hsw] at ha
        obtain ⟨-, rfl⟩ := Prod.mk.inj (Option.some.inj ha)
        exact ⟨hdir, .inl ⟨rfl, .inl rfl⟩⟩
      | some sw =>
        rw [hsw] at ha
        dsimp only at ha
        cases hnode : m.node with
        | none =>
          rw [hnode] at ha
          obtain ⟨-, rfl⟩ := Prod.mk.inj (Option.some.inj ha)
          exact ⟨hdir, .inl ⟨rfl, .inr (.inl rfl)⟩⟩
        | some node =>
          rw [hnode, show s.workers.insertBefore (some node) none sw =
            (.ok, (s.workers.insertBefore (some node) none sw).2) from rfl] at ha
          dsimp only at ha
          cases hw : workerCreate k dir m.worker with
          | mk workerId dir' =>
            rw [hw] at ha
            cases workerId with
            | some workerId =>
              -- the call does not fail
              dsimp only at ha
              split at ha
              · obtain ⟨rfl, -⟩ := Prod.mk.inj (Option.some.inj ha)
                exact absurd rfl hr
              · cases ha
            | none =>
              have hsame : dir' = dir := workerCreate_of_none hk hsane hw
              obtain ⟨-, rfl⟩ := Prod.mk.inj (Option.some.inj ha)
              subst hsame
              refine ⟨?_, .inr ⟨sw, node, rfl, rfl, by simp, _, rfl, error_workers (update_self ..)⟩⟩
              unfold State.cleanup
              rw [error_dir]
              exact hdir

/-- **The first worker is gone, the new one stays.** -/
theorem elements_undone (h : IsList s.workers nodes) (hnode : node ∉ nodes) {s₁ : State}
    (h₁ : s₁.workers = (s.workers.insertBefore (some node) none sw).2) :
    s₁.removeBegin.workers.elements = (s.workers.elements ++ [sw]).tail := by
  obtain ⟨l', hl', hlist, helem⟩ := h.elements_insert_end hnode sw
  have hl : s₁.workers = l' := h₁.trans (congrArg Prod.snd hl')
  rw [← helem]
  unfold State.removeBegin
  rw [hl]
  cases hcons : nodes ++ [node] with
  | nil => exact absurd hcons (List.append_ne_nil_of_right_ne_nil nodes (List.cons_ne_nil node []))
  | cons a rest =>
    rw [hcons] at hlist
    have hbegin : l'.begin = some a := hlist.head
    rw [hbegin]
    exact hlist.elements_remove_head

end Calls

section Failed

/-- A rotation of new elements is another list. -/
theorem tail_append_ne {ws : List ℕ} (hne : ws ≠ []) (hsw : sw ∉ ws) : (ws ++ [sw]).tail ≠ ws := by
  intro heq
  cases ws with
  | nil => exact hne rfl
  | cons w ws =>
    have hmem : sw ∈ (w :: ws ++ [sw]).tail := List.mem_append_right ws List.mem_cons_self
    rw [heq] at hmem
    exact hsw hmem

/-- **A failed call leaves the scheduler intact exactly when it had no worker, or failed before the
insertion.** -/
theorem addThread_intact_iff (hk : k ≤ 31) (h : Valid k s nodes) (hm : m.Fresh s.live)
    (ha : s.addThread k id m = some (r, s')) (hr : r ≠ .ok) :
    Intact k id s s' ↔
      s.workers.elements = [] ∨ m.schedWorker = none ∨ m.node = none ∨ (s.dir.lock k id).1 = none := by
  obtain ⟨hdir, ⟨hw, hearly⟩ | ⟨sw, node, hsw, hnode, hlock, s₁, h₁, hw⟩⟩ := addThread_failed hk h.sane ha hr
  · exact iff_of_true ⟨by rw [hw], by rw [hdir]⟩ (.inr hearly)
  · have hfresh : node ∉ nodes := fun hn => hm.node node hnode (h.nodes_live node hn)
    have hnew : sw ∉ s.workers.elements := fun hn => hm.schedWorker sw hsw (h.workers_live sw hn)
    have helem : s'.workers.elements = (s.workers.elements ++ [sw]).tail := by
      rw [hw]
      exact elements_undone h.list hfresh h₁
    have hcond : (s.workers.elements = [] ∨ m.schedWorker = none ∨ m.node = none ∨ (s.dir.lock k id).1 = none) ↔
        s.workers.elements = [] := by
      rw [hsw, hnode]
      simp [hlock]
    rw [hcond]
    constructor
    · intro hi
      by_contra hne
      exact tail_append_ne hne hnew (helem.symm.trans hi.workers)
    · intro hempty
      refine ⟨?_, by rw [hdir]⟩
      rw [helem, hempty]
      rfl

/-- A scheduler with one worker. -/
def oneWorker : State where
  dir := (Dir.create.alloc 2 .sched).2
  workers := (create.insertBefore (some 10) none 20).2
  sched := fun _ => false
  worker := fun _ => none
  live := [10, 20]

/-- There is no memory for the `prs_worker`. -/
def noWorker : Mallocs := ⟨some 21, some 11, none⟩

theorem valid_oneWorker : Valid 2 oneWorker [10] where
  sane := (sane_create 2).alloc (by decide) Obj.sched
  list := by
    obtain ⟨l', hl', hlist, -⟩ := @IsList.elements_insert_end _ _ 10 isList_create List.not_mem_nil 20
    have hl : oneWorker.workers = l' := congrArg Prod.snd hl'
    rw [hl]
    exact hlist
  nodes_live := by decide
  workers_live := by decide

theorem fresh_noWorker : noWorker.Fresh oneWorker.live := ⟨by decide, by decide⟩

theorem addThread_intact_iff_one :
    ∃ s', oneWorker.addThread 2 1 noWorker = some (.outOfMemory, s') ∧
      (Intact 2 1 oneWorker s' ↔
        oneWorker.workers.elements = [] ∨ noWorker.schedWorker = none ∨ noWorker.node = none ∨
          (oneWorker.dir.lock 2 1).1 = none) :=
  ⟨_, rfl, addThread_intact_iff (by decide) valid_oneWorker fresh_noWorker rfl (by decide)⟩

/-- A scheduler loses its only worker, and keeps one that is not live. -/
theorem addThread_lost :
    ¬ (∀ (k id : ℕ) (s s' : State) (nodes : List ℕ) (m : Mallocs) (r : Result), k ≤ 31 → Valid k s nodes →
      m.Fresh s.live → s.addThread k id m = some (r, s') → r ≠ .ok → Intact k id s s') ∧
    ∃ s', oneWorker.addThread 2 1 noWorker = some (.outOfMemory, s') ∧ oneWorker.workers.elements = [20] ∧
      s'.workers.elements = [21] ∧ 21 ∉ s'.live := by
  have hlost : ∃ s', oneWorker.addThread 2 1 noWorker = some (.outOfMemory, s') ∧
      oneWorker.workers.elements = [20] ∧ s'.workers.elements = [21] ∧ 21 ∉ s'.live :=
    ⟨_, rfl, by decide, by decide, by decide⟩
  refine ⟨fun h => ?_, hlost⟩
  obtain ⟨s', hs', hold, hnew, -⟩ := hlost
  have hi := h 2 1 oneWorker s' [10] noWorker .outOfMemory (by decide) valid_oneWorker fresh_noWorker hs'
    (by decide)
  have heq := hi.workers
  rw [hold, hnew] at heq
  exact absurd heq (by decide)

end Failed

end Prs.SchedThreads
