import Mathlib.Algebra.BigOperators.Ring.Finset
import Prs.Lib.Threads
import Prs.Model.Proc

/-!
# The tasks of a process

`prs_task_set_proc` takes a task that has a process out of the list of the new process instead of the old one,
and drops one of the two references of the old one. `prs_proc_exec` makes this happen for every main task: the
task has inherited the process of the service, and its `proc_id` is overwritten (`members_wrong`).

* `members_counted`: apart from that, and from a task whose name is refused, the lists and the references are
  right in every run: a task is in the list of its process, once, and in no other, and a process has two
  references for each of its tasks.
-/

namespace Prs.Proc

open Function

variable {ι π τ : Type} [Fintype ι] [DecidableEq ι] [DecidableEq π] [DecidableEq τ]
  {s s' : St ι π τ} {i : ι} {p q : π} {t u : τ} {procs : π → Bool} {svc : ι}

/-! ## When the bookkeeping is kept -/

/-- The access is one of a call that creates task `t` or sets its process. -/
def Op.settles (t : τ) : Op π τ → Bool
  | .push _ u => decide (u = t)
  | .store u _ => decide (u = t)
  | .name u => decide (u = t)
  | .free u => decide (u = t)
  | _ => false

/-- No call that creates task `t` or sets its process is in progress. -/
def St.Settled (s : St ι π τ) (t : τ) : Prop := ∀ i, ∀ op ∈ s.ops i, op.settles t = false

/-- A task is created with its name accepted, or by a task without a process; it is given a process when it
has none or has that one already; its calls do not overlap; and no process is loaded. -/
def St.Kept (s : St ι π τ) : Act ι π τ → Prop
  | .create _ c _ nameOk => nameOk = true ∨ c.bind s.procId = none
  | .setProc _ t p => (s.procId t = none ∨ s.procId t = some p) ∧ s.Settled t
  | .destroy _ t => s.Settled t
  | .exec _ _ _ loadOk _ _ => loadOk = false
  | .handle => True
  | .step _ => True

instance (s : St ι π τ) (t : τ) : Decidable (s.Settled t) := inferInstanceAs (Decidable (∀ i, ∀ op ∈ s.ops i, _))

instance (s : St ι π τ) (a : Act ι π τ) : Decidable (s.Kept a) := by
  unfold St.Kept
  split <;> infer_instance

/-! ## What is still to be done -/

/-- The references of process `p` that are held for an access that is still to be made. -/
def Op.ref (p : π) : Op π τ → ℤ
  | .lock q => -if q = p then 1 else 0
  | .unlock q => if q = p then 1 else 0
  | .push q _ => if q = p then 1 else 0
  | .store _ q => if q = p then 1 else 0
  | _ => 0

/-- What an access that is still to be made does to the entries of task `t` in the list of `p`, less the one
that is due when it makes `p` the process of `t`. -/
def Op.entry (p : π) (t : τ) : Op π τ → ℤ
  | .push q u => if q = p ∧ u = t then 1 else 0
  | .remove q u => -if q = p ∧ u = t then 1 else 0
  | .send q u => -if q = p ∧ u = t then 1 else 0
  | .store u q => -if q = p ∧ u = t then 1 else 0
  | _ => 0

/-- Whether an access that is still to be made sets the process of `t`. -/
def Op.moves (t : τ) : Op π τ → ℤ
  | .store u _ => if u = t then 1 else 0
  | _ => 0

/-- The sum over the accesses of a call. -/
def total (f : Op π τ → ℤ) (l : List (Op π τ)) : ℤ := (l.map f).sum

omit [DecidableEq π] [DecidableEq τ] in
@[simp] theorem total_nil (f : Op π τ → ℤ) : total f [] = 0 := rfl

omit [DecidableEq π] [DecidableEq τ] in
@[simp] theorem total_cons (f : Op π τ → ℤ) (op : Op π τ) (l : List (Op π τ)) :
    total f (op :: l) = f op + total f l := by
  simp [total]

/-- A call holds what it needs at every point, registers a task before it sets its process, and frees none. -/
def Good : List (Op π τ) → Prop
  | [] => True
  | op :: l =>
    Good l ∧ (∀ p, 0 ≤ total (Op.ref p) (op :: l)) ∧ (∀ p t, total (Op.entry p t) (op :: l) ≤ 0) ∧
      ∀ t, op ≠ .free t

theorem Good.ref {l : List (Op π τ)} (h : Good l) (p : π) : 0 ≤ total (Op.ref p) l := by
  cases l with
  | nil => exact le_refl 0
  | cons op l => exact h.2.1 p

theorem Good.entry {l : List (Op π τ)} (h : Good l) (p : π) (t : τ) : total (Op.entry p t) l ≤ 0 := by
  cases l with
  | nil => exact le_refl 0
  | cons op l => exact h.2.2.1 p t

/-- An unlock more. -/
theorem Good.unlock {l : List (Op π τ)} (h : Good l) (p : π) : Good (.unlock p :: l) := by
  refine ⟨h, fun q => ?_, fun q t => ?_, fun t ht => by cases ht⟩
  · have := h.ref q
    simp only [total_cons, Op.ref]
    split <;> omega
  · have := h.entry q t
    simp only [total_cons, Op.entry]
    omega

theorem good_name (t : τ) : Good [(Op.name t : Op π τ)] :=
  ⟨trivial, fun p => (by simp [Op.ref]), fun p u => (by simp [Op.entry]), fun u hu => (by cases hu)⟩

/-- The registration of a task and the store, for a call that has locked the process. -/
theorem Good.register {l : List (Op π τ)} (h : Good l) (t : τ) (p : π) : Good (register t p ++ l) := by
  have hstore : Good (.store t p :: l) := by
    refine ⟨h, fun q => ?_, fun q u => ?_, fun u hu => by cases hu⟩
    · have := h.ref q
      simp only [total_cons, Op.ref]
      split <;> omega
    · have := h.entry q u
      simp only [total_cons, Op.entry]
      split <;> omega
  have hlock : Good (.lock p :: .store t p :: l) := by
    refine ⟨hstore, fun q => ?_, fun q u => ?_, fun u hu => by cases hu⟩
    · have := h.ref q
      simp only [total_cons, Op.ref]
      omega
    · have := hstore.entry q u
      simp only [total_cons, Op.entry] at this ⊢
      omega
  show Good (.push p t :: .lock p :: .store t p :: l)
  refine ⟨hlock, fun q => ?_, fun q u => ?_, fun u hu => by cases hu⟩
  · have := h.ref q
    simp only [total_cons, Op.ref]
    split <;> omega
  · have := h.entry q u
    simp only [total_cons, Op.entry]
    omega

theorem good_register (t : τ) (p : π) : Good (Proc.register t p : List (Op π τ)) := by
  have := Good.register (π := π) (l := []) trivial t p
  rwa [List.append_nil] at this

theorem Good.unregister {l : List (Op π τ)} (h : Good l) (svc : Bool) (p : π) (t : τ) :
    Good (unregister svc p t :: l) := by
  refine ⟨h, fun q => ?_, fun q u => ?_, fun u hu => ?_⟩
  · have := h.ref q
    cases svc <;> simpa [Proc.unregister, Op.ref] using this
  · have := h.entry q u
    cases svc <;> simp only [Proc.unregister, total_cons, Op.entry, if_true, Bool.false_eq_true,
      if_false] <;> split <;> omega
  · cases svc <;> cases hu

theorem good_setProc (svc : Bool) (t : τ) (p : π) (o : Option π) : Good (setProc svc t p o) := by
  cases o with
  | none => exact good_register t p
  | some q => exact ((good_register t p).unlock q).unregister svc p t

theorem good_destroy (svc : Bool) (t : τ) (o : Option π) : Good (destroy svc t o) := by
  cases o with
  | none => trivial
  | some p =>
    have hun : Good [unregister svc p t, .unlock p, .unlock p] :=
      ((Good.unlock (l := []) trivial p).unlock p).unregister svc p t
    refine ⟨hun, fun q => ?_, fun q u => ?_, fun u hu => by cases hu⟩
    · have : total (Op.ref q) [unregister svc p t, .unlock p, .unlock p] = if p = q then 2 else 0 := by
        cases svc <;> simp only [Proc.unregister, total_cons, total_nil, Op.ref, if_true, Bool.false_eq_true,
          if_false] <;>
          split <;> omega
      rw [total_cons, this, Op.ref]
      split <;> omega
    · have := hun.entry q u
      rw [total_cons, show Op.entry q u (.lock p : Op π τ) = 0 from rfl]
      omega

/-! ## The invariant -/

/-- What all calls in progress have still to do. -/
def St.pending (s : St ι π τ) (f : Op π τ → ℤ) : ℤ := ∑ j, total f (s.ops j)

/-- How many tasks have the references of process `p`. -/
def St.owned [Fintype τ] (s : St ι π τ) (p : π) : ℤ := ∑ t, if s.owner t = some p then 1 else 0

/-- One task: it has the references of its process, or a call in progress is about to give it them. -/
structure Task (s : St ι π τ) (t : τ) : Prop where
  once : s.pending (Op.moves t) + (if s.owner t = none then 0 else 1) ≤ 1
  here : s.live t = true → s.procId t = s.owner t ∨ 0 < s.pending (Op.moves t)
  gone : s.live t = false → s.owner t = none ∧ s.pending (Op.moves t) = 0
  unused : s.used t = false → s.live t = false ∧ s.procId t = none
  named : s.named t = true → s.live t = true
  naming : ∀ i, .name t ∈ s.ops i → s.live t = true

/-- **The books.** The references of a process are its own, one for each entry of its list, one for each of
its tasks, and those of the calls in progress. A task has an entry where it belongs, but for what the calls in
progress and the messages that are pending have still to do. -/
structure Inv [Fintype τ] (procs : π → Bool) (s : St ι π τ) : Prop where
  refs : ∀ p, (s.refcnt p : ℤ) = (procs p).toNat + (s.objects p).length + s.owned p + s.pending (Op.ref p)
  entries : ∀ p t, ((s.objects p).count t : ℤ) + s.pending (Op.entry p t) =
    (if s.owner t = some p then 1 else 0) + s.msgs.count (p, t)
  good : ∀ i, Good (s.ops i)
  task : ∀ t, Task s t

omit [DecidableEq ι] in
theorem inv_init [Fintype τ] : Inv procs (St.init procs : St ι π τ) where
  refs := fun p => by simp [St.init, St.owned, St.pending]
  entries := fun p t => by simp [St.init, St.pending]
  good := fun i => trivial
  task := fun t =>
    { once := by simp [St.init, St.pending]
      here := fun ht => by cases ht
      gone := fun _ => ⟨rfl, by simp [St.init, St.pending]⟩
      unused := fun _ => ⟨rfl, rfl⟩
      named := fun ht => by cases ht
      naming := fun i hi => by cases hi }

omit [DecidableEq π] [DecidableEq τ] in
theorem pending_update (f : Op π τ → ℤ) (i : ι) (l : List (Op π τ)) (hops : s'.ops = update s.ops i l) :
    s'.pending f = s.pending f - total f (s.ops i) + total f l := by
  unfold St.pending
  rw [hops]
  exact sum_update (total f) s.ops i l

omit [Fintype ι] [DecidableEq ι] in
theorem owned_update [Fintype τ] {t : τ} {o : Option π} (howner : s'.owner = update s.owner t o) (p : π) :
    s'.owned p = s.owned p - (if s.owner t = some p then 1 else 0) + if o = some p then 1 else 0 := by
  unfold St.owned
  rw [howner]
  exact sum_update (fun o => if o = some p then 1 else 0) s.owner t o

omit [DecidableEq π] in
theorem moves_nonneg (t : τ) (l : List (Op π τ)) : 0 ≤ total (Op.moves t) l := by
  induction l with
  | nil => exact le_refl 0
  | cons op l ih =>
    rw [total_cons]
    cases op with
    | store u p =>
      simp only [Op.moves]
      split <;> omega
    | _ =>
      simp only [Op.moves]
      omega

omit [DecidableEq ι] [DecidableEq π] [DecidableEq τ] in
theorem total_le_pending (s : St ι π τ) (i : ι) {f : Op π τ → ℤ} (hf : ∀ j, 0 ≤ total f (s.ops j)) :
    total f (s.ops i) ≤ s.pending f :=
  Finset.single_le_sum (f := fun j => total f (s.ops j)) (fun j _ => hf j) (Finset.mem_univ i)

omit [DecidableEq ι] in
/-- What one call holds of a process, the process has. -/
theorem Inv.held [Fintype τ] (h : Inv procs s) (i : ι) (p : π) :
    (s.objects p).length + total (Op.ref p) (s.ops i) ≤ (s.refcnt p : ℤ) := by
  have hle := total_le_pending s i (f := Op.ref p) fun j => (h.good j).ref p
  have hown : 0 ≤ s.owned p := Finset.sum_nonneg fun t _ => by split <;> simp
  have := h.refs p
  omega

omit [DecidableEq ι] in
/-- An entry that is still to be taken out is there. -/
theorem Inv.entered [Fintype τ] (h : Inv procs s) (i : ι) (p : π) (t : τ) :
    (s.msgs.count (p, t) : ℤ) - total (Op.entry p t) (s.ops i) ≤ (s.objects p).count t := by
  have hle : - total (Op.entry p t) (s.ops i) ≤ - s.pending (Op.entry p t) := by
    have hsum := Finset.single_le_sum (f := fun j => - total (Op.entry p t) (s.ops j))
      (fun j _ => by have := (h.good j).entry p t; omega) (Finset.mem_univ i)
    rw [Finset.sum_neg_distrib] at hsum
    exact hsum
  have := h.entries p t
  split at this <;> omega

omit [DecidableEq ι] [DecidableEq π] in
theorem Inv.settled (s : St ι π τ) (ht : s.Settled t) : s.pending (Op.moves t) = 0 := by
  refine Finset.sum_eq_zero fun i _ => ?_
  have hi := ht i
  generalize s.ops i = l at hi
  induction l with
  | nil => rfl
  | cons op l ih =>
    rw [total_cons, ih fun op hop => hi op (List.mem_cons_of_mem _ hop)]
    have := hi op List.mem_cons_self
    cases op with
    | store u p =>
      simp only [Op.settles, decide_eq_false_iff_not] at this
      simp only [Op.moves, if_neg this]
      rfl
    | _ => rfl

/-! ## Steps -/

omit [DecidableEq π] in
/-- A task that a step of call `i` leaves as it is. -/
theorem Task.congr (h : Task s t) {l : List (Op π τ)} (hops : s'.ops = update s.ops i l)
    (hmoves : total (Op.moves t) l = total (Op.moves t) (s.ops i)) (hnames : .name t ∈ l → .name t ∈ s.ops i)
    (howner : s'.owner t = s.owner t) (hproc : s'.procId t = s.procId t) (hlive : s'.live t = s.live t)
    (hused : s'.used t = s.used t) (hnamed : s'.named t = true → s.named t = true ∨ s.live t = true) :
    Task s' t := by
  have hpend : s'.pending (Op.moves t) = s.pending (Op.moves t) := by
    rw [pending_update (Op.moves t) i l hops, hmoves]
    omega
  constructor
  case once =>
    rw [hpend, howner]
    exact h.once
  case here =>
    rw [hpend, howner, hproc, hlive]
    exact h.here
  case gone =>
    rw [hpend, howner, hlive]
    exact h.gone
  case unused =>
    rw [hlive, hproc, hused]
    exact h.unused
  case named =>
    intro hn
    rw [hlive]
    exact (hnamed hn).elim h.named id
  case naming =>
    intro j hj
    rw [hlive]
    rw [hops] at hj
    by_cases hji : j = i
    · subst hji
      rw [update_self] at hj
      exact h.naming j (hnames hj)
    · rw [update_of_ne hji] at hj
      exact h.naming j hj

/-- A step of call `i`. What it does to the references and to the entries, it no longer has to do. -/
theorem Inv.next [Fintype τ] (h : Inv procs s) {l : List (Op π τ)} (hops : s'.ops = update s.ops i l)
    (hl : Good l) (hrefs : ∀ p, (s'.refcnt p : ℤ) - (s'.objects p).length - s'.owned p - total (Op.ref p) l =
      s.refcnt p - (s.objects p).length - s.owned p - total (Op.ref p) (s.ops i))
    (hentries : ∀ p t, ((s'.objects p).count t : ℤ) - s'.msgs.count (p,
      t) - (if s'.owner t = some p then 1 else 0) +
        total (Op.entry p t) l =
      (s.objects p).count t - s.msgs.count (p, t) - (if s.owner t = some p then 1 else 0) +
        total (Op.entry p t) (s.ops i))
    (htask : ∀ t, Task s' t) : Inv procs s' := by
  refine ⟨fun p => ?_, fun p t => ?_, fun j => ?_, htask⟩
  · have h₁ := h.refs p
    have h₂ := hrefs p
    rw [pending_update _ i l hops]
    omega
  · have h₁ := h.entries p t
    have h₂ := hentries p t
    rw [pending_update _ i l hops]
    omega
  · rw [hops]
    exact forall_update h.good hl j

/-- A step of call `i` that leaves the tasks as they are. -/
theorem Inv.change [Fintype τ] (h : Inv procs s) {l : List (Op π τ)} {refcnt : π → ℕ} {objects : π → List τ}
    {named : τ → Bool} {msgs : List (π × τ)} (hl : Good l)
    (hmoves : ∀ t, total (Op.moves t) l = total (Op.moves t) (s.ops i)) (hnames : ∀ t, .name t ∈ l →
      .name t ∈ s.ops i) (hnamed : ∀ t, named t = true → s.named t = true ∨ s.live t = true)
    (hrefs : ∀ p, (refcnt p : ℤ) - (objects p).length - total (Op.ref p) l =
      s.refcnt p - (s.objects p).length - total (Op.ref p) (s.ops i))
    (hentries : ∀ p t, ((objects p).count t : ℤ) - msgs.count (p, t) + total (Op.entry p t) l =
      (s.objects p).count t - s.msgs.count (p, t) + total (Op.entry p t) (s.ops i)) :
    Inv procs ({ s with refcnt, objects, named, msgs }.goto i l) := by
  refine h.next rfl hl (fun p => ?_) (fun p t => ?_) fun t => ?_
  · have := hrefs p
    show (refcnt p : ℤ) - (objects p).length - s.owned p - _ = _
    omega
  · have := hentries p t
    show ((objects p).count t : ℤ) - msgs.count (p, t) - (if s.owner t = some p then 1 else 0) + _ = _
    omega
  · exact (h.task t).congr rfl (hmoves t) (hnames t) rfl rfl rfl rfl (hnamed t)

section Step

variable {rest : List (Op π τ)}

omit [Fintype ι] [DecidableEq ι] [DecidableEq π] [DecidableEq τ] in
theorem names {op : Op π τ} (hi : s.ops i = op :: rest) (t : τ) (ht : .name t ∈ rest) : .name t ∈ s.ops i := by
  rw [hi]
  exact List.mem_cons_of_mem op ht

theorem Inv.lock [Fintype τ] (h : Inv procs s) (hi : s.ops i = .lock p :: rest) :
    Inv procs ((s.lock p).goto i rest) := by
  have hg := h.good i
  rw [hi] at hg
  refine h.change hg.1 (fun t => ?_) (names hi) (fun t ht => .inl ht) (fun q => ?_) fun q t => ?_
  · rw [hi, total_cons]
    simp [Op.moves]
  · rw [hi, total_cons, Op.ref, update_apply]
    by_cases hq : q = p
    · subst hq
      simp
      omega
    · rw [if_neg hq, if_neg (Ne.symm hq)]
      omega
  · rw [hi, total_cons]
    simp [Op.entry]

theorem Inv.unlock [Fintype τ] (h : Inv procs s) (hi : s.ops i = .unlock p :: rest) :
    Inv procs ({ s with refcnt := update s.refcnt p (s.refcnt p - 1) }.goto i rest) := by
  have hg := h.good i
  have hheld := h.held i p
  rw [hi] at hg hheld
  have hrest := hg.1.ref p
  rw [total_cons, Op.ref, if_pos rfl] at hheld
  refine h.change hg.1 (fun t => ?_) (names hi) (fun t ht => .inl ht) (fun q => ?_) fun q t => ?_
  · rw [hi, total_cons]
    simp [Op.moves]
  · rw [hi, total_cons, Op.ref, update_apply]
    by_cases hq : q = p
    · subst hq
      simp only [if_true]
      omega
    · rw [if_neg hq, if_neg (Ne.symm hq)]
      omega
  · rw [hi, total_cons]
    simp [Op.entry]

theorem Inv.push [Fintype τ] (h : Inv procs s) (hi : s.ops i = .push p t :: rest) :
    Inv procs ({ s with objects := update s.objects p (s.objects p ++ [t]) }.goto i rest) := by
  have hg := h.good i
  rw [hi] at hg
  refine h.change hg.1 (fun t => ?_) (names hi) (fun t ht => .inl ht) (fun q => ?_) fun q u => ?_
  · rw [hi, total_cons]
    simp [Op.moves]
  · rw [hi, total_cons, Op.ref, update_apply]
    by_cases hq : q = p
    · subst hq
      simp
      omega
    · rw [if_neg hq, if_neg (Ne.symm hq)]
      omega
  · rw [hi, total_cons, Op.entry, update_apply]
    by_cases hq : q = p
    · subst hq
      simp only [if_true, List.count_append, List.count_singleton, true_and, beq_iff_eq]
      split <;> omega
    · rw [if_neg hq, if_neg fun hpq => hq hpq.1.symm]
      omega

theorem Inv.remove [Fintype τ] (h : Inv procs s) (hi : s.ops i = .remove p t :: rest) :
    t ∈ s.objects p ∧
      Inv procs
        ({ s with objects := update s.objects p ((s.objects p).erase t) }.goto i (.unlock p :: rest)) := by
  have hg := h.good i
  have hcount := h.entered i p t
  rw [hi] at hg hcount
  have hmem : t ∈ s.objects p := by
    have hrest := hg.1.entry p t
    rw [total_cons, Op.entry, if_pos ⟨rfl, rfl⟩] at hcount
    have : 0 < (s.objects p).count t := by omega
    exact List.count_pos_iff.1 this
  have hlen : 0 < (s.objects p).length := List.length_pos_of_mem hmem
  have hpos : 0 < (s.objects p).count t := List.count_pos_iff.2 hmem
  refine ⟨hmem, h.change (hg.1.unlock p) (fun t => ?_) (fun t ht => names hi t ?_) (fun t ht => .inl ht)
    (fun q => ?_) fun q u => ?_⟩
  · rw [hi, total_cons, total_cons]
    simp [Op.moves]
  · rcases List.mem_cons.1 ht with ht | ht
    · cases ht
    · exact ht
  · rw [hi, total_cons, total_cons, update_apply]
    simp only [Op.ref]
    by_cases hq : q = p
    · subst hq
      simp only [if_true, List.length_erase_of_mem hmem]
      omega
    · rw [if_neg hq, if_neg (Ne.symm hq)]
  · rw [hi, total_cons, total_cons, update_apply]
    simp only [Op.entry]
    by_cases hq : q = p
    · subst hq
      simp only [if_true, true_and]
      by_cases hut : t = u
      · subst hut
        simp only [if_true, List.count_erase_self]
        omega
      · rw [if_neg hut, List.count_erase_of_ne (Ne.symm hut)]
        omega
    · rw [if_neg hq, if_neg fun hpq => hq hpq.1.symm]
      omega

theorem Inv.send [Fintype τ] (h : Inv procs s) (hi : s.ops i = .send p t :: rest) :
    Inv procs ({ s with msgs := s.msgs ++ [(p, t)] }.goto i rest) := by
  have hg := h.good i
  rw [hi] at hg
  refine h.change hg.1 (fun t => ?_) (names hi) (fun t ht => .inl ht) (fun q => ?_) fun q u => ?_
  · rw [hi, total_cons]
    simp [Op.moves]
  · rw [hi, total_cons]
    simp [Op.ref]
  · rw [hi, total_cons, Op.entry, List.count_append, List.count_singleton]
    simp only [beq_iff_eq, Prod.mk.injEq]
    split <;> omega

theorem Inv.name [Fintype τ] (h : Inv procs s) (hi : s.ops i = .name t :: rest) :
    Inv procs ({ s with named := update s.named t true }.goto i rest) := by
  have hg := h.good i
  rw [hi] at hg
  refine h.change hg.1 (fun u => ?_) (names hi) (fun u hu => ?_) (fun q => ?_) fun q u => ?_
  · rw [hi, total_cons]
    simp [Op.moves]
  · by_cases hut : u = t
    · subst hut
      refine .inr ((h.task u).naming i ?_)
      rw [hi]
      exact List.mem_cons_self
    · rw [update_of_ne hut] at hu
      exact .inl hu
  · rw [hi, total_cons]
    simp [Op.ref]
  · rw [hi, total_cons]
    simp [Op.entry]

/-- The store gives the task the references that the call holds for it. -/
theorem Inv.store [Fintype τ] (h : Inv procs s) (hi : s.ops i = .store t p :: rest) :
    Inv procs
      ({ s with procId := update s.procId t (some p), owner := update s.owner t (some p) }.goto i rest) := by
  have hg := h.good i
  rw [hi] at hg
  have hT := h.task t
  have hpos : 1 ≤ s.pending (Op.moves t) := by
    have hle := total_le_pending s i (f := Op.moves t) fun j => moves_nonneg t (s.ops j)
    rw [hi, total_cons, Op.moves, if_pos rfl] at hle
    have := moves_nonneg t rest
    omega
  have hnone : s.owner t = none := by
    by_contra hne
    have := hT.once
    rw [if_neg hne] at this
    omega
  have hlive : s.live t = true := by
    by_contra hdead
    have := (hT.gone (Bool.not_eq_true _ |>.mp hdead)).2
    omega
  have howned : ∀ q,
      ({ s with procId := update s.procId t (some p), owner := update s.owner t (some p) }.goto i
        rest : St ι π τ).owned q =
          s.owned q - (if s.owner t = some q then 1 else 0) + if some p = some q then 1 else 0 :=
    fun q => owned_update rfl q
  refine h.next rfl hg.1 (fun q => ?_) (fun q u => ?_) fun u => ?_
  · rw [howned, hi, total_cons, Op.ref, hnone]
    show (s.refcnt q : ℤ) - (s.objects q).length - _ - _ = _
    simp only [reduceCtorEq, if_false, Option.some.injEq]
    omega
  · rw [hi, total_cons, Op.entry]
    show ((s.objects q).count u : ℤ) - s.msgs.count
      (q, u) - (if update s.owner t (some p) u = some q then 1 else 0) + _ = _
    by_cases hut : u = t
    · subst hut
      simp only [update_self, hnone, Option.some.injEq, and_true, reduceCtorEq, if_false]
      omega
    · rw [update_of_ne hut, if_neg (show ¬(p = q ∧ t = u) from fun hpq => hut hpq.2.symm)]
      omega
  · by_cases hut : u = t
    · subst hut
      have hpend : ({ s with procId := update s.procId u (some p), owner := update s.owner u (some p) }.goto i
          rest : St ι π τ).pending (Op.moves u) = s.pending (Op.moves u) - total (Op.moves u) (s.ops i) +
            total (Op.moves u) rest := pending_update _ i rest rfl
      rw [hi, total_cons, Op.moves, if_pos rfl] at hpend
      refine ⟨?_, fun _ => .inl ?_, fun hdead => ?_, fun hun => ?_, hT.named, fun j _ => hlive⟩
      · have := hT.once
        rw [hpend]
        show _ + (if update s.owner u (some p) u = none then 0 else 1) ≤ 1
        rw [update_self]
        simp only [reduceCtorEq, if_false]
        rw [hnone, if_pos rfl] at this
        omega
      · show update s.procId u (some p) u = update s.owner u (some p) u
        rw [update_self, update_self]
      · rw [show s.live u = false from hdead] at hlive
        cases hlive
      · rw [(hT.unused hun).1] at hlive
        cases hlive
    · refine (h.task u).congr rfl ?_ (names hi u)
        (update_of_ne hut _ _) (update_of_ne hut _ _) rfl rfl fun hn => .inl hn
      rw [hi, total_cons, Op.moves, if_neg (Ne.symm hut), zero_add]

theorem Inv.stepOp [Fintype τ] (h : Inv procs s) (hs : s.stepOp i = some s') : Inv procs s' := by
  unfold St.stepOp at hs
  split at hs
  case h_1 => cases hs
  case h_2 p rest hi =>
    obtain ⟨-, rfl⟩ := Option.ite_none_left_eq_some.1 hs |>.imp_right Option.some.inj
    exact h.lock hi
  case h_3 p rest hi =>
    rw [← Option.some.inj hs]
    exact h.unlock hi
  case h_4 p t rest hi =>
    rw [← Option.some.inj hs]
    exact h.push hi
  case h_5 p t rest hi =>
    obtain ⟨hmem, hI⟩ := h.remove hi
    rw [if_pos hmem] at hs
    rw [← Option.some.inj hs]
    exact hI
  case h_6 p t rest hi =>
    rw [← Option.some.inj hs]
    exact h.send hi
  case h_7 t p rest hi =>
    rw [← Option.some.inj hs]
    exact h.store hi
  case h_8 t rest hi =>
    rw [← Option.some.inj hs]
    exact h.name hi
  case h_9 t rest hi =>
    have hg := h.good i
    rw [hi] at hg
    exact absurd rfl (hg.2.2.2 t)

end Step

/-! ## Calls -/

/-- The weights of `prs_task_set_proc` after its lock. -/
theorem total_setProc (svc : Bool) (t : τ) (p : π) {o : Option π} (ho : o = none ∨ o = some p) (q : π) (u : τ) :
    total (Op.ref q) (setProc svc t p o) = (if o = some q then 1 else 0) + (if p = q then 1 else 0) ∧
      total (Op.entry q u) (setProc svc t p o) = -(if o = some q ∧ t = u then 1 else 0) ∧
      total (Op.moves u) (setProc svc t p o) = if t = u then 1 else 0 := by
  rcases ho with rfl | rfl
  · simp [setProc, register, Op.ref, Op.entry, Op.moves]
  · cases svc <;> simp [setProc, register, unregister, Op.ref, Op.entry, Op.moves]

omit [DecidableEq π] [DecidableEq τ] in
theorem no_name_setProc (svc : Bool) (t u : τ) (p : π) (o : Option π) :
    (.name u : Op π τ) ∉ setProc svc t p o := by
  cases o <;> cases svc <;> simp [setProc, register, unregister]

theorem Inv.setProc [Fintype τ] (h : Inv procs s) (hi : s.ops i = []) (hlive : s.live t = true)
    (hset : s.Settled t) (ho : s.procId t = none ∨ s.procId t = some p) (b : Bool) :
    Inv procs (({ s with owner := update s.owner t none }.lock p).goto i (Proc.setProc b t p (s.procId t))) := by
  have hT := h.task t
  have hmoves := Inv.settled s hset
  have howner : s.procId t = s.owner t := by
    rcases hT.here hlive with he | hpos
    · exact he
    · omega
  have htotal := total_setProc b t p ho
  have howned : ∀ q, (({ s with owner := update s.owner t none }.lock p).goto i
      (Proc.setProc b t p (s.procId t)) : St ι π τ).owned q =
        s.owned q - (if s.owner t = some q then 1 else 0) + if (none : Option π) = some q then 1 else 0 :=
    fun q => owned_update rfl q
  refine h.next rfl (good_setProc b t p _) (fun q => ?_) (fun q u => ?_) fun u => ?_
  · rw [howned, (htotal q t).1, hi, total_nil, howner]
    show ((update s.refcnt p (s.refcnt p + 1) q : ℕ) : ℤ) - (s.objects q).length - _ - _ = _
    rw [update_apply]
    simp only [reduceCtorEq, if_false]
    by_cases hq : q = p
    · subst hq
      simp only [if_true]
      push_cast
      omega
    · rw [if_neg hq, if_neg (Ne.symm hq)]
      omega
  · rw [(htotal q u).2.1, hi, total_nil, howner]
    show ((s.objects q).count u : ℤ) - s.msgs.count
      (q, u) - (if update s.owner t none u = some q then 1 else 0) + _ = _
    by_cases hut : u = t
    · subst hut
      simp only [update_self, reduceCtorEq, if_false, and_true]
      omega
    · rw [update_of_ne hut, if_neg (show ¬(s.owner t = some q ∧ t = u) from fun hq => hut hq.2.symm)]
      omega
  · by_cases hut : u = t
    · subst hut
      have hpend : (({ s with owner := update s.owner u none }.lock p).goto i
          (Proc.setProc b u p (s.procId u)) : St ι π τ).pending (Op.moves u) =
            s.pending (Op.moves u) - total (Op.moves u) (s.ops i) +
              total (Op.moves u) (Proc.setProc b u p (s.procId u)) :=
        pending_update _ i _ rfl
      rw [hi, total_nil, (htotal p u).2.2, hmoves, if_pos rfl] at hpend
      refine ⟨?_, fun _ => .inr ?_, fun hdead => ?_, hT.unused, hT.named, fun j _ => hlive⟩
      · rw [hpend]
        show _ + (if update s.owner u none u = none then 0 else 1) ≤ 1
        rw [update_self, if_pos rfl]
        omega
      · rw [hpend]
        omega
      · rw [show s.live u = false from hdead] at hlive
        cases hlive
    · refine (h.task u).congr rfl ?_ (fun hn => absurd hn (no_name_setProc b t u p _))
        (update_of_ne hut _ _) rfl rfl rfl
        fun hn => .inl hn
      rw [(htotal p u).2.2, hi, total_nil, if_neg (Ne.symm hut)]

/-- The weights of `prs_task_destroy`. -/
theorem total_destroy (svc : Bool) (t : τ) (o : Option π) (q : π) (u : τ) :
    total (Op.ref q) (destroy svc t o) = (if o = some q then 1 else 0) ∧
      total (Op.entry q u) (destroy svc t o) = -(if o = some q ∧ t = u then 1 else 0) := by
  cases o with
  | none => simp [destroy]
  | some p => cases svc <;> simp [destroy, unregister, Op.ref, Op.entry]

omit [DecidableEq π] in
theorem moves_destroy (svc : Bool) (t : τ) (o : Option π) (u : τ) : total (Op.moves u) (destroy svc t o) = 0 := by
  cases o <;> cases svc <;> simp [destroy, unregister, Op.moves]

omit [DecidableEq π] [DecidableEq τ] in
theorem no_name_destroy (svc : Bool) (t u : τ) (o : Option π) : (.name u : Op π τ) ∉ destroy svc t o := by
  cases o <;> cases svc <;> simp [destroy, unregister]

theorem Inv.destroy [Fintype τ] (h : Inv procs s) (hi : s.ops i = []) (hname : s.named t = true)
    (hset : s.Settled t) (b : Bool) (hs : s' = { s with
      named := update s.named t false
      live := update s.live t false
      owner := update s.owner t none }.goto i (Proc.destroy b t (s.procId t))) : Inv procs s' := by
  have hops : s'.ops = update s.ops i (Proc.destroy b t (s.procId t)) := by rw [hs]; rfl
  have hown : s'.owner = update s.owner t none := by rw [hs]; rfl
  have hlive : s'.live = update s.live t false := by rw [hs]; rfl
  have hnamed : s'.named = update s.named t false := by rw [hs]; rfl
  have hT := h.task t
  have hmoves := Inv.settled s hset
  have howner : s.procId t = s.owner t := by
    rcases hT.here (hT.named hname) with he | hpos
    · exact he
    · omega
  have htotal := total_destroy b t (s.procId t)
  refine h.next hops (good_destroy b t _) (fun q => ?_) (fun q u => ?_) fun u => ?_
  · rw [owned_update hown, (htotal q t).1, hi, total_nil, howner, hs]
    show (s.refcnt q : ℤ) - (s.objects q).length - _ - _ = _
    simp only [reduceCtorEq, if_false]
    omega
  · rw [(htotal q u).2, hi, total_nil, howner, hown, hs]
    show ((s.objects q).count u : ℤ) - s.msgs.count
      (q, u) - (if update s.owner t none u = some q then 1 else 0) + _ = _
    by_cases hut : u = t
    · subst hut
      simp only [update_self, reduceCtorEq, if_false, and_true]
      omega
    · rw [update_of_ne hut, if_neg (show ¬(s.owner t = some q ∧ t = u) from fun hq => hut hq.2.symm)]
      omega
  · by_cases hut : u = t
    · subst hut
      have hpend : s'.pending (Op.moves u) = 0 := by
        rw [pending_update _ i _ hops, hi, total_nil, moves_destroy, hmoves]
        rfl
      have hdead : s'.live u = false := by rw [hlive, update_self]
      have hnone : s'.owner u = none := by rw [hown, update_self]
      refine ⟨?_, fun hl => ?_, fun _ => ⟨hnone, hpend⟩, fun hun => ⟨hdead, ?_⟩, fun hn => ?_, fun j hj => ?_⟩
      · rw [hpend, hnone, if_pos rfl]
        omega
      · rw [hdead] at hl
        cases hl
      · rw [hs] at hun ⊢
        exact (hT.unused hun).2
      · rw [hnamed, update_self] at hn
        cases hn
      · rw [hops] at hj
        by_cases hji : j = i
        · subst hji
          rw [update_self] at hj
          exact absurd hj (no_name_destroy b u u _)
        · rw [update_of_ne hji] at hj
          have := hset j _ hj
          simp [Op.settles] at this
    · refine (h.task u).congr hops ?_ (fun hn => absurd hn (no_name_destroy b t u _)) ?_ (by rw [hs]; rfl) ?_
        (by rw [hs]; rfl)
        fun hn => .inl ?_
      · rw [moves_destroy, hi, total_nil]
      · rw [hown, update_of_ne hut]
      · rw [hlive, update_of_ne hut]
      · rw [hnamed, update_of_ne hut] at hn
        exact hn

/-- The process service takes a message. The entry that it is about is in the list, so the process is there. -/
theorem Inv.handle [Fintype τ] (h : Inv procs s) (hi : s.ops i = []) {msgs : List (π × τ)}
    (hm : s.msgs = (p, t) :: msgs) :
    s.refcnt p ≠ 0 ∧ Inv procs (({ s with msgs := msgs }.lock p).goto i [.remove p t, .unlock p]) := by
  have hcount := h.entered i p t
  have hheld := h.held i p
  rw [hi, total_nil] at hcount hheld
  rw [hm, List.count_cons_self] at hcount
  have hlen : (s.objects p).count t ≤ (s.objects p).length := List.count_le_length
  refine ⟨by omega, h.change ?_ (fun u => ?_) (fun u hu => ?_) (fun u hu => .inl hu) (fun q => ?_) fun q u => ?_⟩
  · exact (Good.unlock (l := []) trivial p).unregister true p t
  · rw [hi]
    simp [Op.moves]
  · simp at hu
  · rw [hi, update_apply]
    simp only [total_cons, total_nil, Op.ref]
    by_cases hq : q = p
    · subst hq
      simp only [if_true]
      push_cast
      omega
    · rw [if_neg hq, if_neg (Ne.symm hq)]
      omega
  · rw [hi, hm, List.count_cons]
    simp only [total_cons, total_nil, Op.entry, beq_iff_eq, Prod.mk.injEq]
    split <;> omega

/-- A task is created, by a call that goes on with `l`. -/
theorem Inv.born [Fintype τ] (h : Inv procs s) (hi : s.ops i = []) (ht : s.used t = false) {l : List (Op π τ)}
    (refcnt : π → ℕ) {k : ℤ} (hs : s' = { s with
      used := update s.used t true
      live := update s.live t true
      refcnt := refcnt }.goto i l)
    (hl : Good l) (hrefs : ∀ q, (refcnt q : ℤ) - total (Op.ref q) l = s.refcnt q)
    (hentries : ∀ q u, total (Op.entry q u) l = 0) (hk : 0 ≤ k ∧ k ≤ 1)
    (hmoves : ∀ u, total (Op.moves u) l = if t = u then k else 0) (hnames : ∀ u, .name u ∈ l → u = t) :
      Inv procs s' := by
  have hops : s'.ops = update s.ops i l := by rw [hs]; rfl
  have hT := h.task t
  obtain ⟨hdead, hproc⟩ := hT.unused ht
  obtain ⟨hnone, hzero⟩ := hT.gone hdead
  refine h.next hops hl (fun q => ?_) (fun q u => ?_) fun u => ?_
  · have := hrefs q
    rw [hi, total_nil, hs]
    show (refcnt q : ℤ) - (s.objects q).length - s.owned q - _ = _
    omega
  · rw [hi, total_nil, hentries, hs]
    rfl
  · by_cases hut : u = t
    · subst hut
      have hpend : s'.pending (Op.moves u) = k := by
        rw [pending_update _ i l hops, hi, total_nil, hmoves, if_pos rfl, hzero]
        omega
      have hlive : s'.live u = true := by
        rw [hs]
        exact update_self ..
      have hown : s'.owner u = none := by rw [hs]; exact hnone
      refine ⟨?_, fun _ => .inl ?_, fun hd => ?_, fun hun => ?_, fun _ => hlive, fun j _ => hlive⟩
      · rw [hpend, hown, if_pos rfl]
        omega
      · rw [hown, hs]
        exact hproc
      · rw [hlive] at hd
        cases hd
      · rw [hs] at hun
        simp only [St.goto, update_self] at hun
        cases hun
    · refine (h.task u).congr hops ?_ (fun hn => absurd (hnames u hn) hut) (by rw [hs]; rfl)
        (by rw [hs]; rfl) ?_ ?_
        fun hn => .inl ?_
      · rw [hmoves, if_neg (Ne.symm hut), hi, total_nil]
      · rw [hs]
        exact update_of_ne hut _ _
      · rw [hs]
        exact update_of_ne hut _ _
      · rw [hs] at hn
        exact hn

/-- A task is not created after all. -/
theorem Inv.unborn [Fintype τ] (h : Inv procs s) (hi : s.ops i = []) :
    Inv procs ({ s with used := update s.used t true }.goto i []) := by
  refine h.next rfl trivial (fun q => ?_) (fun q u => ?_) fun u => ?_
  · rw [hi]
    rfl
  · rw [hi]
    rfl
  · have hT := h.task u
    have hpend : ({ s with used := update s.used t true }.goto i [] : St ι π τ).pending (Op.moves u) =
        s.pending (Op.moves u) := by
      rw [pending_update (s := s) _ i [] rfl, hi, total_nil]
      omega
    refine ⟨?_, ?_, ?_, fun hun => ?_, hT.named, fun j hj => ?_⟩
    · rw [hpend]
      exact hT.once
    · rw [hpend]
      exact hT.here
    · rw [hpend]
      exact hT.gone
    · by_cases hut : u = t
      · rw [hut] at hun
        simp only [St.goto, update_self] at hun
        cases hun
      · have hun : update s.used t true u = false := hun
        rw [update_of_ne hut] at hun
        exact hT.unused hun
    · have hj : .name u ∈ update s.ops i [] j := hj
      by_cases hji : j = i
      · subst hji
        rw [update_self] at hj
        cases hj
      · rw [update_of_ne hji] at hj
        exact hT.naming j hj

theorem Inv.create [Fintype τ] (h : Inv procs s) (hi : s.ops i = []) (ht : s.used t = false) {nameOk : Bool}
    {o : Option π} (ho : nameOk = true ∨ o = none) : Inv procs (s.create i t nameOk o [] []) := by
  unfold St.create
  cases o with
  | none =>
    cases nameOk with
    | false => exact h.unborn hi
    | true =>
      refine h.born hi ht s.refcnt rfl (good_name t) (k := 0) (fun q => ?_) (fun q u => ?_) (by omega)
        (fun u => ?_) fun u hu => ?_
      · simp [Op.ref]
      · simp [Op.entry]
      · simp [Op.moves]
      · simpa using hu
  | some p =>
    simp only
    split
    · exact h.unborn hi
    · obtain rfl : nameOk = true := ho.resolve_right fun hn => by cases hn
      refine h.born hi ht (update s.refcnt p (s.refcnt p + 1)) (k := 1) rfl ((good_name t).register t p)
        (fun q => ?_)
        (fun q u => ?_) (by omega) (fun u => ?_) fun u hu => ?_
      · rw [update_apply]
        by_cases hq : q = p
        · subst hq
          simp [register, Op.ref]
        · simp [register, Op.ref, hq, Ne.symm hq]
      · simp [register, Op.entry]
      · simp [register, Op.moves]
      · simpa [register] using hu

theorem Inv.step [Fintype τ] (h : Inv procs s) {a : Act ι π τ} (ha : s.Kept a) (hs : s.step svc a = some s') :
    Inv procs s' := by
  cases a with
  | create i c t nameOk =>
    obtain ⟨⟨hi, ht⟩, rfl⟩ := Option.ite_none_right_eq_some.1 hs |>.imp_right Option.some.inj
    exact h.create hi ht ha
  | setProc i t p =>
    obtain ⟨⟨hi, hlive⟩, hs⟩ := Option.ite_none_right_eq_some.1 hs
    split at hs
    · rw [← Option.some.inj hs]
      exact h
    · rw [← Option.some.inj hs]
      exact h.setProc hi hlive ha.2 ha.1 _
  | destroy i t =>
    obtain ⟨⟨hi, -⟩, hs⟩ := Option.ite_none_right_eq_some.1 hs
    split at hs
    · rename_i hname
      exact h.destroy hi hname ha _ (Option.some.inj hs).symm
    · rw [← Option.some.inj hs]
      exact h
  | exec c p t loadOk nameOk addOk =>
    obtain ⟨-, hs⟩ := Option.ite_none_right_eq_some.1 hs
    rw [show loadOk = false from ha] at hs
    rw [← Option.some.inj hs]
    exact h
  | handle =>
    obtain ⟨hi, hs⟩ := Option.ite_none_right_eq_some.1 hs
    split at hs
    · cases hs
    · rename_i p t msgs hm
      obtain ⟨hne, hI⟩ := h.handle hi hm
      rw [if_neg hne] at hs
      rw [← Option.some.inj hs]
      exact hI
  | step i => exact h.stepOp hs

/-! ## Runs -/

/-- No call is in progress, and no unregister message is pending. -/
def St.Quiet (s : St ι π τ) : Prop := (∀ i, s.ops i = []) ∧ s.msgs = []

instance (s : St ι π τ) : Decidable s.Quiet := inferInstanceAs (Decidable (_ ∧ _))

/-- The tasks of process `p`. -/
def St.members [Fintype τ] (s : St ι π τ) (p : π) : Finset τ := Finset.univ.filter fun t => s.live t = true ∧
    s.procId t = some p

omit [DecidableEq ι] [DecidableEq π] [DecidableEq τ] in
theorem pending_quiet (hq : s.Quiet) (f : Op π τ → ℤ) : s.pending f = 0 :=
  Finset.sum_eq_zero fun i _ => by rw [hq.1 i, total_nil]

omit [DecidableEq ι] in
/-- When nothing is in progress, a task has the references of the process that it says. -/
theorem Inv.owner_iff [Fintype τ] (h : Inv procs s) (hq : s.Quiet) (t : τ) (p : π) :
    s.owner t = some p ↔ s.live t = true ∧ s.procId t = some p := by
  have hT := h.task t
  have hzero := pending_quiet hq (Op.moves t)
  constructor
  · intro ho
    have hlive : s.live t = true := by
      by_contra hdead
      rw [(hT.gone (Bool.not_eq_true _ |>.mp hdead)).1] at ho
      cases ho
    refine ⟨hlive, ?_⟩
    rcases hT.here hlive with he | hpos
    · rw [he, ho]
    · omega
  · rintro ⟨hlive, hp⟩
    rcases hT.here hlive with he | hpos
    · rw [← he, hp]
    · omega

omit [DecidableEq ι] in
theorem Inv.count [Fintype τ] (h : Inv procs s) (hq : s.Quiet) (p : π) (t : τ) :
    (s.objects p).count t = if s.live t = true ∧ s.procId t = some p then 1 else 0 := by
  have he := h.entries p t
  rw [pending_quiet hq, hq.2, List.count_nil] at he
  simp only [h.owner_iff hq] at he
  split at he <;> rename_i hm
  · rw [if_pos hm]
    omega
  · rw [if_neg hm]
    omega

omit [DecidableEq ι] in
theorem Inv.length [Fintype τ] (h : Inv procs s) (hq : s.Quiet) (p : π) :
    (s.objects p).length = (s.members p).card := by
  have hsum : ∑ t, (s.objects p : Multiset τ).count t = Multiset.card (s.objects p : Multiset τ) :=
    Multiset.sum_count_eq_card fun t _ => Finset.mem_univ t
  simp only [Multiset.coe_count, Multiset.coe_card, h.count hq p] at hsum
  rw [← hsum, St.members, Finset.card_filter]

omit [DecidableEq ι] in
theorem Inv.owned [Fintype τ] (h : Inv procs s) (hq : s.Quiet) (p : π) : s.owned p = (s.members p).card := by
  unfold St.owned
  simp only [h.owner_iff hq]
  rw [St.members, Finset.card_filter]
  push_cast
  rfl

/-- **The tasks of a process.** In every run in which a task is created with its name accepted or by a task
without a process, is given a process only when it has none or has that one, the calls for one task do not
overlap and no process is loaded: in every state with no call in progress and no unregister message pending, a
task is in the list of its process once and in no other, and a process has one reference of its own and two
for each of its tasks. -/
theorem members_counted [Fintype τ] (h : (sys ι π τ svc procs).Reach St.Kept s) (hq : s.Quiet) :
    (∀ t p, s.live t = true → s.procId t = some p → (s.objects p).count t = 1 ∧ ∀ q, q ≠ p → t ∉ s.objects q) ∧
      ∀ p, procs p = true → s.refcnt p = 1 + 2 * (s.members p).card := by
  have hI : Inv procs s := by
    refine h.inv ?_ ?_
    · rintro _ rfl
      exact inv_init
    · intro s a s' hI ha hs
      exact hI.step ha hs
  refine ⟨fun t p hlive hp => ⟨?_, fun q hqp hm => ?_⟩, fun p hp => ?_⟩
  · rw [hI.count hq, if_pos ⟨hlive, hp⟩]
  · have := hI.count hq q t
    rw [if_neg fun hm => hqp (Option.some.inj (hm.2.symm.trans hp))] at this
    exact List.count_eq_zero.1 this hm
  · have hr := hI.refs p
    rw [pending_quiet hq, hI.owned hq, hI.length hq, hp] at hr
    simp only [Bool.toNat_true] at hr
    omega

/-- Task 0 is given process 0 and creates task 1, which is destroyed; then task 2 is created. -/
theorem members_counted_three : ∃ s : St (Fin 2) (Fin 1) (Fin 3),
    (sys (Fin 2) (Fin 1) (Fin 3) 0 fun _ => true).Reach St.Kept s ∧ s.Quiet ∧ s.objects 0 = [0, 2] ∧
    s.refcnt 0 = 5 ∧ s.refcnt 0 = 1 + 2 * (s.members 0).card := by
  obtain ⟨s, hs, hq, ho, hr⟩ := System.exists_of_check (sys (Fin 2) (Fin 1) (Fin 3) 0 fun _ => true) St.Kept
    (fun s => s.Quiet ∧ s.objects 0 = [0, 2] ∧ s.refcnt 0 = 5) (.init fun _ => true) rfl
    (List.flatten [.create 1 none 0 true :: .step 1 :: .setProc 1 0 0 :: List.replicate 3 (.step 1),
      .create 1 (some 0) 1 true :: List.replicate 4 (.step 1),
      .destroy 1 1 :: .create 0 (some 0) 2 true :: List.replicate 4 (.step 1), List.replicate 4 (.step 0),
      .handle :: List.replicate 3 (.step 0)]) (by decide +kernel)
  exact ⟨s, hs, hq, ho, hr, (members_counted hs hq).2 0 rfl⟩

/-- **The tasks of a process are not counted right.** The process service, a task of process 0, executes
process 1: its main task is in both lists, process 0 has two references for it that are never dropped, and
process 1 has one for it instead of two. -/
theorem members_wrong : ∃ s : St (Fin 2) (Fin 2) (Fin 2),
    (sys (Fin 2) (Fin 2) (Fin 2) 0 fun p => decide (p = 0)).Reachable s ∧ s.Quiet ∧ s.procId 1 = some 1 ∧
    s.live 1 = true ∧ s.objects 0 = [0, 1] ∧ s.objects 1 = [1] ∧ s.refcnt 0 = 5 ∧ s.refcnt 1 = 2 := by
  obtain ⟨s, hs, h⟩ := System.exists_of_check (sys (Fin 2) (Fin 2) (Fin 2) 0 fun p => decide (p = 0))
    (fun _ _ => True)
    (fun s => s.Quiet ∧ s.procId 1 = some 1 ∧ s.live 1 = true ∧ s.objects 0 = [0, 1] ∧ s.objects 1 = [1] ∧
      s.refcnt 0 = 5 ∧ s.refcnt 1 = 2) (.init fun p => decide (p = 0)) rfl
    (List.flatten [.create 0 none 0 true :: .step 0 :: .setProc 0 0 0 :: List.replicate 3 (.step 0),
      .exec (some 0) 1 1 true true true :: List.replicate 11 (.step 0)]) (by decide +kernel)
  exact ⟨s, hs, h⟩

end Prs.Proc
