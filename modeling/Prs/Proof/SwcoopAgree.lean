import Prs.Model.Swcoop
import Prs.Proof.SwprioOrder

/-!
# The two schedulers agree on equal priorities

When all tasks have one priority, the ready queue of that priority is the ready queue of the cooperative
scheduler. The two share no code: the one has a mask and a queue for each priority and preempts, the other
goes on with the task that runs.

* `Sim`: the relation of the two, and that every call keeps it.
* `schedulers_agree`: in every run the two go the same way.
-/

namespace Prs.Swcoop

open Function

variable {τ : Type} [DecidableEq τ] {a a' : Swprio.St τ} {b b' : St τ} {p : Swprio.Prio} {t c : τ}

/-- The call of the priority scheduler. -/
def Act.toSwprio : Act τ → Swprio.Act τ
  | .add t => .add t
  | .block => .block
  | .unblock t remote => .unblock t remote
  | .yield => .yield
  | .remove t => .remove t
  | .getNext => .getNext

/-- What the cooperative scheduler is when the priorities of `a` are forgotten. -/
def ofSwprio (a : Swprio.St τ) : St τ where
  state := a.state
  userdata := a.userdata
  sched := ⟨a.arrivals, a.sched.removeq⟩
  current := a.current
  leaving := a.leaving

/-- The priority scheduler `a` with all tasks of priority `p`, and the cooperative scheduler `b`. -/
structure Sim (p : Swprio.Prio) (a : Swprio.St τ) (b : St τ) : Prop where
  inv : Swprio.Inv a
  current : Swprio.Current a
  prio : ∀ t, a.prio t = p
  eq : b = ofSwprio a

/-! ## The loop over `removeq` -/

theorem retire_eq (a : Swprio.St τ) (t : τ) : (ofSwprio a).retire t = ofSwprio (a.retire t) := by
  unfold St.retire
  by_cases ht : t ∈ a.arrivals
  · rw [if_pos (show t ∈ (ofSwprio a).sched.readyq from ht)]
    rfl
  · rw [if_neg (show t ∉ (ofSwprio a).sched.readyq from ht)]
    simp only [ofSwprio, Swprio.St.retire, List.erase_of_not_mem ht]

theorem scan_eq (a : Swprio.St τ) (ts : List τ) :
    (ofSwprio a).scan ts = ((a.scan ts).1, ofSwprio (a.scan ts).2) := by
  induction ts generalizing a with
  | nil => rfl
  | cons t ts ih =>
    unfold St.scan Swprio.St.scan
    by_cases hc : a.current = some t
    · rw [if_pos hc, if_pos (show (ofSwprio a).current = some t from hc)]
    · rw [if_neg hc, if_neg (show (ofSwprio a).current ≠ some t from hc), retire_eq, ih]

/-! ## The choice -/

section Select

variable (hI : Swprio.Inv a) (hp : ∀ t, a.prio t = p)
include hI hp

omit [DecidableEq τ] in
/-- The queue of the one priority is the list of all tasks that wait. -/
theorem readyq_eq : a.sched.readyq p = a.arrivals := by
  rw [hI.queue, Swprio.onPrio]
  refine List.filter_eq_self.2 fun t _ => ?_
  exact decide_eq_true (hp t)

theorem take_eq_ofSwprio : (ofSwprio a).take = ((a.take p).1, ofSwprio (a.take p).2) := by
  have hq := readyq_eq hI hp
  unfold St.take Swprio.St.take
  rw [hq, show (ofSwprio a).sched.readyq = a.arrivals from rfl]
  cases ha : a.arrivals with
  | nil => rfl
  | cons t r =>
    simp only [ofSwprio, Swprio.St.setState, St.setState, Swprio.Sched.dequeue, ha]

/-- The choices of the two schedulers, when the loop over the mask has found `o`. -/
theorem select_eq {o : Option Swprio.Prio} (hsome : ∀ p', o = some p' → a.sched.readyq p' ≠ [])
    (hnone : o = none → ∀ p', a.sched.readyq p' = []) :
    (ofSwprio a).select = ((a.select o).1, ofSwprio (a.select o).2) := by
  have htake := take_eq_ofSwprio hI hp
  cases o with
  | none =>
    -- nothing waits
    have hnil : a.take p = (none, a) := by
      unfold Swprio.St.take
      rw [hnone rfl p]
    rw [hnil] at htake
    unfold St.select Swprio.St.select
    rw [show (ofSwprio a).current = a.current from rfl]
    cases a.current with
    | none => exact htake
    | some c =>
      simp only
      by_cases hrun : a.state c = .running
      · rw [if_pos hrun, if_pos (show (ofSwprio a).state c = .running from hrun)]
      · rw [if_neg hrun, if_neg (show (ofSwprio a).state c ≠ .running from hrun), htake]
  | some p' =>
    have hpp : p' = p := by
      obtain ⟨t, r, ht⟩ := List.exists_cons_of_ne_nil (hsome p' rfl)
      have hm : t ∈ a.sched.readyq p' := by
        rw [ht]
        exact List.mem_cons_self
      rw [← (hI.mem_of_readyq hm).2, hp]
    subst hpp
    unfold St.select Swprio.St.select
    rw [show (ofSwprio a).current = a.current from rfl]
    cases a.current with
    | none => exact htake
    | some c =>
      simp only
      by_cases hrun : a.state c = .running
      · -- the running task is not less urgent than its equals
        rw [if_pos hrun, if_pos (show (ofSwprio a).state c = .running from hrun), hp c, if_neg (lt_irrefl p')]
      · rw [if_neg hrun, if_neg (show (ofSwprio a).state c ≠ .running from hrun), htake]

end Select

omit [DecidableEq τ] in
theorem ofSwprio_searched (hI : Swprio.Inv a) : ofSwprio a.searched = ofSwprio a := by
  simp only [ofSwprio, Swprio.St.searched, hI.found.removeq]

/-- **`get_next` of the two schedulers.** -/
theorem getNext_eq (h : Sim p a b) : b.getNext = (a.getNext.1, a.getNext.2.1, ofSwprio a.getNext.2.2) := by
  have hscan := Swprio.scan_spec h.inv h.current rfl
  have heq := scan_eq a a.sched.removeq
  rw [h.eq]
  unfold St.getNext Swprio.St.getNext
  rw [show (ofSwprio a).sched.removeq = a.sched.removeq from rfl, heq]
  generalize a.scan a.sched.removeq = r at hscan
  obtain ⟨x, a₁⟩ := r
  cases x with
  | false => rfl
  | true =>
    have hprio : ∀ t, a₁.prio t = p := fun t => by
      rw [show a₁.prio = a.prio from hscan.prio]
      exact h.prio t
    have hfound := hscan.inv.found
    have hsel := select_eq hscan.inv.searched hprio (o := (a₁.sched.search 32 a₁.sched.readyMask).2)
      (fun p' hp' => by
        rw [show a₁.searched.sched.readyq = a₁.sched.readyq from hfound.readyq]
        exact (hfound.first p' hp').1)
      (fun hnone p' => by
        rw [show a₁.searched.sched.readyq = a₁.sched.readyq from hfound.readyq]
        exact hfound.empty hnone p')
    rw [ofSwprio_searched hscan.inv] at hsel
    simp only [hsel]
    rfl

/-! ## Runs -/

omit [DecidableEq τ] in
theorem toSwprio_ne (x : Act τ) (p : Swprio.Prio) : x.toSwprio ≠ .setPrio p := by
  cases x <;> exact fun h => by cases h

/-- A call of the cooperative scheduler, seen from the priority scheduler. -/
theorem step_eq (h : Sim p a b) (x : Act τ) : b.step x = (a.step x.toSwprio).map ofSwprio := by
  have hnext := getNext_eq h
  rw [h.eq] at hnext ⊢
  cases x with
  | add t =>
    simp only [Act.toSwprio, St.step, Swprio.St.step]
    rw [show (ofSwprio a).userdata = a.userdata from rfl, show (ofSwprio a).state = a.state from rfl]
    split
    · rfl
    · rfl
  | block =>
    simp only [Act.toSwprio, St.step, Swprio.St.step]
    rw [show (ofSwprio a).current = a.current from rfl, show (ofSwprio a).leaving = a.leaving from rfl]
    cases a.current with
    | none => rfl
    | some t =>
      by_cases hl : a.leaving = false
      · simp only [hl, if_true]
        rfl
      · simp only [hl]
        rfl
  | unblock t remote =>
    simp only [Act.toSwprio, St.step, Swprio.St.step]
    rw [show (ofSwprio a).current = a.current from rfl, show (ofSwprio a).state = a.state from rfl]
    split
    · split
      · rfl
      · rfl
    · rfl
  | yield =>
    simp only [Act.toSwprio, St.step, Swprio.St.step]
    rw [show (ofSwprio a).current = a.current from rfl, show (ofSwprio a).leaving = a.leaving from rfl]
    cases a.current with
    | none => rfl
    | some t =>
      by_cases hl : a.leaving = false
      · simp only [hl, if_true]
        rfl
      · simp only [hl]
        rfl
  | remove t =>
    simp only [Act.toSwprio, St.step, Swprio.St.step]
    rw [show (ofSwprio a).userdata = a.userdata from rfl, show (ofSwprio a).state = a.state from rfl,
      show (ofSwprio a).sched.removeq = a.sched.removeq from rfl]
    split
    · split
      · rfl
      · rfl
    · rfl
  | getNext =>
    simp only [Act.toSwprio, St.step, Swprio.St.step, hnext]
    rfl

theorem sim_step (a : Swprio.St τ) (b : St τ) (x : Act τ) (h : Sim p a b) :
    Option.Rel (Sim p) (a.step x.toSwprio) (b.step x) := by
  rw [step_eq h]
  cases hs : a.step x.toSwprio with
  | none => exact .none
  | some a' =>
    obtain ⟨hI, hC⟩ := h.inv.step h.current hs
    refine .some ⟨hI, hC, fun t => ?_, rfl⟩
    rw [(Swprio.step_kept h.inv h.current (toSwprio_ne x) hs).1]
    exact h.prio t

/-- What is seen of the two schedulers: the states of the tasks, and what `get_next` returns and leaves. -/
structure Agree (a : Swprio.St τ) (b : St τ) : Prop where
  state : a.state = b.state
  result : a.getNext.1 = b.getNext.1
  task : a.getNext.2.1 = b.getNext.2.1
  left : a.getNext.2.2.state = b.getNext.2.2.state

theorem Sim.agree (h : Sim p a b) : Agree a b := by
  have hnext := getNext_eq h
  refine ⟨?_, ?_, ?_, ?_⟩
  · rw [h.eq]
    rfl
  all_goals
    rw [hnext]
  rfl

omit [DecidableEq τ] in
theorem sim_init : Sim p (.init fun _ => p) (St.init : St τ) :=
  ⟨Swprio.inv_init, Swprio.current_init, fun _ => rfl, rfl⟩

/-- **The two schedulers agree.** For every list of calls with all tasks of one priority, either both
schedulers go through it or neither does, and where they do the tasks have the same states and `get_next`
returns the same, the same task, and leaves the same states. -/
theorem schedulers_agree (p : Swprio.Prio) (xs : List (Act τ)) :
    Option.Rel Agree ((Swprio.sys τ).run (.init fun _ => p) (xs.map Act.toSwprio)) ((sys τ).run .init xs) := by
  have hrel := System.run_rel (S := Swprio.sys τ) (T := sys τ) (sim_step (p := p)) sim_init xs
  generalize (Swprio.sys τ).run (.init fun _ => p) (xs.map Act.toSwprio) = x at hrel ⊢
  generalize (sys τ).run .init xs = y at hrel ⊢
  cases hrel with
  | none => exact .none
  | some h => exact .some h.agree

end Prs.Swcoop
