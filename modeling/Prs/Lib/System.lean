import Mathlib.Data.Option.Basic

/-!
# Transition systems

A program and its environment are a step function on an explicit state: `step s a` is the state after
action `a`, or `none` when `a` is not enabled at `s`. Each action is one atomic step of one party, so a
list of actions is an interleaving.

* `Reach ok`: the states of the runs whose every step meets `ok`.
* `Reach.inv`: a property that holds initially and is kept by every step holds in every state reached.
* `withHistory`: a system with a variable that only records what has happened.
* `run_rel`: two systems whose steps keep a relation keep it in every run of the same actions.
* `exists_of_check`: a list of actions that runs through is such a run, so an execution can be given by its
  actions and evaluated.
-/

namespace Prs

/-- A transition system. -/
structure System (σ α : Type*) where
  init : σ → Prop
  step : σ → α → Option σ

namespace System

variable {σ α : Type*} (S : System σ α)

/-- The states of the runs whose every step meets `ok`. -/
inductive Reach (ok : σ → α → Prop) : σ → Prop
  | init {s : σ} (h : S.init s) : Reach ok s
  | step {s s' : σ} {a : α} (h : Reach ok s) (hok : ok s a) (hs : S.step s a = some s') : Reach ok s'

/-- The states of all runs. -/
def Reachable : σ → Prop := S.Reach fun _ _ => True

variable {S} {ok : σ → α → Prop}

/-- **Invariants.** What holds initially and is kept by every step holds in every state reached. -/
theorem Reach.inv {I : σ → Prop} (h0 : ∀ s, S.init s → I s)
    (hstep : ∀ s a s', I s → ok s a → S.step s a = some s' → I s') {s : σ} (h : S.Reach ok s) : I s := by
  induction h with
  | init h => exact h0 _ h
  | step _ hok hs ih => exact hstep _ _ _ ih hok hs

theorem Reachable.inv {I : σ → Prop} (h0 : ∀ s, S.init s → I s)
    (hstep : ∀ s a s', I s → S.step s a = some s' → I s') {s : σ} (h : S.Reachable s) : I s :=
  Reach.inv h0 (fun s a s' hI _ => hstep s a s' hI) h

/-- Whether a list of actions runs through from `s` with every step meeting `ok`, and ends in a state with `P`. -/
def check (S : System σ α) (ok : σ → α → Prop) [∀ s a, Decidable (ok s a)] (P : σ → Prop) [DecidablePred P] :
    σ → List α → Bool
  | s, [] => decide (P s)
  | s, a :: as => decide (ok s a) && (S.step s a).any fun s' => S.check ok P s' as

theorem Reach.of_check [∀ s a, Decidable (ok s a)] {P : σ → Prop} [DecidablePred P] {s : σ} (hs : S.Reach ok s)
    {as : List α} (h : S.check ok P s as = true) : ∃ t, S.Reach ok t ∧ P t := by
  induction as generalizing s with
  | nil => exact ⟨s, hs, of_decide_eq_true h⟩
  | cons a as ih =>
    simp only [check, Bool.and_eq_true, decide_eq_true_eq, Option.any_eq_true] at h
    obtain ⟨hok, s', hs', h'⟩ := h
    exact ih (hs.step hok hs') h'

section History

variable {η : Type*}

/-- `S` with a history variable: it starts at `h₀`, and each step updates it from the action and the new state.
Nothing else reads it. -/
def withHistory (S : System σ α) (h₀ : η) (upd : α → σ → η → η) : System (σ × η) α where
  init p := S.init p.1 ∧ p.2 = h₀
  step p a := (S.step p.1 a).map fun s' => (s', upd a s' p.2)

variable {h₀ : η} {upd : α → σ → η → η}

theorem withHistory_step {p p' : σ × η} {a : α} (h : (S.withHistory h₀ upd).step p a = some p') :
    S.step p.1 a = some p'.1 ∧ p'.2 = upd a p'.1 p.2 := by
  obtain ⟨s', hs, rfl⟩ := Option.map_eq_some_iff.1 h
  exact ⟨hs, rfl⟩

/-- `S` with a history variable that each step updates from the state, the action and the new state. -/
def withTrace (S : System σ α) (h₀ : η) (upd : σ → α → σ → η → η) : System (σ × η) α where
  init p := S.init p.1 ∧ p.2 = h₀
  step p a := (S.step p.1 a).map fun s' => (s', upd p.1 a s' p.2)

theorem withTrace_step {trace : σ → α → σ → η → η} {p p' : σ × η} {a : α}
    (h : (S.withTrace h₀ trace).step p a = some p') : S.step p.1 a = some p'.1 ∧ p'.2 = trace p.1 a p'.1 p.2 := by
  obtain ⟨s', hs, rfl⟩ := Option.map_eq_some_iff.1 h
  exact ⟨hs, rfl⟩

end History

section Run

/-- The state after a list of actions. -/
def run (S : System σ α) : σ → List α → Option σ
  | s, [] => some s
  | s, a :: as => (S.step s a).bind fun s' => S.run s' as

variable {ρ β : Type*} {T : System ρ β} {R : σ → ρ → Prop} {f : β → α}

/-- **Simulation in lock step.** When related states have related steps, the two systems go the same way in
every run, and are related where they end. -/
theorem run_rel (h : ∀ s t b, R s t → Option.Rel R (S.step s (f b)) (T.step t b)) {s : σ} {t : ρ} (hR : R s t)
    (bs : List β) : Option.Rel R (S.run s (bs.map f)) (T.run t bs) := by
  induction bs generalizing s t with
  | nil => exact .some hR
  | cons b bs ih =>
    simp only [List.map_cons, run]
    have hb := h s t b hR
    generalize S.step s (f b) = x at hb ⊢
    generalize T.step t b = y at hb ⊢
    cases hb with
    | none => exact .none
    | some hR' => exact ih hR'

end Run

variable (S) (ok)

/-- An execution given by its actions. -/
theorem exists_of_check [∀ s a, Decidable (ok s a)] (P : σ → Prop) [DecidablePred P] (s : σ) (hs : S.init s)
    (as : List α) (h : S.check ok P s as = true) : ∃ t, S.Reach ok t ∧ P t :=
  Reach.of_check (.init hs) h

end System

end Prs
