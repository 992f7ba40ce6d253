import Mathlib.Data.List.MinMax

/-!
# Queues by priority

A list of waiting elements in the order of their arrival can be kept as one queue for each priority. The
element to serve, the first of those of the least priority (`List.argmin`), is then the head of the first
queue that is not empty.
-/

namespace Prs

variable {α β : Type*} [LinearOrder β] {f : α → β} {l : List α} {p : β} {a : α} {r : List α}

/-- **The element to serve** is the head of the queue of the least priority. -/
theorem argmin_eq_head (h : l.filter (fun x => f x = p) = a :: r) (hle : ∀ x ∈ l, p ≤ f x) :
    l.argmin f = some a := by
  classical
  obtain ⟨l₁, l₂, rfl, hl₁, ha, -⟩ := List.filter_eq_cons_iff.1 h
  have hfa : f a = p := of_decide_eq_true ha
  have hne : ∀ x ∈ l₁, f x ≠ p := fun x hx hfx => hl₁ x hx (decide_eq_true hfx)
  have hal : a ∉ l₁ := fun hm => hne a hm hfa
  refine List.argmin_eq_some_iff.2 ⟨by simp, fun x hx => by rw [hfa]; exact hle x hx, fun x hx hxa => ?_⟩
  have hfx : f x = p := le_antisymm (hfa ▸ hxa) (hle x hx)
  have hxl : x ∉ l₁ := fun hm => hne x hm hfx
  rw [List.idxOf_append_of_notMem hal, List.idxOf_append_of_notMem hxl, List.idxOf_cons_self]
  omega

/-- When the queues below `p` are empty, nothing waits that is more urgent than `p`. -/
theorem le_of_filter_eq_nil (h : ∀ q < p, l.filter (fun x => f x = q) = []) : ∀ x ∈ l, p ≤ f x := by
  intro x hx
  by_contra hlt
  have hmem : x ∈ l.filter (fun y => f y = f x) := List.mem_filter.2 ⟨hx, by simp⟩
  rw [h (f x) (not_le.1 hlt)] at hmem
  cases hmem

end Prs
