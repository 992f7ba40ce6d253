import Prs.Model.NameSeq
import Prs.Proof.GodTable

/-!
# Whether an id is registered once

`prs_name_alloc` goes through the list of an entry until it finds the id, a freed node or the end. A freed
node may stand before the node that has the id (`NoHole` says that none does).

* `allocLoop_fst`, `count_allocLoop`, `freeLoop_fst`, `count_freeLoop`, `findLoop_eq`: what the loops come to.
* `registered_once`: in every run in which no freed node stands before the node of an id that is passed to
  `prs_name_alloc`, an id is in one node at most, and the results are right.
* `registered_twice`: without that, an id is in two nodes.
-/

namespace Prs.NameSeq

open Function GodSeq

section Loops

variable {k id x : ℕ}

/-- No freed node stands before the one that has the id. -/
def NoHole (id : ℕ) (l : List ℕ) : Prop := id ∈ l → invalid ∉ l.takeWhile (· != id)

instance (id : ℕ) (l : List ℕ) : Decidable (NoHole id l) := inferInstanceAs (Decidable (_ → _))

theorem noHole_cons (hx : x ≠ id) (l : List ℕ) : NoHole id (x :: l) ↔ id ∈ l → x ≠ invalid ∧ NoHole id l := by
  unfold NoHole
  have htake : (x :: l).takeWhile (· != id) = x :: l.takeWhile (· != id) :=
    List.takeWhile_cons_of_pos (bne_iff_ne.2 hx)
  rw [htake, List.mem_cons, List.mem_cons, or_iff_right hx.symm, not_or]
  constructor
  · intro h hid
    obtain ⟨h₁, h₂⟩ := h hid
    exact ⟨Ne.symm h₁, fun _ => h₂⟩
  · intro h hid
    obtain ⟨h₁, h₂⟩ := h hid
    exact ⟨Ne.symm h₁, h₂ hid⟩

/-- **The result of `prs_name_alloc`** is right exactly when it gets to the node that has the id. -/
theorem allocLoop_fst (l : List ℕ) : (allocLoop id l).1 = .alreadyExists ↔ id ∈ l ∧ NoHole id l := by
  induction l with
  | nil => simp [allocLoop]
  | cons x xs ih =>
    unfold allocLoop
    by_cases hx : x = id
    · subst hx
      simp [NoHole]
    · rw [if_neg hx, noHole_cons hx, List.mem_cons, or_iff_right (Ne.symm hx)]
      by_cases hinv : x = invalid
      · rw [if_pos hinv]
        simp only [reduceCtorEq, hinv, ne_eq, not_true_eq_false, false_and, imp_false, and_not_self_iff]
      · rw [if_neg hinv, ih]
        constructor
        · rintro ⟨hid, hno⟩
          exact ⟨hid, fun _ => ⟨hinv, hno⟩⟩
        · rintro ⟨hid, hno⟩
          exact ⟨hid, (hno hid).2⟩

theorem allocLoop_ok (l : List ℕ) : (allocLoop id l).1 = .ok ∨ (allocLoop id l).1 = .alreadyExists := by
  induction l with
  | nil => exact .inl rfl
  | cons x xs ih =>
    unfold allocLoop
    split
    · exact .inr rfl
    · split
      · exact .inl rfl
      · exact ih

/-- The nodes after a call of `prs_name_alloc`. -/
theorem count_allocLoop (hx : x ≠ invalid) (l : List ℕ) :
    (allocLoop id l).2.count x = l.count x + if x = id ∧ (allocLoop id l).1 = .ok then 1 else 0 := by
  induction l with
  | nil =>
    by_cases h : x = id
    · simp [allocLoop, h]
    · simp [allocLoop, h, Ne.symm h]
  | cons y ys ih =>
    unfold allocLoop
    by_cases hy : y = id
    · rw [if_pos hy]
      simp
    · rw [if_neg hy]
      by_cases hinv : y = invalid
      · rw [if_pos hinv, List.count_cons, List.count_cons]
        have hyx : ¬ y = x := fun h => hx (h ▸ hinv)
        by_cases h : x = id
        · subst h
          simp [hyx]
        · simp [h, Ne.symm h, hyx]
      · rw [if_neg hinv, List.count_cons, List.count_cons, ih]
        exact Nat.add_right_comm _ _ _

theorem freeLoop_fst (l : List ℕ) : (freeLoop id l).1 = .ok ↔ id ∈ l := by
  induction l with
  | nil => simp [freeLoop]
  | cons x xs ih =>
    unfold freeLoop
    by_cases hx : x = id
    · simp [hx]
    · rw [if_neg hx, ih, List.mem_cons, or_iff_right (Ne.symm hx)]

/-- The nodes after a call of `prs_name_free`. -/
theorem count_freeLoop (hx : x ≠ invalid) (l : List ℕ) :
    (freeLoop id l).2.count x = l.count x - if x = id then 1 else 0 := by
  induction l with
  | nil => simp [freeLoop]
  | cons y ys ih =>
    unfold freeLoop
    by_cases hy : y = id
    · rw [if_pos hy, List.count_cons, List.count_cons, hy]
      by_cases h : x = id
      · simp [h, Ne.symm (h ▸ hx)]
      · simp [h, Ne.symm h, Ne.symm hx]
    · rw [if_neg hy, List.count_cons, List.count_cons, ih]
      by_cases h : x = id
      · have hyx : ¬ y = x := fun he => hy (he.trans h)
        simp [hyx]
      · simp [h]

/-- **The loop of `prs_name_find_internal`** stops at the first node whose object it can lock and has the name. -/
theorem findLoop_eq {god : Dir Object} (h : Sane k god) (key : List (BitVec 8)) (keepLocked : Bool) (l : List ℕ) :
    findLoop k key keepLocked l god =
      match l.find? fun x => (god.lock k x).1.any fun o => decide (o.name = key) with
      | some x => (x, if keepLocked then (god.lock k x).2 else god)
      | none => (invalid, god) := by
  induction l with
  | nil => rfl
  | cons x xs ih =>
    unfold findLoop
    obtain hl | ⟨o, hl⟩ := Option.eq_none_or_eq_some (god.lock k x).1
    · have hlock := h.lock_eq_none hl
      rw [List.find?_cons_of_neg (by simp [hl]), ih]
      by_cases hx : x = invalid
      · rw [if_neg (not_not.2 hx)]
      · rw [if_pos hx, hlock]
        exact ih
    · have hx : x ≠ invalid := by
        rintro rfl
        simp [Dir.lock] at hl
      have hunlock := h.unlock_lock hl
      rw [if_pos hx]
      have hpair : god.lock k x = (some o, (god.lock k x).2) := Prod.ext hl rfl
      by_cases hname : o.name = key
      · rw [List.find?_cons_of_pos (by simp [hl, hname]), hpair]
        cases keepLocked <;> simp [hname, hunlock]
      · rw [List.find?_cons_of_neg (by simp [hl, hname]), hpair]
        simp [hname, hunlock, ih]

end Loops

variable {k m id : ℕ} {s s' : St} {o : Object}

section Calls

/-- `prs_name_alloc` of an object that can be locked. -/
theorem alloc_of_lock (h : Sane k s.god) (hl : (s.god.lock k id).1 = some o) :
    s.alloc k m id = ((allocLoop id (s.list (entry m o.name))).1,
      { s with list := update s.list (entry m o.name) (allocLoop id (s.list (entry m o.name))).2 }) := by
  have hpair : s.god.lock k id = (some o, (s.god.lock k id).2) := Prod.ext hl rfl
  unfold St.alloc
  rw [hpair]
  simp only [h.unlock_lock hl]

theorem alloc_of_none (h : Sane k s.god) (hl : (s.god.lock k id).1 = none) : s.alloc k m id = (.notFound, s) := by
  unfold St.alloc
  rw [h.lock_eq_none hl]

/-- `prs_name_free` of an object that can be locked. -/
theorem free_of_lock (h : Sane k s.god) (hl : (s.god.lock k id).1 = some o) :
    s.free k m id = ((freeLoop id (s.list (entry m o.name))).1,
      { s with list := update s.list (entry m o.name) (freeLoop id (s.list (entry m o.name))).2 }) := by
  have hpair : s.god.lock k id = (some o, (s.god.lock k id).2) := Prod.ext hl rfl
  unfold St.free
  rw [hpair]
  simp only [h.unlock_lock hl]

theorem free_of_none (h : Sane k s.god) (hl : (s.god.lock k id).1 = none) : s.free k m id = (.notFound, s) := by
  unfold St.free
  rw [h.lock_eq_none hl]

/-- The node that a search stops at. -/
def St.hit (k m : ℕ) (s : St) (key : List (BitVec 8)) : Option ℕ :=
  (s.list (entry m key)).find? fun x => (s.god.lock k x).1.any fun o => decide (o.name = key)

theorem find_eq (h : Sane k s.god) (key : List (BitVec 8)) :
    s.find k m key = ((s.hit k m key).getD invalid, s) := by
  unfold St.find St.findInternal St.hit
  rw [findLoop_eq h]
  split
  · rename_i x hx
    simp [hx]
  · rename_i hx
    simp [hx]

theorem findAndLock_eq (h : Sane k s.god) (key : List (BitVec 8)) :
    s.findAndLock k m key = ((s.hit k m key).getD invalid,
      { s with god := s.god.exec k (.lock ((s.hit k m key).getD invalid)) }) := by
  unfold St.findAndLock St.findInternal St.hit
  rw [findLoop_eq h]
  split
  · rename_i x hx
    rw [hx]
    rfl
  · rename_i hx
    rw [hx]
    rfl

end Calls

/-- What holds in every state: an id is in one node at most, in the list of its name. -/
structure Inv (k m : ℕ) (s : St) : Prop where
  sane : Sane k s.god
  old : ∀ e, ∀ x ∈ s.list e, x < s.god.writeIndex
  place : ∀ e x o n, x ∈ s.list e → s.god.find k x = some (o, n) → e = entry m o.name
  count : ∀ e x, x ≠ invalid → (s.list e).count x ≤ 1
  one : ∀ e e' x, x ≠ invalid → x ∈ s.list e → x ∈ s.list e' → e = e'

theorem inv_create (k m : ℕ) : Inv k m .create where
  sane := sane_create k
  old := fun _ _ h => absurd h List.not_mem_nil
  place := fun _ _ _ _ h => absurd h List.not_mem_nil
  count := fun _ _ _ => Nat.zero_le 1
  one := fun _ _ _ _ h => absurd h List.not_mem_nil

section Steps

/-- A call of the directory. -/
theorem Inv.god (h : Inv k m s) (hk : k ≤ 31) (a : GodSeq.Act Object) :
    Inv k m { s with god := s.god.exec k a } where
  sane := h.sane.exec hk a
  old := fun e x hx => lt_of_lt_of_le (h.old e x hx) (h.sane.writeIndex_le_exec hk a)
  place := fun e x o n hx hf => by
    obtain hnew | ⟨n', hf'⟩ := h.sane.find_exec hk a hf
    · exact absurd (h.old e x hx) (not_lt.2 hnew)
    · exact h.place e x o n' hx hf'
  count := h.count
  one := h.one

/-- The list of an object's name has changed in the node of the object's id only. -/
theorem Inv.write (h : Inv k m s) (hl : (s.god.lock k id).1 = some o) {l : List ℕ}
    (hother : ∀ x, x ≠ invalid → x ≠ id → l.count x = (s.list (entry m o.name)).count x)
    (hid : l.count id ≤ 1) : Inv k m { s with list := update s.list (entry m o.name) l } := by
  obtain ⟨n, hf, -⟩ := h.sane.lock_eq_some.1 hl
  obtain ⟨hinv, hh, -⟩ := h.sane.find_eq_some.1 hf
  have hold : id < s.god.writeIndex := by
    have := h.sane.old _ (Nat.mod_lt id (Nat.two_pow_pos k))
    rwa [hh] at this
  -- a node of the new list was there before, or has the id
  have hmem : ∀ e x, x ≠ invalid → x ∈ update s.list (entry m o.name) l e →
      x ∈ s.list e ∨ x = id ∧ e = entry m o.name := by
    intro e x hx hmem
    by_cases he : e = entry m o.name
    · subst he
      rw [update_self] at hmem
      by_cases hxid : x = id
      · exact .inr ⟨hxid, rfl⟩
      · refine .inl (List.count_pos_iff.1 ?_)
        rw [← hother x hx hxid]
        exact List.count_pos_iff.2 hmem
    · rw [update_of_ne he] at hmem
      exact .inl hmem
  have hplace : ∀ e, id ∈ s.list e → e = entry m o.name := fun e he => h.place e id o n he hf
  refine ⟨h.sane, fun e x hx => ?_, fun e x o' n' hx hf' => ?_, fun e x hx => ?_, fun e e' x hx he he' => ?_⟩
  · by_cases hz : x = invalid
    · rw [hz]
      exact lt_of_le_of_lt (Nat.zero_le _) hold
    · obtain hx | ⟨rfl, -⟩ := hmem e x hz hx
      · exact h.old e x hx
      · exact hold
  · have hz := (h.sane.find_eq_some.1 hf').1
    obtain hx | ⟨rfl, rfl⟩ := hmem e x hz hx
    · exact h.place e x o' n' hx hf'
    · rw [hf] at hf'
      cases hf'
      rfl
  · by_cases he : e = entry m o.name
    · subst he
      simp only [update_self]
      by_cases hxid : x = id
      · rw [hxid]
        exact hid
      · rw [hother x hx hxid]
        exact h.count _ x hx
    · simp only [update_of_ne he]
      exact h.count e x hx
  · obtain he | ⟨rfl, rfl⟩ := hmem e x hx he
    · obtain he' | ⟨rfl, rfl⟩ := hmem e' x hx he'
      · exact h.one e e' x hx he he'
      · exact hplace e he
    · obtain he' | ⟨-, rfl⟩ := hmem e' x hx he'
      · exact (hplace e' he').symm
      · rfl

/-- A registration, with no freed node before the id. -/
theorem Inv.alloc (h : Inv k m s) (hno : ∀ o, (s.god.lock k id).1 = some o →
    NoHole id (s.list (entry m o.name))) :
    Inv k m (s.alloc k m id).2 := by
  obtain hl | ⟨o, hl⟩ := Option.eq_none_or_eq_some (s.god.lock k id).1
  · rw [alloc_of_none h.sane hl]
    exact h
  · obtain ⟨n, hf, -⟩ := h.sane.lock_eq_some.1 hl
    obtain ⟨hinv, -, -⟩ := h.sane.find_eq_some.1 hf
    rw [alloc_of_lock h.sane hl]
    refine h.write hl (fun x hx hxid => ?_) ?_
    · rw [count_allocLoop hx, if_neg fun hc => hxid hc.1, Nat.add_zero]
    · rw [count_allocLoop hinv]
      by_cases hid : id ∈ s.list (entry m o.name)
      · have hexists := (allocLoop_fst _).2 ⟨hid, hno o hl⟩
        rw [hexists, if_neg (by simp)]
        exact h.count _ id hinv
      · rw [List.count_eq_zero.2 hid]
        split <;> omega

theorem Inv.free (h : Inv k m s) (id : ℕ) : Inv k m (s.free k m id).2 := by
  obtain hl | ⟨o, hl⟩ := Option.eq_none_or_eq_some (s.god.lock k id).1
  · rw [free_of_none h.sane hl]
    exact h
  · obtain ⟨n, hf, -⟩ := h.sane.lock_eq_some.1 hl
    obtain ⟨hinv, -, -⟩ := h.sane.find_eq_some.1 hf
    have hcount := h.count (entry m o.name) id hinv
    rw [free_of_lock h.sane hl]
    refine h.write hl (fun x hx hxid => ?_) ?_
    · rw [count_freeLoop hx, if_neg hxid, Nat.sub_zero]
    · rw [count_freeLoop hinv]
      omega

/-- An id that is freed is not in the table. -/
theorem Inv.free_gone (h : Inv k m s) (hl : (s.god.lock k id).1 = some o) (e : ℕ) :
    id ∉ (s.free k m id).2.list e := by
  obtain ⟨n, hf, -⟩ := h.sane.lock_eq_some.1 hl
  obtain ⟨hinv, -, -⟩ := h.sane.find_eq_some.1 hf
  rw [free_of_lock h.sane hl]
  by_cases he : e = entry m o.name
  · subst he
    have hcount := h.count (entry m o.name) id hinv
    simp only [update_self]
    rw [← List.count_eq_zero, count_freeLoop hinv, if_pos rfl]
    omega
  · simp only [update_of_ne he]
    exact fun hmem => he (h.place e id o n hmem hf)

end Steps

section Once

/-- No freed node stands before the node of an id that is registered again. -/
def Clear (k m : ℕ) (s : St) : Act → Prop
  | .alloc id => ((s.god.lock k id).1.all fun o => decide (NoHole id (s.list (entry m o.name)))) = true
  | _ => True

instance (k m : ℕ) (s : St) (a : Act) : Decidable (Clear k m s a) :=
  match a with
  | .alloc _ => inferInstanceAs (Decidable (_ = true))
  | .god _ => inferInstanceAs (Decidable True)
  | .free _ => inferInstanceAs (Decidable True)
  | .find _ => inferInstanceAs (Decidable True)
  | .findAndLock _ => inferInstanceAs (Decidable True)

theorem Clear.noHole (h : Clear k m s (.alloc id)) (hl : (s.god.lock k id).1 = some o) :
    NoHole id (s.list (entry m o.name)) := by
  have hall : ((s.god.lock k id).1.all fun o => decide (NoHole id (s.list (entry m o.name)))) = true := h
  rwa [hl, Option.all_some, decide_eq_true_eq] at hall

/-- **A step** keeps what holds in every state. -/
theorem Inv.step (h : Inv k m s) (hk : k ≤ 31) (a : Act) (hok : Clear k m s a) : Inv k m (s.exec k m a) := by
  cases a with
  | god a => exact h.god hk a
  | alloc id => exact h.alloc fun o hl => hok.noHole hl
  | free id => exact h.free id
  | find key =>
    have heq := find_eq (m := m) h.sane key
    unfold St.exec
    simp only [heq]
    exact h
  | findAndLock key =>
    have heq := findAndLock_eq (m := m) h.sane key
    unfold St.exec
    simp only [heq]
    exact h.god hk _

theorem inv_reach (hk : k ≤ 31) (hr : (sys k m).Reach (Clear k m) s) : Inv k m s := by
  apply hr.inv
  · rintro s rfl
    exact inv_create k m
  · intro s a s' h hok hs
    cases hs
    exact h.step hk a hok

/-- The id is in the table. -/
def St.Registered (s : St) (id : ℕ) : Prop := ∃ e, id ∈ s.list e

/-- No id is in two nodes. -/
def St.Unique (s : St) : Prop :=
  ∀ id, id ≠ invalid → (∀ e, (s.list e).count id ≤ 1) ∧ ∀ e e', id ∈ s.list e → id ∈ s.list e' → e = e'

/-- **An id is registered once** in every run in which no freed node stands before the node of an id that is
registered again, and `prs_name_alloc` tells whether it is registered exactly when none does. -/
theorem registered_once (k m : ℕ) (hk : k ≤ 31) (s : St) (hr : (sys k m).Reach (Clear k m) s) :
    s.Unique ∧ ∀ id o, (s.god.lock k id).1 = some o →
      (((s.alloc k m id).1 = .alreadyExists ↔ s.Registered id) ↔ NoHole id (s.list (entry m o.name))) ∧
      ((s.free k m id).1 = .ok → ¬ (s.free k m id).2.Registered id) := by
  have h := inv_reach hk hr
  refine ⟨fun id hid => ⟨fun e => h.count e id hid, fun e e' => h.one e e' id hid⟩, fun id o hl => ⟨?_, ?_⟩⟩
  · obtain ⟨n, hf, -⟩ := h.sane.lock_eq_some.1 hl
    have hreg : s.Registered id ↔ id ∈ s.list (entry m o.name) := by
      constructor
      · rintro ⟨e, he⟩
        rwa [← h.place e id o n he hf]
      · exact fun he => ⟨_, he⟩
    have hfst : (s.alloc k m id).1 = (allocLoop id (s.list (entry m o.name))).1 := by rw [alloc_of_lock h.sane hl]
    rw [hfst, allocLoop_fst, hreg]
    constructor
    · exact fun hiff hid => (hiff.2 hid).2 hid
    · exact fun hno => and_iff_left hno
  · rintro - ⟨e, he⟩
    exact h.free_gone hl e he

theorem registered_once_two :
    ∃ s : St, s.Registered 2 ∧ s.Unique ∧ ((s.alloc 2 1 2).1 = .alreadyExists ↔ s.Registered 2) := by
  obtain ⟨s, hr, hl, hmem⟩ := System.exists_of_check (sys 2 1) (Clear 2 1)
    (fun s => (s.god.lock 2 2).1 = some ⟨[98#8]⟩ ∧ s.list 0 = [2]) .create rfl
    [.god (.alloc ⟨[97#8]⟩), .god (.alloc ⟨[98#8]⟩), .alloc 1, .free 1, .alloc 2] (by decide +kernel)
  obtain ⟨hunique, hcall⟩ := registered_once 2 1 (by omega) s hr
  have hentry : entry 1 [98#8] = 0 := Nat.mod_one _
  refine ⟨s, ⟨0, by rw [hmem]; exact List.mem_cons_self⟩, hunique, (hcall 2 _ hl).1.2 ?_⟩
  rw [hentry, hmem]
  decide

/-- **An id in two nodes.** Two objects are registered, the first one is freed, and the second one is
registered again. -/
theorem registered_twice :
    ¬ ∀ (k m : ℕ) (s : St), k ≤ 31 → (sys k m).Reachable s →
      s.Unique ∧ ∀ id o, (s.god.lock k id).1 = some o →
        ((s.alloc k m id).1 = .alreadyExists ↔ s.Registered id) ∧
        ((s.free k m id).1 = .ok → ¬ (s.free k m id).2.Registered id) := by
  intro hall
  obtain ⟨s, hr, hmem⟩ := System.exists_of_check (sys 2 1) (fun _ _ => True)
    (fun s => s.list 0 = [2, 2]) .create rfl
    [.god (.alloc ⟨[97#8]⟩), .god (.alloc ⟨[98#8]⟩), .alloc 1, .alloc 2, .free 1, .alloc 2] (by decide +kernel)
  have hcount := ((hall 2 1 s (by omega) hr).1 2 (by decide)).1 0
  rw [hmem] at hcount
  exact absurd hcount (by decide)

end Once

end Prs.NameSeq
