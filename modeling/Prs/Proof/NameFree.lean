import Prs.Lib.Threads
import Prs.Model.Name

/-!
# One destroyer

`prs_name_free` looks for the node with its id, and then stores `PRS_OBJECT_ID_INVALID` in it whatever it has
by then (`Holds` says that it still has the id). `prs_task_destroy` takes the result for the answer to whether
the task was already destroyed.

* `one_destroyer`: in every run in which the node still has the id at that store, the calls that return
  `PRS_OK` have erased different registrations, each of its own id.
* `two_destroyers`: without that, two calls return `PRS_OK` for an id that was registered once, and a call
  erases the registration of another id that has come to use the node.
-/

namespace Prs.Name

open Function

/-- The node of a `prs_name_free` that is about to store still has the id. -/
def St.holds {ι : Type} (s : St ι) (j : ι) : Bool :=
  match s.pc j with
  | .freeStore id node => decide (s.objectId node = id)
  | _ => true

def St.Holds {ι : Type} (s : St ι) : Act ι → Prop
  | .step j => s.holds j = true
  | _ => True

instance {ι : Type} (s : St ι) (a : Act ι) : Decidable (s.Holds a) :=
  match a with
  | .step _ => inferInstanceAs (Decidable (_ = true))
  | .alloc _ _ _ => inferInstanceAs (Decidable True)
  | .free _ _ _ => inferInstanceAs (Decidable True)

/-- **The calls of `prs_name_free` that returned `PRS_OK`** have erased different registrations, each of its
own id. -/
def St.OneDestroyer {ι : Type} (s : St ι) : Prop :=
  (s.freed.map Prod.snd).Nodup ∧ ∀ id r, (id, r) ∈ s.freed → ∃ q, r = some q ∧ s.regId q = id

/-- The id that a call is about. -/
def Pc.id : Pc → Option ℕ
  | .idle => none
  | .allocLoad id _ _ => some id
  | .allocId id _ _ _ => some id
  | .allocCas id _ _ _ => some id
  | .allocLink id _ _ => some id
  | .freeLoad id _ => some id
  | .freeId id _ => some id
  | .freeStore id _ => some id

def Ptr.node : Ptr → List ℕ
  | .list _ => []
  | .next node => [node]

/-- The nodes of a list that a call looks at. -/
def Pc.node : Pc → List ℕ
  | .idle => []
  | .allocLoad _ ptr _ => ptr.node
  | .allocId _ ptr _ node => node :: ptr.node
  | .allocCas _ ptr _ node => node :: ptr.node
  | .allocLink _ ptr _ => ptr.node
  | .freeLoad _ ptr => ptr.node
  | .freeId _ node => [node]
  | .freeStore _ node => [node]

/-- The node that a call has allocated and not linked. -/
def Pc.new : Pc → Option ℕ
  | .allocLoad _ _ new => new
  | .allocId _ _ new _ => new
  | .allocCas _ _ new _ => new
  | .allocLink _ _ new => some new
  | _ => none

variable {ι : Type} {T : Table} {s s' : St ι} {j : ι} {n : ℕ}

/-- A node is in a list. -/
def St.Linked (s : St ι) (n : ℕ) : Prop := ∃ ptr, s.link ptr = some n

/-- **The table and its registrations.** -/
structure Inv (s : St ι) : Prop where
  id : ∀ j id, (s.pc j).id = some id → id ≠ invalid
  node : ∀ j n, n ∈ (s.pc j).node → s.Linked n
  new : ∀ j n, (s.pc j).new = some n → n < s.nodes ∧ ¬ s.Linked n ∧ (s.pc j).id = some (s.objectId n)
  apart : ∀ i j n, (s.pc i).new = some n → (s.pc j).new = some n → i = j
  alloc : ∀ n, s.Linked n → n < s.nodes
  next : ∀ n m, s.link (.next n) = some m → n < s.nodes
  slot : ∀ n q, s.slot n = some q →
    q < s.registered ∧ s.Linked n ∧ s.objectId n = s.regId q ∧ s.objectId n ≠ invalid
  full : ∀ n, s.Linked n → s.objectId n ≠ invalid → ∃ q, s.slot n = some q
  inj : ∀ n m q, s.slot n = some q → s.slot m = some q → n = m

/-- **What was erased.** -/
structure Erased (s : St ι) : Prop where
  nodup : (s.freed.map Prod.snd).Nodup
  own : ∀ id r, (id, r) ∈ s.freed → ∃ q, r = some q ∧ s.regId q = id ∧ q < s.registered ∧ ∀ n, s.slot n ≠ some q

theorem inv_init : Inv (St.init : St ι) where
  id := fun j id h => by cases h
  node := fun j n h => by cases h
  new := fun j n h => by cases h
  apart := fun i j n h => by cases h
  alloc := fun n h => by obtain ⟨ptr, h⟩ := h; cases h
  next := fun n m h => by cases h
  slot := fun n q h => by cases h
  full := fun n h => by obtain ⟨ptr, h⟩ := h; cases h
  inj := fun n m q h => by cases h

theorem erased_init : Erased (St.init : St ι) where
  nodup := List.nodup_nil
  own := fun id r h => by cases h

/-! ## The steps -/

variable [DecidableEq ι]

theorem apart_update {p : Pc} (h : ∀ i j n, (s.pc i).new = some n → (s.pc j).new = some n → i = j)
    (hp : ∀ n, p.new = some n → (s.pc j).new = some n ∨ ∀ i, (s.pc i).new ≠ some n) :
    ∀ i i' n, (update s.pc j p i).new = some n → (update s.pc j p i').new = some n → i = i' := by
  intro i i' n hi hi'
  by_cases hij : i = j <;> by_cases hij' : i' = j
  · rw [hij, hij']
  · subst hij
    simp only [update_self, update_of_ne hij'] at hi hi'
    rcases hp n hi with hold | hnone
    · exact h i i' n hold hi'
    · exact absurd hi' (hnone i')
  · subst hij'
    simp only [update_self, update_of_ne hij] at hi hi'
    rcases hp n hi' with hold | hnone
    · exact h i i' n hi hold
    · exact absurd hi (hnone i)
  · simp only [update_of_ne hij, update_of_ne hij'] at hi hi'
    exact h i i' n hi hi'

/-- A step that changes nothing but where a thread is. -/
theorem Inv.goto (h : Inv s) {p : Pc} (hid : ∀ id, p.id = some id → id ≠ invalid)
    (hnode : ∀ n ∈ p.node, s.Linked n)
    (hnew : ∀ n, p.new = some n → (s.pc j).new = some n ∧ p.id = (s.pc j).id) : Inv (s.goto j p) where
  id := fun i id hi => forall_update (P := fun q : Pc => ∀ id, q.id = some id → id ≠ invalid) h.id hid i id hi
  node := fun i n hi => forall_update (P := fun q : Pc => ∀ n ∈ q.node, s.Linked n) h.node hnode i n hi
  new := fun i n hi => by
    by_cases hij : i = j
    · subst hij
      simp only [St.goto, update_self] at hi ⊢
      obtain ⟨hold, hpid⟩ := hnew n hi
      rw [hpid]
      exact h.new i n hold
    · simp only [St.goto, update_of_ne hij] at hi ⊢
      exact h.new i n hi
  apart := apart_update h.apart fun n hn => .inl (hnew n hn).1
  alloc := h.alloc
  next := h.next
  slot := h.slot
  full := h.full
  inj := h.inj

/-- A call goes on, with its id and its new node. -/
theorem Inv.walk (h : Inv s) {p : Pc} (hid : p.id = (s.pc j).id) (hnew : p.new = (s.pc j).new)
    (hnode : ∀ n ∈ p.node, n ∈ (s.pc j).node ∨ s.Linked n) : Inv (s.goto j p) :=
  h.goto (fun id hp => h.id j id (hid ▸ hp)) (fun n hn => (hnode n hn).elim (h.node j n) fun hl => hl)
    fun _ hn => ⟨hnew ▸ hn, hid⟩

/-- A call returns. -/
theorem Inv.leave (h : Inv s) : Inv (s.goto j .idle) :=
  h.goto (fun _ hp => by cases hp) (fun _ hn => by cases hn) fun _ hn => by cases hn

theorem new_of_leave {i : ι} (hi : (update s.pc j .idle i).new = some n) : i ≠ j ∧ (s.pc i).new = some n := by
  by_cases hij : i = j
  · subst hij
    rw [update_self] at hi
    cases hi
  · rw [update_of_ne hij] at hi
    exact ⟨hij, hi⟩

/-- A node is allocated. -/
theorem Inv.malloc (h : Inv s) {id : ℕ} {ptr : Ptr} {new : Option ℕ} (hpc : s.pc j = .allocLoad id ptr new) :
    Inv { s with
      link := update s.link (.next s.nodes) none
      objectId := update s.objectId s.nodes id
      nodes := s.nodes + 1
      pc := update s.pc j (.allocLink id ptr s.nodes) } := by
  have hlink : update s.link (.next s.nodes) none = s.link := by
    refine update_eq_self_iff.2 ?_
    cases hl : s.link (.next s.nodes) with
    | none => rfl
    | some m => exact absurd (h.next _ _ hl) (Nat.lt_irrefl _)
  rw [hlink]
  have hfresh : ∀ i, (s.pc i).new ≠ some s.nodes := fun i hi => Nat.lt_irrefl _ (h.new i _ hi).1
  have hobj : ∀ n, s.Linked n → update s.objectId s.nodes id n = s.objectId n := fun n hn =>
    update_of_ne (Nat.ne_of_lt (h.alloc n hn)) id s.objectId
  refine ⟨fun i id' hi => ?_, fun i n hi => ?_, fun i n hi => ?_, ?_, fun n hn => ?_, fun n m hn => ?_,
    fun n q hn => ?_, fun n hn hne => ?_, h.inj⟩
  · by_cases hij : i = j
    · subst hij
      simp only [update_self] at hi
      exact h.id i id' (by rw [hpc]; exact hi)
    · simp only [update_of_ne hij] at hi
      exact h.id i id' hi
  · by_cases hij : i = j
    · subst hij
      simp only [update_self] at hi
      exact h.node i n (by rw [hpc]; exact hi)
    · simp only [update_of_ne hij] at hi
      exact h.node i n hi
  · by_cases hij : i = j
    · subst hij
      simp only [update_self] at hi ⊢
      obtain rfl := Option.some.inj hi
      refine ⟨Nat.lt_succ_self _, fun hl => Nat.lt_irrefl _ (h.alloc _ hl), ?_⟩
      rw [update_self]
      rfl
    · simp only [update_of_ne hij] at hi ⊢
      obtain ⟨hlt, hl, hid⟩ := h.new i n hi
      refine ⟨Nat.lt_succ_of_lt hlt, hl, ?_⟩
      rw [update_of_ne (Nat.ne_of_lt hlt)]
      exact hid
  · refine apart_update h.apart fun n hn => .inr fun i hi => ?_
    obtain rfl := Option.some.inj hn
    exact hfresh i hi
  · exact Nat.lt_succ_of_lt (h.alloc n hn)
  · exact Nat.lt_succ_of_lt (h.next n m hn)
  · obtain ⟨hq, hl, hid⟩ := h.slot n q hn
    refine ⟨hq, hl, ?_⟩
    simp only [hobj n hl]
    exact hid
  · simp only [hobj n hn] at hne
    exact h.full n hn hne

omit [DecidableEq ι] in
theorem slot_register {m q : ℕ} (hm : update s.slot n (some s.registered) m = some q) :
    (m = n ∧ q = s.registered) ∨ (m ≠ n ∧ s.slot m = some q) := by
  by_cases hmn : m = n
  · rw [hmn, update_self] at hm
    exact .inl ⟨hmn, (Option.some.inj hm).symm⟩
  · rw [update_of_ne hmn] at hm
    exact .inr ⟨hmn, hm⟩

omit [DecidableEq ι] in
/-- A registration is new. -/
theorem Inv.inj_register (h : Inv s) (m m' q : ℕ) (hm : update s.slot n (some s.registered) m = some q)
    (hm' : update s.slot n (some s.registered) m' = some q) : m = m' := by
  rcases slot_register hm with ⟨hn, hq⟩ | ⟨-, hold⟩ <;> rcases slot_register hm' with ⟨hn', hq'⟩ | ⟨-, hold'⟩
  · rw [hn, hn']
  · exact absurd (hq ▸ (h.slot m' q hold').1) (Nat.lt_irrefl _)
  · exact absurd (hq' ▸ (h.slot m q hold).1) (Nat.lt_irrefl _)
  · exact h.inj m m' q hold hold'

omit [DecidableEq ι] in
theorem slot_erase {m q : ℕ} (hm : update s.slot n none m = some q) : m ≠ n ∧ s.slot m = some q := by
  by_cases hmn : m = n
  · rw [hmn, update_self] at hm
    cases hm
  · rw [update_of_ne hmn] at hm
    exact ⟨hmn, hm⟩

/-- An id is registered in a node that was free. -/
theorem Inv.reuse (h : Inv s) {id : ℕ} (hid : id ≠ invalid) (hn : s.Linked n) :
    Inv (({ s with objectId := update s.objectId n id, pc := update s.pc j .idle } : St ι).register n id) := by
  refine ⟨h.leave.id, h.leave.node, fun i m hi => ?_, h.leave.apart, h.alloc, h.next, fun m q hm => ?_,
    fun m hm hne => ?_, h.inj_register⟩
  all_goals simp only [St.register] at *
  · obtain ⟨hij, hi⟩ := new_of_leave hi
    obtain ⟨hlt, hl, hid⟩ := h.new i m hi
    have hmn : m ≠ n := by
      rintro rfl
      exact hl hn
    refine ⟨hlt, hl, ?_⟩
    rw [update_of_ne hij, update_of_ne hmn]
    exact hid
  · rcases slot_register hm with ⟨rfl, rfl⟩ | ⟨hmn, hm⟩
    · simp only [update_self]
      exact ⟨Nat.lt_succ_self _, hn, trivial, hid⟩
    · obtain ⟨hlt, hl, ho⟩ := h.slot m q hm
      simp only [update_of_ne hmn, update_of_ne (Nat.ne_of_lt hlt)]
      exact ⟨Nat.lt_succ_of_lt hlt, hl, ho⟩
  · by_cases hmn : m = n
    · subst hmn
      exact ⟨_, update_self ..⟩
    · simp only [update_of_ne hmn] at hne ⊢
      exact h.full m hm hne

omit [DecidableEq ι] in
theorem linked_link {ptr : Ptr} (hptr : s.link ptr = none) {m : ℕ} :
    (∃ p, update s.link ptr (some n) p = some m) ↔ m = n ∨ s.Linked m := by
  constructor
  · rintro ⟨p, hp⟩
    by_cases hpp : p = ptr
    · rw [hpp, update_self] at hp
      exact .inl (Option.some.inj hp).symm
    · rw [update_of_ne hpp] at hp
      exact .inr ⟨p, hp⟩
  · rintro (rfl | ⟨p, hp⟩)
    · exact ⟨ptr, update_self ..⟩
    · refine ⟨p, ?_⟩
      rw [update_of_ne]
      · exact hp
      · rintro rfl
        rw [hptr] at hp
        cases hp

/-- An id is registered in a new node at the end of a list. -/
theorem Inv.link (h : Inv s) {id : ℕ} {ptr : Ptr} (hpc : s.pc j = .allocLink id ptr n)
    (hptr : s.link ptr = none) :
    Inv (({ s with link := update s.link ptr (some n), pc := update s.pc j .idle } : St ι).register n id) := by
  have hid : id ≠ invalid := h.id j id (by rw [hpc]; rfl)
  have hnew : (s.pc j).new = some n := by rw [hpc]; rfl
  obtain ⟨hlt, hl, hobj⟩ := h.new j n hnew
  rw [hpc] at hobj
  refine ⟨h.leave.id, fun i m hi => ?_, fun i m hi => ?_, h.leave.apart, fun m hm => ?_, fun m m' hm => ?_,
    fun m q hm => ?_, fun m hm hne => ?_, h.inj_register⟩
  all_goals simp only [St.register, St.Linked, linked_link hptr] at *
  · exact .inr (h.leave.node i m hi)
  · obtain ⟨hij, hi⟩ := new_of_leave hi
    obtain ⟨hlt, hl, hid⟩ := h.new i m hi
    rw [update_of_ne hij]
    refine ⟨hlt, ?_, hid⟩
    rintro (rfl | hm)
    · exact hij (h.apart i j m hi hnew)
    · exact hl hm
  · rcases hm with rfl | hm
    · exact hlt
    · exact h.alloc m hm
  · by_cases hp : Ptr.next m = ptr
    · exact h.alloc m (h.node j m (by rw [hpc, ← hp]; exact List.mem_singleton.2 rfl))
    · rw [update_of_ne hp] at hm
      exact h.next m m' hm
  · rcases slot_register hm with ⟨rfl, rfl⟩ | ⟨hmn, hm⟩
    · rw [update_self, ← Option.some.inj hobj]
      exact ⟨Nat.lt_succ_self _, .inl rfl, rfl, hid⟩
    · obtain ⟨hlt, hl, ho⟩ := h.slot m q hm
      rw [update_of_ne (Nat.ne_of_lt hlt)]
      exact ⟨Nat.lt_succ_of_lt hlt, .inr hl, ho⟩
  · rcases hm with rfl | hm
    · exact ⟨_, update_self ..⟩
    · by_cases hmn : m = n
      · rw [hmn]
        exact ⟨_, update_self ..⟩
      · rw [update_of_ne hmn]
        exact h.full m hm hne

/-- A registration is erased. -/
theorem Inv.erase (h : Inv s) (hn : s.Linked n) {freed : List (ℕ × Option ℕ)} :
    Inv { s with
      objectId := update s.objectId n invalid
      pc := update s.pc j .idle
      slot := update s.slot n none
      freed } := by
  refine ⟨h.leave.id, h.leave.node, fun i m hi => ?_, h.leave.apart, h.alloc, h.next, fun m q hm => ?_,
    fun m hm hne => ?_, fun m m' q hm hm' => ?_⟩
  · obtain ⟨hij, hi⟩ := new_of_leave hi
    obtain ⟨hlt, hl, hid⟩ := h.new i m hi
    have hmn : m ≠ n := by
      rintro rfl
      exact hl hn
    refine ⟨hlt, hl, ?_⟩
    simp only [update_of_ne hij, update_of_ne hmn]
    exact hid
  · obtain ⟨hmn, hm⟩ := slot_erase hm
    simp only [update_of_ne hmn]
    exact h.slot m q hm
  · by_cases hmn : m = n
    · simp only [hmn, update_self] at hne
      exact absurd rfl hne
    · simp only [update_of_ne hmn] at hne ⊢
      exact h.full m hm hne
  · exact h.inj m m' q (slot_erase hm).2 (slot_erase hm').2

theorem Inv.stepThread (h : Inv s) (hs : s.stepThread j = some s') : Inv s' := by
  have hnode := h.node j
  unfold St.stepThread at hs
  split at hs <;> rename_i hpc <;> rw [hpc] at hnode
  case h_1 => cases hs
  case h_2 id ptr new =>
    split at hs
    case h_1 node hl =>
      rw [← Option.some.inj hs]
      refine h.walk (by rw [hpc]; rfl) (by rw [hpc]; rfl) fun n hn => ?_
      rcases List.mem_cons.1 hn with rfl | hn
      · exact .inr ⟨ptr, hl⟩
      · exact .inr (hnode n hn)
    case h_2 hl =>
      split at hs <;> rw [← Option.some.inj hs]
      · exact h.walk (by rw [hpc]; rfl) (by rw [hpc]; rfl) fun n hn => .inr (hnode n hn)
      · exact h.malloc hpc
  case h_3 id ptr new node =>
    split at hs
    · rw [← Option.some.inj hs]; exact h.leave
    · split at hs <;> rw [← Option.some.inj hs]
      · exact h.walk (by rw [hpc]; rfl) (by rw [hpc]; rfl) fun n hn => .inr (hnode n hn)
      · refine h.walk (by rw [hpc]; rfl) (by rw [hpc]; rfl) fun n hn => .inr (hnode n ?_)
        exact List.mem_cons.2 (.inl (List.mem_singleton.1 hn))
  case h_4 id ptr new node =>
    split at hs <;> rw [← Option.some.inj hs]
    · exact h.reuse (h.id j id (by rw [hpc]; rfl)) (hnode node List.mem_cons_self)
    · exact h.walk (by rw [hpc]; rfl) (by rw [hpc]; rfl) fun n hn => .inr (hnode n (List.mem_cons_of_mem _ hn))
  case h_5 id ptr new =>
    split at hs <;> rename_i hl <;> rw [← Option.some.inj hs]
    · exact h.link hpc hl
    · exact h.walk (by rw [hpc]; rfl) (by rw [hpc]; rfl) fun n hn => .inr (hnode n hn)
  case h_6 id ptr =>
    split at hs
    case h_1 node hl =>
      rw [← Option.some.inj hs]
      refine h.walk (by rw [hpc]; rfl) (by rw [hpc]; rfl) fun n hn => .inr ⟨ptr, ?_⟩
      rw [List.mem_singleton.1 hn]
      exact hl
    case h_2 => rw [← Option.some.inj hs]; exact h.leave
  case h_7 id node =>
    split at hs <;> rw [← Option.some.inj hs] <;>
      exact h.walk (by rw [hpc]; rfl) (by rw [hpc]; rfl) fun n hn => .inr (hnode n hn)
  case h_8 id node =>
    rw [← Option.some.inj hs]
    exact h.erase (hnode node List.mem_cons_self)

theorem Inv.step (h : Inv s) {a : Act ι} (hs : s.step T a = some s') : Inv s' := by
  cases a with
  | alloc j id found =>
    obtain ⟨⟨-, hid⟩, rfl⟩ := Option.ite_none_right_eq_some.1 hs |>.imp_right Option.some.inj
    split
    · refine h.goto (fun _ hp => ?_) (fun _ hn => by cases hn) fun _ hn => by cases hn
      rwa [← Option.some.inj hp]
    · exact h
  | free j id found =>
    obtain ⟨⟨-, hid⟩, rfl⟩ := Option.ite_none_right_eq_some.1 hs |>.imp_right Option.some.inj
    split
    · refine h.goto (fun _ hp => ?_) (fun _ hn => by cases hn) fun _ hn => by cases hn
      rwa [← Option.some.inj hp]
    · exact h
  | step j => exact h.stepThread hs

/-! ## What the calls have erased -/

omit [DecidableEq ι] in
/-- A registration does not bring back one that was erased. -/
theorem Erased.register (h : Erased s) {id : ℕ} {link : Ptr → Option ℕ} {objectId : ℕ → ℕ} {pc : ι → Pc} :
    Erased (({ s with link, objectId, pc } : St ι).register n id) where
  nodup := h.nodup
  own := fun id' r hr => by
    obtain ⟨q, rfl, hid, hlt, hq⟩ := h.own id' r hr
    refine ⟨q, rfl, ?_, Nat.lt_succ_of_lt hlt, fun m hm => ?_⟩
    · simp only [St.register, update_of_ne (Nat.ne_of_lt hlt)]
      exact hid
    · rcases slot_register hm with ⟨-, hq'⟩ | ⟨-, hm⟩
      · exact Nat.lt_irrefl _ (hq' ▸ hlt)
      · exact hq m hm

/-- A call erases the registration of its id. -/
theorem Erased.erase (h : Erased s) (hI : Inv s) {id : ℕ} (hid : id ≠ invalid) (hn : s.Linked n)
    (hold : s.objectId n = id) :
    Erased { s with
      objectId := update s.objectId n invalid
      pc := update s.pc j .idle
      slot := update s.slot n none
      freed := (id, s.slot n) :: s.freed } := by
  obtain ⟨q, hq⟩ := hI.full n hn (by rw [hold]; exact hid)
  obtain ⟨hlt, -, hreg, -⟩ := hI.slot n q hq
  refine ⟨?_, fun id' r hr => ?_⟩
  · rw [List.map_cons, List.nodup_cons]
    refine ⟨fun hm => ?_, h.nodup⟩
    obtain ⟨⟨id', r⟩, hr, hrn⟩ := List.mem_map.1 hm
    obtain ⟨q', rfl, -, -, hq'⟩ := h.own id' r hr
    exact hq' n hrn.symm
  · rcases List.mem_cons.1 hr with heq | hr
    · obtain ⟨rfl, rfl⟩ := Prod.mk.inj heq
      refine ⟨q, hq, hreg.symm.trans hold, hlt, fun m hm => ?_⟩
      obtain ⟨hmn, hm⟩ := slot_erase hm
      exact hmn (hI.inj m n q hm hq)
    · obtain ⟨q', rfl, hid', hlt', hq'⟩ := h.own id' r hr
      exact ⟨q', rfl, hid', hlt', fun m hm => hq' m (slot_erase hm).2⟩

theorem Erased.goto (h : Erased s) {p : Pc} : Erased (s.goto j p) := ⟨h.nodup, h.own⟩

theorem Erased.stepThread (h : Erased s) (hI : Inv s) (hold : s.holds j = true) (hs : s.stepThread j = some s') :
    Erased s' := by
  unfold St.holds at hold
  unfold St.stepThread at hs
  split at hs <;> rename_i hpc <;> simp only [hpc] at hold
  case h_1 => cases hs
  case h_2 id ptr new =>
    split at hs
    · rw [← Option.some.inj hs]; exact h.goto
    · split at hs <;> rw [← Option.some.inj hs]
      · exact h.goto
      · exact ⟨h.nodup, h.own⟩
  case h_3 id ptr new node =>
    split at hs
    · rw [← Option.some.inj hs]; exact h.goto
    · split at hs <;> rw [← Option.some.inj hs] <;> exact h.goto
  case h_4 id ptr new node =>
    split at hs <;> rw [← Option.some.inj hs]
    · exact h.register
    · exact h.goto
  case h_5 id ptr new =>
    split at hs <;> rw [← Option.some.inj hs]
    · exact h.register
    · exact h.goto
  case h_6 id ptr => split at hs <;> rw [← Option.some.inj hs] <;> exact h.goto
  case h_7 id node => split at hs <;> rw [← Option.some.inj hs] <;> exact h.goto
  case h_8 id node =>
    rw [← Option.some.inj hs]
    have hid : id ≠ invalid := hI.id j id (by rw [hpc]; rfl)
    have hn : s.Linked node := hI.node j node (by rw [hpc]; exact List.mem_cons_self)
    exact h.erase hI hid hn (of_decide_eq_true hold)

theorem Erased.step (h : Erased s) (hI : Inv s) {a : Act ι} (hok : s.Holds a) (hs : s.step T a = some s') :
    Erased s' := by
  cases a with
  | alloc j id found =>
    obtain ⟨-, rfl⟩ := Option.ite_none_right_eq_some.1 hs |>.imp_right Option.some.inj
    split
    · exact h.goto
    · exact h
  | free j id found =>
    obtain ⟨-, rfl⟩ := Option.ite_none_right_eq_some.1 hs |>.imp_right Option.some.inj
    split
    · exact h.goto
    · exact h
  | step j => exact h.stepThread hI hok hs

/-! ## The result -/

/-- **One destroyer** in every run in which a `prs_name_free` that stores finds its id still in the node: the
calls that return `PRS_OK` erase different registrations, each of its own id. -/
theorem one_destroyer (h : (sys T ι).Reach St.Holds s) : s.OneDestroyer := by
  have hi : Inv s ∧ Erased s := by
    refine System.Reach.inv (I := fun s => Inv s ∧ Erased s) ?_ ?_ h
    · rintro _ rfl
      exact ⟨inv_init, erased_init⟩
    · rintro _ _ _ ⟨h1, h2⟩ hok hs
      exact ⟨h1.step hs, h2.step h1 hok hs⟩
  obtain ⟨-, her⟩ := hi
  refine ⟨her.nodup, fun id r hr => ?_⟩
  obtain ⟨q, hq, hid, -⟩ := her.own id r hr
  exact ⟨q, hq, hid⟩

/-- One entry: the hash has no part in the runs below. -/
def oneEntry : Table := ⟨1, fun _ => []⟩

/-- An id is registered and freed; a second call does not find it. -/
theorem one_destroyer_late : ∃ s, (sys oneEntry (Fin 2)).Reach St.Holds s ∧ s.freed = [(5, some 0)] ∧
    s.OneDestroyer := by
  obtain ⟨s, hs, hf⟩ := System.exists_of_check (sys oneEntry (Fin 2)) St.Holds (fun s => s.freed = [(5, some 0)])
    .init rfl
    [.alloc 0 5 true, .step 0, .step 0, .free 0 5 true, .free 1 5 true, .step 0, .step 1, .step 0, .step 0,
      .step 1, .step 1] (by decide +kernel)
  exact ⟨s, hs, hf, one_destroyer hs⟩

/-- **Two destroyers.** Both calls find the id in the node, and both store. And where id 6 has come to use the
node before the second store, that one erases the registration of id 6. -/
theorem two_destroyers :
    (∃ s, (sys oneEntry (Fin 2)).Reachable s ∧ s.registered = 1 ∧ s.freed = [(5, none), (5, some 0)] ∧
      ¬ s.OneDestroyer) ∧
    ∃ s, (sys oneEntry (Fin 2)).Reachable s ∧ s.regId 1 = 6 ∧ s.freed = [(5, some 1), (5, some 0)] ∧
      s.objectId 0 = invalid ∧ s.pc = fun _ => .idle := by
  constructor
  · obtain ⟨s, hs, hr, hf⟩ := System.exists_of_check (sys oneEntry (Fin 2)) (fun _ _ => True)
      (fun s => s.registered = 1 ∧ s.freed = [(5, none), (5, some 0)]) .init rfl
      [.alloc 0 5 true, .step 0, .step 0, .free 0 5 true, .free 1 5 true, .step 0, .step 1, .step 0, .step 1,
        .step 0, .step 1] (by decide +kernel)
    refine ⟨s, hs, hr, hf, fun hone => ?_⟩
    obtain ⟨q, hq, -⟩ := hone.2 5 none (by rw [hf]; decide)
    cases hq
  · obtain ⟨s, hs, hr, hf⟩ := System.exists_of_check (sys oneEntry (Fin 2)) (fun _ _ => True)
      (fun s => s.regId 1 = 6 ∧ s.freed = [(5, some 1), (5, some 0)] ∧ s.objectId 0 = invalid ∧
        s.pc = fun _ => .idle)
      .init rfl
      [.alloc 0 5 true, .step 0, .step 0, .free 0 5 true, .free 1 5 true, .step 0, .step 1, .step 0, .step 1,
        .step 0, .alloc 0 6 true, .step 0, .step 0, .step 0, .step 1] (by decide +kernel)
    exact ⟨s, hs, hr, hf⟩

end Prs.Name
