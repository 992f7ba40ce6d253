import Prs.Proof.MpmcqCalls

/-!
# Queues are lists, one call at a time

* `calls_fifo`: in every run in which the indices that allocations try have 52 bits, a push appends or is
  refused, a pop returns the oldest element or finds the list empty, and the directory has one entry with one
  reference for each element, and one more for a queue whose first node has been consumed.
* `fifo_broken`: with fewer than `2 ^ 52` pushes an allocation can get an index that has more bits; a pop does
  not see the element then.
-/

namespace Prs.MpmcqSeq

open Function PdWords

variable {κ δ : Type} [DecidableEq κ] {k fuel : ℕ} {s s' : St κ δ} {q : κ}

/-- The elements that the queues should have, and how often `prs_mpmcq_push` was called. -/
structure Hist (κ δ : Type) where
  lists : κ → List δ
  pushes : ℕ

/-- The queues with their history. -/
def sysHist (k fuel : ℕ) (κ δ : Type) [DecidableEq κ] : System (St κ δ × Hist κ δ) (Act κ δ) :=
  (sys k fuel κ δ).withTrace ⟨fun _ => [], 0⟩ fun s a _ h =>
    ⟨fifo h.lists (decide (s.pd.Full k)) a, h.pushes + match a with | .push .. => 1 | .pop _ => 0⟩

/-- The indices that the allocation of a push tries have 52 bits. -/
def Fits (k : ℕ) (s : St κ δ × Hist κ δ) : Act κ δ → Prop
  | .push .. => s.1.pd.writeIndex + 2 ^ k ≤ refcntInc
  | .pop _ => True

/-- The nodes that are linked from an id on. -/
inductive St.Chain (k : ℕ) (s : St κ δ) : ℕ → List ℕ → Prop
  | nil : St.Chain k s invalid []
  | cons {id addr count : ℕ} {node : Node δ} {ids : List ℕ} (hf : s.pd.find k id = some (addr, count))
    (hh : s.heap addr = some node) (h : St.Chain k s node.next ids) : St.Chain k s id (id :: ids)

/-- The first node of a queue has been consumed. -/
def St.HeadConsumed (k : ℕ) (s : St κ δ) (q : κ) : Prop :=
  ∃ addr count node, s.pd.find k (s.queue q).head = some (addr, count) ∧ s.heap addr = some node ∧
    node.consumed = true

/-- **The entries of the directory** are the linked nodes of the queues, each with one reference. A queue has
as many as it has elements, or one more. -/
structure Accounts (k : ℕ) (s : St κ δ) (lists : κ → List δ) (ids : κ → List ℕ) : Prop where
  chain : ∀ q, s.Chain k (s.queue q).head (ids q)
  nodup : ∀ q, (ids q).Nodup
  disjoint : ∀ q q' id, id ∈ ids q → id ∈ ids q' → q = q'
  refcnt : ∀ q, ∀ id ∈ ids q, ∃ addr, s.pd.find k id = some (addr, 1)
  live : ∀ id, s.pd.find k id ≠ none → ∃ q, id ∈ ids q
  length : ∀ q, ¬ s.HeadConsumed k q → (ids q).length = (lists q).length
  lengthConsumed : ∀ q, s.HeadConsumed k q → (ids q).length = (lists q).length + 1

/-- A push appends, or changes nothing. -/
structure Pushes (k fuel : ℕ) (s : St κ δ) : Prop where
  refused : ∀ q data addr, s.heap addr = none → s.pd.Full k ∨ addr = 0 →
    s.push k fuel q data addr = some (.outOfMemory, s)
  pushed : ∀ q data addr, s.heap addr = none → ¬ s.pd.Full k → addr ≠ 0 →
    ∃ s', s.push k fuel q data addr = some (.ok, s')

/-- A pop takes the oldest element. -/
structure Pops (k fuel : ℕ) (s : St κ δ) (lists : κ → List δ) : Prop where
  popped : ∀ q data rest, lists q = data :: rest → ∃ s', s.pop k fuel q = some (.popped data, s')
  empty : ∀ q, lists q = [] → ∃ r s', s.pop k fuel q = some (r, s') ∧ (r = .empty ∨ r = .unknown)

/-- The elements of nodes the first of which may be spent. -/
def contents (c : Bool) (ns : List (Nd δ)) : List δ := (if c then ns.tail else ns).map Nd.data

/-- **The invariant.** The nodes of a queue are those of its list, and one that is spent. -/
structure Inv (k : ℕ) (s : St κ δ) (lists : κ → List δ) (nodes : κ → List (Nd δ)) (spent : κ → Bool) : Prop where
  rep : Rep (fun _ => none) (s.pd.find k) s.heap s.queue nodes spent fun _ => invalid
  sane : Sane k s.pd
  tail : ∀ q, (s.queue q).tail = lastId (nodes q)
  fresh : ∀ q, nodes q = [] → spent q = false
  lists : ∀ q, lists q = contents (spent q) (nodes q)

variable {lists : κ → List δ} {nodes : κ → List (Nd δ)} {spent : κ → Bool}

omit [DecidableEq κ] in
theorem inv_create (k : ℕ) :
    Inv k (St.create (Dir.create 0)) (fun _ : κ => ([] : List δ)) (fun _ => []) fun _ => false where
  rep :=
    { linked := fun _ => trivial
      dead := fun _ => refcntInc_le_invalid
      head := fun _ => rfl
      nodup := fun _ => List.nodup_nil
      inj := fun _ _ _ _ hn _ _ => absurd hn List.not_mem_nil
      fresh := fun _ _ hn => absurd hn List.not_mem_nil
      others := fun _ _ => find_eq_none.2 fun _ => getRefcnt_zero }
  sane := sane_create k 0
  tail := fun _ => rfl
  fresh := fun _ _ => rfl
  lists := fun _ => rfl

/-- What a pop returns and leaves are the first element and the others. -/
theorem Popped.contents {ns ns' : List (Nd δ)} {c c' : Bool} {r : Res δ} (h : Popped ns c r ns' c')
    (hc : ns = [] → c = false) :
    MpmcqSeq.contents c' ns' = (MpmcqSeq.contents c ns).tail ∧ (ns' = [] → c' = false) ∧
      (ns'.getLast? = ns.getLast?) ∧
      ((∃ data, r = .popped data ∧ (MpmcqSeq.contents c ns).head? = some data) ∨
        (r = .empty ∨ r = .unknown) ∧ MpmcqSeq.contents c ns = []) := by
  cases h with
  | nil c =>
    rw [hc rfl]
    exact ⟨rfl, fun _ => rfl, rfl, .inr ⟨.inr rfl, rfl⟩⟩
  | dummy n => exact ⟨rfl, fun h => absurd h (List.cons_ne_nil _ _), rfl, .inr ⟨.inl rfl, rfl⟩⟩
  | last n => exact ⟨rfl, fun h => absurd h (List.cons_ne_nil _ _), rfl, .inl ⟨_, rfl, rfl⟩⟩
  | next n m ns => exact ⟨rfl,
    fun h => absurd h (List.cons_ne_nil _ _), by simp [List.getLast?_cons_cons], .inl ⟨_, rfl, rfl⟩⟩
  | passLast n m => exact ⟨rfl,
    fun h => absurd h (List.cons_ne_nil _ _), by simp [List.getLast?_cons_cons], .inl ⟨_, rfl, rfl⟩⟩
  | passNext n m l ns => exact ⟨rfl, fun h =>
    absurd h (List.cons_ne_nil _ _), by simp [List.getLast?_cons_cons], .inl ⟨_, rfl, rfl⟩⟩

variable (fuel) in
/-- A pop. -/
theorem Inv.pop (h : Inv k s lists nodes spent) (q : κ) :
    ∃ r s' ns c, s.pop k (fuel + 2) q = some (r, s') ∧ Popped (nodes q) (spent q) r ns c ∧
      Inv k s' (update lists q (lists q).tail) (update nodes q ns) (update spent q c) ∧
      s'.pd.writeIndex = s.pd.writeIndex ∧ ∀ addr, s.heap addr = none → s'.heap addr = none := by
  obtain ⟨r, s', ns, c, hpop, hp, hrep, ht, htail, hheap⟩ := pop_rep fuel h.rep q
  obtain ⟨hcont, hc, hlast, -⟩ := hp.contents (h.fresh q)
  refine ⟨r, s', ns, c, hpop, hp, ⟨hrep, ht.sane h.sane, fun q' => ?_, fun q' hq' => ?_, fun q' => ?_⟩,
    ht.writeIndex, hheap⟩
  · rw [htail, h.tail]
    by_cases hqq : q' = q
    · subst hqq
      rw [update_self]
      unfold lastId
      rw [hlast]
    · rw [update_of_ne hqq]
  · by_cases hqq : q' = q
    · subst hqq
      rw [update_self] at hq' ⊢
      exact hc hq'
    · rw [update_of_ne hqq] at hq' ⊢
      exact h.fresh q' hq'
  · by_cases hqq : q' = q
    · subst hqq
      rw [update_self, update_self, update_self, hcont, h.lists]
    · rw [update_of_ne hqq, update_of_ne hqq, update_of_ne hqq, h.lists]

/-- A push that is refused. -/
theorem Inv.refused (h : Inv k s lists nodes spent) (hfit : s.pd.writeIndex + 2 ^ k ≤ refcntInc) (q : κ)
    (data : δ) {addr : ℕ} (hno : s.pd.Full k ∨ addr = 0) :
    s.push k fuel q data addr = some (.outOfMemory, s) := by
  unfold St.push
  by_cases haddr : addr = 0
  · rw [if_pos haddr]
  · rw [if_neg haddr, alloc_of_full hfit h.sane (hno.resolve_right haddr)]

variable (fuel) in
/-- A push that gets an id of 52 bits. -/
theorem Inv.push (h : Inv k s lists nodes spent) (q : κ) (data : δ) {addr i : ℕ} (hfree : s.heap addr = none)
    (haddr : addr ≠ 0) (halloc : (s.pd.alloc k addr).1 = some i) (hi : i < refcntInc) :
    ∃ s', s.push k (fuel + 1) q data addr = some (.ok, s') ∧
      Inv k s' (update lists q (lists q ++ [data])) (update nodes q (nodes q ++ [⟨i, addr, data⟩])) spent ∧
      s'.pd.writeIndex = i + 1 ∧ ∀ a, a ≠ addr → s.heap a = none → s'.heap a = none := by
  obtain ⟨hfind, hnone, -, hwi, hsane⟩ := find_alloc h.sane halloc hi
  obtain ⟨s', hloop, hrep, ht, htail, hother, hheap⟩ :=
    push_rep fuel data h.rep (h.tail q) (h.fresh q) hfree haddr hnone hfind
  refine ⟨s', ?_, ⟨hrep, ht.sane hsane, fun q' => ?_, fun q' hq' => ?_, fun q' => ?_⟩, ?_, hheap⟩
  · have hpair : s.pd.alloc k addr = (some i, (s.pd.alloc k addr).2) := Prod.ext halloc rfl
    unfold St.push
    rw [if_neg haddr, hpair]
    simp only [Option.map_eq_some_iff]
    exact ⟨s', hloop, rfl⟩
  · by_cases hqq : q' = q
    · subst hqq
      rw [htail, update_self]
      simp [lastId]
    · rw [hother q' hqq, h.tail, update_of_ne hqq]
  · by_cases hqq : q' = q
    · subst hqq
      simp at hq'
    · rw [update_of_ne hqq] at hq'
      exact h.fresh q' hq'
  · by_cases hqq : q' = q
    · subst hqq
      rw [update_self, update_self, h.lists]
      unfold contents
      cases hc : spent q' with
      | false => simp
      | true =>
        cases hn : nodes q' with
        | nil =>
          rw [h.fresh q' hn] at hc
          cases hc
        | cons n ns => simp
    · rw [update_of_ne hqq, update_of_ne hqq, h.lists]
  · rw [ht.writeIndex, hwi]

omit [DecidableEq κ] in
theorem chain_of_linked {c : Bool} {ns : List (Nd δ)} (h : Linked (s.pd.find k) s.heap invalid c ns) :
    s.Chain k (firstId invalid ns) (ns.map Nd.id) := by
  induction ns generalizing c with
  | nil => exact .nil
  | cons n ns ih => exact .cons h.1 h.2.2.1 (ih h.2.2.2)

omit [DecidableEq κ] in
theorem Inv.headConsumed_iff (h : Inv k s lists nodes spent) (q : κ) : s.HeadConsumed k q ↔ spent q = true := by
  unfold St.HeadConsumed
  rw [h.rep.head q]
  cases hq : nodes q with
  | nil =>
    rw [h.fresh q hq]
    constructor
    · rintro ⟨addr, count, node, hf, -, -⟩
      rw [show firstId invalid ([] : List (Nd δ)) = invalid from rfl, find_of_le refcntInc_le_invalid] at hf
      cases hf
    · intro hno
      cases hno
  | cons n ns =>
    have hl := h.rep.linked q
    rw [hq] at hl
    obtain ⟨hf, -, hh, -⟩ := hl
    constructor
    · rintro ⟨addr, count, node, hf', hh', hc⟩
      rw [show firstId invalid (n :: ns) = n.id from rfl, hf] at hf'
      cases hf'
      rw [hh] at hh'
      cases hh'
      exact hc
    · intro hc
      exact ⟨n.addr, 1, _, hf, hh, hc⟩

omit [DecidableEq κ] in
theorem Inv.accounts (h : Inv k s lists nodes spent) : Accounts k s lists fun q => (nodes q).map Nd.id where
  chain q := by
    rw [h.rep.head q]
    exact chain_of_linked (h.rep.linked q)
  nodup q := (h.rep.nodup q).map_on fun n hn n' hn' hid => (h.rep.inj q q n n' hn hn' (.inl hid)).2
  disjoint q q' id hid hid' := by
    obtain ⟨n, hn, rfl⟩ := List.mem_map.1 hid
    obtain ⟨n', hn', heq⟩ := List.mem_map.1 hid'
    exact (h.rep.inj q q' n n' hn hn' (.inl heq.symm)).1
  refcnt q id hid := by
    obtain ⟨n, hn, rfl⟩ := List.mem_map.1 hid
    exact ⟨n.addr, (h.rep.linked q).find_of_mem hn⟩
  live id hid := by
    by_contra hno
    refine hid (h.rep.others id fun q n hn hnid => hno ⟨q, ?_⟩)
    exact List.mem_map.2 ⟨n, hn, hnid⟩
  length q hno := by
    rw [h.headConsumed_iff, Bool.not_eq_true] at hno
    rw [h.lists, hno]
    simp [contents]
  lengthConsumed q hyes := by
    rw [h.headConsumed_iff] at hyes
    have hne : nodes q ≠ [] := by
      intro hnil
      rw [h.fresh q hnil] at hyes
      cases hyes
    have hpos := List.length_pos_iff.2 hne
    rw [h.lists, hyes]
    simp only [contents, if_true, List.length_map, List.length_tail]
    omega

/-- The invariant holds in every run. -/
theorem inv_reach (hfuel : 2 ≤ fuel) {p : St κ δ × Hist κ δ} (hr : (sysHist k fuel κ δ).Reach (Fits k) p) :
    ∃ nodes spent, Inv k p.1 p.2.lists nodes spent := by
  obtain ⟨f, rfl⟩ : ∃ f, fuel = f + 2 := ⟨fuel - 2, by omega⟩
  induction hr with
  | init hinit =>
    obtain ⟨hs, hh⟩ := hinit
    rw [hs, hh]
    exact ⟨_, _, inv_create k⟩
  | @step p p' a _ hok hs ih =>
    obtain ⟨nodes, spent, hinv⟩ := ih
    obtain ⟨hs, hhist⟩ := System.withTrace_step hs
    obtain ⟨⟨r, s'⟩, hexec, hs'⟩ := Option.map_eq_some_iff.1 hs
    rw [hhist, ← hs']
    cases a with
    | push q data addr =>
      obtain ⟨hfree, hpush⟩ := Option.ite_none_right_eq_some.1 hexec
      rw [Option.isNone_iff_eq_none] at hfree
      by_cases hno : p.1.pd.Full k ∨ addr = 0
      · have hfifo : fifo p.2.lists (decide (p.1.pd.Full k)) (.push q data addr) = p.2.lists := by
          simp [fifo, hno]
        rw [hinv.refused hok q data hno] at hpush
        cases hpush
        refine ⟨nodes, spent, ?_⟩
        simp only [hfifo]
        exact hinv
      · obtain ⟨hfull, haddr⟩ := not_or.1 hno
        have hfifo : fifo p.2.lists (decide (p.1.pd.Full k)) (.push q data addr) =
            update p.2.lists q (p.2.lists q ++ [data]) := by
          simp [fifo, hno]
        obtain ⟨i, halloc, hi⟩ := alloc_of_not_full hok hinv.sane hfull addr
        obtain ⟨s'', hpush', hinv', -⟩ :=
          hinv.push (f + 1) q data hfree haddr halloc (lt_of_lt_of_le hi hok)
        rw [hpush'] at hpush
        cases hpush
        refine ⟨update nodes q (nodes q ++ [⟨i, addr, data⟩]), spent, ?_⟩
        simp only [hfifo]
        exact hinv'
    | pop q =>
      obtain ⟨r', s'', ns, c, hpop, -, hinv', -⟩ := hinv.pop f q
      rw [show p.1.exec k (f + 2) (.pop q) = p.1.pop k (f + 2) q from rfl, hpop] at hexec
      cases hexec
      exact ⟨_, _, hinv'⟩

theorem Inv.pops (h : Inv k s lists nodes spent) : Pops k (fuel + 2) s lists where
  popped q data rest hq := by
    obtain ⟨r, s', ns, c, hpop, hp, -⟩ := h.pop fuel q
    obtain ⟨-, -, -, ⟨data', rfl, hhead⟩ | ⟨-, hnil⟩⟩ := hp.contents (h.fresh q)
    · rw [← h.lists, hq] at hhead
      cases hhead
      exact ⟨s', hpop⟩
    · rw [← h.lists, hq] at hnil
      cases hnil
  empty q hq := by
    obtain ⟨r, s', ns, c, hpop, hp, -⟩ := h.pop fuel q
    obtain ⟨-, -, -, ⟨data', rfl, hhead⟩ | ⟨hr, -⟩⟩ := hp.contents (h.fresh q)
    · rw [← h.lists, hq] at hhead
      cases hhead
    · exact ⟨r, s', hpop, hr⟩

theorem Inv.pushes (h : Inv k s lists nodes spent) (hfit : s.pd.writeIndex + 2 ^ k ≤ refcntInc) :
    Pushes k (fuel + 1) s where
  refused q data _ _ hno := h.refused hfit q data hno
  pushed q data _ hfree hfull haddr := by
    obtain ⟨i, halloc, hi⟩ := alloc_of_not_full hfit h.sane hfull _
    obtain ⟨s', hpush, -⟩ := h.push fuel q data hfree haddr halloc (lt_of_lt_of_le hi hfit)
    exact ⟨s', hpush⟩

/-- **The queues are lists**, as long as the indices that allocations try have 52 bits. -/
theorem calls_fifo (k fuel : ℕ) (hfuel : 2 ≤ fuel) (κ δ : Type) [DecidableEq κ] (s : St κ δ) (h : Hist κ δ)
    (hr : (sysHist k fuel κ δ).Reach (Fits k) (s, h)) :
    (s.pd.writeIndex + 2 ^ k ≤ refcntInc → Pushes k fuel s) ∧ Pops k fuel s h.lists ∧ ∃ ids,
    Accounts k s h.lists ids := by
  obtain ⟨nodes, spent, hinv⟩ := inv_reach hfuel hr
  obtain ⟨f, rfl⟩ : ∃ f, fuel = f + 2 := ⟨fuel - 2, by omega⟩
  exact ⟨fun hfit => hinv.pushes hfit, hinv.pops, _, hinv.accounts⟩

section Witness

instance (k : ℕ) (p : St κ δ × Hist κ δ) (a : Act κ δ) : Decidable (Fits k p a) :=
  match a with
  | .push .. => inferInstanceAs (Decidable (_ ≤ _))
  | .pop _ => inferInstanceAs (Decidable True)

/-- Two queues over two entries. -/
theorem calls_fifo_two :
    ∃ p : St Bool ℕ × Hist Bool ℕ, p.2.lists true = [7] ∧ Pops 1 2 p.1 p.2.lists ∧ ∃ ids,
    Accounts 1 p.1 p.2.lists ids := by
  obtain ⟨p, hr, hp⟩ := System.exists_of_check (sysHist 1 2 Bool ℕ) (Fits 1) (fun p => p.2.lists true = [7])
    (.create (Dir.create 0), ⟨fun _ => [], 0⟩) ⟨rfl, rfl⟩
      [.push false 5 1, .pop false, .push true 7 2, .push true 8 3] (by decide +kernel)
  obtain ⟨-, hpops, hacc⟩ := calls_fifo 1 2 le_rfl Bool ℕ p.1 p.2 hr
  exact ⟨p, hp, hpops, hacc⟩

end Witness

section Lost

theorem reach_push {ok : St κ δ × Hist κ δ → Act κ δ → Prop} {p : St κ δ × Hist κ δ} {data : δ} {addr : ℕ}
    {r : Res δ} (h : (sysHist k fuel κ δ).Reach ok p) (hok : ok p (.push q data addr))
    (hfree : p.1.heap addr = none) (hpush : p.1.push k fuel q data addr = some (r, s')) :
    (sysHist k fuel κ δ).Reach ok
      (s', ⟨fifo p.2.lists (decide (p.1.pd.Full k)) (.push q data addr), p.2.pushes + 1⟩) := by
  refine h.step hok (Option.map_eq_some_iff.2 ⟨s', Option.map_eq_some_iff.2 ⟨(r, s'), ?_, rfl⟩, rfl⟩)
  exact (if_pos (by rw [hfree]; rfl)).trans hpush

theorem reach_pop {ok : St κ δ × Hist κ δ → Act κ δ → Prop} {p : St κ δ × Hist κ δ} {r : Res δ}
    (h : (sysHist k fuel κ δ).Reach ok p) (hok : ok p (.pop q)) (hpop : p.1.pop k fuel q = some (r, s')) :
    (sysHist k fuel κ δ).Reach ok (s', ⟨update p.2.lists q (p.2.lists q).tail, p.2.pushes⟩) :=
  h.step hok (Option.map_eq_some_iff.2 ⟨s', Option.map_eq_some_iff.2 ⟨(r, s'), hpop, rfl⟩, rfl⟩)

/-- Fewer pushes than there are ids, less the number of entries. -/
def Few (k : ℕ) (p : St κ δ × Hist κ δ) : Act κ δ → Prop
  | .push .. => p.2.pushes + 1 < 2 ^ 52 - 2 ^ k
  | .pop _ => True

/-- One queue has two elements, in entries 1 and 2 of four; the other one is empty, and its spent node has id
`a`. -/
structure Churned (p : St Bool ℕ × Hist Bool ℕ) (a : ℕ) : Prop where
  reach : (sysHist 2 2 Bool ℕ).Reach (Few 2) p
  inv : ∃ nodes spent n n₁ n₂, Inv 2 p.1 p.2.lists nodes spent ∧ nodes true = [n] ∧ spent true = true ∧
    nodes false = [n₁, n₂] ∧ n.id = a ∧ n₁.id = 1 ∧ n₂.id = 2
  writeIndex : p.1.pd.writeIndex = a + 1
  mem : ∀ addr, p.2.pushes < addr → p.1.heap addr = none

variable {p : St Bool ℕ × Hist Bool ℕ} {a i : ℕ}

omit [DecidableEq κ] in
/-- The next id is the first whose entry has no node. -/
theorem Inv.alloc (h : Inv k s lists nodes spent) {i : ℕ} (hlt : s.pd.writeIndex + 2 ^ k < 2 ^ 64)
    (hle : s.pd.writeIndex ≤ i) (hi : i < s.pd.writeIndex + 2 ^ k)
    (hfree : ∀ q, ∀ n ∈ nodes q, n.id % 2 ^ k ≠ i % 2 ^ k)
    (hskip : ∀ j, s.pd.writeIndex ≤ j → j < i → ∃ q, ∃ n ∈ nodes q, n.id % 2 ^ k = j % 2 ^ k) (addr : ℕ) :
    (s.pd.alloc k addr).1 = some i := by
  refine alloc_least h.sane hlt hle hi (fun id hid => ?_) (fun j hj hji => ?_) addr
  · refine h.rep.others id fun q n hn hnid => hfree q n hn ?_
    rw [hnid, hid]
  · obtain ⟨q, n, hn, hmod⟩ := hskip j hj hji
    refine ⟨n.id, hmod, ?_⟩
    rw [(h.rep.linked q).find_of_mem hn]
    exact Option.some_ne_none _

/-- The next id is the first after `a` that is not in entry 1, in entry 2 or in that of `a`. -/
theorem Churned.alloc (h : Churned p a) (ha : a < refcntInc) (hi : a < i) (hle : i ≤ a + 4)
    (hfree : i % 4 = 0 ∨ i % 4 = 3) (hne : i % 4 ≠ a % 4) (hskip : ∀ j, a < j → j < i → j % 4 = 1 ∨ j % 4 = 2)
    (addr : ℕ) :
    (p.1.pd.alloc 2 addr).1 = some i := by
  obtain ⟨nodes, spent, n, n₁, n₂, hinv, hq, -, hq', hn, hn₁, hn₂⟩ := h.inv
  have hwi := h.writeIndex
  unfold refcntInc at ha
  refine hinv.alloc (by omega) (by omega) (by omega) (fun q m hm => ?_) (fun j hj hji => ?_) addr
  · cases q with
    | true =>
      rw [hq, List.mem_singleton] at hm
      subst hm
      omega
    | false =>
      rw [hq', List.mem_cons, List.mem_singleton] at hm
      obtain rfl | rfl := hm
      · omega
      · omega
  · obtain hj₁ | hj₂ := hskip j (by omega) hji
    · refine ⟨false, n₁, ?_, by omega⟩
      rw [hq']
      exact List.mem_cons_self
    · refine ⟨false, n₂, ?_, by omega⟩
      rw [hq']
      exact List.mem_cons_of_mem _ List.mem_cons_self

variable (fuel) in
/-- A push, as a step of a run. -/
theorem Inv.pushStep {p : St κ δ × Hist κ δ} (addr : ℕ) {i : ℕ} (h : Inv k p.1 p.2.lists nodes spent)
    (hr : (sysHist k (fuel + 1) κ δ).Reach (Few k) p) (hfew : p.2.pushes + 1 < 2 ^ 52 - 2 ^ k) (q : κ) (data : δ)
    (hfree : p.1.heap addr = none) (haddr : addr ≠ 0) (halloc : (p.1.pd.alloc k addr).1 = some i)
    (hi : i < refcntInc) :
    ∃ p', (sysHist k (fuel + 1) κ δ).Reach (Few k) p' ∧
      Inv k p'.1 p'.2.lists (update nodes q (nodes q ++ [⟨i, addr, data⟩])) spent ∧ p'.1.pd.writeIndex = i + 1 ∧
      p'.2.pushes = p.2.pushes + 1 ∧ ∀ a, a ≠ addr → p.1.heap a = none → p'.1.heap a = none := by
  obtain ⟨s', hpush, hinv, hwi, hheap⟩ := h.push fuel q data hfree haddr halloc hi
  have hfull := not_full_of_alloc halloc
  have hfifo : fifo p.2.lists (decide (p.1.pd.Full k)) (.push q data addr) = update p.2.lists q
    (p.2.lists q ++ [data]) := by
    simp [fifo, hfull, haddr]
  refine ⟨_, reach_push hr hfew hfree hpush, ?_, hwi, rfl, hheap⟩
  rw [hfifo]
  exact hinv

/-- A push and a pop of the second queue. -/
theorem Churned.turn (h : Churned p a) (ha : a < refcntInc) (hi : a < i) (hle : i ≤ a + 4)
    (hfree : i % 4 = 0 ∨ i % 4 = 3) (hne : i % 4 ≠ a % 4) (hskip : ∀ j, a < j → j < i → j % 4 = 1 ∨ j % 4 = 2)
    (hlt : i < refcntInc) (hfew : p.2.pushes + 1 < 2 ^ 52 - 2 ^ 2) :
    ∃ p', Churned p' i ∧ p'.2.pushes = p.2.pushes + 1 := by
  have halloc := h.alloc ha hi hle hfree hne hskip (p.2.pushes + 1)
  obtain ⟨nodes, spent, n, n₁, n₂, hinv, hq, hc, hq', hn, hn₁, hn₂⟩ := h.inv
  obtain ⟨p₁, hr₁, hinv₁, hwi₁, hp₁, hheap₁⟩ :=
    hinv.pushStep 1 _ h.reach hfew true 0 (h.mem _ (by omega)) (by omega) halloc hlt
  obtain ⟨r, s₂, ns, c, hpop, hp, hinv₂, hwi₂, hheap₂⟩ := hinv₁.pop 0 true
  have hr₂ := reach_pop hr₁ trivial hpop
  rw [update_self, hq, hc] at hp
  cases hp with
  | passLast _ m =>
    refine ⟨_, ⟨hr₂, ⟨_, _, _, n₁, n₂, hinv₂, update_self .., update_self .., ?_, rfl, hn₁, hn₂⟩, ?_, ?_⟩, hp₁⟩
    · rw [update_of_ne Bool.false_ne_true, update_of_ne Bool.false_ne_true, hq']
    · rw [hwi₂, hwi₁]
    · intro addr haddr
      simp only [hp₁] at haddr
      exact hheap₂ addr (hheap₁ addr (by omega) (h.mem addr (by omega)))

/-- The first three pushes and a pop. -/
theorem churned_three : ∃ p, Churned p 3 ∧ p.2.pushes = 3 := by
  have h₀ : (sysHist 2 2 Bool ℕ).Reach (Few 2) (.create (Dir.create 0), ⟨fun _ => [], 0⟩) := .init ⟨rfl, rfl⟩
  have hinv₀ := inv_create (κ := Bool) (δ := ℕ) 2
  have hheap₀ : ∀ a, (St.create (Dir.create 0) : St Bool ℕ).heap a = none := fun _ => rfl
  obtain ⟨p₁, hr₁, hinv₁, hwi₁, hp₁, hh₁⟩ := hinv₀.pushStep 1 1 h₀ (by simp) false 0 rfl (by omega)
    (by decide +kernel : _ = some 1) (by decide)
  have ha₂ : (p₁.1.pd.alloc 2 2).1 = some 2 := by
    refine hinv₁.alloc (by omega) (by omega) (by omega) (fun q n hn => ?_) (fun j hj hji => by omega) 2
    cases q with
    | true => simp at hn
    | false =>
      simp only [update_self, List.nil_append, List.mem_singleton] at hn
      subst hn
      decide
  obtain ⟨p₂, hr₂, hinv₂, hwi₂, hp₂, hh₂⟩ := hinv₁.pushStep 1 _ hr₁ (by simp [hp₁]) false 0
    (hh₁ 2 (by omega) (hheap₀ 2)) (by omega) ha₂ (by decide)
  have ha₃ : (p₂.1.pd.alloc 2 3).1 = some 3 := by
    refine hinv₂.alloc (by omega) (by omega) (by omega) (fun q n hn => ?_) (fun j hj hji => by omega) 3
    cases q with
    | true => simp at hn
    | false =>
      simp only [update_self, List.nil_append, List.cons_append, List.mem_cons, List.not_mem_nil, or_false] at hn
      obtain rfl | rfl := hn <;> decide
  obtain ⟨p₃, hr₃, hinv₃, hwi₃, hp₃, hh₃⟩ := hinv₂.pushStep 1 _ hr₂ (by simp [hp₁, hp₂]) true 0
    (hh₂ 3 (by omega) (hh₁ 3 (by omega) (hheap₀ 3))) (by omega) ha₃ (by decide)
  obtain ⟨r, s₄, ns, c, hpop, hp, hinv₄, hwi₄, hh₄⟩ := hinv₃.pop 0 true
  have hr₄ := reach_pop hr₃ trivial hpop
  have hnil : update (update (fun _ : Bool => ([] : List (Nd ℕ))) false
      ((fun _ : Bool => ([] : List (Nd ℕ))) false ++ [⟨1, 1, 0⟩])) false
      (update (fun _ : Bool => ([] : List (Nd ℕ))) false ((fun _ : Bool => ([] : List (Nd ℕ))) false ++
        [⟨1, 1, 0⟩]) false ++
        [⟨2, 2, 0⟩]) true = [] := rfl
  rw [update_self, hnil] at hp
  cases hp with
  | last =>
    refine ⟨_, ⟨hr₄, ⟨_, _, _, ⟨1, 1, 0⟩, ⟨2, 2, 0⟩, hinv₄, update_self .., update_self .., rfl, rfl, rfl,
      rfl⟩, ?_, ?_⟩, ?_⟩
    · rw [hwi₄, hwi₃]
    · intro addr haddr
      simp only [hp₃, hp₂, hp₁] at haddr
      exact hh₄ addr (hh₃ addr (by omega) (hh₂ addr (by omega) (hh₁ addr (by omega) (hheap₀ addr))))
    · simp only [hp₃, hp₂, hp₁]

/-- Round after round. -/
theorem churned_rounds (m : ℕ) (hm : 4 * m + 4 < refcntInc) :
    ∃ p, Churned p (4 * m + 4) ∧ p.2.pushes = 2 * m + 4 := by
  induction m with
  | zero =>
    obtain ⟨p, hp, hn⟩ := churned_three
    obtain ⟨p', hp', hn'⟩ := hp.turn (i := 4) (by decide) (by omega) (by omega) (by omega) (by omega)
      (fun j hj hji => by omega) (by decide) (by omega)
    exact ⟨p', hp', by omega⟩
  | succ m ih =>
    obtain ⟨p, hp, hn⟩ := ih (by omega)
    unfold refcntInc at hm
    obtain ⟨p', hp', hn'⟩ := hp.turn (i := 4 * m + 7) (by unfold refcntInc; omega) (by omega) (by omega)
      (by omega)
      (by omega) (fun j hj hji => by omega) (by unfold refcntInc; omega) (by omega)
    obtain ⟨p'', hp'', hn''⟩ := hp'.turn (i := 4 * m + 8) (by unfold refcntInc; omega) (by omega) (by omega)
      (by omega)
      (by omega) (fun j hj hji => by omega) (by unfold refcntInc; omega) (by omega)
    exact ⟨p'', hp'', by omega⟩

/-- The last id of 52 bits is that of the spent node. -/
theorem churned_last : ∃ p, Churned p (2 ^ 52 - 1) ∧ p.2.pushes + 1 < 2 ^ 52 - 2 ^ 2 := by
  obtain ⟨p, hp, hn⟩ := churned_rounds (2 ^ 50 - 2) (by decide)
  obtain ⟨p', hp', hn'⟩ := hp.turn (i := 2 ^ 52 - 1) (by decide) (by omega) (by omega) (by omega) (by omega)
    (fun j hj hji => by omega) (by decide) (by omega)
  exact ⟨p', hp', by omega⟩

/-- The element that is pushed next is not popped. -/
theorem Churned.lost (h : Churned p (2 ^ 52 - 1)) (hfew : p.2.pushes + 1 < 2 ^ 52 - 2 ^ 2) :
    ∃ p', (sysHist 2 2 Bool ℕ).Reach (Few 2) p' ∧ ¬ Pops 2 2 p'.1 p'.2.lists := by
  have halloc := h.alloc (i := 2 ^ 52) (by decide) (by omega) (by omega) (by omega) (by omega)
    (fun j hj hji => by omega) (p.2.pushes + 1)
  have hfull := not_full_of_alloc halloc
  obtain ⟨nodes, spent, n, n₁, n₂, hinv, hq, hc, hq', hn, hn₁, hn₂⟩ := h.inv
  have hfind : ∀ q, ∀ m ∈ nodes q, (p.1.pd.alloc 2 (p.2.pushes + 1)).2.find 2 m.id = p.1.pd.find 2 m.id := by
    intro q m hm
    refine find_of_alloc halloc ?_
    rw [(hinv.rep.linked q).find_of_mem hm]
    exact Option.some_ne_none _
  have hlast : (p.1.queue true).tail = n.id := by
    rw [hinv.tail, hq]
    rfl
  have hfree := h.mem (p.2.pushes + 1) (by omega)
  obtain ⟨s', base, hloop, hrep, -⟩ := push_lost 1 0 (i := 2 ^ 52) hinv.rep hfree hfind
    (q := true) (show _ = [] ++ [_] from hq) hlast (by decide)
  have hpush : p.1.push 2 2 true 0 (p.2.pushes + 1) = some (.ok, s') := by
    have hpair : p.1.pd.alloc 2 (p.2.pushes + 1) = (some (2 ^ 52), (p.1.pd.alloc 2 (p.2.pushes + 1)).2) :=
      Prod.ext halloc rfl
    unfold St.push
    rw [if_neg (by omega), hpair]
    exact Option.map_eq_some_iff.2 ⟨s', hloop, rfl⟩
  have hreach := reach_push h.reach hfew hfree hpush
  have hlists : p.2.lists true = [] := by
    rw [hinv.lists, hq, hc]
    rfl
  refine ⟨_, hreach, fun hpops => ?_⟩
  obtain ⟨s'', hpop⟩ := hpops.popped true 0 [] (by simp [fifo, hfull, hlists])
  obtain ⟨r, s₃, ns, c, hpop', hp, -⟩ := pop_rep 0 hrep true
  simp only [hpop, Option.some.injEq, Prod.mk.injEq] at hpop'
  rw [hq, hc, ← hpop'.1] at hp
  cases hp

/-- **An element is lost.** The queues are not lists in every run with fewer than `2 ^ 52` pushes, less the
number of entries. -/
theorem fifo_broken :
    ¬ ∀ (k fuel : ℕ) (p : St Bool ℕ × Hist Bool ℕ), 1 ≤ k → 2 ≤ fuel → (sysHist k fuel Bool ℕ).Reach (Few k) p →
      Pushes k fuel p.1 ∧ Pops k fuel p.1 p.2.lists ∧ ∃ ids, Accounts k p.1 p.2.lists ids := by
  intro hall
  obtain ⟨p, hp, hfew⟩ := churned_last
  obtain ⟨p', hr, hno⟩ := hp.lost hfew
  exact hno (hall 2 2 p' (by omega) le_rfl hr).2.1

end Lost

end Prs.MpmcqSeq
