import Prs.Proof.RingLinks

/-!
# A ring among threads

What `lib/ds/mpmcring.c` gives to any number of threads that push, pop and free as they like, when the fields
of its entries are apart. An element can be lost (a push that finds a tail that has been freed sets `head_id`
itself), but nothing worse happens.

* `safe_of_reach`: in every run in which the ids of an entry increase, the entries that a push or a pop reads
  and writes are held by it, an id is locked once for each reference, no element is returned twice or without
  a push, an element has one user at a time, and `head_id` passes it once.
-/

namespace Prs.RingSteps

open Function PoolWords

variable {ι : Type} {k id : ℕ} {s s' : St ι} {j : ι} {p q : Pc} {b : Bool}

/-- What a thread takes for the entry of an id. -/
def Pc.access : Pc → List (ℕ × ℕ)
  | .pushNext _ tailId tail => [(tailId, tail)]
  | .pushLockNext _ tailId tail _ => [(tailId, tail)]
  | .pushUnlock _ _ nextId next => [(nextId, next)]
  | .pushMove _ _ nextId next => [(nextId, next)]
  | .pushLink _ tailId tail _ => [(tailId, tail)]
  | .popConsume headId head => [(headId, head)]
  | .popNext headId head _ => [(headId, head)]
  | _ => []

/-- A thread that is about to set `tail_id` to its id. -/
def Pc.Valid : Pc → Prop
  | .pushLinked id _ => id ≠ invalid
  | .pushTail id _ => id ≠ invalid
  | _ => True

/-- What a thread knows. -/
structure Pc.Knows (k : ℕ) (s : St ι) (q : Pc) : Prop where
  free : q.Free
  valid : q.Valid
  following : ∀ x ∈ q.following, s.pred x.1 = some x.2
  tracking : ∀ m ∈ q.tracking, m = invalid ∨ m ∈ s.pushed
  seen : q.Seen → s.tailId ≠ invalid
  access : ∀ x ∈ q.access, x.2 = x.1 % 2 ^ k

/-- A move of a thread that is not one of the effects of its call. -/
structure Quiet (p q : Pc) : Prop where
  unpushed : q.unpushed = p.unpushed ∨ q.unpushed = []
  fresh : q.fresh = p.fresh ∨ q.fresh = []
  heading : q.heading = []
  unlinked : q.unlinked = []
  taking : q.taking = p.taking

section Move

variable [Fintype ι]

structure Inv (k : ℕ) (s : St ι) : Prop where
  counts : Counts k s
  links : Links k s
  takes : Takes k s
  valid : ∀ j, (s.pc j).Valid
  access : ∀ j, ∀ x ∈ (s.pc j).access, x.2 = x.1 % 2 ^ k

theorem inv_init : Inv k (St.init : St ι) :=
  ⟨counts_init, links_init, takes_init, fun _ => trivial, fun _ => nofun⟩

theorem Inv.knows (h : Inv k s) (j : ι) : (s.pc j).Knows k s :=
  ⟨h.counts.free j, h.valid j, h.links.following j, h.links.tracking j, h.links.seen j, h.access j⟩

/-- A reference keeps its id locked. -/
theorem Inv.count_ne (h : Inv k s) (hp : s.pc j = p) (hm : id ∈ p.refs) : s.pool.count k id ≠ 0 := by
  rw [← hp] at hm
  exact h.counts.count_ne hm

theorem kept_lock (h : Inv k s) (id : ℕ) :
    ((s.pool.lock k id).1 = false ∧ Kept k s.pool (s.pool.lock k id).2 ∧ ∀ m,
      (s.pool.lock k id).2.count k m = s.pool.count k m) ∨
    ((s.pool.lock k id).1 = true ∧ Kept k s.pool (s.pool.lock k id).2 ∧ s.pool.count k id ≠ 0 ∧ ∀ m,
      (s.pool.lock k id).2.count k m = s.pool.count k m + [id].count m) := by
  obtain ⟨hl, hkept, hcount⟩ | ⟨hl, hkept, hne, hcount⟩ := h.counts.sound.lock_cases id
  · exact .inl ⟨hl, hkept, fun m => by rw [hcount]⟩
  · refine .inr ⟨hl, hkept, hne, fun m => ?_⟩
    rw [hcount]
    by_cases hm : m = id
    · rw [hm, update_self, List.count_singleton_self]
    · rw [update_of_ne hm, List.count_eq_zero.2 fun hc => hm (List.mem_singleton.1 hc)]
      rfl

theorem kept_unlock (h : Inv k s) (hne : s.pool.count k id ≠ 0) :
    Kept k s.pool (s.pool.unlock k id).2 ∧ ∀ m,
    (s.pool.unlock k id).2.count k m + [id].count m = s.pool.count k m := by
  obtain ⟨hkept, hcount⟩ := h.counts.sound.unlock_count hne
  refine ⟨hkept, fun m => ?_⟩
  rw [hcount]
  by_cases hm : m = id
  · rw [hm, update_self, List.count_singleton_self]
    omega
  · rw [update_of_ne hm, List.count_eq_zero.2 fun hc => hm (List.mem_singleton.1 hc)]
    rfl

variable [DecidableEq ι]

theorem count_le_of_sublist {a b : List ℕ} (h : a = b ∨ a = []) (m : ℕ) : a.count m ≤ b.count m := by
  obtain rfl | rfl := h
  · exact le_rfl
  · exact Nat.zero_le _

/-- **A move** changes the locks of a thread. -/
theorem Inv.move (h : Inv k s) (hp : s.pc j = p)
    (hs : s' = { s with pool := s'.pool, tailId := s'.tailId, pc := update s.pc j q })
    (hkept : Kept k s.pool s'.pool)
    (hrefs : ∀ m, s'.pool.count k m + p.refs.count m = s.pool.count k m + q.refs.count m)
    (htail : s.tailId ≠ invalid → s'.tailId ≠ invalid) (hq : Quiet p q) (hk : q.Knows k s') : Inv k s' := by
  obtain ⟨hfree, hvalid, hfollowing, htracking, hseen, haccess⟩ := hk
  rw [hs] at hfollowing htracking ⊢
  refine ⟨h.counts.move rfl hkept (fun m => ?_) (fun m => ?_) (fun m hm => ?_) hfree,
    h.links.move rfl hkept.live rfl rfl rfl rfl rfl rfl htail (.inr hq.heading) ?_ hfollowing htracking hseen,
    h.takes.move rfl hkept.live rfl (fun _ hm => hm) (fun m => ?_) h.takes.popped,
    forall_update h.valid hvalid, forall_update
      (P := fun pc : Pc => ∀ x ∈ pc.access, x.2 = x.1 % 2 ^ k) h.access haccess⟩
  · have hm := hrefs m
    rw [hp]
    dsimp only
    omega
  · have hle := count_le_of_sublist hq.unpushed m
    rw [hp]
    dsimp only
    omega
  · rw [hp]
    obtain hf | hf := hq.fresh
    · rwa [hf] at hm
    · rw [hf] at hm
      cases hm
  · rw [hq.unlinked]
    nofun
  · rw [hq.taking, hp]

/-- A move that changes no lock. -/
theorem Inv.goto (h : Inv k s) (hp : s.pc j = p) (hrefs : q.refs = p.refs) (hq : Quiet p q) (hk : q.Knows k s) :
    Inv k (s.goto j q) := by
  refine h.move hp rfl (.refl h.counts.sound) (fun m => ?_) (fun ht => ht) hq ⟨hk.1, hk.2, hk.3, hk.4, hk.5, hk.6⟩
  rw [hrefs]
  rfl

/-- A lock, which may be refused. -/
theorem Inv.lock {found failed : Pc} (h : Inv k s) (hp : s.pc j = p)
    (hfound : ∀ m, found.refs.count m = p.refs.count m + [id].count m) (hfailed : failed.refs = p.refs)
    (hq : Quiet p found) (hq' : Quiet p failed) (hk : s.pool.count k id ≠ 0 → found.Knows k s)
    (hk' : failed.Knows k s) :
    Inv k (s.lock k j id found failed) := by
  unfold St.lock
  obtain ⟨hl, hkept, hcount⟩ | ⟨hl, hkept, hne, hcount⟩ := kept_lock h id
  · rw [hl, if_neg Bool.false_ne_true]
    refine h.move hp rfl hkept (fun m => ?_) (fun ht => ht) hq' ⟨hk'.1, hk'.2, hk'.3, hk'.4, hk'.5, hk'.6⟩
    dsimp only
    rw [hcount, hfailed]
  · rw [hl, if_pos rfl]
    have hk := hk hne
    refine h.move hp rfl hkept (fun m => ?_) (fun ht => ht) hq ⟨hk.1, hk.2, hk.3, hk.4, hk.5, hk.6⟩
    dsimp only
    rw [hcount, hfound]
    omega

/-- An unlock. -/
theorem Inv.unlock (h : Inv k s) (hp : s.pc j = p) (hmem : id ∈ p.refs)
    (hrefs : ∀ m, p.refs.count m = q.refs.count m + [id].count m) (hq : Quiet p q) (hk : q.Knows k s) :
    Inv k (s.unlock k j id q) := by
  unfold St.unlock
  obtain ⟨hkept, hcount⟩ := kept_unlock h (h.count_ne hp hmem)
  refine h.move hp rfl hkept (fun m => ?_) (fun ht => ht) hq ⟨hk.1, hk.2, hk.3, hk.4, hk.5, hk.6⟩
  have hm := hcount m
  have hr := hrefs m
  dsimp only
  omega

/-- A pop returns the element that it has taken. -/
theorem Inv.return {pool : Pool} (h : Inv k s) (hp : s.pc j = p) (htaking : p.taking = [id])
    (hkept : Kept k s.pool pool) (hrefs : ∀ m,
      pool.count k m + p.refs.count m = s.pool.count k m + [id].count m) :
    Inv k { s.return j id with pool := pool } := by
  refine ⟨h.counts.move rfl hkept (fun m => ?_) (fun m => ?_) nofun trivial,
    h.links.move rfl hkept.live rfl rfl rfl rfl rfl rfl (fun ht => ht) (.inr rfl) nofun nofun nofun nofun,
    h.takes.move rfl hkept.live rfl (fun _ hm => hm) (fun m => ?_) (fun m => ?_),
    forall_update h.valid trivial,
        forall_update (P := fun pc : Pc => ∀ x ∈ pc.access, x.2 = x.1 % 2 ^ k) h.access nofun⟩
  · have hm := hrefs m
    have hidle : Pc.idle.refs = [] := rfl
    unfold St.return
    dsimp only
    rw [hp, count_cons_eq id m s.popped, hidle, List.count_nil]
    omega
  · have hidle : Pc.idle.unpushed = [] := rfl
    unfold St.return
    dsimp only
    rw [hidle, List.count_nil]
    omega
  · have hidle : Pc.idle.taking = [] := rfl
    unfold St.return
    dsimp only
    rw [hp, htaking, count_cons_eq id m s.got, hidle, List.count_nil]
    omega
  · have hle := h.takes.popped m
    unfold St.return
    dsimp only
    rw [count_cons_eq id m s.popped, count_cons_eq id m s.got]
    omega

end Move

section Alloc

variable [Fintype ι] [DecidableEq ι]

theorem probe_quiet (i stop : ℕ) : Quiet .allocLoad (.probe i stop) := by
  unfold Pc.probe
  split
  case isTrue => exact ⟨.inl rfl, .inl rfl, rfl, rfl, rfl⟩
  case isFalse => exact ⟨.inl rfl, .inl rfl, rfl, rfl, rfl⟩

/-- The search of an allocation goes on. -/
theorem Inv.probe (h : Inv k s) (hp : s.pc j = p) (hrefs : p.refs = []) (hq : Quiet .allocLoad p) (i stop : ℕ) :
    Inv k (s.goto j (.probe i stop)) := by
  have hpq := probe_quiet i stop
  refine h.goto hp ?_ ⟨?_, ?_, hpq.heading, hpq.unlinked, hpq.taking.trans hq.taking.symm⟩ ?_
  · rw [hrefs]
    unfold Pc.probe
    split <;> rfl
  · exact .inr (hpq.unpushed.elim id id)
  · exact .inr (hpq.fresh.elim id id)
  · unfold Pc.probe
    split
    case isTrue => exact ⟨trivial, trivial, nofun, nofun, nofun, nofun⟩
    case isFalse => exact ⟨trivial, trivial, nofun, nofun, nofun, nofun⟩

theorem Inv.stepAlloc (h : Inv k s) (ha : s.Ahead k (.step j b)) (hs : s.stepAlloc k j = some s') : Inv k s' := by
  unfold St.stepAlloc at hs
  split at hs
  case h_1 hpc =>
    obtain rfl := Option.some.inj hs
    exact h.probe hpc rfl ⟨.inl rfl, .inl rfl, rfl, rfl, rfl⟩ _ _
  case h_2 i stop hpc =>
    dsimp only at hs
    split at hs
    case isTrue =>
      obtain rfl := Option.some.inj hs
      exact h.probe hpc rfl ⟨.inl rfl, .inl rfl, rfl, rfl, rfl⟩ _ _
    case isFalse hfree =>
      split at hs
      case isTrue =>
        obtain rfl := Option.some.inj hs
        exact h.probe hpc rfl ⟨.inl rfl, .inl rfl, rfl, rfl, rfl⟩ _ _
      case isFalse =>
        obtain rfl := Option.some.inj hs
        rw [Bool.not_eq_true] at hfree
        exact h.goto hpc rfl ⟨.inl rfl, .inl rfl, rfl, rfl, rfl⟩ ⟨hfree, trivial, nofun, nofun, nofun, nofun⟩
  case h_3 i stop header hpc =>
    unfold St.Ahead at ha
    dsimp only at ha
    rw [hpc] at ha
    obtain ⟨hi, hlast⟩ := of_decide_eq_true ha
    split at hs
    case isTrue hcas =>
      -- the entry is taken, and the count of its new id is still zero
      obtain rfl := Option.some.inj hs
      obtain ⟨-, hcount, hcounts⟩ := h.counts.allocCas hpc hi hcas (hlast hcas)
      have hlive (m : ℕ) (hm : Pool.count k { s.pool with
          header := update s.pool.header (i % 2 ^ k) (fresh i) } m ≠ 0) : s.pool.count k m ≠ 0 := by
        rwa [hcount] at hm
      refine ⟨hcounts,
        h.links.move rfl hlive rfl rfl rfl rfl rfl rfl (fun ht => ht) (.inr rfl) nofun nofun nofun nofun,
        h.takes.move rfl hlive rfl (fun _ hm => hm) (fun m => ?_) h.takes.popped,
        forall_update h.valid trivial,
        forall_update (P := fun pc : Pc => ∀ x ∈ pc.access, x.2 = x.1 % 2 ^ k) h.access nofun⟩
      rw [hpc]
      rfl
    case isFalse =>
      obtain rfl := Option.some.inj hs
      exact h.probe hpc rfl ⟨.inl rfl, .inl rfl, rfl, rfl, rfl⟩ _ _
  case h_4 i hpc =>
    obtain rfl := Option.some.inj hs
    refine h.move hpc rfl ⟨h.counts.sound, fun _ => rfl, fun _ => Iff.rfl, fun _ hm => hm⟩ (fun _ => rfl)
      (fun ht => ht)
      ⟨.inl rfl, .inl rfl, rfl, rfl, rfl⟩ ⟨trivial, trivial, nofun, nofun, nofun, nofun⟩
  case h_5 i hpc =>
    -- the flag is that of an id that no other thread knows yet
    obtain rfl := Option.some.inj hs
    refine ⟨h.counts.move rfl (.refl h.counts.sound) (fun m => ?_) (fun m => ?_) (fun m hm => ?_) trivial,
      h.links.move rfl (fun _ hm => hm) rfl rfl rfl rfl rfl rfl (fun ht => ht) (.inr rfl) nofun nofun nofun nofun,
      h.takes.allocConsumed h.counts hpc,
      forall_update h.valid trivial,
        forall_update (P := fun pc : Pc => ∀ x ∈ pc.access, x.2 = x.1 % 2 ^ k) h.access nofun⟩
    · rw [hpc]
      rfl
    · rw [hpc]
      exact le_rfl
    · rw [hpc]
      exact hm
  case h_6 i hpc =>
    obtain rfl := Option.some.inj hs
    refine ⟨h.counts.move rfl (.refl h.counts.sound) (fun m => ?_) (fun m => ?_) (fun m hm => ?_) trivial,
      h.links.allocNext h.counts hpc,
      h.takes.move rfl (fun _ hm => hm) rfl (fun _ hm => hm) (fun m => ?_) h.takes.popped,
      forall_update h.valid trivial,
        forall_update (P := fun pc : Pc => ∀ x ∈ pc.access, x.2 = x.1 % 2 ^ k) h.access nofun⟩
    · rw [hpc]
      rfl
    · rw [hpc]
      exact le_rfl
    · rw [hpc]
      exact hm
    · rw [hpc]
      rfl
  case h_7 i hpc =>
    -- the first reference is that of the user
    obtain rfl := Option.some.inj hs
    obtain ⟨hcount, hcounts⟩ := h.counts.allocFirst hpc
    exact ⟨hcounts, h.links.allocFirst hpc hcount, h.takes.allocFirst h.counts hpc hcount,
      forall_update h.valid trivial,
        forall_update (P := fun pc : Pc => ∀ x ∈ pc.access, x.2 = x.1 % 2 ^ k) h.access nofun⟩
  case h_8 => cases hs

end Alloc

section Push

variable [Fintype ι] [DecidableEq ι]

theorem Inv.stepPush (h : Inv k s) (hs : s.stepPush k j b = some s') : Inv k s' := by
  have hk := h.knows j
  unfold St.stepPush at hs
  split at hs
  case h_1 id hpc =>
    obtain rfl := Option.some.inj hs
    split
    case isTrue hvalid =>
      exact h.goto hpc rfl ⟨.inl rfl, .inl rfl, rfl, rfl, rfl⟩
        ⟨trivial, trivial, nofun, nofun, fun _ => hvalid, nofun⟩
    case isFalse =>
      exact h.goto hpc rfl ⟨.inl rfl, .inl rfl, rfl, rfl, rfl⟩ ⟨trivial, trivial, nofun, nofun, nofun, nofun⟩
  case h_2 id tailId hpc =>
    rw [hpc] at hk
    obtain rfl := Option.some.inj hs
    refine h.lock hpc (fun m => ?_) rfl ⟨.inl rfl, .inl rfl, rfl, rfl, rfl⟩ ⟨.inl rfl, .inl rfl, rfl, rfl, rfl⟩
      (fun _ => ⟨trivial, trivial, nofun, nofun, hk.seen, ?_⟩) ⟨trivial, trivial, nofun, nofun, nofun, nofun⟩
    · exact count_cons_eq id m [tailId]
    · exact List.forall_mem_singleton.2 rfl
  case h_3 id tailId tail hpc =>
    rw [hpc] at hk
    obtain rfl := Option.some.inj hs
    split
    case isTrue =>
      exact h.goto hpc rfl ⟨.inl rfl, .inl rfl, rfl, rfl, rfl⟩
        ⟨trivial, trivial, nofun, nofun, hk.seen, hk.access⟩
    case isFalse =>
      exact h.goto hpc rfl ⟨.inl rfl, .inl rfl, rfl, rfl, rfl⟩
        ⟨trivial, trivial, nofun, nofun, hk.seen, hk.access⟩
  case h_4 id tailId tail nextId hpc =>
    rw [hpc] at hk
    obtain rfl := Option.some.inj hs
    refine h.lock hpc (fun m => ?_) rfl ⟨.inl rfl, .inl rfl, rfl, rfl, rfl⟩ ⟨.inl rfl, .inl rfl, rfl, rfl, rfl⟩
      (fun _ => ⟨trivial, trivial, nofun, nofun, hk.seen, ?_⟩)
        ⟨trivial, trivial, nofun, nofun, hk.seen, hk.access⟩
    · change ([id, tailId] ++ [nextId]).count m = _
      exact List.count_append
    · exact List.forall_mem_singleton.2 rfl
  case h_5 id tailId nextId next hpc =>
    -- the reference to the old tail is given back, and that to the entry behind it kept
    rw [hpc] at hk
    obtain rfl := Option.some.inj hs
    refine h.unlock hpc (List.mem_cons_of_mem _ List.mem_cons_self) (fun m => ?_)
      ⟨.inl rfl, .inl rfl, rfl, rfl, rfl⟩
      ⟨trivial, trivial, nofun, nofun, hk.seen, hk.access⟩
    have h1 := count_cons_eq id m [tailId, nextId]
    have h2 := count_cons_eq tailId m [nextId]
    have h3 := count_cons_eq id m [nextId]
    change [id, tailId, nextId].count m = [id, nextId].count m + [tailId].count m
    omega
  case h_6 id tailId nextId next hpc =>
    -- `tail_id` is moved, unless another thread has done so
    rw [hpc] at hk
    obtain rfl := Option.some.inj hs
    have hvalid : nextId ≠ invalid :=
      h.counts.sound.ne_invalid (h.count_ne hpc (List.mem_cons_of_mem _ List.mem_cons_self))
    have htail : s.tailId ≠ invalid → (if s.tailId = tailId then nextId else s.tailId) ≠ invalid := by
      intro ht
      split
      · exact hvalid
      · exact ht
    exact h.move hpc rfl (.refl h.counts.sound) (fun _ => rfl) htail ⟨.inl rfl, .inl rfl, rfl, rfl, rfl⟩
      ⟨trivial, trivial, nofun, nofun, fun _ => htail (hk.seen trivial), hk.access⟩
  case h_7 id tailId tail nextId hpc =>
    rw [hpc] at hk
    split at hs
    case isTrue =>
      -- the element is linked: the reference of its user is that of the ring from now on
      have htail := h.count_ne hpc (List.mem_cons_of_mem _ List.mem_cons_self)
      have hid : id ∈ (s.pc j).unpushed := by
        rw [hpc]
        exact List.mem_singleton_self id
      have hentry : tail = tailId % 2 ^ k := hk.access _ (List.mem_singleton_self _)
      have hnew := h.counts.not_pushed hid
      subst hentry
      obtain rfl := Option.some.inj hs
      refine ⟨h.counts.move rfl (.refl h.counts.sound) (fun m => ?_) (fun m => ?_) nofun trivial,
        h.links.link_id h.counts (by rw [hpc]; rfl) hid htail,
        h.takes.move rfl (fun _ hm => hm) rfl (fun _ hm => List.mem_cons_of_mem _ hm)
          (fun m => ?_) h.takes.popped,
        forall_update h.valid (h.counts.sound.ne_invalid (h.count_ne hpc List.mem_cons_self)),
        forall_update (P := fun pc : Pc => ∀ x ∈ pc.access, x.2 = x.1 % 2 ^ k) h.access nofun⟩
      · have h1 := count_cons_eq id m [tailId]
        have h2 := count_cons_eq id m s.listed
        rw [hpc]
        unfold Pc.refs
        dsimp only
        omega
      · have h1 := count_cons_eq id m s.pushed
        rw [hpc]
        change 0 + s.owned.count m + (id :: s.pushed).count m ≤ [id].count m + s.owned.count m + s.pushed.count m
        omega
      · rw [hpc]
        rfl
    case isFalse =>
      obtain rfl := Option.some.inj hs
      exact h.goto hpc rfl ⟨.inl rfl, .inl rfl, rfl, rfl, rfl⟩ ⟨trivial, trivial, nofun, nofun, hk.seen, nofun⟩
  case h_8 id tailId tail hpc =>
    rw [hpc] at hk
    obtain rfl := Option.some.inj hs
    exact h.unlock hpc (List.mem_cons_of_mem _ List.mem_cons_self) (fun m => count_cons_eq id m [tailId])
      ⟨.inl rfl, .inl rfl, rfl, rfl, rfl⟩ ⟨trivial, trivial, nofun, nofun, hk.seen, nofun⟩
  case h_9 id tail hpc =>
    -- `tail_id` has been seen valid, and stays so
    rw [hpc] at hk
    obtain rfl := Option.some.inj hs
    rw [if_pos (hk.seen trivial)]
    exact h.goto hpc rfl ⟨.inl rfl, .inl rfl, rfl, rfl, rfl⟩ ⟨trivial, trivial, nofun, nofun, hk.seen, nofun⟩
  case h_10 id tailId hpc =>
    obtain rfl := Option.some.inj hs
    rw [hpc] at hk
    exact h.unlock hpc (List.mem_singleton_self _) (fun m => (Nat.zero_add _).symm)
      ⟨.inl rfl, .inl rfl, rfl, rfl, rfl⟩
      ⟨trivial, hk.valid, nofun, nofun, nofun, nofun⟩
  case h_11 id tailId hpc =>
    rw [hpc] at hk
    obtain rfl := Option.some.inj hs
    have htail : s.tailId ≠ invalid → (if s.tailId = tailId then id else s.tailId) ≠ invalid := by
      intro ht
      split
      · exact hk.valid
      · exact ht
    exact h.move hpc rfl (.refl h.counts.sound) (fun _ => rfl) htail ⟨.inl rfl, .inl rfl, rfl, rfl, rfl⟩
      ⟨trivial, trivial, nofun, nofun, nofun, nofun⟩
  case h_12 id tailId hpc =>
    -- the first element has no other to be linked to, and `head_id` is set after it
    split at hs
    case isTrue =>
      have hvalid : id ≠ invalid := h.counts.sound.ne_invalid (h.count_ne hpc List.mem_cons_self)
      have hid : id ∈ (s.pc j).unpushed := by
        rw [hpc]
        exact List.mem_singleton_self id
      obtain rfl := Option.some.inj hs
      refine ⟨h.counts.move rfl (.refl h.counts.sound) (fun m => ?_) (fun m => ?_) nofun trivial,
        h.links.first h.counts (by rw [hpc]; rfl) hid hvalid,
        h.takes.move rfl (fun _ hm => hm) rfl (fun _ hm => List.mem_cons_of_mem _ hm)
          (fun m => ?_) h.takes.popped,
        forall_update h.valid trivial,
        forall_update (P := fun pc : Pc => ∀ x ∈ pc.access, x.2 = x.1 % 2 ^ k) h.access nofun⟩
      · have h1 := count_cons_eq id m s.listed
        rw [hpc]
        change s.pool.count k m + ([id].count m + s.owned.count m + s.popped.count m + s.listed.count m) =
          s.pool.count k m + (0 + s.owned.count m + s.popped.count m + (id :: s.listed).count m)
        omega
      · have h1 := count_cons_eq id m s.pushed
        rw [hpc]
        change 0 + s.owned.count m + (id :: s.pushed).count m ≤ [id].count m + s.owned.count m + s.pushed.count m
        omega
      · rw [hpc]
        rfl
    case isFalse =>
      obtain rfl := Option.some.inj hs
      exact h.goto hpc rfl ⟨.inl rfl, .inl rfl, rfl, rfl, rfl⟩ ⟨trivial, trivial, nofun, nofun, nofun, nofun⟩
  case h_13 id hpc =>
    have hmem : id ∈ (s.pc j).heading := by
      rw [hpc]
      exact List.mem_singleton_self id
    obtain ⟨hnone, hnew⟩ := h.links.heading j id hmem
    have hpos : 0 < s.pushed.count id := by
      have hle := count_le_tally Pc.heading s.pc j id
      have honce := h.links.headingOnce id
      have hcount := List.count_pos_iff.2 hmem
      omega
    obtain rfl := Option.some.inj hs
    refine ⟨h.counts.move rfl (.refl h.counts.sound) (fun m => ?_) (fun m => ?_) nofun trivial,
      h.links.setHead hnew (List.count_pos_iff.1 hpos) (fun m hm => absurd (hnone.symm.trans hm) nofun)
        (fun _ => .inl) rfl rfl rfl (fun i hi hm => hi ?_) rfl rfl nofun not_false,
      h.takes.move rfl (fun _ hm => hm) rfl (fun _ hm => hm) (fun m => ?_) h.takes.popped,
      forall_update h.valid trivial,
      forall_update (P := fun pc : Pc => ∀ x ∈ pc.access, x.2 = x.1 % 2 ^ k) h.access nofun⟩
    · rw [hpc]
      rfl
    · rw [hpc]
      exact le_rfl
    · -- the push of an id sets the head once
      have honce := h.counts.once id
      have hle := h.links.headingOnce id
      unfold St.places at honce
      exact eq_of_tally_le_one (by omega) hm hmem
    · rw [hpc]
      rfl
  case h_14 => cases hs

end Push

section Pop

variable [Fintype ι] [DecidableEq ι]

theorem Inv.stepPop (h : Inv k s) (hs : s.stepPop k j b = some s') : Inv k s' := by
  have hk := h.knows j
  unfold St.stepPop at hs
  split at hs
  case h_1 hpc =>
    obtain rfl := Option.some.inj hs
    split
    case isTrue =>
      exact h.goto hpc rfl ⟨.inl rfl, .inl rfl, rfl, rfl, rfl⟩
        ⟨trivial, trivial, nofun, List.forall_mem_singleton.2 h.links.head_pushed, nofun, nofun⟩
    case isFalse =>
      exact h.goto hpc rfl ⟨.inl rfl, .inl rfl, rfl, rfl, rfl⟩ ⟨trivial, trivial, nofun, nofun, nofun, nofun⟩
  case h_2 headId hpc =>
    rw [hpc] at hk
    obtain rfl := Option.some.inj hs
    exact h.lock hpc (fun m => (Nat.zero_add _).symm) rfl ⟨.inl rfl, .inl rfl, rfl, rfl, rfl⟩
      ⟨.inl rfl, .inl rfl, rfl, rfl, rfl⟩
      (fun _ => ⟨trivial, trivial, nofun, hk.tracking, nofun, List.forall_mem_singleton.2 rfl⟩)
      ⟨trivial, trivial, nofun, nofun, nofun, nofun⟩
  case h_3 headId head hpc =>
    rw [hpc] at hk
    have hlive := h.count_ne hpc List.mem_cons_self
    have hentry : head = headId % 2 ^ k := hk.access _ (List.mem_singleton_self _)
    have hpushed := (hk.tracking headId (List.mem_singleton_self _)).resolve_left
      (h.counts.sound.ne_invalid hlive)
    subst hentry
    obtain rfl := Option.some.inj hs
    refine ⟨h.counts.move rfl (.refl h.counts.sound) (fun m => ?_) (fun m => ?_) nofun trivial,
      h.links.move rfl (fun _ hm => hm) rfl rfl rfl rfl rfl rfl (fun ht => ht)
        (.inr rfl) nofun nofun hk.tracking nofun,
      h.takes.consume hpc hpushed hlive _, forall_update h.valid trivial,
      forall_update (P := fun pc : Pc => ∀ x ∈ pc.access, x.2 = x.1 % 2 ^ k) h.access hk.access⟩
    · rw [hpc]
      rfl
    · rw [hpc]
      exact le_rfl
  case h_4 headId head consumed hpc =>
    rw [hpc] at hk
    have hlive := h.count_ne hpc List.mem_cons_self
    have hentry : head = headId % 2 ^ k := hk.access _ (List.mem_singleton_self _)
    subst hentry
    split at hs
    case isTrue hnext =>
      obtain rfl := Option.some.inj hs
      have hlink := h.links.link headId hlive hnext
      refine h.goto hpc rfl ⟨.inl rfl, .inl rfl, rfl, rfl, ?_⟩
        ⟨trivial, trivial, List.forall_mem_singleton.2 hlink, hk.tracking, nofun, nofun⟩
      cases consumed <;> rfl
    case isFalse =>
      split at hs
      case isTrue hconsumed =>
        obtain rfl := Option.some.inj hs
        subst hconsumed
        exact h.goto hpc rfl ⟨.inl rfl, .inl rfl, rfl, rfl, rfl⟩ ⟨trivial, trivial, nofun, nofun, nofun, nofun⟩
      case isFalse hconsumed =>
        rw [Bool.not_eq_true] at hconsumed
        obtain rfl := Option.some.inj hs
        subst hconsumed
        exact h.return hpc rfl (.refl h.counts.sound) fun _ => rfl
  case h_5 headId head nextId consumed hpc =>
    rw [hpc] at hk
    split at hs
    case isTrue hcas =>
      obtain ⟨hcas, -⟩ := hcas
      have hpred : s.pred nextId = some headId := hk.following (nextId, headId) (List.mem_singleton_self _)
      have hvalid := h.counts.sound.ne_invalid (h.count_ne hpc List.mem_cons_self)
      have hhead : s.heads.head? = some headId := hcas ▸ h.links.head.resolve_left (hcas ▸ hvalid)
      obtain ⟨tail, hheads⟩ := List.head?_eq_some_iff.1 hhead
      have hnodup := h.links.headsNodup
      rw [hheads] at hnodup
      have hpushed := h.links.linked nextId headId hpred
      -- `head_id` has not left the id, so it has not been moved to the next one
      have hnew : nextId ∉ s.heads := by
        intro hmem
        have hleft := h.links.order nextId headId hpred hmem
        rw [hheads] at hleft
        exact (List.nodup_cons.1 hnodup).1 hleft
      have hlisted : headId ∈ s.listed := by
        refine (h.links.listed headId (h.links.headsPushed headId ?_)).resolve_right ?_
        · rw [hheads]
          exact List.mem_cons_self
        · rw [hheads]
          exact (List.nodup_cons.1 hnodup).1
      obtain rfl := Option.some.inj hs
      refine ⟨h.counts.move rfl (.refl h.counts.sound) (fun m => ?_) (fun m => ?_) nofun trivial,
        h.links.setHead hnew hpushed (fun m hm => ?_) (fun m hm => ?_) rfl rfl rfl
          (fun i _ hm => ?_) rfl rfl ?_ not_false,
        h.takes.move rfl (fun _ hm => hm) rfl (fun _ hm => hm) (fun m => ?_) h.takes.popped,
        forall_update h.valid trivial,
        forall_update (P := fun pc : Pc => ∀ x ∈ pc.access, x.2 = x.1 % 2 ^ k) h.access nofun⟩
      · have h1 : s.listed.count m = [headId].count m + (s.listed.erase headId).count m := by
          rw [← count_cons_eq]
          exact (List.perm_cons_erase hlisted).count_eq m
        have h2 := count_cons_eq headId m [headId]
        rw [hpc]
        change s.pool.count k m + ([headId].count m + s.owned.count m + s.popped.count m + s.listed.count m) =
          s.pool.count k m +
            ([headId, headId].count m + s.owned.count m + s.popped.count m + (s.listed.erase headId).count m)
        omega
      · rw [hpc]
        exact le_rfl
      · rw [hpred] at hm
        rw [← Option.some.inj hm, hheads]
        exact List.mem_cons_self
      · by_cases hmh : m = headId
        · rw [hmh, hheads]
          exact .inr List.mem_cons_self
        · exact .inl ((List.mem_erase_of_ne hmh).2 hm)
      · have hnone := (h.links.heading i nextId hm).1
        rw [hpred] at hnone
        cases hnone
      · exact List.forall_mem_singleton.2 (h.links.headsPushed headId (hheads ▸ List.mem_cons_self))
      · rw [hpc]
        cases consumed <;> rfl
    case isFalse =>
      split at hs
      case isTrue hconsumed =>
        obtain rfl := Option.some.inj hs
        subst hconsumed
        exact h.goto hpc rfl ⟨.inl rfl, .inl rfl, rfl, rfl, rfl⟩
          ⟨trivial, trivial, nofun, List.forall_mem_singleton.2 h.links.head_pushed, nofun, nofun⟩
      case isFalse hconsumed =>
        rw [Bool.not_eq_true] at hconsumed
        obtain rfl := Option.some.inj hs
        subst hconsumed
        exact h.return hpc rfl (.refl h.counts.sound) fun _ => rfl
  case h_6 headId head consumed hpc =>
    rw [hpc] at hk
    split at hs
    case isTrue hconsumed =>
      obtain rfl := Option.some.inj hs
      subst hconsumed
      exact h.unlock hpc List.mem_cons_self (fun m => count_cons_eq headId m [headId])
        ⟨.inl rfl, .inl rfl, rfl, rfl, rfl⟩ ⟨trivial, trivial, nofun, hk.tracking, nofun, nofun⟩
    case isFalse hconsumed =>
      rw [Bool.not_eq_true] at hconsumed
      obtain rfl := Option.some.inj hs
      subst hconsumed
      obtain ⟨hkept, hcount⟩ := kept_unlock h (h.count_ne hpc List.mem_cons_self)
      refine h.return hpc rfl hkept fun m => ?_
      have h1 := count_cons_eq headId m [headId]
      have h2 := hcount m
      change (s.pool.unlock k headId).2.count k m + [headId, headId].count m = s.pool.count k m + [headId].count m
      omega
  case h_7 headId prevHeadId hpc =>
    rw [hpc] at hk
    obtain rfl := Option.some.inj hs
    exact h.unlock hpc List.mem_cons_self (fun m => (Nat.zero_add _).symm) ⟨.inl rfl, .inl rfl, rfl, rfl, rfl⟩
      ⟨trivial, trivial, nofun, hk.tracking, nofun, nofun⟩
  case h_8 headId hpc =>
    obtain rfl := Option.some.inj hs
    exact h.unlock hpc List.mem_cons_self (fun m => (Nat.zero_add _).symm) ⟨.inl rfl, .inl rfl, rfl, rfl, rfl⟩
      ⟨trivial, trivial, nofun, nofun, nofun, nofun⟩
  case h_9 headId hpc =>
    obtain rfl := Option.some.inj hs
    split
    case isTrue =>
      exact h.goto hpc rfl ⟨.inl rfl, .inl rfl, rfl, rfl, rfl⟩
        ⟨trivial, trivial, nofun, List.forall_mem_singleton.2 h.links.head_pushed, nofun, nofun⟩
    case isFalse =>
      exact h.goto hpc rfl ⟨.inl rfl, .inl rfl, rfl, rfl, rfl⟩ ⟨trivial, trivial, nofun, nofun, nofun, nofun⟩
  case h_10 => cases hs

end Pop

section Calls

/-- `prs_pool_get_id` finds the id of an element. -/
theorem getId_mem {l : List ℕ} {e : ℕ} (hl : ∀ m ∈ l, s.pool.count k m ≠ 0) (he : e ∈ l.map (· % 2 ^ k)) :
    s.getId e ∈ l := by
  obtain ⟨m, hm, rfl⟩ := List.mem_map.1 he
  obtain ⟨n, hf⟩ := find_of_count (hl m hm)
  unfold St.getId
  rwa [getId_of_find hf]

theorem count_erase_add {l : List ℕ} (hid : id ∈ l) (m : ℕ) :
    l.count m = [id].count m + (l.erase id).count m := by
  rw [← count_cons_eq]
  exact (List.perm_cons_erase hid).count_eq m

variable [Fintype ι] [DecidableEq ι]

/-- A user gives an element to a call. -/
theorem Inv.give {owned popped : List ℕ} (h : Inv k s) (hpc : s.pc j = .idle)
    (hrefs : ∀ m, s.owned.count m + s.popped.count m = q.refs.count m + owned.count m + popped.count m)
    (hunpushed : ∀ m, q.unpushed.count m + owned.count m ≤ s.owned.count m)
    (hpopped : ∀ m, popped.count m ≤ s.popped.count m) (hfresh : q.fresh = []) (hheading : q.heading = [])
    (hunlinked : q.unlinked = []) (htaking : q.taking = []) (hk : q.Knows k s) :
    Inv k { s with pc := update s.pc j q, owned := owned, popped := popped } := by
  refine ⟨h.counts.move rfl (.refl h.counts.sound) (fun m => ?_) (fun m => ?_) (fun m hm => ?_) hk.free,
    h.links.move rfl (fun _ hm => hm) rfl rfl rfl rfl rfl rfl (fun ht => ht)
      (.inr hheading) ?_ hk.following hk.tracking
      hk.seen,
    h.takes.move rfl (fun _ hm => hm) rfl (fun _ hm => hm) (fun m => ?_)
      (fun m => le_trans (hpopped m) (h.takes.popped m)),
    forall_update h.valid hk.valid,
    forall_update (P := fun pc : Pc => ∀ x ∈ pc.access, x.2 = x.1 % 2 ^ k) h.access hk.access⟩
  · have hm := hrefs m
    have hidle : (s.pc j).refs.count m = 0 := by
      rw [hpc]
      rfl
    dsimp only
    omega
  · have hm := hunpushed m
    dsimp only
    omega
  · rw [hfresh] at hm
    cases hm
  · rw [hunlinked]
    nofun
  · rw [htaking, hpc]
    rfl

theorem Inv.step {a : Act ι} (h : Inv k s) (ha : s.Ahead k a) (hs : (sys k ι).step s a = some s') : Inv k s' := by
  change s.step k a = some s' at hs
  unfold St.step at hs
  cases a with
  | alloc j =>
    dsimp only at hs
    split at hs
    case isTrue hpc =>
      obtain rfl := Option.some.inj hs
      exact h.goto hpc rfl ⟨.inl rfl, .inl rfl, rfl, rfl, rfl⟩ ⟨trivial, trivial, nofun, nofun, nofun, nofun⟩
    case isFalse => cases hs
  | push j e =>
    dsimp only at hs
    split at hs
    case isTrue hc =>
      obtain rfl := Option.some.inj hs
      have hid := getId_mem (fun m => h.counts.owned_ne) hc.2
      refine h.give hc.1 (fun m => ?_) (fun m => ?_) (fun _ => le_rfl) rfl rfl rfl rfl
        ⟨trivial, trivial, nofun, nofun, nofun, nofun⟩
      · rw [count_erase_add hid m]
        rfl
      · exact le_of_eq (count_erase_add hid m).symm
    case isFalse => cases hs
  | pop j =>
    dsimp only at hs
    split at hs
    case isTrue hpc =>
      obtain rfl := Option.some.inj hs
      exact h.goto hpc rfl ⟨.inl rfl, .inl rfl, rfl, rfl, rfl⟩ ⟨trivial, trivial, nofun, nofun, nofun, nofun⟩
    case isFalse => cases hs
  | free j e =>
    dsimp only at hs
    split at hs
    case isTrue => cases hs
    case isFalse hpc =>
      rw [not_not] at hpc
      split at hs
      case isTrue hc =>
        obtain rfl := Option.some.inj hs
        have hid := getId_mem (fun m => h.counts.owned_ne) hc
        refine h.give hpc (fun m => ?_) (fun m => ?_) (fun _ => le_rfl) rfl rfl rfl rfl
          ⟨trivial, trivial, nofun, nofun, nofun, nofun⟩
        · rw [count_erase_add hid m]
          rfl
        · have hm := count_erase_add hid m
          change 0 + (s.owned.erase (s.getId e)).count m ≤ s.owned.count m
          omega
      case isFalse =>
        split at hs
        case isTrue hc =>
          obtain rfl := Option.some.inj hs
          have hid := getId_mem (fun m => h.counts.popped_ne) hc
          refine h.give hpc (fun m => ?_) (fun m => ?_) (fun m => ?_) rfl rfl rfl rfl
            ⟨trivial, trivial, nofun, nofun, nofun, nofun⟩
          · have hm := count_erase_add hid m
            change s.owned.count m + s.popped.count m =
              [s.getId e].count m + s.owned.count m + (s.popped.erase (s.getId e)).count m
            omega
          · exact le_of_eq (Nat.zero_add _)
          · have hm := count_erase_add hid m
            omega
        case isFalse => cases hs
  | step j b =>
    change s.stepThread k j b = some s' at hs
    unfold St.stepThread at hs
    split at hs
    case h_1 id hpc =>
      obtain rfl := Option.some.inj hs
      exact h.unlock hpc List.mem_cons_self (fun m => (Nat.zero_add _).symm) ⟨.inl rfl, .inl rfl, rfl, rfl, rfl⟩
        ⟨trivial, trivial, nofun, nofun, nofun, nofun⟩
    case h_2 =>
      obtain hs | ⟨-, hs⟩ := Option.or_eq_some_iff.1 hs
      · exact h.stepAlloc ha hs
      · obtain hs | ⟨-, hs⟩ := Option.or_eq_some_iff.1 hs
        · exact h.stepPush hs
        · exact h.stepPop hs

theorem inv_reach (h : (sys k ι).Reach (St.Ahead k) s) : Inv k s :=
  h.inv (by rintro _ rfl; exact inv_init) fun _ _ _ hI hok hs => hI.step hok hs

/-- **The ring is safe.** In every run in which the ids of an entry increase: an id is locked once for each
reference to it; the entries that a thread reads and writes are locked by it; an id is returned once, after
its push; an element is with one user; and `head_id` has each id once. -/
theorem safe_of_reach (h : (sys k ι).Reach (St.Ahead k) s) :
    (∀ m, tally Pc.refs s.pc m + s.owned.count m + s.popped.count m + s.listed.count m = s.pool.count k m) ∧
      (∀ j, ∀ x ∈ (s.pc j).access, x.1 ∈ (s.pc j).refs ∧ x.2 = x.1 % 2 ^ k ∧ s.pool.count k x.1 ≠ 0) ∧
      s.got.Nodup ∧ (∀ m ∈ s.got, m ∈ s.pushed) ∧ (s.owned ++ s.popped).Nodup ∧ s.heads.Nodup := by
  have hinv := inv_reach h
  have hgot (m : ℕ) : s.got.count m ≤ s.taken m := Nat.le_add_left _ _
  refine ⟨hinv.counts.total, fun j x hx => ?_, List.nodup_iff_count_le_one.2 fun m => ?_, fun m hm => ?_,
    List.nodup_iff_count_le_one.2 fun m => ?_, hinv.links.headsNodup⟩
  · have hrefs : x.1 ∈ (s.pc j).refs := by
      generalize s.pc j = pc at hx
      cases pc with
      | pushNext | pushLockNext | pushUnlock | pushMove | pushLink | popConsume | popNext =>
        rw [List.mem_singleton.1 hx]
        simp [Pc.refs]
      | _ => cases hx
    exact ⟨hrefs, hinv.access j x hx, hinv.counts.count_ne hrefs⟩
  · exact le_trans (hgot m) (hinv.takes.once m)
  · have hpos := List.count_pos_iff.2 hm
    have hle := hgot m
    exact hinv.takes.pushed m (by omega)
  · have honce := hinv.counts.once m
    have htaken := hinv.takes.once m
    have hpopped := hinv.takes.popped m
    have hle := hgot m
    unfold St.places at honce
    rw [List.count_append]
    by_cases hm : m ∈ s.pushed
    · have hpos := List.count_pos_iff.2 hm
      omega
    · -- it has not been pushed, so it has not been taken
      have hzero : s.taken m = 0 := by
        by_contra hne
        exact hm (hinv.takes.pushed m hne)
      omega

end Calls

end Prs.RingSteps
