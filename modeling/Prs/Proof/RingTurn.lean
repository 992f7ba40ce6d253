import Prs.Lib.Links
import Prs.Proof.RingSafe

/-!
# One push at a time

A push of a ring begins when the last one has returned, and any number of threads pop and free as they like.

* `Turn`: how far the push is. Between two pushes the ring is `Settled`.
* `Queue`: what holds of the ring then. The elements that were pushed are linked from the oldest to the
  latest; those that `head_id` has had are the oldest, and those that are taken come up to `head_id` or to the
  one before.
-/

namespace Prs.RingSteps

open Function PoolWords

variable {ι : Type} {k id : ℕ} {s s' : St ι} {j : ι} {p q : Pc} {b : Bool}

/-- A thread in `prs_mpmcring_push`. -/
def Pc.pushing : Pc → Bool
  | .pushLoad _ => true
  | .pushLock _ _ => true
  | .pushNext _ _ _ => true
  | .pushLockNext _ _ _ _ => true
  | .pushUnlock _ _ _ _ => true
  | .pushMove _ _ _ _ => true
  | .pushLink _ _ _ _ => true
  | .pushRetry _ _ _ => true
  | .pushReload _ _ => true
  | .pushLinked _ _ => true
  | .pushTail _ _ => true
  | .pushFirst _ _ => true
  | .pushHead _ => true
  | _ => false

/-- A push begins when no other is under way. -/
def St.Serial (k : ℕ) (s : St ι) (a : Act ι) : Prop :=
  s.Ahead k a ∧ match a with
    | .push _ _ => ∀ i, (s.pc i).pushing = false
    | _ => True

instance [Fintype ι] (s : St ι) (a : Act ι) : Decidable (s.Serial k a) :=
  match a with
  | .push _ _ => inferInstanceAs (Decidable (_ ∧ ∀ _, _ = false))
  | .alloc _ => inferInstanceAs (Decidable (_ ∧ True))
  | .pop _ => inferInstanceAs (Decidable (_ ∧ True))
  | .free _ _ => inferInstanceAs (Decidable (_ ∧ True))
  | .step _ _ => inferInstanceAs (Decidable (_ ∧ True))

section Turn

/-- No push is half done. -/
structure Settled (s : St ι) : Prop where
  tail : s.tailId = s.pushed.head?.getD invalid
  started : s.heads = [] → s.pushed = []

/-- How far the push of a thread is. -/
def Pc.Pushes (s : St ι) : Pc → Prop
  | .pushLoad _ => Settled s
  | .pushLock _ tailId => Settled s ∧ s.pushed.head? = some tailId
  | .pushNext _ tailId _ => Settled s ∧ s.pushed.head? = some tailId
  | .pushLockNext _ _ _ _ => False
  | .pushUnlock _ _ _ _ => False
  | .pushMove _ _ _ _ => False
  | .pushLink _ tailId _ nextId => Settled s ∧ s.pushed.head? = some tailId ∧ nextId = invalid
  | .pushRetry _ _ _ => Settled s
  | .pushReload _ _ => Settled s
  | .pushLinked id tailId => s.pushed.head? = some id ∧ s.tailId = tailId ∧ s.heads ≠ []
  | .pushTail id tailId => s.pushed.head? = some id ∧ s.tailId = tailId ∧ s.heads ≠ []
  | .pushFirst _ tailId => Settled s ∧ s.pushed = [] ∧ s.tailId = tailId
  | .pushHead id => s.pushed = [id] ∧ s.tailId = id ∧ s.heads = []
  | _ => True

structure Turn (s : St ι) : Prop where
  alone : ∀ i j, (s.pc i).pushing = true → (s.pc j).pushing = true → i = j
  pushes : ∀ j, (s.pc j).Pushes s
  rest : (∀ j, (s.pc j).pushing = false) → Settled s

/-- A thread that is not in a push. -/
theorem pushes_of_not (hq : q.pushing = false) : q.Pushes s := by
  cases q with
  | pushLoad | pushLock | pushNext | pushLockNext | pushUnlock | pushMove | pushLink | pushRetry | pushReload
  | pushLinked | pushTail | pushFirst | pushHead => cases hq
  | _ => trivial

theorem Settled.congr (h : Settled s) (ht : s'.tailId = s.tailId) (hp : s'.pushed = s.pushed)
    (hh : s'.heads = [] → s.heads = []) : Settled s' where
  tail := by rw [ht, hp, h.tail]
  started := fun hn => by rw [hp, h.started (hh hn)]

/-- What a push knows is kept by the others. -/
theorem Pc.Pushes.congr (h : q.Pushes s) (ht : s'.tailId = s.tailId) (hp : s'.pushed = s.pushed)
    (hh : s'.heads = [] ↔ s.heads = []) : q.Pushes s' := by
  cases q with
  | pushLoad | pushRetry | pushReload => exact Settled.congr h ht hp hh.1
  | pushLock | pushNext | pushLink =>
    unfold Pc.Pushes at h ⊢
    rw [hp]
    exact ⟨h.1.congr ht hp hh.1, h.2⟩
  | pushLockNext | pushUnlock | pushMove => exact h
  | pushLinked | pushTail =>
    unfold Pc.Pushes at h ⊢
    rwa [hp, ht, ne_eq, hh]
  | pushFirst =>
    unfold Pc.Pushes at h ⊢
    rw [hp, ht]
    exact ⟨h.1.congr ht hp hh.1, h.2⟩
  | pushHead =>
    unfold Pc.Pushes at h ⊢
    rwa [hp, ht, hh]
  | _ => trivial

/-- When a thread pushes, no other does. -/
theorem Turn.others (h : Turn s) (hp : (s.pc j).pushing = true) (i : ι) (hi : i ≠ j) :
    (s.pc i).pushing = false := by
  rw [← Bool.not_eq_true]
  exact fun hpi => hi (h.alone i j hpi hp)

variable [DecidableEq ι]

/-- A step of a thread that is not in a push. -/
theorem Turn.other (h : Turn s) (hpc : s'.pc = update s.pc j q) (hp : (s.pc j).pushing = false)
    (hq : q.pushing = false) (ht : s'.tailId = s.tailId) (hpushed : s'.pushed = s.pushed)
    (hh : s'.heads = [] ↔ s.heads = []) : Turn s' := by
  have hsame (i : ι) : (s'.pc i).pushing = (s.pc i).pushing := by
    rw [hpc]
    by_cases hi : i = j
    · rw [hi, update_self, hp, hq]
    · rw [update_of_ne hi]
  refine ⟨fun i i' hi hi' => h.alone i i' (hsame i ▸ hi) (hsame i' ▸ hi'), fun i => ?_, fun hrest => ?_⟩
  · rw [hpc]
    by_cases hi : i = j
    · rw [hi, update_self]
      exact pushes_of_not hq
    · rw [update_of_ne hi]
      exact (h.pushes i).congr ht hpushed hh
  · exact (h.rest fun i => hsame i ▸ hrest i).congr ht hpushed hh.1

/-- A step of the thread that pushes. -/
theorem Turn.own (hpc : s'.pc = update s.pc j q) (hother : ∀ i ≠ j, (s.pc i).pushing = false) (hq : q.Pushes s')
    (hrest : q.pushing = false → Settled s') : Turn s' := by
  have hsame {i : ι} (hi : i ≠ j) : (s'.pc i).pushing = false := by
    rw [hpc, update_of_ne hi]
    exact hother i hi
  refine ⟨fun i i' hi hi' => ?_, fun i => ?_, fun hr => hrest ?_⟩
  · by_contra hne
    by_cases hij : i = j
    · rw [hsame (by rintro rfl; exact hne hij)] at hi'
      cases hi'
    · rw [hsame hij] at hi
      cases hi
  · by_cases hi : i = j
    · rw [hi, hpc, update_self]
      exact hq
    · exact pushes_of_not (hsame hi)
  · have hj := hr j
    rwa [hpc, update_self] at hj

end Turn

section Queue

/-- The id whose flag a thread has cleared, in an allocation. -/
def Pc.reset : Pc → List ℕ
  | .allocNext id => [id]
  | .allocFirst id => [id]
  | _ => []

/-- The id whose flag a pop has set. -/
def Pc.passing : Pc → List ℕ
  | .popNext headId _ _ => [headId]
  | .popCas headId _ _ _ => [headId]
  | _ => []

/-- The id that a pop has not found in the pool, or the invalid one. -/
def Pc.missing : Pc → List ℕ
  | .popReload headId => [headId]
  | _ => []

/-- What a thread knows of the queue. -/
structure Pc.Tracks (k : ℕ) (s : St ι) (q : Pc) : Prop where
  reset : ∀ m ∈ q.reset, s.consumed (m % 2 ^ k) = false
  tracking : ∀ m ∈ q.tracking, m = invalid ∨ m ∈ s.heads
  passing : ∀ m ∈ q.passing, m ∈ s.took
  missing : ∀ m ∈ q.missing, m = invalid ∨ m ∈ s.heads.tail

variable [Fintype ι]

structure Queue (k : ℕ) (s : St ι) : Prop where
  inv : Inv k s
  turn : Turn s
  chain : Prs.Links s.pred s.pushed
  back : ∀ n m, s.pred n = some m → s.pool.count k m ≠ 0 → s.next (m % 2 ^ k) = n
  heads : s.heads <:+ s.pushed
  headId : s.headId = s.heads.head?.getD invalid
  left : s.heads.tail <:+ s.took
  took : s.took <:+ s.heads
  flag : ∀ m, s.pool.count k m ≠ 0 → (s.consumed (m % 2 ^ k) = true ↔ m ∈ s.took)
  taken : ∀ m, s.took.count m = s.taken m
  listed : ∀ m, s.listed.count m ≤ s.pushed.count m
  tracks : ∀ j, (s.pc j).Tracks k s

theorem queue_init : Queue k (St.init : St ι) where
  inv := inv_init
  turn := ⟨fun _ _ => nofun, fun _ => trivial, fun _ => ⟨rfl, fun _ => rfl⟩⟩
  chain := trivial
  back := nofun
  heads := List.suffix_rfl
  headId := rfl
  left := List.suffix_rfl
  took := List.suffix_rfl
  flag := fun _ _ => iff_of_false Bool.false_ne_true List.not_mem_nil
  taken := fun m => (taken_init m).symm
  listed := fun _ => le_rfl
  tracks := fun _ => ⟨nofun, nofun, nofun, nofun⟩

theorem Queue.pushed_nodup (h : Queue k s) : s.pushed.Nodup :=
  List.nodup_iff_count_le_one.2 fun m => le_trans (Nat.le_add_left _ _) (h.inv.counts.once m)

theorem Queue.pushed_valid (h : Queue k s) {m : ℕ} (hm : m ∈ s.pushed) : m ≠ invalid := by
  have hpos := List.count_pos_iff.2 hm
  have hplaces : s.places m ≠ 0 := by
    unfold St.places
    omega
  refine PoolWords.ne_invalid (lt_of_le_of_lt (h.inv.counts.given m hplaces) ?_)
  exact Nat.mod_lt _ (by decide)

/-- An id that another is linked to is behind it. -/
theorem Queue.mem_tail_of_pred (h : Queue k s) {n m : ℕ} (hn : s.pred n = some m) : m ∈ s.pushed.tail := by
  obtain ⟨pre, post, hsplit⟩ := List.append_of_mem (h.inv.links.linked n m hn)
  have hchain := h.chain
  rw [hsplit] at hchain ⊢
  obtain ⟨post', rfl⟩ := hchain.next_split hn
  cases pre with
  | nil => exact List.mem_cons_self
  | cons a pre => simp

/-- The latest element is not behind another. -/
theorem Queue.latest_not_mem (h : Queue k s) {m : ℕ} (hm : s.pushed.head? = some m) : m ∉ s.pushed.tail := by
  obtain ⟨rest, hrest⟩ := List.head?_eq_some_iff.1 hm
  have hnodup := h.pushed_nodup
  rw [hrest] at hnodup ⊢
  exact (List.nodup_cons.1 hnodup).1

/-- An entry that nothing is linked to has no link. -/
theorem Queue.next_invalid (h : Queue k s) {m : ℕ} (hlive : s.pool.count k m ≠ 0) (hm : m ∉ s.pushed.tail) :
    s.next (m % 2 ^ k) = invalid := by
  by_contra hne
  exact hm (h.mem_tail_of_pred (h.inv.links.link m hlive hne))

/-- The latest element is still in the ring. -/
theorem Queue.latest_live (h : Queue k s) {m : ℕ} (hm : s.pushed.head? = some m) : s.pool.count k m ≠ 0 := by
  have hleft : m ∉ s.heads.tail := by
    intro hmem
    obtain ⟨pre, hpre⟩ := h.heads
    refine h.latest_not_mem hm ?_
    rw [← hpre]
    cases pre with
    | nil => exact hmem
    | cons a pre => exact List.mem_append_right pre (List.mem_of_mem_tail hmem)
  have hlisted := (h.inv.links.listed m (List.mem_of_mem_head? hm)).resolve_right hleft
  have htotal := h.inv.counts.total m
  have hpos := List.count_pos_iff.2 hlisted
  omega

/-- The id of `head_id` is still in the ring. -/
theorem Queue.head_live (h : Queue k s) (hm : s.headId ∈ s.heads) : s.pool.count k s.headId ≠ 0 := by
  have hhead := h.inv.links.head.resolve_left (h.pushed_valid (h.inv.links.headsPushed _ hm))
  obtain ⟨rest, hrest⟩ := List.head?_eq_some_iff.1 hhead
  have hnodup := h.inv.links.headsNodup
  have hleft : s.headId ∉ s.heads.tail := by
    rw [hrest] at hnodup ⊢
    exact (List.nodup_cons.1 hnodup).1
  have hlisted := (h.inv.links.listed _ (h.inv.links.headsPushed _ hm)).resolve_right hleft
  have htotal := h.inv.counts.total s.headId
  have hpos := List.count_pos_iff.2 hlisted
  omega

theorem refs_length (pc : Pc) : pc.refs.length ≤ 3 := by
  cases pc <;> simp [Pc.refs]

/-- The count of an id is below its limit. -/
theorem Queue.count_lt (h : Queue k s) (hcard : 3 * Fintype.card ι + 3 ≤ refcntMax) (m : ℕ) :
    s.pool.count k m < refcntMax := by
  have htally : tally Pc.refs s.pc m ≤ ∑ _ : ι, 3 :=
    Finset.sum_le_sum fun j _ => le_trans List.count_le_length (refs_length (s.pc j))
  rw [Finset.sum_const, Finset.card_univ] at htally
  change tally Pc.refs s.pc m ≤ Fintype.card ι * 3 at htally
  have htotal := h.inv.counts.total m
  have honce := h.inv.counts.once m
  have hpopped := h.inv.takes.popped m
  have htaken := h.inv.takes.once m
  have hlisted := h.listed m
  unfold St.places at honce
  unfold St.taken at htaken
  omega

/-- **The next element** is the one that was pushed after the first one. -/
theorem suffix_cons_of_links {pred : ℕ → Option ℕ} {l rest : List ℕ} {n m : ℕ} (h : Prs.Links pred l)
    (hnodup : l.Nodup) (hn : n ∈ l) (hpred : pred n = some m) (hs : m :: rest <:+ l) : n :: m :: rest <:+ l := by
  obtain ⟨pre, post, rfl⟩ := List.append_of_mem hn
  obtain ⟨post', rfl⟩ := h.next_split hpred
  have hpost : m :: rest = m :: post' := by
    have hsuffix : m :: post' <:+ pre ++ n :: m :: post' := ⟨pre ++ [n], by simp⟩
    obtain hle | hle := List.suffix_or_suffix_of_suffix hs hsuffix
    · obtain heq | hle := List.suffix_cons_iff.1 hle
      · exact heq
      · -- the id would be in the list twice
        have hm : m ∈ post' := hle.subset List.mem_cons_self
        exact absurd hm (List.nodup_cons.1 (hnodup.sublist hsuffix.sublist)).1
    · obtain heq | hle := List.suffix_cons_iff.1 hle
      · exact heq.symm
      · have hm : m ∈ rest := hle.subset List.mem_cons_self
        exact absurd hm (List.nodup_cons.1 (hnodup.sublist hs.sublist)).1
  rw [hpost]
  exact List.suffix_append pre _

variable [DecidableEq ι]

omit [Fintype ι] in
/-- A step that leaves alone what the threads know. -/
theorem tracks_update (h : ∀ i, (s.pc i).Tracks k s) (hpc : s'.pc = update s.pc j q)
    (hc : s'.consumed = s.consumed) (hh : s'.heads = s.heads) (ht : s'.took = s.took) (hq : q.Tracks k s)
    (i : ι) : (s'.pc i).Tracks k s' := by
  have hi : (s'.pc i).Tracks k s := by
    rw [hpc]
    exact forall_update (P := fun pc : Pc => pc.Tracks k s) h hq i
  refine ⟨?_, ?_, ?_, ?_⟩
  · rw [hc]
    exact hi.reset
  · rw [hh]
    exact hi.tracking
  · rw [ht]
    exact hi.passing
  · rw [hh]
    exact hi.missing

/-- A step that leaves the queue alone. -/
theorem Queue.move (h : Queue k s) (hinv : Inv k s')
    (hs : s' = { s with
      pool := s'.pool, tailId := s'.tailId, pc := update s.pc j q, owned := s'.owned, popped :=
      s'.popped, got := s'.got })
    (hlive : ∀ m, s'.pool.count k m ≠ 0 → s.pool.count k m ≠ 0)
    (htaken : ∀ m, q.taking.count m + s'.got.count m = (s.pc j).taking.count m + s.got.count m) (hturn : Turn s')
    (hq : q.Tracks k s) : Queue k s' := by
  have heq (m : ℕ) : s'.taken m = s.taken m := by
    have htally := tally_update Pc.taking s.pc j q m
    have hm := htaken m
    have hpc : s'.pc = update s.pc j q := by rw [hs]
    unfold St.taken
    rw [hpc]
    omega
  rw [hs] at heq hinv hturn ⊢
  refine ⟨hinv, hturn, h.chain, fun n m hn hm => h.back n m hn (hlive m hm), h.heads, h.headId, h.left, h.took,
    fun m hm => h.flag m (hlive m hm), fun m => ?_, h.listed, tracks_update h.tracks rfl rfl rfl rfl hq⟩
  rw [heq]
  exact h.taken m

/-- A move between two accesses, of a thread that is not in a push. -/
theorem Queue.goto (h : Queue k s) (hp : s.pc j = p) (hinv : Inv k (s.goto j q)) (htaking : q.taking = p.taking)
    (hpp : p.pushing = false) (hpq : q.pushing = false) (hq : q.Tracks k s) : Queue k (s.goto j q) := by
  refine h.move hinv rfl (fun _ hm => hm) (fun m => ?_)
    (h.turn.other rfl (by rw [hp]; exact hpp) hpq rfl rfl Iff.rfl) hq
  rw [hp, htaking]
  rfl

end Queue

section Alloc

theorem probe_idle (i stop : ℕ) : (Pc.probe i stop).taking = [] ∧ (Pc.probe i stop).pushing = false := by
  unfold Pc.probe
  split <;> exact ⟨rfl, rfl⟩

theorem probe_tracks (i stop : ℕ) : (Pc.probe i stop).Tracks k s := by
  unfold Pc.probe
  split <;> exact ⟨nofun, nofun, nofun, nofun⟩

variable [Fintype ι] [DecidableEq ι]

theorem Queue.probe {i stop : ℕ} (h : Queue k s) (hp : s.pc j = p) (hinv : Inv k (s.goto j (.probe i stop)))
    (htaking : p.taking = []) (hpp : p.pushing = false) : Queue k (s.goto j (.probe i stop)) :=
  h.goto hp hinv (by rw [htaking, (probe_idle i stop).1]) hpp (probe_idle i stop).2 (probe_tracks i stop)

theorem Queue.stepAlloc (h : Queue k s) (ha : s.Ahead k (.step j b)) (hinv : Inv k s')
    (hs : s.stepAlloc k j = some s') : Queue k s' := by
  have hk := h.tracks j
  unfold St.stepAlloc at hs
  split at hs
  case h_1 hpc =>
    obtain rfl := Option.some.inj hs
    exact h.probe hpc hinv rfl rfl
  case h_2 i stop hpc =>
    dsimp only at hs
    split at hs
    case isTrue =>
      obtain rfl := Option.some.inj hs
      exact h.probe hpc hinv rfl rfl
    case isFalse =>
      split at hs
      case isTrue =>
        obtain rfl := Option.some.inj hs
        exact h.probe hpc hinv rfl rfl
      case isFalse =>
        obtain rfl := Option.some.inj hs
        exact h.goto hpc hinv rfl rfl rfl ⟨nofun, nofun, nofun, nofun⟩
  case h_3 i stop header hpc =>
    unfold St.Ahead at ha
    dsimp only at ha
    rw [hpc] at ha
    obtain ⟨hi, hlast⟩ := of_decide_eq_true ha
    split at hs
    case isTrue hcas =>
      obtain rfl := Option.some.inj hs
      obtain ⟨-, hcount, -⟩ := h.inv.counts.allocCas hpc hi hcas (hlast hcas)
      refine h.move hinv rfl (fun m hm => ?_) (fun m => ?_)
        (h.turn.other rfl (by rw [hpc]; rfl) rfl rfl rfl Iff.rfl)
        ⟨nofun, nofun, nofun, nofun⟩
      · dsimp only at hm
        rwa [hcount] at hm
      · rw [hpc]
        rfl
    case isFalse =>
      obtain rfl := Option.some.inj hs
      exact h.probe hpc hinv rfl rfl
  case h_4 i hpc =>
    obtain rfl := Option.some.inj hs
    refine h.move hinv rfl (fun _ hm => hm) (fun m => ?_)
      (h.turn.other rfl (by rw [hpc]; rfl) rfl rfl rfl Iff.rfl)
      ⟨nofun, nofun, nofun, nofun⟩
    rw [hpc]
    rfl
  case h_5 i hpc =>
    -- the flag of a new id is reset, and no id that is live has the entry
    have hmem : i ∈ (s.pc j).fresh := by
      rw [hpc]
      exact List.mem_singleton_self i
    obtain rfl := Option.some.inj hs
    refine ⟨hinv, h.turn.other rfl (by rw [hpc]; rfl) rfl rfl rfl Iff.rfl, h.chain, h.back, h.heads, h.headId,
      h.left, h.took, fun m hm => ?_, fun m => ?_, h.listed, ?_⟩
    · dsimp only
      rw [update_of_ne (h.inv.counts.entry_ne hmem hm)]
      exact h.flag m hm
    · rw [h.taken]
      unfold St.taken
      dsimp only
      rw [tally_congr (by rw [hpc]; rfl)]
    · have hreset {m : ℕ} (hm : s.consumed (m % 2 ^ k) = false ∨ m % 2 ^ k = i % 2 ^ k) :
          update s.consumed (i % 2 ^ k) false (m % 2 ^ k) = false := by
        by_cases he : m % 2 ^ k = i % 2 ^ k
        · rw [he, update_self]
        · rw [update_of_ne he]
          exact hm.resolve_right he
      refine forall_update
        (fun i' => ⟨fun m hm => hreset (.inl ((h.tracks i').reset m hm)), (h.tracks i').tracking,
        (h.tracks i').passing, (h.tracks i').missing⟩) ⟨fun m hm => ?_, nofun, nofun, nofun⟩
      rw [List.mem_singleton.1 hm]
      exact hreset (.inr rfl)
  case h_6 i hpc =>
    have hmem : i ∈ (s.pc j).fresh := by
      rw [hpc]
      exact List.mem_singleton_self i
    rw [hpc] at hk
    obtain rfl := Option.some.inj hs
    refine ⟨hinv, h.turn.other rfl (by rw [hpc]; rfl) rfl rfl rfl Iff.rfl, h.chain, fun n m hn hm => ?_, h.heads,
      h.headId, h.left, h.took, h.flag, fun m => ?_, h.listed,
      tracks_update h.tracks rfl rfl rfl rfl ⟨hk.reset, nofun, nofun, nofun⟩⟩
    · dsimp only
      rw [update_of_ne (h.inv.counts.entry_ne hmem hm)]
      exact h.back n m hn hm
    · rw [h.taken]
      unfold St.taken
      dsimp only
      rw [tally_congr (by rw [hpc]; rfl)]
  case h_7 i hpc =>
    -- from here on the id is live, and it has not been pushed
    rw [hpc] at hk
    have hnew : i ∉ s.pushed := by
      apply h.inv.counts.not_pushed (j := j)
      rw [hpc]
      exact List.mem_singleton_self i
    obtain rfl := Option.some.inj hs
    obtain ⟨hcount, -⟩ := h.inv.counts.allocFirst hpc
    have hlive {m : ℕ} (hmi : m ≠ i) (hm : (s.pool.lockFirst k i).count k m ≠ 0) : s.pool.count k m ≠ 0 := by
      rwa [hcount, List.count_eq_zero.2 fun hc => hmi (List.mem_singleton.1 hc)] at hm
    refine ⟨hinv, h.turn.other rfl (by rw [hpc]; rfl) rfl rfl rfl Iff.rfl, h.chain, fun n m hn hm =>
      h.back n m hn ?_, h.heads, h.headId, h.left, h.took, fun m hm => ?_, fun m => ?_, h.listed,
      tracks_update h.tracks rfl rfl rfl rfl ⟨nofun, nofun, nofun, nofun⟩⟩
    · refine hlive ?_ hm
      rintro rfl
      exact hnew (List.mem_of_mem_tail (h.mem_tail_of_pred hn))
    · by_cases hmi : m = i
      · subst hmi
        refine iff_of_false ?_ fun hmem => hnew ((h.took.trans h.heads).subset hmem)
        rw [hk.reset m (List.mem_singleton_self m)]
        exact Bool.false_ne_true
      · exact h.flag m (hlive hmi hm)
    · rw [h.taken]
      unfold St.taken
      dsimp only
      rw [tally_congr (by rw [hpc]; rfl)]
  case h_8 => cases hs

end Alloc

end Prs.RingSteps
