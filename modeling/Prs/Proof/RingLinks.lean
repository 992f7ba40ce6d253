import Prs.Proof.RingRefs

/-!
# The links and the flags of a shared ring

* `Links`: the link of an entry that is locked leads to an id that was linked to it, and `head_id` goes along
  links from one id to the next, or is set once by the push of an id that was not linked.
* `Takes`: an element is taken by the thread whose exchange sets its flag.

For each of the two, what each step does to it: `move` is for the steps that leave it alone.
-/

namespace Prs.RingSteps

open Function PoolWords

variable {ι : Type} {k id : ℕ} {s s' : St ι} {j : ι} {q : Pc} {b : Bool}

section Links

/-- The id that a thread is about to store in `head_id`. -/
def Pc.heading : Pc → List ℕ
  | .pushHead id => [id]
  | _ => []

/-- The id whose link a thread has cleared, in an allocation. -/
def Pc.unlinked : Pc → List ℕ
  | .allocFirst id => [id]
  | _ => []

/-- The link that a thread is about to move `head_id` along: from the second id to the first. -/
def Pc.following : Pc → List (ℕ × ℕ)
  | .popCas headId _ nextId _ => [(nextId, headId)]
  | _ => []

/-- The id that a thread has from `head_id`. -/
def Pc.tracking : Pc → List ℕ
  | .popLock headId => [headId]
  | .popConsume headId _ => [headId]
  | .popNext headId _ _ => [headId]
  | .popCas headId _ _ _ => [headId]
  | .popPass headId _ _ => [headId]
  | .popAgain _ prevHeadId => [prevHeadId]
  | _ => []

/-- A thread that has seen a tail. -/
def Pc.Seen : Pc → Prop
  | .pushLock _ _ => True
  | .pushNext _ _ _ => True
  | .pushLockNext _ _ _ _ => True
  | .pushUnlock _ _ _ _ => True
  | .pushMove _ _ _ _ => True
  | .pushLink _ _ _ _ => True
  | .pushRetry _ _ _ => True
  | .pushReload _ _ => True
  | _ => False

variable [Fintype ι]

/-- What holds of the links and of `head_id`. -/
structure Links (k : ℕ) (s : St ι) : Prop where
  link : ∀ m, s.pool.count k m ≠ 0 → s.next (m % 2 ^ k) ≠ invalid → s.pred (s.next (m % 2 ^ k)) = some m
  linked : ∀ n m, s.pred n = some m → n ∈ s.pushed
  headsNodup : s.heads.Nodup
  headsPushed : ∀ m ∈ s.heads, m ∈ s.pushed
  head : s.headId = invalid ∨ s.heads.head? = some s.headId
  /-- `head_id` has been moved to an id from the one that it was linked to. -/
  order : ∀ n m, s.pred n = some m → n ∈ s.heads → m ∈ s.heads.tail
  listed : ∀ m ∈ s.pushed, m ∈ s.listed ∨ m ∈ s.heads.tail
  heading : ∀ j, ∀ m ∈ (s.pc j).heading, s.pred m = none ∧ m ∉ s.heads
  headingOnce : ∀ m, tally Pc.heading s.pc m ≤ s.pushed.count m
  unlinked : ∀ j, ∀ m ∈ (s.pc j).unlinked, s.next (m % 2 ^ k) = invalid
  following : ∀ j, ∀ x ∈ (s.pc j).following, s.pred x.1 = some x.2
  tracking : ∀ j, ∀ m ∈ (s.pc j).tracking, m = invalid ∨ m ∈ s.pushed
  seen : ∀ j, (s.pc j).Seen → s.tailId ≠ invalid

theorem links_init : Links k (St.init : St ι) where
  link := fun m hm => absurd (by
    have htotal := (counts_init (ι := ι) (k := k)).total m
    have hzero : tally Pc.refs (St.init : St ι).pc m = 0 := tally_eq_zero fun _ => List.not_mem_nil
    rw [← htotal, hzero]
    rfl) hm
  linked := nofun
  headsNodup := List.nodup_nil
  headsPushed := nofun
  head := .inl rfl
  order := nofun
  listed := nofun
  heading := fun _ => nofun
  headingOnce := fun _ => le_of_eq (tally_eq_zero fun _ => List.not_mem_nil)
  unlinked := fun _ => nofun
  following := fun _ => nofun
  tracking := fun _ => nofun
  seen := fun _ => nofun

/-- `head_id` is an id that has been pushed. -/
theorem Links.head_pushed (h : Links k s) : s.headId = invalid ∨ s.headId ∈ s.pushed :=
  h.head.imp_right fun hh => h.headsPushed _ (List.mem_of_mem_head? hh)

variable [DecidableEq ι]

/-- A step that leaves the links and `head_id` alone. -/
theorem Links.move (h : Links k s) (hpc : s'.pc = update s.pc j q)
    (hlive : ∀ m, s'.pool.count k m ≠ 0 → s.pool.count k m ≠ 0)
    (hnext : s'.next = s.next) (hpred : s'.pred = s.pred) (hpushed : s'.pushed = s.pushed)
    (hlisted : s'.listed = s.listed) (hheads : s'.heads = s.heads) (hhead : s'.headId = s.headId)
    (htail : s.tailId ≠ invalid → s'.tailId ≠ invalid) (hheading : q.heading = (s.pc j).heading ∨
      q.heading = []) (hunlinked : ∀ m ∈ q.unlinked, s.next (m % 2 ^ k) = invalid)
    (hfollowing : ∀ x ∈ q.following, s.pred x.1 = some x.2)
    (htracking : ∀ m ∈ q.tracking, m = invalid ∨ m ∈ s.pushed) (hseen : q.Seen → s'.tailId ≠ invalid) :
    Links k s' where
  link := by
    rw [hnext, hpred]
    exact fun m hm => h.link m (hlive m hm)
  linked := by
    rw [hpred, hpushed]
    exact h.linked
  headsNodup := by
    rw [hheads]
    exact h.headsNodup
  headsPushed := by
    rw [hheads, hpushed]
    exact h.headsPushed
  head := by
    rw [hheads, hhead]
    exact h.head
  order := by
    rw [hpred, hheads]
    exact h.order
  listed := by
    rw [hpushed, hlisted, hheads]
    exact h.listed
  heading := by
    rw [hpc, hpred, hheads]
    refine forall_update (P := fun pc : Pc => ∀ m ∈ pc.heading, s.pred m = none ∧ m ∉ s.heads) h.heading ?_
    obtain hq | hq := hheading
    · rw [hq]
      exact h.heading j
    · rw [hq]
      nofun
  headingOnce := fun m => by
    have htally := tally_update Pc.heading s.pc j q m
    have honce := h.headingOnce m
    rw [hpc, hpushed]
    obtain hq | hq := hheading
    · rw [hq] at htally
      omega
    · rw [hq, List.count_nil] at htally
      omega
  unlinked := by
    rw [hpc, hnext]
    exact forall_update (P := fun pc : Pc => ∀ m ∈ pc.unlinked, s.next (m % 2 ^ k) = invalid) h.unlinked hunlinked
  following := by
    rw [hpc, hpred]
    exact forall_update (P := fun pc : Pc => ∀ x ∈ pc.following, s.pred x.1 = some x.2) h.following hfollowing
  tracking := by
    rw [hpc, hpushed]
    exact forall_update (P := fun pc : Pc => ∀ m ∈ pc.tracking, m = invalid ∨ m ∈ s.pushed) h.tracking htracking
  seen := by
    rw [hpc]
    exact forall_update (P := fun pc : Pc => pc.Seen → s'.tailId ≠ invalid)
      (fun i hi => htail (h.seen i hi)) hseen

/-- The link of an entry that is allocated is cleared. -/
theorem Links.allocNext (h : Links k s) (hc : Counts k s) (hpc : s.pc j = .allocNext id) :
    Links k { s with next := update s.next (id % 2 ^ k) invalid, pc := update s.pc j (.allocFirst id) } := by
  have hmem : id ∈ (s.pc j).fresh := by
    rw [hpc]
    exact List.mem_singleton_self id
  refine ⟨fun m hm hnext => ?_, h.linked, h.headsNodup, h.headsPushed, h.head, h.order, h.listed, ?_,
    fun m => ?_, ?_, ?_,
    ?_, ?_⟩
  · dsimp only at hnext ⊢
    rw [update_of_ne (hc.entry_ne hmem hm)] at hnext ⊢
    exact h.link m hm hnext
  · exact forall_update (P := fun pc : Pc => ∀ m ∈ pc.heading, s.pred m = none ∧ m ∉ s.heads) h.heading nofun
  · exact le_of_eq_of_le (tally_congr (by rw [hpc]; rfl) m) (h.headingOnce m)
  · refine forall_update (P := fun pc : Pc => ∀ m ∈ pc.unlinked,
      update s.next (id % 2 ^ k) invalid (m % 2 ^ k) = invalid) ?_ ?_
    · intro i m hm
      by_cases he : m % 2 ^ k = id % 2 ^ k
      · rw [he, update_self]
      · rw [update_of_ne he]
        exact h.unlinked i m hm
    · intro m hm
      rw [List.mem_singleton.1 hm, update_self]
  · exact forall_update (P := fun pc : Pc => ∀ x ∈ pc.following, s.pred x.1 = some x.2) h.following nofun
  · exact forall_update (P := fun pc : Pc => ∀ m ∈ pc.tracking, m = invalid ∨ m ∈ s.pushed) h.tracking nofun
  · exact forall_update (P := fun pc : Pc => pc.Seen → s.tailId ≠ invalid) h.seen nofun

/-- An allocation ends: the entry has no link. -/
theorem Links.allocFirst (h : Links k s) (hpc : s.pc j = .allocFirst id) {pool : Pool}
    (hcount : ∀ m, pool.count k m = s.pool.count k m + [id].count m) :
    Links k { s with pool := pool, pc := update s.pc j .idle, owned := id :: s.owned } := by
  have hcleared : s.next (id % 2 ^ k) = invalid := by
    refine h.unlinked j id ?_
    rw [hpc]
    exact List.mem_singleton_self id
  refine ⟨fun m hm hnext => ?_, h.linked, h.headsNodup, h.headsPushed, h.head, h.order, h.listed, ?_,
    fun m => ?_, ?_, ?_,
    ?_, ?_⟩
  · by_cases hmi : m = id
    · subst hmi
      exact absurd hcleared hnext
    · refine h.link m ?_ hnext
      dsimp only at hm
      rwa [hcount, List.count_eq_zero.2 fun hc => hmi (List.mem_singleton.1 hc)] at hm
  · exact forall_update (P := fun pc : Pc => ∀ m ∈ pc.heading, s.pred m = none ∧ m ∉ s.heads) h.heading nofun
  · exact le_of_eq_of_le (tally_congr (by rw [hpc]; rfl) m) (h.headingOnce m)
  · exact forall_update (P := fun pc : Pc => ∀ m ∈ pc.unlinked, s.next (m % 2 ^ k) = invalid) h.unlinked nofun
  · exact forall_update (P := fun pc : Pc => ∀ x ∈ pc.following, s.pred x.1 = some x.2) h.following nofun
  · exact forall_update (P := fun pc : Pc => ∀ m ∈ pc.tracking, m = invalid ∨ m ∈ s.pushed) h.tracking nofun
  · exact forall_update (P := fun pc : Pc => pc.Seen → s.tailId ≠ invalid) h.seen nofun

/-- A push links its id to a tail. -/
theorem Links.link_id {tailId : ℕ} (h : Links k s) (hc : Counts k s) (hpc : (s.pc j).heading = [])
    (hid : id ∈ (s.pc j).unpushed) (htail : s.pool.count k tailId ≠ 0) :
    Links k { s with
      next := update s.next (tailId % 2 ^ k) id
      pc := update s.pc j (.pushLinked id tailId)
      pushed := id :: s.pushed
      listed := id :: s.listed
      pred := update s.pred id (some tailId) } := by
  have hnew := hc.not_pushed hid
  have hpred {n m : ℕ} (hn : s.pred n = some m) : update s.pred id (some tailId) n = some m := by
    rw [update_of_ne, hn]
    rintro rfl
    exact hnew (h.linked _ _ hn)
  refine ⟨fun m hm hnext => ?_, fun n m hn => ?_, h.headsNodup,
    fun m hm => List.mem_cons_of_mem _ (h.headsPushed m hm),
    h.head, fun n m hn hmem => ?_, fun m hm => ?_, ?_, fun m => ?_, ?_, ?_, ?_, ?_⟩
  · dsimp only at hnext ⊢
    by_cases he : m % 2 ^ k = tailId % 2 ^ k
    · rw [he, update_self, update_self, eq_of_entry hm htail he]
    · rw [update_of_ne he] at hnext ⊢
      exact hpred (h.link m hm hnext)
  · dsimp only at hn
    by_cases hni : n = id
    · rw [hni]
      exact List.mem_cons_self
    · rw [update_of_ne hni] at hn
      exact List.mem_cons_of_mem _ (h.linked n m hn)
  · dsimp only at hn
    rw [update_of_ne] at hn
    · exact h.order n m hn hmem
    · rintro rfl
      exact hnew (h.headsPushed _ hmem)
  · obtain rfl | hm := List.mem_cons.1 hm
    · exact .inl List.mem_cons_self
    · exact (h.listed m hm).imp_left (List.mem_cons_of_mem _)
  · refine forall_update (P := fun pc : Pc => ∀ m ∈ pc.heading, update s.pred id (some tailId) m = none ∧
      m ∉ s.heads) ?_
      nofun
    intro i m hm
    have hpos : 0 < tally Pc.heading s.pc m :=
      lt_of_lt_of_le (List.count_pos_iff.2 hm) (count_le_tally Pc.heading s.pc i m)
    have hold : m ∈ s.pushed := List.count_pos_iff.1 (lt_of_lt_of_le hpos (h.headingOnce m))
    rw [update_of_ne (ne_of_mem_of_not_mem hold hnew)]
    exact h.heading i m hm
  · dsimp only
    rw [tally_congr hpc.symm, List.count_cons]
    exact Nat.le_add_right_of_le (h.headingOnce m)
  · refine forall_update (P := fun pc : Pc => ∀ m ∈ pc.unlinked,
      update s.next (tailId % 2 ^ k) id (m % 2 ^ k) = invalid) ?_
      nofun
    intro i m hm
    have hfresh : m ∈ (s.pc i).fresh := by
      generalize s.pc i = pc at hm
      cases pc with
      | allocFirst => exact hm
      | _ => cases hm
    rw [update_of_ne (hc.entry_ne hfresh htail).symm]
    exact h.unlinked i m hm
  · refine forall_update (P := fun pc : Pc => ∀ x ∈ pc.following,
      update s.pred id (some tailId) x.1 = some x.2) ?_ nofun
    exact fun i x hx => hpred (h.following i x hx)
  · refine forall_update (P := fun pc : Pc => ∀ m ∈ pc.tracking, m = invalid ∨ m ∈ id :: s.pushed) ?_ nofun
    exact fun i m hm => (h.tracking i m hm).imp_right (List.mem_cons_of_mem _)
  · exact forall_update (P := fun pc : Pc => pc.Seen → s.tailId ≠ invalid) h.seen nofun

/-- A push sets `tail_id`, and is about to set `head_id`. -/
theorem Links.first (h : Links k s) (hc : Counts k s) (hpc : (s.pc j).heading = []) (hid : id ∈ (s.pc j).unpushed)
    (hvalid : id ≠ invalid) :
    Links k { s with
      tailId := id
      pc := update s.pc j (.pushHead id)
      pushed := id :: s.pushed
      listed := id :: s.listed } := by
  have hnew := hc.not_pushed hid
  refine ⟨h.link, fun n m hn => List.mem_cons_of_mem _ (h.linked n m hn), h.headsNodup,
    fun m hm => List.mem_cons_of_mem _ (h.headsPushed m hm), h.head, h.order, fun m hm => ?_, ?_, fun m => ?_,
      ?_, ?_, ?_,
    ?_⟩
  · obtain rfl | hm := List.mem_cons.1 hm
    · exact .inl List.mem_cons_self
    · exact (h.listed m hm).imp_left (List.mem_cons_of_mem _)
  · refine forall_update (P := fun pc : Pc => ∀ m ∈ pc.heading, s.pred m = none ∧ m ∉ s.heads) h.heading ?_
    intro m hm
    rw [List.mem_singleton.1 hm]
    refine ⟨?_, fun hm => hnew (h.headsPushed _ hm)⟩
    by_contra hne
    obtain ⟨m, hm⟩ := Option.ne_none_iff_exists'.1 hne
    exact hnew (h.linked _ _ hm)
  · have htally := tally_update Pc.heading s.pc j (.pushHead id) m
    have honce := h.headingOnce m
    have hheading : (Pc.pushHead id).heading = [id] := rfl
    rw [hpc, hheading, List.count_nil] at htally
    dsimp only
    rw [count_cons_eq]
    omega
  · exact forall_update (P := fun pc : Pc => ∀ m ∈ pc.unlinked, s.next (m % 2 ^ k) = invalid) h.unlinked nofun
  · exact forall_update (P := fun pc : Pc => ∀ x ∈ pc.following, s.pred x.1 = some x.2) h.following nofun
  · refine forall_update (P := fun pc : Pc => ∀ m ∈ pc.tracking, m = invalid ∨ m ∈ id :: s.pushed) ?_ nofun
    exact fun i m hm => (h.tracking i m hm).imp_right (List.mem_cons_of_mem _)
  · exact forall_update (P := fun pc : Pc => pc.Seen → id ≠ invalid) (fun _ _ => hvalid) nofun

/-- `head_id` gets an id that it has not had. -/
theorem Links.setHead {n : ℕ} {listed : List ℕ} (h : Links k s) (hn : n ∉ s.heads) (hpushed : n ∈ s.pushed)
    (hpred : ∀ m, s.pred n = some m → m ∈ s.heads) (hlisted : ∀ m ∈ s.listed, m ∈ listed ∨ m ∈ s.heads)
    (hpc : s'.pc = update s.pc j q)
    (hs : s' = { s with headId := n, heads := n :: s.heads, listed := listed, pc := s'.pc })
    (hheading : q.heading = []) (hother : ∀ i ≠ j, n ∉ (s.pc i).heading) (hunlinked : q.unlinked = [])
    (hfollowing : q.following = []) (htracking : ∀ m ∈ q.tracking, m ∈ s.pushed) (hseen : ¬ q.Seen) :
    Links k s' := by
  rw [hs, hpc]
  refine ⟨h.link, h.linked, List.nodup_cons.2 ⟨hn, h.headsNodup⟩, fun m hm => ?_, .inr rfl,
    fun m m' hm hmem => ?_, fun m hm => ?_, fun i => ?_, fun m => ?_, ?_, ?_, ?_, ?_⟩
  · obtain rfl | hm := List.mem_cons.1 hm
    · exact hpushed
    · exact h.headsPushed m hm
  · obtain rfl | hmem := List.mem_cons.1 hmem
    · exact hpred m' hm
    · exact List.mem_of_mem_tail (h.order m m' hm hmem)
  · obtain hl | ht := h.listed m hm
    · exact hlisted m hl
    · exact .inr (List.mem_of_mem_tail ht)
  · by_cases hi : i = j
    · subst hi
      dsimp only
      rw [update_self, hheading]
      nofun
    · dsimp only
      rw [update_of_ne hi]
      intro m hm
      obtain ⟨hnone, hmem⟩ := h.heading i m hm
      rw [List.mem_cons, not_or]
      refine ⟨hnone, ?_, hmem⟩
      rintro rfl
      exact hother i hi hm
  · have htally := tally_update Pc.heading s.pc j q m
    have honce := h.headingOnce m
    rw [hheading, List.count_nil] at htally
    dsimp only
    omega
  · refine forall_update (P := fun pc : Pc => ∀ m ∈ pc.unlinked, s.next (m % 2 ^ k) = invalid) h.unlinked ?_
    rw [hunlinked]
    nofun
  · refine forall_update (P := fun pc : Pc => ∀ x ∈ pc.following, s.pred x.1 = some x.2) h.following ?_
    rw [hfollowing]
    nofun
  · exact forall_update (P := fun pc : Pc => ∀ m ∈ pc.tracking, m = invalid ∨ m ∈ s.pushed) h.tracking
      fun m hm => .inr (htracking m hm)
  · exact forall_update (P := fun pc : Pc => pc.Seen → s.tailId ≠ invalid) h.seen fun hq => absurd hq hseen

end Links

section Takes

/-- The id that a thread is about to return from `prs_mpmcring_pop`. -/
def Pc.taking : Pc → List ℕ
  | .popNext headId _ false => [headId]
  | .popCas headId _ _ false => [headId]
  | .popPass headId _ false => [headId]
  | _ => []

variable [Fintype ι]

/-- How often an id has been taken from the ring. -/
def St.taken (s : St ι) (m : ℕ) : ℕ := tally Pc.taking s.pc m + s.got.count m

/-- What holds of the flags. -/
structure Takes (k : ℕ) (s : St ι) : Prop where
  once : ∀ m, s.taken m ≤ 1
  pushed : ∀ m, s.taken m ≠ 0 → m ∈ s.pushed
  consumed : ∀ m, s.taken m ≠ 0 → s.pool.count k m ≠ 0 → s.consumed (m % 2 ^ k) = true
  popped : ∀ m, s.popped.count m ≤ s.got.count m

theorem taken_init (m : ℕ) : (St.init : St ι).taken m = 0 := by
  have hzero : tally Pc.taking (fun _ : ι => Pc.idle) m = 0 := tally_eq_zero fun _ => List.not_mem_nil
  unfold St.taken St.init
  dsimp only
  rw [hzero]
  rfl

theorem takes_init : Takes k (St.init : St ι) where
  once := fun m => by
    rw [taken_init]
    exact Nat.zero_le 1
  pushed := fun m hm => absurd (taken_init m) hm
  consumed := fun m hm => absurd (taken_init m) hm
  popped := fun _ => le_rfl

variable [DecidableEq ι]

/-- A step that leaves the flags alone. -/
theorem Takes.move (h : Takes k s) (hpc : s'.pc = update s.pc j q)
    (hlive : ∀ m, s'.pool.count k m ≠ 0 → s.pool.count k m ≠ 0)
    (hconsumed : s'.consumed = s.consumed) (hpushed : ∀ m ∈ s.pushed, m ∈ s'.pushed)
    (htaken : ∀ m, q.taking.count m + s'.got.count m = (s.pc j).taking.count m + s.got.count m)
    (hpopped : ∀ m, s'.popped.count m ≤ s'.got.count m) : Takes k s' := by
  have heq (m : ℕ) : s'.taken m = s.taken m := by
    have htally := tally_update Pc.taking s.pc j q m
    have hm := htaken m
    unfold St.taken
    rw [hpc]
    omega
  refine ⟨fun m => ?_, fun m hm => ?_, fun m hm hc => ?_, hpopped⟩
  · rw [heq]
    exact h.once m
  · rw [heq] at hm
    exact hpushed m (h.pushed m hm)
  · rw [heq] at hm
    rw [hconsumed]
    exact h.consumed m hm (hlive m hc)

/-- The flag of an entry that is allocated is cleared. -/
theorem Takes.allocConsumed (h : Takes k s) (hc : Counts k s) (hpc : s.pc j = .allocConsumed id) :
    Takes k { s with consumed := update s.consumed (id % 2 ^ k) false, pc := update s.pc j (.allocNext id) } := by
  have hmem : id ∈ (s.pc j).fresh := by
    rw [hpc]
    exact List.mem_singleton_self id
  have heq (m : ℕ) : St.taken { s with
      consumed := update s.consumed (id % 2 ^ k) false, pc := update s.pc j (.allocNext id) } m = s.taken m := by
    unfold St.taken
    dsimp only
    rw [tally_congr (by rw [hpc]; rfl)]
  refine ⟨fun m => ?_, fun m hm => ?_, fun m hm hlive => ?_, h.popped⟩
  · rw [heq]
    exact h.once m
  · rw [heq] at hm
    exact h.pushed m hm
  · rw [heq] at hm
    dsimp only
    rw [update_of_ne (hc.entry_ne hmem hlive)]
    exact h.consumed m hm hlive

/-- An allocation ends: its id has not been pushed. -/
theorem Takes.allocFirst (h : Takes k s) (hc : Counts k s) (hpc : s.pc j = .allocFirst id) {pool : Pool}
    (hcount : ∀ m, pool.count k m = s.pool.count k m + [id].count m) :
    Takes k { s with pool := pool, pc := update s.pc j .idle, owned := id :: s.owned } := by
  have hnew : id ∉ s.pushed := by
    apply hc.not_pushed (j := j)
    rw [hpc]
    exact List.mem_singleton_self id
  have heq (m : ℕ) : St.taken { s with pool := pool, pc := update s.pc j .idle, owned := id :: s.owned } m =
    s.taken m := by
    unfold St.taken
    dsimp only
    rw [tally_congr (by rw [hpc]; rfl)]
  refine ⟨fun m => ?_, fun m hm => ?_, fun m hm hlive => ?_, h.popped⟩
  · rw [heq]
    exact h.once m
  · rw [heq] at hm
    exact h.pushed m hm
  · rw [heq] at hm
    have hne : m ≠ id := by
      rintro rfl
      exact hnew (h.pushed m hm)
    refine h.consumed m hm ?_
    dsimp only at hlive
    rwa [hcount, List.count_eq_zero.2 fun hmem => hne (List.mem_singleton.1 hmem)] at hlive

/-- **The exchange of the flag** decides who takes the element. -/
theorem Takes.consume (h : Takes k s) (hpc : s.pc j = .popConsume id (id % 2 ^ k)) (hid : id ∈ s.pushed)
    (hlive : s.pool.count k id ≠ 0) (took : List ℕ) :
    Takes k { s with
      consumed := update s.consumed (id % 2 ^ k) true
      pc := update s.pc j (.popNext id (id % 2 ^ k) (s.consumed (id % 2 ^ k)))
      took := took } := by
  have hold : (s.pc j).taking = [] := by
    rw [hpc]
    rfl
  have hset (m : ℕ) (hm : s.taken m ≠ 0) (hlive : s.pool.count k m ≠ 0) :
      update s.consumed (id % 2 ^ k) true (m % 2 ^ k) = true := by
    by_cases he : m % 2 ^ k = id % 2 ^ k
    · rw [he, update_self]
    · rw [update_of_ne he]
      exact h.consumed m hm hlive
  cases hwas : s.consumed (id % 2 ^ k) with
  | true =>
    have heq (m : ℕ) : St.taken { s with
        consumed := update s.consumed (id % 2 ^ k) true
        pc := update s.pc j (.popNext id (id % 2 ^ k) true)
        took := took } m = s.taken m := by
      unfold St.taken
      dsimp only
      rw [tally_congr (by rw [hold]; rfl)]
    refine ⟨fun m => ?_, fun m hm => ?_, fun m hm hlive => ?_, h.popped⟩
    · rw [heq]
      exact h.once m
    · rw [heq] at hm
      exact h.pushed m hm
    · rw [heq] at hm
      exact hset m hm hlive
  | false =>
    -- nobody has taken it
    have hzero : s.taken id = 0 := by
      by_contra hm
      have htrue := h.consumed id hm hlive
      rw [hwas] at htrue
      cases htrue
    have heq (m : ℕ) : St.taken { s with
        consumed := update s.consumed (id % 2 ^ k) true
        pc := update s.pc j (.popNext id (id % 2 ^ k) false)
        took := took } m = s.taken m + [id].count m := by
      have htally := tally_update Pc.taking s.pc j (.popNext id (id % 2 ^ k) false) m
      have hnew : (Pc.popNext id (id % 2 ^ k) false).taking = [id] := rfl
      rw [hold, hnew, List.count_nil] at htally
      unfold St.taken
      dsimp only
      omega
    have hother {m : ℕ} (hm : m ≠ id) : [id].count m = 0 :=
      List.count_eq_zero.2 fun hc => hm (List.mem_singleton.1 hc)
    refine ⟨fun m => ?_, fun m hm => ?_, fun m hm hlive => ?_, h.popped⟩
    · rw [heq]
      by_cases hmi : m = id
      · rw [hmi, hzero, List.count_singleton_self]
      · rw [hother hmi]
        exact h.once m
    · by_cases hmi : m = id
      · rw [hmi]
        exact hid
      · rw [heq, hother hmi] at hm
        exact h.pushed m hm
    · by_cases hmi : m = id
      · rw [hmi]
        exact update_self ..
      · rw [heq, hother hmi] at hm
        exact hset m hm hlive

end Takes

end Prs.RingSteps
