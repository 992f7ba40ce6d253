import Prs.Proof.RingTurn

/-!
# A ring with one push at a time is a queue

Elements are lost in a ring when pushes overlap. They are not when each push begins after the last one has
returned.

* `queue_of_reach`: in every such run, the elements are taken in the order of their pushes, and a pop that
  finds no more elements finds that all those of the pushes that have returned are taken.
-/

namespace Prs.RingSteps

open Function PoolWords

variable {ι : Type} {k id : ℕ} {s s' : St ι} {j : ι} {p q : Pc} {b : Bool}

section Push

/-- A tail is the latest element. -/
theorem Settled.latest (hs : Settled s) (ht : s.tailId ≠ invalid) : s.pushed.head? = some s.tailId := by
  have htail := hs.tail
  cases hp : s.pushed.head? with
  | none =>
    rw [hp] at htail
    exact absurd htail ht
  | some m =>
    rw [hp] at htail
    rw [htail]
    rfl

variable [Fintype ι]

theorem Queue.empty_of_tail (h : Queue k s) (hs : Settled s) (ht : s.tailId = invalid) : s.pushed = [] := by
  by_contra hne
  obtain ⟨m, rest, hm⟩ := List.exists_cons_of_ne_nil hne
  have htail := hs.tail
  have hvalid : m ≠ invalid := by
    apply h.pushed_valid
    rw [hm]
    exact List.mem_cons_self
  rw [hm, ht] at htail
  exact hvalid htail.symm

variable [DecidableEq ι]

/-- A move in a push, which may lock or unlock. -/
theorem Queue.on {pool : Pool} (h : Queue k s) (hp : s.pc j = p)
    (hinv : Inv k { s with pool := pool, pc := update s.pc j q })
    (hlive : ∀ m, pool.count k m ≠ 0 → s.pool.count k m ≠ 0) (hpp : p.pushing = true) (hpq : q.pushing = true)
    (htaking : q.taking = p.taking) (hq : q.Pushes s) (hk : q.Tracks k s) :
    Queue k { s with pool := pool, pc := update s.pc j q } := by
  have hpushing : (s.pc j).pushing = true := by rw [hp, hpp]
  have hown : Turn { s with pool := pool, pc := update s.pc j q } :=
    .own rfl (h.turn.others hpushing) (hq.congr rfl rfl Iff.rfl) fun hc =>
      absurd (hc.symm.trans hpq) Bool.false_ne_true
  refine h.move hinv rfl hlive (fun m => ?_) hown hk
  rw [hp, htaking]

/-- A push links its id to the latest element. -/
theorem Queue.link_id {tailId : ℕ} (h : Queue k s) (hpc : s.pc j = .pushLink id tailId (tailId % 2 ^ k) invalid)
    (hsettled : Settled s) (hlatest : s.pushed.head? = some tailId)
    (hs : s' = { s with
      next := update s.next (tailId % 2 ^ k) id
      pc := update s.pc j (.pushLinked id tailId)
      pushed := id :: s.pushed
      listed := id :: s.listed
      pred := update s.pred id (some tailId) }) (hinv : Inv k s') : Queue k s' := by
  have hpushing : (s.pc j).pushing = true := by rw [hpc]; rfl
  have htaking : (Pc.pushLinked id tailId).taking = (s.pc j).taking := by rw [hpc]; rfl
  have hnew : id ∉ s.pushed := by
    apply h.inv.counts.not_pushed (j := j)
    rw [hpc]
    exact List.mem_singleton_self id
  have hlive := h.latest_live hlatest
  have hstarted : s.heads ≠ [] := by
    intro hn
    rw [hsettled.started hn] at hlatest
    cases hlatest
  subst hs
  refine ⟨hinv, .own rfl (h.turn.others hpushing) ⟨rfl, ?_, hstarted⟩ nofun, ⟨?_, h.chain.congr fun m hm => ?_⟩,
    fun n m hn hm => ?_, h.heads.trans (List.suffix_cons _ _), h.headId, h.left, h.took, h.flag, fun m => ?_,
      fun m => ?_,
    tracks_update h.tracks rfl rfl rfl rfl ⟨nofun, nofun, nofun, nofun⟩⟩
  · have htail := hsettled.tail
    rw [hlatest] at htail
    exact htail
  · dsimp only
    rw [update_self, hlatest]
  · exact update_of_ne (ne_of_mem_of_not_mem hm hnew) ..
  · dsimp only at hn ⊢
    by_cases hni : n = id
    · rw [hni, update_self] at hn
      rw [hni, ← Option.some.inj hn, update_self]
    · rw [update_of_ne hni] at hn
      by_cases he : m % 2 ^ k = tailId % 2 ^ k
      · -- nothing was linked to the latest element
        rw [eq_of_entry hm hlive he] at hn
        exact absurd (h.mem_tail_of_pred hn) (h.latest_not_mem hlatest)
      · rw [update_of_ne he]
        exact h.back n m hn hm
  · rw [h.taken]
    unfold St.taken
    dsimp only
    rw [tally_congr htaking]
  · have hle := h.listed m
    dsimp only
    rw [count_cons_eq id m s.listed, count_cons_eq id m s.pushed]
    omega

/-- The first push of a ring. -/
theorem Queue.first (h : Queue k s) {tailId : ℕ} (hpc : s.pc j = .pushFirst id tailId) (hempty : s.pushed = [])
    (hs : s' = { s with
      tailId := id
      pc := update s.pc j (.pushHead id)
      pushed := id :: s.pushed
      listed := id :: s.listed }) (hinv : Inv k s') : Queue k s' := by
  have hpushing : (s.pc j).pushing = true := by rw [hpc]; rfl
  have htaking : (Pc.pushHead id).taking = (s.pc j).taking := by rw [hpc]; rfl
  have hheads : s.heads = [] := by
    have hsuffix := h.heads
    rw [hempty] at hsuffix
    exact List.suffix_nil.1 hsuffix
  have hnone : s.pred id = none := by
    by_contra hne
    obtain ⟨m, hm⟩ := Option.ne_none_iff_exists'.1 hne
    have hmem := h.inv.links.linked id m hm
    rw [hempty] at hmem
    cases hmem
  subst hs
  refine ⟨hinv, .own rfl (h.turn.others hpushing) ⟨by rw [hempty], rfl, hheads⟩ nofun, ⟨?_, h.chain⟩, h.back,
    h.heads.trans (List.suffix_cons _ _), h.headId, h.left, h.took, h.flag, fun m => ?_, fun m => ?_,
    tracks_update h.tracks rfl rfl rfl rfl ⟨nofun, nofun, nofun, nofun⟩⟩
  · rw [hnone, hempty]
    rfl
  · rw [h.taken]
    unfold St.taken
    dsimp only
    rw [tally_congr htaking]
  · have hle := h.listed m
    dsimp only
    rw [count_cons_eq id m s.listed, count_cons_eq id m s.pushed]
    omega

/-- `head_id` is set for the first time. -/
theorem Queue.setHead (h : Queue k s) (hpc : s.pc j = .pushHead id) (hpushed : s.pushed = [id])
    (htail : s.tailId = id) (hheads : s.heads = [])
    (hs : s' = { s.goto j .idle with headId := id, heads := id :: s.heads }) (hinv : Inv k s') :
    Queue k s' := by
  have hpushing : (s.pc j).pushing = true := by rw [hpc]; rfl
  have htook : s.took = [] := List.suffix_nil.1 (hheads ▸ h.took)
  subst hs
  refine ⟨hinv, .own rfl (h.turn.others hpushing) trivial fun _ => ⟨?_, nofun⟩, h.chain, h.back, ?_, rfl, ?_,
    ?_, h.flag, fun m => ?_, h.listed, fun i => ?_⟩
  · change s.tailId = s.pushed.head?.getD invalid
    rw [hpushed, htail]
    rfl
  · change id :: s.heads <:+ s.pushed
    rw [hheads, hpushed]
  · change s.heads <:+ s.took
    rw [hheads]
    exact List.nil_suffix
  · change s.took <:+ id :: s.heads
    rw [htook]
    exact List.nil_suffix
  · change s.took.count m = _
    rw [h.taken]
    unfold St.taken St.goto
    dsimp only
    rw [tally_congr (by rw [hpc]; rfl)]
  · change (update s.pc j Pc.idle i).Tracks k _
    by_cases hi : i = j
    · rw [hi, update_self]
      exact ⟨nofun, nofun, nofun, nofun⟩
    · rw [update_of_ne hi]
      obtain ⟨hreset, htracking, hpassing, hmissing⟩ := h.tracks i
      refine ⟨hreset, fun m hm => (htracking m hm).imp_right (List.mem_cons_of_mem _), hpassing, fun m hm => ?_⟩
      refine (hmissing m hm).imp_right fun hmem => ?_
      rw [hheads] at hmem
      cases hmem

theorem Queue.stepPush (hcard : 3 * Fintype.card ι + 3 ≤ refcntMax) (h : Queue k s) (hinv : Inv k s')
    (hs : s.stepPush k j b = some s') : Queue k s' := by
  have hpush := h.turn.pushes j
  have haccess := h.inv.access j
  unfold St.stepPush at hs
  split at hs
  case h_1 id hpc =>
    rw [hpc] at hpush
    have hsettled : Settled s := hpush
    split at hs
    case isTrue hvalid =>
      obtain rfl := Option.some.inj hs
      exact h.on hpc hinv (fun _ hm => hm) rfl rfl rfl ⟨hsettled, hsettled.latest hvalid⟩
        ⟨nofun, nofun, nofun, nofun⟩
    case isFalse hinvalid =>
      obtain rfl := Option.some.inj hs
      exact h.on hpc hinv (fun _ hm => hm) rfl rfl rfl
        ⟨hsettled, h.empty_of_tail hsettled (not_not.1 hinvalid), rfl⟩ ⟨nofun, nofun, nofun, nofun⟩
  case h_2 id tailId hpc =>
    -- the lock does not fail, because the tail is the element that was pushed last
    rw [hpc] at hpush
    obtain ⟨hsettled, hlatest⟩ : Settled s ∧ s.pushed.head? = some tailId := hpush
    have hlock := h.inv.counts.sound.lock_true (h.latest_live hlatest) (h.count_lt hcard tailId)
    have hkept : Kept k s.pool (s.pool.lock k tailId).2 := by
      obtain ⟨-, hkept, -⟩ | ⟨-, hkept, -⟩ := h.inv.counts.sound.lock_cases tailId
      · exact hkept
      · exact hkept
    unfold St.lock at hs
    rw [hlock, if_pos rfl] at hs
    obtain rfl := Option.some.inj hs
    exact h.on hpc hinv hkept.live rfl rfl rfl ⟨hsettled, hlatest⟩ ⟨nofun, nofun, nofun, nofun⟩
  case h_3 id tailId tail hpc =>
    -- nothing is behind the tail, so the branch for a tail that lags is not taken
    rw [hpc] at hpush haccess
    obtain ⟨hsettled, hlatest⟩ : Settled s ∧ s.pushed.head? = some tailId := hpush
    obtain rfl : tail = tailId % 2 ^ k := haccess _ (List.mem_singleton_self _)
    have hnext := h.next_invalid (h.latest_live hlatest) (h.latest_not_mem hlatest)
    dsimp only at hs
    rw [hnext, if_neg (not_not.2 rfl)] at hs
    obtain rfl := Option.some.inj hs
    exact h.on hpc hinv (fun _ hm => hm) rfl rfl rfl ⟨hsettled, hlatest, rfl⟩ ⟨nofun, nofun, nofun, nofun⟩
  case h_4 hpc =>
    rw [hpc] at hpush
    exact hpush.elim
  case h_5 hpc =>
    rw [hpc] at hpush
    exact hpush.elim
  case h_6 hpc =>
    rw [hpc] at hpush
    exact hpush.elim
  case h_7 id tailId tail nextId hpc =>
    rw [hpc] at hpush haccess
    obtain ⟨hsettled, hlatest, rfl⟩ : Settled s ∧ s.pushed.head? = some tailId ∧ nextId = invalid := hpush
    obtain rfl : tail = tailId % 2 ^ k := haccess _ (List.mem_singleton_self _)
    split at hs
    case isTrue => exact h.link_id hpc hsettled hlatest (Option.some.inj hs).symm hinv
    case isFalse =>
      obtain rfl := Option.some.inj hs
      exact h.on hpc hinv (fun _ hm => hm) rfl rfl rfl hsettled ⟨nofun, nofun, nofun, nofun⟩
  case h_8 id tailId tail hpc =>
    rw [hpc] at hpush
    have hlive := h.inv.count_ne hpc (List.mem_cons_of_mem _ List.mem_cons_self)
    obtain rfl := Option.some.inj hs
    exact h.on hpc hinv (h.inv.counts.sound.unlock_count hlive).1.live rfl rfl rfl hpush
      ⟨nofun, nofun, nofun, nofun⟩
  case h_9 id tail hpc =>
    rw [hpc] at hpush
    have hsettled : Settled s := hpush
    have hvalid : s.tailId ≠ invalid := h.inv.links.seen j (by rw [hpc]; trivial)
    rw [if_pos hvalid] at hs
    obtain rfl := Option.some.inj hs
    exact h.on hpc hinv (fun _ hm => hm) rfl rfl rfl ⟨hsettled, hsettled.latest hvalid⟩
      ⟨nofun, nofun, nofun, nofun⟩
  case h_10 id tailId hpc =>
    rw [hpc] at hpush
    have hlive := h.inv.count_ne hpc List.mem_cons_self
    obtain rfl := Option.some.inj hs
    exact h.on hpc hinv (h.inv.counts.sound.unlock_count hlive).1.live rfl rfl rfl hpush
      ⟨nofun, nofun, nofun, nofun⟩
  case h_11 id tailId hpc =>
    -- no other push has moved `tail_id`
    rw [hpc] at hpush
    obtain ⟨hlatest, htail, hstarted⟩ : s.pushed.head? = some id ∧ s.tailId = tailId ∧ s.heads ≠ [] := hpush
    have hpushing : (s.pc j).pushing = true := by rw [hpc]; rfl
    rw [if_pos htail] at hs
    obtain rfl := Option.some.inj hs
    refine h.move hinv rfl (fun _ hm => hm) (fun m => ?_)
      (.own rfl (h.turn.others hpushing) trivial fun _ => ⟨?_, fun hn => absurd hn hstarted⟩)
        ⟨nofun, nofun, nofun, nofun⟩
    · rw [hpc]
      rfl
    · change id = s.pushed.head?.getD invalid
      rw [hlatest]
      rfl
  case h_12 id tailId hpc =>
    rw [hpc] at hpush
    obtain ⟨-, hempty, htail⟩ : Settled s ∧ s.pushed = [] ∧ s.tailId = tailId := hpush
    rw [if_pos htail] at hs
    exact h.first hpc hempty (Option.some.inj hs).symm hinv
  case h_13 id hpc =>
    rw [hpc] at hpush
    obtain ⟨hpushed, htail, hheads⟩ : s.pushed = [id] ∧ s.tailId = id ∧ s.heads = [] := hpush
    exact h.setHead hpc hpushed htail hheads (Option.some.inj hs).symm hinv
  case h_14 => cases hs

end Push

section Pop

variable [Fintype ι]

theorem Queue.head_mem (h : Queue k s) : s.headId = invalid ∨ s.headId ∈ s.heads := by
  have hhead := h.headId
  cases hheads : s.heads with
  | nil =>
    rw [hheads] at hhead
    exact .inl hhead
  | cons m rest =>
    rw [hheads] at hhead
    rw [hhead]
    exact .inr List.mem_cons_self

/-- An id that `head_id` has had and that is not locked is one that it has left. -/
theorem Queue.left_of_dead (h : Queue k s) (hm : id ∈ s.heads) (hdead : s.pool.count k id = 0) :
    id ∈ s.heads.tail := by
  have hhead := h.headId
  obtain ⟨m, rest, hheads⟩ := List.exists_cons_of_ne_nil (List.ne_nil_of_mem hm)
  rw [hheads] at hhead
  have hmem : s.headId ∈ s.heads := by
    rw [hhead, hheads]
    exact List.mem_cons_self
  have hlive := h.head_live hmem
  rw [hheads] at hm ⊢
  obtain rfl | hm := List.mem_cons.1 hm
  · rw [hhead] at hlive
    exact absurd hdead hlive
  · exact hm

variable [DecidableEq ι]

/-- A move in a pop, which may lock, unlock or return. -/
theorem Queue.pass {pool : Pool} {popped got : List ℕ} (h : Queue k s) (hp : s.pc j = p)
    (hinv : Inv k { s with pool := pool, pc := update s.pc j q, popped := popped, got := got })
    (hlive : ∀ m, pool.count k m ≠ 0 → s.pool.count k m ≠ 0)
    (htaken : ∀ m, q.taking.count m + got.count m = p.taking.count m + s.got.count m) (hpp : p.pushing = false)
    (hpq : q.pushing = false) (hk : q.Tracks k s) :
    Queue k { s with pool := pool, pc := update s.pc j q, popped := popped, got := got } := by
  have hpushing : (s.pc j).pushing = false := by rw [hp, hpp]
  refine h.move hinv rfl hlive (fun m => ?_) (h.turn.other rfl hpushing hpq rfl rfl Iff.rfl) hk
  rw [hp]
  exact htaken m

/-- A pop sets the flag of an entry. -/
theorem Queue.consume (h : Queue k s) (hpc : s.pc j = .popConsume id (id % 2 ^ k)) (hlive : s.pool.count k id ≠ 0)
    (hid : id ∈ s.heads)
    (hs : s' = { s with
      consumed := update s.consumed (id % 2 ^ k) true
      pc := update s.pc j (.popNext id (id % 2 ^ k) (s.consumed (id % 2 ^ k)))
      took := if s.consumed (id % 2 ^ k) = true then s.took else id :: s.took }) (hinv : Inv k s') :
        Queue k s' := by
  have hold : (s.pc j).taking = [] := by
    rw [hpc]
    rfl
  have hpushing : (s.pc j).pushing = false := by rw [hpc]; rfl
  have hflag := h.flag id hlive
  -- what a pop takes is the first element, and it has not been taken
  have htake : s.consumed (id % 2 ^ k) = false → s.heads = id :: s.took := by
    intro hwas
    have hnot : id ∉ s.took := by
      rw [← hflag, hwas]
      exact Bool.false_ne_true
    obtain ⟨m, rest, hheads⟩ := List.exists_cons_of_ne_nil (List.ne_nil_of_mem hid)
    have hleft := h.left
    have htook := h.took
    rw [hheads] at hid hleft htook ⊢
    obtain rfl | hid := List.mem_cons.1 hid
    · obtain heq | hle := List.suffix_cons_iff.1 htook
      · rw [heq] at hnot
        exact absurd List.mem_cons_self hnot
      · rw [hle.eq_of_length_le hleft.length_le]
    · exact absurd (hleft.subset hid) hnot
  have htookEq (m : ℕ) :
      m ∈ (if s.consumed (id % 2 ^ k) = true then s.took else id :: s.took) ↔ m = id ∨ m ∈ s.took := by
    split
    case isTrue hwas =>
      refine ⟨.inr, fun hm => hm.elim ?_ fun hm => hm⟩
      rintro rfl
      exact hflag.1 hwas
    case isFalse => exact List.mem_cons
  subst hs
  refine ⟨hinv, h.turn.other rfl hpushing rfl rfl rfl Iff.rfl, h.chain, h.back, h.heads, h.headId, ?_, ?_,
    fun m hm => ?_, fun m => ?_, h.listed, fun i => ?_⟩
  · dsimp only
    split
    · exact h.left
    · exact h.left.trans (List.suffix_cons _ _)
  · dsimp only
    split
    case isTrue => exact h.took
    case isFalse hwas =>
      rw [htake (by rwa [Bool.not_eq_true] at hwas)]
  · dsimp only
    rw [htookEq]
    by_cases he : m % 2 ^ k = id % 2 ^ k
    · rw [he, update_self]
      exact iff_of_true rfl (.inl (eq_of_entry hm hlive he))
    · rw [update_of_ne he, h.flag m hm]
      refine ⟨.inr, fun hor => hor.resolve_left ?_⟩
      rintro rfl
      exact he rfl
  · have htally := tally_update Pc.taking s.pc j (.popNext id (id % 2 ^ k) (s.consumed (id % 2 ^ k))) m
    have htaken := h.taken m
    unfold St.taken at htaken ⊢
    rw [hold, List.count_nil] at htally
    dsimp only
    cases hwas : s.consumed (id % 2 ^ k) with
    | true =>
      have hnew : (Pc.popNext id (id % 2 ^ k) true).taking.count m = 0 := rfl
      rw [hwas, hnew] at htally
      rw [if_pos rfl]
      omega
    | false =>
      have hnew : (Pc.popNext id (id % 2 ^ k) false).taking = [id] := rfl
      rw [hwas, hnew] at htally
      rw [if_neg Bool.false_ne_true, count_cons_eq]
      omega
  · dsimp only
    by_cases hi : i = j
    · rw [hi, update_self]
      refine ⟨nofun, fun m hm => ?_, fun m hm => ?_, nofun⟩
      · rw [List.mem_singleton.1 hm]
        exact .inr hid
      · rw [List.mem_singleton.1 hm]
        exact (htookEq id).2 (.inl rfl)
    · rw [update_of_ne hi]
      obtain ⟨hreset, htracking, hpassing, hmissing⟩ := h.tracks i
      refine ⟨fun m hm => ?_, htracking, fun m hm => (htookEq m).2 (.inr (hpassing m hm)), hmissing⟩
      have hfresh : m ∈ (s.pc i).fresh := by
        generalize s.pc i = pc at hm
        cases pc with
        | allocNext | allocFirst => exact hm
        | _ => cases hm
      dsimp only
      rw [update_of_ne (h.inv.counts.entry_ne hfresh hlive).symm]
      exact hreset m hm

/-- `head_id` is moved to the next element. -/
theorem Queue.advance {nextId head : ℕ} {consumed : Bool} (h : Queue k s)
    (hpc : s.pc j = .popCas id head nextId consumed) (hcas : s.headId = id) (hpred : s.pred nextId = some id)
    (hlive : s.pool.count k id ≠ 0) (htook : id ∈ s.took) (hs : s' = { s with
      headId := nextId
      pc := update s.pc j (.popPass id head consumed)
      listed := s.listed.erase id
      heads := nextId :: s.heads }) (hinv : Inv k s') : Queue k s' := by
  have hpushing : (s.pc j).pushing = false := by rw [hpc]; rfl
  have hvalid := h.inv.counts.sound.ne_invalid hlive
  have hhead : s.heads.head? = some id := hcas ▸ h.inv.links.head.resolve_left (hcas ▸ hvalid)
  obtain ⟨rest, hheads⟩ := List.head?_eq_some_iff.1 hhead
  have hnodup := h.inv.links.headsNodup
  -- the head has been taken, so all that were the head have
  have hall : s.took = s.heads := by
    have hsuffix := h.took
    rw [hheads] at hnodup hsuffix ⊢
    refine (List.suffix_cons_iff.1 hsuffix).resolve_right fun hle => ?_
    exact (List.nodup_cons.1 hnodup).1 (hle.subset htook)
  have hsuffix := h.heads
  rw [hheads] at hsuffix
  have hnext := suffix_cons_of_links h.chain h.pushed_nodup (h.inv.links.linked nextId id hpred) hpred hsuffix
  have hstarted : s.heads ≠ [] := by
    rw [hheads]
    exact List.cons_ne_nil _ _
  subst hs
  refine ⟨hinv, h.turn.other rfl hpushing rfl rfl rfl (iff_of_false (List.cons_ne_nil _ _) hstarted), h.chain,
    h.back, ?_, rfl, ?_, ?_, h.flag, fun m => ?_, fun m => ?_, fun i => ?_⟩
  · dsimp only
    rw [hheads]
    exact hnext
  · change s.heads <:+ s.took
    rw [hall]
  · change s.took <:+ nextId :: s.heads
    rw [hall]
    exact List.suffix_cons _ _
  · rw [h.taken]
    unfold St.taken
    dsimp only
    rw [tally_congr]
    rw [hpc]
    cases consumed <;> rfl
  · exact le_trans (List.erase_sublist.count_le m) (h.listed m)
  · dsimp only
    by_cases hi : i = j
    · rw [hi, update_self]
      refine ⟨nofun, fun m hm => ?_, nofun, nofun⟩
      rw [List.mem_singleton.1 hm, hheads]
      exact .inr (List.mem_cons_of_mem _ List.mem_cons_self)
    · rw [update_of_ne hi]
      obtain ⟨hreset, htracking, hpassing, hmissing⟩ := h.tracks i
      exact ⟨hreset, fun m hm => (htracking m hm).imp_right (List.mem_cons_of_mem _), hpassing,
        fun m hm => (hmissing m hm).imp_right List.mem_of_mem_tail⟩

theorem Queue.stepPop (hcard : 3 * Fintype.card ι + 3 ≤ refcntMax) (h : Queue k s) (hinv : Inv k s')
    (hs : s.stepPop k j b = some s') : Queue k s' := by
  have hk := h.tracks j
  have haccess := h.inv.access j
  have hfollowing := h.inv.links.following j
  unfold St.stepPop at hs
  split at hs
  case h_1 hpc =>
    split at hs
    case isTrue =>
      obtain rfl := Option.some.inj hs
      exact h.pass hpc hinv (fun _ hm => hm) (fun _ => rfl) rfl rfl
        ⟨nofun, List.forall_mem_singleton.2 h.head_mem, nofun, nofun⟩
    case isFalse hinvalid =>
      obtain rfl := Option.some.inj hs
      exact h.pass hpc hinv (fun _ hm => hm) (fun _ => rfl) rfl rfl
        ⟨nofun, nofun, nofun, List.forall_mem_singleton.2 (.inl (not_not.1 hinvalid))⟩
  case h_2 headId hpc =>
    rw [hpc] at hk
    have htracking := hk.tracking headId (List.mem_singleton_self _)
    unfold St.lock at hs
    obtain ⟨hl, hkept, -⟩ | ⟨hl, hkept, -⟩ := h.inv.counts.sound.lock_cases headId
    · -- it is not refused for an id that is locked
      have hdead : s.pool.count k headId = 0 := by
        by_contra hlive
        rw [h.inv.counts.sound.lock_true hlive (h.count_lt hcard headId)] at hl
        cases hl
      rw [hl, if_neg Bool.false_ne_true] at hs
      obtain rfl := Option.some.inj hs
      exact h.pass hpc hinv hkept.live (fun _ => rfl) rfl rfl ⟨nofun, nofun, nofun,
        List.forall_mem_singleton.2 (htracking.imp_right fun hm => h.left_of_dead hm hdead)⟩
    · rw [hl, if_pos rfl] at hs
      obtain rfl := Option.some.inj hs
      exact h.pass hpc hinv hkept.live (fun _ => rfl) rfl rfl ⟨nofun, hk.tracking, nofun, nofun⟩
  case h_3 headId head hpc =>
    -- the exchange of the flag says who takes the element
    rw [hpc] at hk haccess
    have hlive := h.inv.count_ne hpc List.mem_cons_self
    have hvalid := h.inv.counts.sound.ne_invalid hlive
    obtain rfl : head = headId % 2 ^ k := haccess _ (List.mem_singleton_self _)
    exact h.consume hpc hlive ((hk.tracking headId (List.mem_singleton_self _)).resolve_left hvalid)
      (Option.some.inj hs).symm hinv
  case h_4 headId head consumed hpc =>
    -- the last entry stays in the ring, though its element may be taken
    rw [hpc] at hk
    split at hs
    case isTrue =>
      obtain rfl := Option.some.inj hs
      refine h.pass hpc hinv (fun _ hm => hm) (fun m => ?_) rfl rfl ⟨nofun, hk.tracking, hk.passing, nofun⟩
      cases consumed <;> rfl
    case isFalse =>
      split at hs
      case isTrue hconsumed =>
        obtain rfl := Option.some.inj hs
        subst hconsumed
        exact h.pass hpc hinv (fun _ hm => hm) (fun _ => rfl) rfl rfl ⟨nofun, nofun, nofun, nofun⟩
      case isFalse hconsumed =>
        rw [Bool.not_eq_true] at hconsumed
        obtain rfl := Option.some.inj hs
        subst hconsumed
        refine h.pass hpc hinv (fun _ hm => hm) (fun m => ?_) rfl rfl ⟨nofun, nofun, nofun, nofun⟩
        rw [count_cons_eq]
        exact Nat.zero_add _
  case h_5 headId head nextId consumed hpc =>
    rw [hpc] at hk hfollowing
    split at hs
    case isTrue hcas =>
      exact h.advance hpc hcas.1 (hfollowing (nextId, headId) (List.mem_singleton_self _))
        (h.inv.count_ne hpc List.mem_cons_self) (hk.passing headId (List.mem_singleton_self _))
          (Option.some.inj hs).symm
        hinv
    case isFalse =>
      split at hs
      case isTrue hconsumed =>
        obtain rfl := Option.some.inj hs
        subst hconsumed
        exact h.pass hpc hinv (fun _ hm => hm) (fun _ => rfl) rfl rfl
          ⟨nofun, List.forall_mem_singleton.2 h.head_mem, nofun, nofun⟩
      case isFalse hconsumed =>
        rw [Bool.not_eq_true] at hconsumed
        obtain rfl := Option.some.inj hs
        subst hconsumed
        refine h.pass hpc hinv (fun _ hm => hm) (fun m => ?_) rfl rfl ⟨nofun, nofun, nofun, nofun⟩
        rw [count_cons_eq]
        exact Nat.zero_add _
  case h_6 headId head consumed hpc =>
    rw [hpc] at hk
    have hlive := (h.inv.counts.sound.unlock_count (h.inv.count_ne hpc List.mem_cons_self)).1.live
    split at hs
    case isTrue hconsumed =>
      obtain rfl := Option.some.inj hs
      subst hconsumed
      exact h.pass hpc hinv hlive (fun _ => rfl) rfl rfl ⟨nofun, hk.tracking, nofun, nofun⟩
    case isFalse hconsumed =>
      rw [Bool.not_eq_true] at hconsumed
      obtain rfl := Option.some.inj hs
      subst hconsumed
      refine h.pass hpc hinv hlive (fun m => ?_) rfl rfl ⟨nofun, nofun, nofun, nofun⟩
      change 0 + (headId :: s.got).count m = [headId].count m + s.got.count m
      rw [count_cons_eq]
      exact Nat.zero_add _
  case h_7 headId prevHeadId hpc =>
    -- the element was taken by another thread: try the next
    rw [hpc] at hk
    have hlive := (h.inv.counts.sound.unlock_count (h.inv.count_ne hpc List.mem_cons_self)).1.live
    obtain rfl := Option.some.inj hs
    exact h.pass hpc hinv hlive (fun _ => rfl) rfl rfl ⟨nofun, hk.tracking, nofun, nofun⟩
  case h_8 headId hpc =>
    have hlive := (h.inv.counts.sound.unlock_count (h.inv.count_ne hpc List.mem_cons_self)).1.live
    obtain rfl := Option.some.inj hs
    exact h.pass hpc hinv hlive (fun _ => rfl) rfl rfl ⟨nofun, nofun, nofun, nofun⟩
  case h_9 headId hpc =>
    split at hs
    case isTrue =>
      obtain rfl := Option.some.inj hs
      exact h.pass hpc hinv (fun _ hm => hm) (fun _ => rfl) rfl rfl
        ⟨nofun, List.forall_mem_singleton.2 h.head_mem, nofun, nofun⟩
    case isFalse =>
      obtain rfl := Option.some.inj hs
      exact h.pass hpc hinv (fun _ hm => hm) (fun _ => rfl) rfl rfl ⟨nofun, nofun, nofun, nofun⟩
  case h_10 => cases hs

end Pop

section Calls

variable [Fintype ι]

/-- A pop at the last entry finds all taken. -/
theorem Queue.taken_of_last (h : Queue k s) {headId head : ℕ} (hpc : s.pc j = .popNext headId head true)
    (hnext : s.next head = invalid) : s.took = s.pushed := by
  have haccess := h.inv.access j
  have htracks := h.tracks j
  rw [hpc] at haccess htracks
  have hlive := h.inv.count_ne hpc List.mem_cons_self
  obtain rfl : head = headId % 2 ^ k := haccess _ (List.mem_singleton_self _)
  have htook : headId ∈ s.took := htracks.passing headId (List.mem_singleton_self _)
  have hpushed : headId ∈ s.pushed := (h.took.trans h.heads).subset htook
  -- nothing is linked to the entry, so it is the latest one
  have hlatest : ∃ rest, s.pushed = headId :: rest := by
    obtain ⟨pre, post, hsplit⟩ := List.append_of_mem hpushed
    obtain rfl | ⟨pre, b, rfl⟩ := List.eq_nil_or_concat pre
    · exact ⟨post, hsplit⟩
    · have hchain := h.chain
      rw [hsplit, List.concat_eq_append, List.append_assoc, List.singleton_append] at hchain
      have hback := h.back b headId hchain.next_eq hlive
      rw [hnext] at hback
      refine absurd hback.symm (h.pushed_valid ?_)
      rw [hsplit]
      simp
  obtain ⟨rest, hrest⟩ := hlatest
  have hnodup := h.pushed_nodup
  have hsuffix := h.took.trans h.heads
  rw [hrest] at hnodup hsuffix ⊢
  refine (List.suffix_cons_iff.1 hsuffix).resolve_right fun hle => ?_
  exact (List.nodup_cons.1 hnodup).1 (hle.subset htook)

/-- A pop that finds `head_id` as it was finds a ring in which no push has returned. -/
theorem Queue.empty_of_same (h : Queue k s) (hpc : s.pc j = .popReload s.headId) :
    s.pushed = [] ∨ ∃ i id, s.pc i = .pushHead id ∧ s.pushed = [id] := by
  have htracks := h.tracks j
  rw [hpc] at htracks
  have hheads : s.heads = [] := by
    by_contra hne
    obtain ⟨m, rest, hheads⟩ := List.exists_cons_of_ne_nil hne
    have hhead := h.headId
    have hnodup := h.inv.links.headsNodup
    rw [hheads] at hhead hnodup
    obtain hinvalid | hleft := htracks.missing s.headId (List.mem_singleton_self _)
    · refine h.pushed_valid (h.inv.links.headsPushed s.headId ?_) hinvalid
      rw [hheads, hhead]
      exact List.mem_cons_self
    · rw [hheads, hhead] at hleft
      exact (List.nodup_cons.1 hnodup).1 hleft
  by_cases hrest : ∀ i, (s.pc i).pushing = false
  · exact .inl ((h.turn.rest hrest).started hheads)
  · obtain ⟨i, hi⟩ := not_forall.1 hrest
    have hpush := h.turn.pushes i
    cases hpci : s.pc i with
    | pushLoad | pushRetry | pushReload =>
      rw [hpci] at hpush
      exact .inl (Settled.started hpush hheads)
    | pushLock | pushNext | pushLink | pushFirst =>
      rw [hpci] at hpush
      exact .inl (Settled.started hpush.1 hheads)
    | pushLockNext | pushUnlock | pushMove =>
      rw [hpci] at hpush
      exact hpush.elim
    | pushLinked | pushTail =>
      rw [hpci] at hpush
      exact absurd hheads hpush.2.2
    | pushHead id =>
      rw [hpci] at hpush
      exact .inr ⟨i, id, hpci, hpush.1⟩
    | _ =>
      rw [hpci] at hi
      exact absurd rfl hi

variable [DecidableEq ι]

/-- A call that takes an element from a user. -/
theorem Queue.give {owned popped : List ℕ} (h : Queue k s) (hpc : s.pc j = .idle)
    (hinv : Inv k { s with pc := update s.pc j q, owned := owned, popped := popped }) (htaking : q.taking = [])
    (hturn : Turn { s with pc := update s.pc j q, owned := owned, popped := popped }) (hk : q.Tracks k s) :
    Queue k { s with pc := update s.pc j q, owned := owned, popped := popped } := by
  refine h.move hinv rfl (fun _ hm => hm) (fun m => ?_) hturn hk
  rw [hpc, htaking]
  rfl

theorem Queue.step {a : Act ι} (hcard : 3 * Fintype.card ι + 3 ≤ refcntMax) (h : Queue k s) (ha : s.Serial k a)
    (hs : (sys k ι).step s a = some s') : Queue k s' := by
  have hinv : Inv k s' := h.inv.step ha.1 hs
  change s.step k a = some s' at hs
  unfold St.step at hs
  cases a with
  | alloc j =>
    dsimp only at hs
    split at hs
    case isTrue hpc =>
      obtain rfl := Option.some.inj hs
      exact h.pass hpc hinv (fun _ hm => hm) (fun _ => rfl) rfl rfl ⟨nofun, nofun, nofun, nofun⟩
    case isFalse => cases hs
  | push j e =>
    have hnone : ∀ i, (s.pc i).pushing = false := ha.2
    dsimp only at hs
    split at hs
    case isTrue hc =>
      obtain rfl := Option.some.inj hs
      have hsettled : Settled s := h.turn.rest hnone
      exact h.give hc.1 hinv rfl (.own rfl (fun i _ => hnone i) (hsettled.congr rfl rfl id) nofun)
        ⟨nofun, nofun, nofun, nofun⟩
    case isFalse => cases hs
  | pop j =>
    dsimp only at hs
    split at hs
    case isTrue hpc =>
      obtain rfl := Option.some.inj hs
      exact h.pass hpc hinv (fun _ hm => hm) (fun _ => rfl) rfl rfl ⟨nofun, nofun, nofun, nofun⟩
    case isFalse => cases hs
  | free j e =>
    dsimp only at hs
    split at hs
    case isTrue => cases hs
    case isFalse hpc =>
      rw [not_not] at hpc
      have hpushing : (s.pc j).pushing = false := by rw [hpc]; rfl
      split at hs
      case isTrue =>
        obtain rfl := Option.some.inj hs
        exact h.give hpc hinv rfl (h.turn.other rfl hpushing rfl rfl rfl Iff.rfl) ⟨nofun, nofun, nofun, nofun⟩
      case isFalse =>
        split at hs
        case isTrue =>
          obtain rfl := Option.some.inj hs
          exact h.give hpc hinv rfl (h.turn.other rfl hpushing rfl rfl rfl Iff.rfl) ⟨nofun, nofun, nofun, nofun⟩
        case isFalse => cases hs
  | step j b =>
    change s.stepThread k j b = some s' at hs
    unfold St.stepThread at hs
    split at hs
    case h_1 id hpc =>
      have hlive := (h.inv.counts.sound.unlock_count (h.inv.count_ne hpc List.mem_cons_self)).1.live
      obtain rfl := Option.some.inj hs
      exact h.pass hpc hinv hlive (fun _ => rfl) rfl rfl ⟨nofun, nofun, nofun, nofun⟩
    case h_2 =>
      obtain hs | ⟨-, hs⟩ := Option.or_eq_some_iff.1 hs
      · exact h.stepAlloc ha.1 hinv hs
      · obtain hs | ⟨-, hs⟩ := Option.or_eq_some_iff.1 hs
        · exact h.stepPush hcard hinv hs
        · exact h.stepPop hcard hinv hs

theorem queue_reach (hcard : 3 * Fintype.card ι + 3 ≤ refcntMax) (h : (sys k ι).Reach (St.Serial k) s) :
    Queue k s :=
  h.inv (by rintro _ rfl; exact queue_init) fun _ _ _ hI hok hs => hI.step hcard hok hs

/-- **With one push at a time the ring is a queue**, whatever the other threads pop and free. The elements are
taken in the order of their pushes, each by one pop. A pop that comes to the last entry and does not take it
finds that all elements are taken; one that finds the ring without a head finds that no push has returned. -/
theorem queue_of_reach (hcard : 3 * Fintype.card ι + 3 ≤ refcntMax) (h : (sys k ι).Reach (St.Serial k) s) :
    s.took <:+ s.pushed ∧ (∀ m, s.took.count m = tally Pc.taking s.pc m + s.got.count m) ∧
      (∀ j headId head, s.pc j = .popNext headId head true → s.next head = invalid → s.took = s.pushed) ∧
      ∀ j, s.pc j = .popReload s.headId → s.pushed = [] ∨ ∃ i id, s.pc i = .pushHead id ∧ s.pushed = [id] := by
  have hqueue := queue_reach hcard h
  exact ⟨hqueue.took.trans hqueue.heads, hqueue.taken, fun _ _ _ hpc hnext => hqueue.taken_of_last hpc hnext,
    fun _ hpc => hqueue.empty_of_same hpc⟩

end Calls

end Prs.RingSteps
