import Prs.Proof.MpmcqFifo

/-!
# What a queue leaves in the directory

`prs_mpmcq_destroy` pops until the queue is empty. A pop that takes the last element leaves its node as the
first, spent node of the queue, so a queue that ever got a node keeps an entry of the directory for good.

* `destroy_live`: the entries in use after a queue was created, used and destroyed are those from before
  exactly when no push of it got a node.
* `entry_leaked`: one push is enough.
-/

namespace Prs.MpmcqSeq

open Function PdWords

variable {δ : Type} {k fuel : ℕ} {d d' : Dir ℕ} {s s' : St Unit δ}

section Directory

/-- The entries in use. -/
def live (k : ℕ) (d : Dir ℕ) : Set ℕ := {e | e < 2 ^ k ∧ getRefcnt (d.header e) ≠ 0}

/-- Locks and unlocks leave an entry alone whose id belongs elsewhere. -/
theorem Touch.header (h : Touch k d d') {e : ℕ} (he : getId (d.header e) % 2 ^ k ≠ e) :
    d'.header e = d.header e := by
  induction h with
  | refl => rfl
  | @lock d' _ id ih =>
    have hne : getId (d'.header (id % 2 ^ k)) = id → e ≠ id % 2 ^ k := by
      rintro hid rfl
      rw [ih] at hid
      exact he (by rw [hid])
    unfold Dir.lock
    dsimp only
    repeat' split
    all_goals first | exact ih | skip
    rename_i hid _ _
    exact (update_of_ne (hne (not_not.1 hid)) _ _).trans ih
  | @unlock d' _ id ih =>
    have hne : getId (d'.header (id % 2 ^ k)) = id → e ≠ id % 2 ^ k := by
      rintro hid rfl
      rw [ih] at hid
      exact he (by rw [hid])
    unfold Dir.unlock
    dsimp only
    repeat' split
    all_goals first | exact ih | skip
    rename_i hid _
    exact (update_of_ne (hne (not_not.1 hid)) _ _).trans ih

/-- An entry stays in use through locks and unlocks if its id does. -/
theorem Touch.live (h : Touch k d d') {e : ℕ} (he : e ∈ live k d)
    (hid : ∀ id, id % 2 ^ k = e → d.find k id ≠ none → d'.find k id ≠ none) : e ∈ MpmcqSeq.live k d' := by
  refine ⟨he.1, ?_⟩
  by_cases hslot : getId (d.header e) % 2 ^ k = e
  · have hfind : d.find k (getId (d.header e)) ≠ none := by
      intro hnone
      have hz := find_eq_none.1 hnone
      rw [hslot] at hz
      exact he.2 (hz rfl)
    obtain ⟨x, hx⟩ := Option.ne_none_iff_exists'.1 (hid _ hslot hfind)
    have hne := (find_eq_some.1 hx).2.1
    rwa [hslot] at hne
  · rw [h.header hslot]
    exact he.2

theorem mem_live_of_find {id : ℕ} (h : d.find k id ≠ none) : id % 2 ^ k ∈ live k d := by
  obtain ⟨x, hx⟩ := Option.ne_none_iff_exists'.1 h
  exact ⟨Nat.mod_lt id (Nat.two_pow_pos k), (find_eq_some.1 hx).2.1⟩

/-- An allocation takes an entry that was not in use. -/
theorem live_of_alloc {addr i : ℕ} (h : (d.alloc k addr).1 = some i) :
    i % 2 ^ k ∉ live k d ∧ i % 2 ^ k ∈ live k (d.alloc k addr).2 ∧ ∀ e ∈ live k d,
    e ∈ live k (d.alloc k addr).2 := by
  obtain ⟨hp, hd⟩ := alloc_of_some h
  obtain ⟨-, hfree, -⟩ := mem_of_probe hp
  rw [beq_iff_eq] at hfree
  have hno : i % 2 ^ k ∉ live k d := fun he => he.2 hfree
  refine ⟨hno, ⟨Nat.mod_lt i (Nat.two_pow_pos k), ?_⟩, fun e he => ⟨he.1, ?_⟩⟩
  · rw [hd]
    simp only [update_self, getRefcnt_first]
    omega
  · have hne : e ≠ i % 2 ^ k := by
      rintro rfl
      exact hno he
    rw [hd]
    simp only [update_of_ne hne]
    exact he.2

end Directory

/-- The queue has used the directory `d`: what was in use there is still, and it has an entry of its own. Its
nodes are found, or the last of them is lost and the queue does not find it. -/
structure Used (k : ℕ) (d : Dir ℕ) (s : St Unit δ) (nodes : Unit → List (Nd δ)) (spent : Unit → Bool)
    (stop : Unit → ℕ) : Prop where
  rep : ∃ base, Rep base (s.pd.find k) s.heap s.queue nodes spent stop
  fresh : nodes () = [] → spent () = false
  keep : ∀ e ∈ live k d, e ∈ live k s.pd ∧ ∀ n ∈ nodes (), n.id % 2 ^ k ≠ e
  own : stop () = invalid ∧ nodes () ≠ [] ∧ (s.queue ()).tail = lastId (nodes ()) ∨
    (refcntInc ≤ (s.queue ()).tail ∧ ∃ e ∈ live k s.pd, e ∉ live k d ∧ ∀ n ∈ nodes (), n.id % 2 ^ k ≠ e)

variable {nodes : Unit → List (Nd δ)} {spent : Unit → Bool} {stop : Unit → ℕ}

/-- The entry of a node is in use. -/
theorem Used.node_live (h : Used k d s nodes spent stop) {n : Nd δ} (hn : n ∈ nodes ()) :
    n.id % 2 ^ k ∈ live k s.pd := by
  obtain ⟨base, hrep⟩ := h.rep
  refine mem_live_of_find ?_
  rw [(hrep.linked ()).find_of_mem hn]
  exact Option.some_ne_none _

/-- **More entries are in use** than before. -/
theorem Used.leak (h : Used k d s nodes spent stop) : live k s.pd ≠ live k d := by
  intro heq
  obtain ⟨-, hne, -⟩ | ⟨-, e, he, hno, -⟩ := h.own
  · obtain ⟨n, hn⟩ := List.exists_mem_of_ne_nil _ hne
    have hlive := h.node_live hn
    rw [heq] at hlive
    exact (h.keep _ hlive).2 n hn rfl
  · rw [heq] at he
    exact hno he

theorem Popped.subset {ns ns' : List (Nd δ)} {c c' : Bool} {r : Res δ} (h : Popped ns c r ns' c') :
    (∀ n ∈ ns', n ∈ ns) ∧ (ns ≠ [] → ns' ≠ []) := by
  cases h <;> simp +contextual

variable (fuel) in
/-- A pop leaves an entry of the queue's own. -/
theorem Used.pop (h : Used k d s nodes spent stop) :
    ∃ r s' nodes' spent', s.pop k (fuel + 2) () = some (r, s') ∧ Used k d s' nodes' spent' stop ∧
      contents (spent' ()) (nodes' ()) = (contents (spent ()) (nodes ())).tail ∧
      (∀ data, r = .popped data → contents (spent ()) (nodes ()) ≠ []) := by
  obtain ⟨base, hrep⟩ := h.rep
  obtain ⟨r, s', ns, c, hpop, hp, hrep', ht, htail, -⟩ := pop_rep fuel hrep ()
  obtain ⟨hsub, hne⟩ := hp.subset
  obtain ⟨hcont, hfresh, hlast, hres⟩ := hp.contents h.fresh
  have hpersist : ∀ e ∈ live k s.pd, (∀ n ∈ nodes (), n.id % 2 ^ k ≠ e) → e ∈ live k s'.pd := by
    intro e he hno
    refine ht.live he fun id hid hfind => ?_
    have hnode : ∀ n ∈ nodes (), n.id ≠ id := by
      rintro n hn rfl
      exact hno n hn hid
    rw [hrep.others id fun _ n hn => hnode n hn] at hfind
    rw [hrep'.others id fun q' n hn => ?_]
    · exact hfind
    · rw [update_self] at hn
      exact hnode n (hsub n hn)
  refine ⟨r, s', _, _, hpop, ⟨⟨base, hrep'⟩, ?_, ?_, ?_⟩, ?_, ?_⟩
  · rw [update_self, update_self]
    exact hfresh
  · intro e he
    obtain ⟨hlive, hno⟩ := h.keep e he
    refine ⟨hpersist e hlive hno, fun n hn => ?_⟩
    rw [update_self] at hn
    exact hno n (hsub n hn)
  · refine h.own.imp ?_ ?_
    · rintro ⟨hstop, hnil, htl⟩
      rw [update_self, htail, htl]
      refine ⟨hstop, hne hnil, ?_⟩
      unfold lastId
      rw [hlast]
    · rintro ⟨hdead, e, he, hed, hno⟩
      rw [htail]
      refine ⟨hdead, e, hpersist e he hno, hed, fun n hn => ?_⟩
      rw [update_self] at hn
      exact hno n (hsub n hn)
  · rw [update_self, update_self]
    exact hcont
  · rintro data rfl
    obtain ⟨data', -, hhead⟩ | ⟨hr, -⟩ := hres
    · intro hnil
      rw [hnil] at hhead
      cases hhead
    · obtain hr | hr := hr <;> cases hr

variable (fuel) in
/-- A push that finds nothing to lock at `tail`. -/
theorem used_restart (data : δ) {addr i : ℕ} (hdead : refcntInc ≤ (s.queue ()).tail)
    (hkeep : ∀ e ∈ live k d, e ∈ live k s.pd) (haddr : addr ≠ 0) (halloc : (s.pd.alloc k addr).1 = some i) :
    ∃ s' nodes' spent' stop', s.push k (fuel + 1) () data addr = some (.ok, s') ∧
      Used k d s' nodes' spent' stop' ∧ (contents (spent' ()) (nodes' ())).length ≤ 1 := by
  obtain ⟨hno, hown, hlive⟩ := live_of_alloc halloc
  have hpush : s.push k (fuel + 1) () data addr = some (.ok, ⟨(s.pd.alloc k addr).2,
      update s.heap addr (some ⟨invalid, false, data⟩), update s.queue () ⟨i, i⟩⟩) := by
    have hpair : s.pd.alloc k addr = (some i, (s.pd.alloc k addr).2) := Prod.ext halloc rfl
    unfold St.push
    rw [if_neg haddr, hpair]
    have hloop := pushLoop_dead fuel i (q := ()) (k := k)
      (s := St.setNode { s with pd := (s.pd.alloc k addr).2 } addr ⟨invalid, false, data⟩) (find_of_le hdead)
    exact Option.map_eq_some_iff.2 ⟨_, hloop, rfl⟩
  by_cases hi : i < refcntInc
  · obtain ⟨hfind, hnone⟩ := find_alloc_of_lt halloc hi
    refine ⟨_, fun _ => [⟨i, addr, data⟩], fun _ => false, fun _ => invalid, hpush,
      ⟨⟨s.pd.find k, ?_⟩, ?_, ?_, ?_⟩, ?_⟩
    · refine ⟨fun _ => ⟨?_, haddr, update_self .., trivial⟩, fun _ => refcntInc_le_invalid, fun _ => rfl, ?_,
        ?_, ?_, ?_⟩
      · simp only [hfind, update_self]
      · exact fun _ => List.nodup_singleton _
      · intro _ _ n n' hn hn' _
        rw [List.mem_singleton] at hn hn'
        rw [hn, hn']
        exact ⟨rfl, rfl⟩
      · intro _ n hn
        rw [List.mem_singleton] at hn
        rw [hn]
        exact hnone
      · intro id hid
        have hne := hid () _ List.mem_cons_self
        simp only at hne
        simp only [hfind, update_of_ne hne.symm]
    · exact fun _ => rfl
    · intro e he
      refine ⟨hlive e (hkeep e he), fun n hn => ?_⟩
      rw [List.mem_singleton] at hn
      rw [hn]
      rintro rfl
      exact hno (hkeep _ he)
    · exact .inl ⟨rfl, List.cons_ne_nil _ _, rfl⟩
    · simp [contents]
  · refine ⟨_, fun _ => [], fun _ => false, fun _ => i, hpush,
      ⟨⟨(s.pd.alloc k addr).2.find k, ?_⟩, ?_, ?_, ?_⟩, ?_⟩
    · exact ⟨fun _ => trivial, fun _ => not_lt.1 hi, fun _ => rfl, fun _ => List.nodup_nil,
        fun _ _ _ _ hn => absurd hn List.not_mem_nil, fun _ _ hn => absurd hn List.not_mem_nil, fun _ _ => rfl⟩
    · exact fun _ => rfl
    · exact fun e he => ⟨hlive e (hkeep e he), fun _ hn => absurd hn List.not_mem_nil⟩
    · exact .inr ⟨not_lt.1 hi, i % 2 ^ k, hown, fun he => hno (hkeep _ he),
        fun _ hn => absurd hn List.not_mem_nil⟩
    · simp [contents]

theorem contents_snoc (c : Bool) (ns : List (Nd δ)) (n : Nd δ) :
    (contents c (ns ++ [n])).length ≤ (contents c ns).length + 1 := by
  cases c with
  | true =>
    simp only [contents, if_true, List.length_map, List.length_tail, List.length_append, List.length_singleton]
    omega
  | false => simp [contents]

variable (fuel) in
/-- A push that gets an entry. -/
theorem Used.push (h : Used k d s nodes spent stop) (data : δ) {addr i : ℕ} (hfree : s.heap addr = none)
    (haddr : addr ≠ 0) (halloc : (s.pd.alloc k addr).1 = some i) :
    ∃ s' nodes' spent' stop', s.push k (fuel + 1) () data addr = some (.ok, s') ∧
      Used k d s' nodes' spent' stop' ∧
      (contents (spent' ()) (nodes' ())).length ≤ (contents (spent ()) (nodes ())).length + 1 := by
  have hkeep : ∀ e ∈ live k d, e ∈ live k s.pd := fun e he => (h.keep e he).1
  obtain ⟨hstop, hne, htail⟩ | ⟨hdead, -⟩ := h.own
  · obtain ⟨hno, hown, hlive⟩ := live_of_alloc halloc
    obtain ⟨base, hrep⟩ := h.rep
    have hslot : ∀ n ∈ nodes (), n.id % 2 ^ k ≠ i % 2 ^ k := fun n hn heq => hno (heq ▸ h.node_live hn)
    have hpair : s.pd.alloc k addr = (some i, (s.pd.alloc k addr).2) := Prod.ext halloc rfl
    have hpush : ∀ s', St.pushLoop k () i (fuel + 1)
        ((St.setNode { s with pd := (s.pd.alloc k addr).2 } addr ⟨invalid, false, data⟩).lock k
          (s.queue ()).tail).2
        ((St.setNode { s with pd := (s.pd.alloc k addr).2 } addr ⟨invalid, false, data⟩).lock k
          (s.queue ()).tail).1 = some s' → s.push k (fuel + 1) () data addr = some (.ok, s') := by
      intro s' hloop
      unfold St.push
      rw [if_neg haddr, hpair]
      exact Option.map_eq_some_iff.2 ⟨s', hloop, rfl⟩
    by_cases hi : i < refcntInc
    · obtain ⟨hfind, hnone⟩ := find_alloc_of_lt halloc hi
      have hstop' : stop = fun _ => invalid := funext fun _ => hstop
      rw [hstop'] at hrep
      obtain ⟨s', hloop, hrep', ht, htail', -⟩ :=
        push_rep fuel data (q := ()) hrep htail h.fresh hfree haddr hnone hfind
      refine ⟨s', _, spent, fun _ => invalid, hpush s' hloop,
        ⟨⟨base, hrep'⟩, ?_, fun e he => ⟨?_, fun n hn => ?_⟩, ?_⟩, ?_⟩
      · intro hnil
        simp at hnil
      · refine ht.live (hlive e (hkeep e he)) fun id hid hlv => ?_
        have hidi : id ≠ i := by
          rintro rfl
          exact hno (hid ▸ hkeep e he)
        have hnode : ∀ n ∈ nodes (), n.id ≠ id := by
          rintro n hn rfl
          exact (h.keep e he).2 n hn hid
        rw [hfind, update_of_ne hidi, hrep.others id fun _ n hn => hnode n hn] at hlv
        rw [hrep'.others id fun q' n hn => ?_]
        · exact hlv
        · rw [update_self, List.mem_append, List.mem_singleton] at hn
          obtain hn | rfl := hn
          · exact hnode n hn
          · exact hidi.symm
      · rw [update_self, List.mem_append, List.mem_singleton] at hn
        obtain hn | rfl := hn
        · exact (h.keep e he).2 n hn
        · rintro rfl
          exact hno (hkeep _ he)
      · refine .inl ⟨rfl, by simp, ?_⟩
        rw [htail', update_self]
        simp [lastId]
      · rw [update_self]
        exact contents_snoc _ _ _
    · have hfind : ∀ q', ∀ m ∈ nodes q', (s.pd.alloc k addr).2.find k m.id = s.pd.find k m.id := by
        intro q' m hm
        refine find_of_alloc halloc ?_
        rw [(hrep.linked q').find_of_mem hm]
        exact Option.some_ne_none _
      obtain ⟨ns, n, hq⟩ := (List.eq_nil_or_concat' (nodes ())).resolve_left hne
      have hlast : (s.queue ()).tail = n.id := by
        rw [htail, hq]
        simp [lastId]
      obtain ⟨s', base', hloop, hrep', hfind', ht, htail'⟩ := push_lost fuel data (i := i) hrep hfree
        hfind hq hlast (not_lt.1 hi)
      have hpersist : ∀ e ∈ live k (s.pd.alloc k addr).2, e ∈ live k s'.pd := fun e he =>
        ht.live he fun id _ hlv => by rwa [hfind']
      refine ⟨s', nodes, spent, _, hpush s' hloop,
        ⟨⟨base', hrep'⟩, h.fresh, fun e he => ⟨?_, (h.keep e he).2⟩, ?_⟩, ?_⟩
      · exact hpersist e (hlive e (hkeep e he))
      · exact .inr ⟨htail' ▸ not_lt.1 hi, i % 2 ^ k, hpersist _ hown, fun he => hno (hkeep _ he), hslot⟩
      · omega
  · obtain ⟨s', nodes', spent', stop', hpush, hused, hlen⟩ :=
      used_restart fuel data hdead hkeep haddr halloc
    exact ⟨s', nodes', spent', stop', hpush, hused, by omega⟩

/-- A push that gets nothing changes nothing. -/
theorem push_refused {data : δ} {addr : ℕ} (h : addr = 0 ∨ (s.pd.alloc k addr).1 = none) :
    s.push k fuel () data addr = some (.outOfMemory, s) := by
  unfold St.push
  by_cases haddr : addr = 0
  · rw [if_pos haddr]
  · have hnone := h.resolve_left haddr
    rw [if_neg haddr]
    unfold Dir.alloc at hnone ⊢
    cases hp : probe 64 (2 ^ k) s.pd.writeIndex (fun e => getRefcnt (s.pd.header e) == 0)
        (fun e => getId (s.pd.header e)) with
    | none => rfl
    | some i =>
      rw [hp] at hnone
      cases hnone

variable (fuel) in
/-- A call of a queue that has an entry. -/
theorem Used.exec (h : Used k d s nodes spent stop) (a : Act Unit δ) (ha : ∀ q data addr, a = .push q data addr →
    s.heap addr = none) :
    ∃ r s' nodes' spent' stop', s.exec k (fuel + 2) a = some (r, s') ∧ Used k d s' nodes' spent' stop' ∧
      (contents (spent' ()) (nodes' ())).length ≤ (contents (spent ()) (nodes ())).length + 1 := by
  cases a with
  | push q data addr =>
    have hfree := ha q data addr rfl
    have hexec : s.exec k (fuel + 2) (.push q data addr) = s.push k (fuel + 2) () data addr :=
      if_pos (by rw [hfree]; rfl)
    rw [hexec]
    by_cases hno : addr = 0 ∨ (s.pd.alloc k addr).1 = none
    · exact ⟨_, s, nodes, spent, stop, push_refused hno, h, by omega⟩
    · obtain ⟨haddr, hsome⟩ := not_or.1 hno
      obtain ⟨i, hi⟩ := Option.ne_none_iff_exists'.1 hsome
      obtain ⟨s', nodes', spent', stop', hpush, hused, hlen⟩ :=
        h.push (fuel + 1) data hfree haddr hi
      exact ⟨_, s', nodes', spent', stop', hpush, hused, hlen⟩
  | pop q =>
    obtain ⟨r, s', nodes', spent', hpop, hused, hlen, -⟩ := h.pop fuel
    refine ⟨r, s', nodes', spent', stop, hpop, hused, ?_⟩
    rw [hlen, List.length_tail]
    omega

theorem isNone_of_exec {q : Unit} {data : δ} {addr : ℕ} {x : Res δ × St Unit δ}
    (h : s.exec k fuel (.push q data addr) = some x) : s.heap addr = none :=
  Option.isNone_iff_eq_none.1 (Option.ite_none_right_eq_some.1 h).1

/-- The calls of a run, from a queue that has an entry. -/
theorem Used.run (h : Used k d s nodes spent stop) {ops : List (Act Unit δ)}
    (hrun : (sys k (fuel + 2) Unit δ).run s ops = some s') :
    ∃ nodes' spent' stop', Used k d s' nodes' spent' stop' ∧
      (contents (spent' ()) (nodes' ())).length ≤ (contents (spent ()) (nodes ())).length + ops.length := by
  induction ops generalizing s nodes spent stop with
  | nil =>
    cases hrun
    exact ⟨nodes, spent, stop, h, le_rfl⟩
  | cons a ops ih =>
    obtain ⟨s₁, hstep, hrun⟩ := Option.bind_eq_some_iff.1 hrun
    obtain ⟨⟨r, s₁'⟩, hexec, rfl⟩ := Option.map_eq_some_iff.1 hstep
    have hfree : ∀ q data addr, a = .push q data addr → s.heap addr = none := by
      rintro q data addr rfl
      exact isNone_of_exec hexec
    obtain ⟨r', s₂, nodes₂, spent₂, stop₂, hexec', hused, hlen⟩ := h.exec fuel a hfree
    rw [hexec] at hexec'
    cases hexec'
    obtain ⟨nodes', spent', stop', hused', hlen'⟩ := ih hused hrun
    exact ⟨nodes', spent', stop', hused', by rw [List.length_cons]; omega⟩

/-- No call of the run can get an entry of the directory. -/
def NoEntry (k : ℕ) (d : Dir ℕ) (ops : List (Act Unit δ)) : Prop :=
  d.Full k ∨ 2 ^ 64 ≤ d.writeIndex + 2 ^ k ∨ ∀ q data addr, Act.push q data addr ∈ ops → addr = 0

/-- The calls of a run, from a new queue. -/
theorem run_create (hk : k < 64) (hd : Old k d) {ops : List (Act Unit δ)}
    (hrun : (sys k (fuel + 2) Unit δ).run (.create d) ops = some s) :
    NoEntry k d ops ∧ s = .create d ∨
      ¬ NoEntry k d ops ∧ ∃ nodes spent stop, Used k d s nodes spent stop ∧
        (contents (spent ()) (nodes ())).length ≤ ops.length := by
  induction ops with
  | nil =>
    cases hrun
    exact .inl ⟨.inr (.inr fun _ _ _ h => absurd h List.not_mem_nil), rfl⟩
  | cons a ops ih =>
    obtain ⟨s₁, hstep, hrun⟩ := Option.bind_eq_some_iff.1 hrun
    obtain ⟨⟨r, s₁'⟩, hexec, rfl⟩ := Option.map_eq_some_iff.1 hstep
    -- a call that gets nothing leaves the new queue, and changes nothing in what the others can get
    have hskip : s₁' = .create d → ((∀ q data addr, a = .push q data addr → addr = 0) ∨
        d.Full k ∨ 2 ^ 64 ≤ d.writeIndex + 2 ^ k) →
        NoEntry k d (a :: ops) ∧ s = .create d ∨
          ¬ NoEntry k d (a :: ops) ∧ ∃ nodes spent stop, Used k d s nodes spent stop ∧
            (contents (spent ()) (nodes ())).length ≤ (a :: ops).length := by
      intro hs ha
      have hiff : NoEntry k d (a :: ops) ↔ NoEntry k d ops := by
        unfold NoEntry
        constructor
        · rintro (h | h | h)
          · exact .inl h
          · exact .inr (.inl h)
          · exact .inr (.inr fun q data addr hm => h q data addr (List.mem_cons_of_mem a hm))
        · rintro (h | h | h)
          · exact .inl h
          · exact .inr (.inl h)
          · obtain ha | ha | ha := ha
            · refine .inr (.inr fun q data addr hm => ?_)
              obtain heq | hm := List.mem_cons.1 hm
              · exact ha q data addr heq.symm
              · exact h q data addr hm
            · exact .inl ha
            · exact .inr (.inl ha)
      rw [hiff]
      simp only [hs] at hrun
      refine (ih hrun).imp_right (And.imp_right ?_)
      rintro ⟨nodes, spent, stop, hused, hlen⟩
      exact ⟨nodes, spent, stop, hused, by rw [List.length_cons]; omega⟩
    cases a with
    | pop q =>
      have hpop : (St.create d : St Unit δ).pop k (fuel + 2) q = some (.unknown, .create d) :=
        pop_dead refcntInc_le_invalid
      rw [show (St.create d : St Unit δ).exec k (fuel + 2) (.pop q) =
        (St.create d).pop k (fuel + 2) q from rfl, hpop]
        at hexec
      cases hexec
      exact hskip rfl (.inl fun _ _ _ h => by cases h)
    | push q data addr =>
      have hpush : (St.create d : St Unit δ).exec k (fuel + 2) (.push q data addr) =
          (St.create d).push k (fuel + 2) () data addr := by
        unfold St.exec
        exact if_pos (show ((St.create d : St Unit δ).heap addr).isNone = true from rfl)
      rw [hpush] at hexec
      by_cases hno : addr = 0 ∨ (d.alloc k addr).1 = none
      · rw [push_refused hno] at hexec
        cases hexec
        refine hskip rfl (hno.imp ?_ ?_)
        · rintro haddr q' data' addr' heq
          cases heq
          exact haddr
        · exact (alloc_eq_none_iff hk hd addr).1
      · obtain ⟨haddr, hsome⟩ := not_or.1 hno
        obtain ⟨i, hi⟩ := Option.ne_none_iff_exists'.1 hsome
        obtain ⟨s₂, nodes₂, spent₂, stop₂, hpush₂, hused, hlen⟩ := used_restart (fuel + 1) data
          (s := St.create d) (d := d) refcntInc_le_invalid (fun _ he => he) haddr hi
        rw [hpush₂] at hexec
        cases hexec
        obtain ⟨nodes', spent', stop', hused', hlen'⟩ := hused.run hrun
        refine .inr ⟨?_, nodes', spent', stop', hused', by rw [List.length_cons]; omega⟩
        rintro (h | h | h)
        · exact hsome ((alloc_eq_none_iff hk hd addr).2 (.inl h))
        · exact hsome ((alloc_eq_none_iff hk hd addr).2 (.inr h))
        · exact haddr (h q data addr List.mem_cons_self)

variable (fuel) in
/-- The queue is emptied, and keeps an entry. -/
theorem Used.destroy {n : ℕ} (h : Used k d s nodes spent stop)
    (hn : (contents (spent ()) (nodes ())).length < n) :
    ∃ s' nodes' spent' stop', s.destroy k (fuel + 2) () n = some s' ∧ Used k d s' nodes' spent' stop' := by
  induction n generalizing s nodes spent with
  | zero => omega
  | succ n ih =>
    obtain ⟨r, s', nodes', spent', hpop, hused, hcont, hpopped⟩ := h.pop fuel
    unfold St.destroy
    rw [hpop]
    cases r with
    | popped data =>
      have hpos := List.length_pos_iff.2 (hpopped data rfl)
      obtain ⟨s₂, nodes₂, spent₂, stop₂, hdest, hused₂⟩ := ih hused (by rw [hcont, List.length_tail]; omega)
      exact ⟨s₂, nodes₂, spent₂, stop₂, hdest, hused₂⟩
    | ok => exact ⟨s', nodes', spent', stop, rfl, hused⟩
    | outOfMemory => exact ⟨s', nodes', spent', stop, rfl, hused⟩
    | empty => exact ⟨s', nodes', spent', stop, rfl, hused⟩
    | unknown => exact ⟨s', nodes', spent', stop, rfl, hused⟩

/-- **What a queue leaves.** A queue is created over a directory that has been in use, pushes and pops are
made, and it is destroyed: the entries in use are those from before exactly when no push could get an
entry. -/
theorem destroy_live (k fuel n : ℕ) (hk : k < 64) (hfuel : 2 ≤ fuel) (as : List (PdWords.Act ℕ)) (δ : Type)
    (ops : List (Act Unit δ)) (hn : ops.length < n) (s : St Unit δ)
    (hrun : (sys k fuel Unit δ).run (.create ((Dir.create 0).after k 0 as)) ops = some s) :
    ∃ s', s.destroy k fuel () n = some s' ∧
      (live k s'.pd = live k ((Dir.create 0).after k 0 as) ↔ NoEntry k ((Dir.create 0).after k 0 as) ops) := by
  obtain ⟨f, rfl⟩ : ∃ f, fuel = f + 2 := ⟨fuel - 2, by omega⟩
  obtain ⟨m, rfl⟩ : ∃ m, n = m + 1 := ⟨n - 1, by omega⟩
  obtain ⟨hno, rfl⟩ | ⟨hyes, nodes, spent, stop, hused, hlen⟩ := run_create hk (old_after hk 0 as) hrun
  · refine ⟨.create ((Dir.create 0).after k 0 as), ?_, iff_of_true rfl hno⟩
    unfold St.destroy
    rw [pop_dead refcntInc_le_invalid]
  · obtain ⟨s', nodes', spent', stop', hdest, hused'⟩ := hused.destroy f (n := m + 1) (by omega)
    exact ⟨s', hdest, iff_of_false hused'.leak hyes⟩

theorem destroy_live_two :
    ∃ s s' : St Unit ℕ, (sys 1 2 Unit ℕ).run (.create ((Dir.create 0).after 1 0 [.alloc 7]))
        [.push () 5 0, .pop ()] = some s ∧
      s.destroy 1 2 () 3 = some s' ∧ live 1 s'.pd = live 1 ((Dir.create 0).after 1 0 [.alloc 7]) := by
  have hsome : ((sys 1 2 Unit ℕ).run (.create ((Dir.create 0).after 1 0 [.alloc 7]))
      [.push () 5 0, .pop ()]).isSome = true := by decide +kernel
  obtain ⟨s, hs⟩ := Option.isSome_iff_exists.1 hsome
  obtain ⟨s', hd, hiff⟩ := destroy_live 1 2 3 (by omega) le_rfl [.alloc 7] ℕ [.push () 5 0, .pop ()]
    (by decide) s hs
  refine ⟨s, s', hs, hd, hiff.2 (.inr (.inr fun q data addr h => ?_))⟩
  -- there is no memory for the node
  obtain h | h := List.mem_cons.1 h
  · cases h
    rfl
  · simp at h

/-- **A leak.** An element is pushed, and the queue is destroyed: its node is popped but stays in the
directory. -/
theorem entry_leaked :
    ¬ ∀ (k fuel n : ℕ) (ops : List (Act Unit ℕ)) (s s' : St Unit ℕ), 1 ≤ k → 2 ≤ fuel →
      (sys k fuel Unit ℕ).run (.create (Dir.create 0)) ops = some s → s.destroy k fuel () n = some s' →
      live k s'.pd = live k (Dir.create 0) := by
  intro hall
  have hsome : (((sys 1 2 Unit ℕ).run (.create (Dir.create 0)) [.push () 5 1]).bind fun s =>
      (s.destroy 1 2 () 2).map fun s' => getRefcnt (s'.pd.header 1)) = some 1 := by decide +kernel
  obtain ⟨s, hrun, hs⟩ := Option.bind_eq_some_iff.1 hsome
  obtain ⟨s', hdest, hcount⟩ := Option.map_eq_some_iff.1 hs
  have heq := hall 1 2 2 _ s s' le_rfl le_rfl hrun hdest
  have hmem : 1 ∈ live 1 s'.pd := ⟨by omega, by rw [hcount]; omega⟩
  rw [heq] at hmem
  exact hmem.2 rfl

end Prs.MpmcqSeq
