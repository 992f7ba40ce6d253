import Prs.Proof.ProcGcFrees

/-!
# The processes of a run

* `Ok`: the list, the directory and the range table have the same processes.
* `Ok.collect`, `Ok.unlock`: a process leaves all three with its last reference.
* `Ok.exec`: it comes into all three.
* `reachable_ok`: so it is in every run, and no loop over the list needs more than `PRS_MAX_OBJECTS` nodes.
* `reachable_gc`: a garbage collection at any time of a run ends, and frees the processes that are due.
-/

namespace Prs.ProcGc

open Function GodSeq UserText

variable {F : Type} {e : Env} {s s' : St F} {l : List ℕ} {node p id n base size : ℕ} {o : Obj}

/-- What the range table has for a process. -/
def St.image (s : St F) (p : ℕ) : UserText.Proc := ⟨(s.proc p).base, (s.proc p).size, (s.proc p).rangeTableIndex⟩

/-- The three places have the processes `l`. -/
structure Ok (e : Env) (s : St F) (l : List ℕ) : Prop where
  list : Idllist.Inv e.build s.list fun _ => l
  sane : Sane e.k s.god
  live : ∀ p ∈ l, ∃ n, s.god.find e.k (s.proc p).id = some (.proc p, n)
  owner : ∀ id p n, s.god.find e.k id = some (.proc p, n) → p ∈ l ∧ (s.proc p).id = id
  table : Mirror s.table (l.map s.image)

theorem Ok.nodup (h : Ok e s l) : l.Nodup := h.list.represents.nodup ()

/-- Different processes have different entries of the range table. -/
theorem Ok.distinct (h : Ok e s l) {q : ℕ} (hp : p ∈ l) (hq : q ∈ l)
    (heq : (s.proc p).rangeTableIndex = (s.proc q).rangeTableIndex) : p = q := by
  have hnd := h.table.nodup
  rw [List.map_map] at hnd
  exact List.inj_on_of_nodup_map hnd hp hq heq

theorem Ok.index_lt (h : Ok e s l) (hp : p ∈ l) : (s.proc p).rangeTableIndex < maxObjects := by
  have hlt := (h.table.entry _ (List.mem_map_of_mem hp)).1
  exact Nat.lt_of_lt_of_le hlt h.table.count

/-- There are at most `PRS_MAX_OBJECTS` processes, for each has an entry. -/
theorem Ok.length_le (h : Ok e s l) : l.length ≤ maxObjects := by
  have hnd := h.table.nodup
  have hsub : (l.map s.image).map UserText.Proc.index ⊆ List.range maxObjects := by
    intro i hi
    rw [List.map_map] at hi
    obtain ⟨p, hp, rfl⟩ := List.mem_map.1 hi
    exact List.mem_range.2 (h.index_lt hp)
  have hle := (hnd.subperm hsub).length_le
  rwa [List.length_map, List.length_map, List.length_range] at hle

theorem Ok.listed (h : Ok e s l) : Listed e s l where
  list := h.list
  id p hp := by
    obtain ⟨n, hn⟩ := h.live p hp
    exact (h.sane.find_eq_some.1 hn).1
  header p hp := by
    obtain ⟨n, hn⟩ := h.live p hp
    have hheader : s.header e p = ⟨(s.proc p).id, true, true, false, n⟩ := (h.sane.find_eq_some.1 hn).2.1
    rw [hheader]
    exact ⟨rfl, rfl⟩
  object p hp := by
    obtain ⟨n, hn⟩ := h.live p hp
    exact (h.sane.find_eq_some.1 hn).2.2
  index p hp := h.index_lt hp
  distinct p hp q hq := h.distinct hp hq

theorem ok_start (e : Env) (proc : ℕ → Proc F) : Ok e (St.start proc) [] where
  list := Idllist.inv_create e.build
  sane := sane_create e.k
  live p hp := absurd hp List.not_mem_nil
  owner id p n hf := by
    have hnone : (Dir.create : Dir Obj).find e.k id = none := by
      unfold Dir.find Dir.create
      split <;> rfl
    exact absurd (hnone.symm.trans hf) (Option.some_ne_none _).symm
  table := mirror_start

/-! ## References -/

/-- The number of references of an object changes. -/
theorem Ok.setRefcnt (h : Ok e s l) (hf : s.god.find e.k id = some (o, n)) {m : ℕ} (hm : 0 < m)
    (hmax : m ≤ God.refcntMax) : Ok e { s with god := s.god.setRefcnt e.k id m } l := by
  have hfind := h.sane.find_setRefcnt hf m
  refine { h with sane := h.sane.setRefcnt hf hm hmax, live := ?_, owner := ?_ }
  · intro p hp
    obtain ⟨n', hn'⟩ := h.live p hp
    by_cases hid : (s.proc p).id = id
    · rw [hid, hf] at hn'
      obtain ⟨rfl, rfl⟩ := Prod.mk.inj (Option.some.inj hn')
      exact ⟨m, by rw [hfind, hid, update_self]⟩
    · exact ⟨n', by rw [hfind, update_of_ne hid]; exact hn'⟩
  · intro id' p n' hn'
    rw [hfind] at hn'
    by_cases hid : id' = id
    · rw [hid, update_self] at hn'
      obtain ⟨rfl, rfl⟩ := Prod.mk.inj (Option.some.inj hn')
      rw [hid]
      exact h.owner id p n hf
    · rw [update_of_ne hid] at hn'
      exact h.owner id' p n' hn'

theorem Ok.lock (h : Ok e s l) (id : ℕ) : Ok e { s with god := (s.god.lock e.k id).2 } l := by
  obtain hf | ⟨⟨o, n⟩, hf⟩ := Option.eq_none_or_eq_some (s.god.find e.k id)
  · rw [h.sane.lock_of_none hf]
    exact h
  · by_cases hn : n = God.refcntMax
    · subst hn
      rw [h.sane.lock_of_max hf]
      exact h
    · obtain ⟨-, -, -, hmax⟩ := h.sane.find_bounds hf
      rw [h.sane.lock_of_find hf hn]
      apply h.setRefcnt hf (Nat.succ_pos n)
      omega

/-- The last reference of an object that is no process. -/
theorem Ok.drop (h : Ok e s l) {x : ℕ} (hf : s.god.find e.k id = some (.other x, n)) :
    Ok e { s with god :=
      { s.god with header := update s.god.header (id % 2 ^ e.k) ⟨id, false, false, false, 0⟩ } } l := by
  have hfind := h.sane.find_write hf (rfl : (God.Header.mk id false false false 0).id = id)
  refine { h with sane := h.sane.write hf rfl (.inl rfl), live := ?_, owner := ?_ }
  · intro p hp
    obtain ⟨n', hn'⟩ := h.live p hp
    -- the id has another object
    have hid : (s.proc p).id ≠ id := by
      intro hid
      rw [hid, hf] at hn'
      obtain ⟨hobj, -⟩ := Prod.mk.inj (Option.some.inj hn')
      exact Obj.noConfusion hobj
    exact ⟨n', by rw [hfind, update_of_ne hid]; exact hn'⟩
  · intro id' p n' hn'
    rw [hfind] at hn'
    by_cases hid : id' = id
    · rw [hid, update_self] at hn'
      cases hn'
    · rw [update_of_ne hid] at hn'
      exact h.owner id' p n' hn'

/-- **A process that is freed** is in none of the three. -/
theorem Ok.collect (h : Ok e s l) (hp : p ∈ l) : Ok e (s.collect e p) (l.erase p) := by
  obtain ⟨n, hf⟩ := h.live p hp
  have hheader : s.header e p = ⟨(s.proc p).id, true, true, false, n⟩ := (h.sane.find_eq_some.1 hf).2.1
  have hmark : (s.header e p).mark.onlyId = ⟨(s.proc p).id, false, false, false, 0⟩ := by
    rw [hheader]
    rfl
  have hfind : (s.collect e p).god.find e.k = update (s.god.find e.k) (s.proc p).id none := by
    have hwrite := h.sane.find_write hf (congrArg God.Header.id hmark)
    rw [hmark] at hwrite
    unfold St.collect
    rw [hmark]
    exact hwrite
  have hmem : ∀ {q}, q ∈ l.erase p ↔ q ≠ p ∧ q ∈ l := h.nodup.mem_erase_iff
  constructor
  · exact h.list.pull hp
  · exact h.sane.write hf (congrArg God.Header.id hmark) (.inl hmark)
  · intro q hq
    obtain ⟨hne, hq⟩ := hmem.1 hq
    obtain ⟨n', hn'⟩ := h.live q hq
    have hid : (s.proc q).id ≠ (s.proc p).id := by
      -- else the directory would have two objects for one id
      intro hid
      rw [hid, hf] at hn'
      exact hne (Obj.proc.inj (Prod.mk.inj (Option.some.inj hn')).1).symm
    exact ⟨n', by rw [hfind]; exact (update_of_ne hid _ _).trans hn'⟩
  · intro id' q n' hn'
    rw [hfind] at hn'
    by_cases hid : id' = (s.proc p).id
    · rw [hid, update_self] at hn'
      cases hn'
    · rw [update_of_ne hid] at hn'
      obtain ⟨hq, hqid⟩ := h.owner id' q n' hn'
      have hne : q ≠ p := by
        rintro rfl
        exact hid hqid.symm
      exact ⟨hmem.2 ⟨hne, hq⟩, hqid⟩
  · -- the entry of the range table
    have hdel : s.table.del (s.image p).index = some (s.collect e p).table := if_neg
      (Nat.not_le.2 (h.index_lt hp))
    have hmirror := h.table.del (List.mem_map_of_mem hp) hdel
    apply hmirror.perm
    have hperm := ((List.perm_cons_erase hp).map s.image).erase (s.image p)
    rwa [List.map_cons, List.erase_cons_head] at hperm

/-- An unlock leaves the processes as they are, or frees the process whose id it has. -/
theorem Ok.unlock (h : Ok e s l) (hlen : l.length ≤ e.n) (id : ℕ) :
    ∃ s' l', s.unlock e id = some s' ∧ Ok e s' l' ∧ (l' = l ∨ ∃ p ∈ l, (s.proc p).id = id ∧ l' = l.erase p) := by
  unfold St.unlock
  obtain hf | ⟨⟨o, n⟩, hf⟩ := Option.eq_none_or_eq_some (s.god.find e.k id)
  · rw [h.sane.unlock_of_none hf]
    exact ⟨_, l, rfl, h, .inl rfl⟩
  · obtain rfl | ⟨m, rfl, hmax⟩ := h.sane.refcnt_cases hf
    · rw [h.sane.unlock_of_one hf]
      cases o with
      | other x => exact ⟨_, l, rfl, h.drop hf, .inl rfl⟩
      | proc p =>
        obtain ⟨hp, rfl⟩ := h.owner id p 1 hf
        have hheader : s.header e p = ⟨(s.proc p).id, true, true, false, 1⟩ := (h.sane.find_eq_some.1 hf).2.1
        have hfree := h.listed.free hp hlen
        rw [hheader] at hfree
        exact ⟨_, _, hfree, h.collect hp, .inr ⟨p, hp, rfl, rfl⟩⟩
    · rw [h.sane.unlock_of_find hf]
      exact ⟨_, l, rfl, h.setRefcnt hf (Nat.succ_pos m) (by omega), .inl rfl⟩

/-! ## New objects -/

theorem Ok.id_lt (h : Ok e s l) (hp : p ∈ l) : (s.proc p).id < s.god.writeIndex := by
  obtain ⟨n, hf⟩ := h.live p hp
  have hold := h.sane.old _ (Nat.mod_lt (s.proc p).id (Nat.two_pow_pos e.k))
  rwa [(h.sane.find_eq_some.1 hf).2.1] at hold

/-- A change of what is in the processes besides their ids and images. -/
theorem Ok.congr (h : Ok e s l) {proc : ℕ → Proc F} (hid : ∀ p ∈ l, (proc p).id = (s.proc p).id)
    (himage : ∀ p ∈ l, ({ s with proc := proc } : St F).image p = s.image p) :
    Ok e { s with proc := proc } l := by
  refine { h with live := ?_, owner := ?_, table := ?_ }
  · intro p hp
    obtain ⟨n, hn⟩ := h.live p hp
    exact ⟨n, (hid p hp).symm ▸ hn⟩
  · intro id p n hf
    obtain ⟨hp, hpid⟩ := h.owner id p n hf
    exact ⟨hp, (hid p hp).trans hpid⟩
  · rw [List.map_congr_left himage]
    exact h.table

/-- One process is written to, and keeps its id and its image. -/
theorem Ok.write (h : Ok e s l) {q : Proc F} (hid : q.id = (s.proc node).id)
    (himage : UserText.Proc.mk q.base q.size q.rangeTableIndex = s.image node) :
    Ok e { s with proc := update s.proc node q } l := by
  apply h.congr
  · intro p _
    by_cases hp : p = node
    · rw [hp, update_self]
      exact hid
    · rw [update_of_ne hp]
  · intro p _
    by_cases hp : p = node
    · rw [hp, ← himage]
      unfold St.image
      simp only [update_self]
    · unfold St.image
      simp only [update_of_ne hp]

/-- An object that is no process. -/
theorem Ok.alloc (h : Ok e s l) (hk : e.k ≤ 31) (x : ℕ) :
    Ok e { s with god := (s.god.alloc e.k (.other x)).2 } l := by
  by_cases hi : (s.god.alloc e.k (.other x)).1 = invalid
  · obtain hno | ⟨i, hpos, -, -, -, heq⟩ := h.sane.alloc_cases hk (.other x)
    · rw [hno]
      exact h
    · rw [heq] at hi
      have hz : i = 0 := hi
      rw [hz, Nat.zero_mod] at hpos
      exact absurd hpos (Nat.lt_irrefl 0)
  · obtain ⟨hle, hfind⟩ := h.sane.find_alloc hk (.other x) hi
    refine { h with sane := h.sane.alloc hk _, live := ?_, owner := ?_ }
    · intro p hp
      obtain ⟨n, hn⟩ := h.live p hp
      have hid : (s.proc p).id ≠ (s.god.alloc e.k (.other x)).1 := by
        have := h.id_lt hp
        omega
      exact ⟨n, by rw [hfind, update_of_ne hid]; exact hn⟩
    · intro id p n hf
      rw [hfind] at hf
      by_cases hid : id = (s.god.alloc e.k (.other x)).1
      · rw [hid, update_self] at hf
        cases hf
      · rw [update_of_ne hid] at hf
        exact h.owner id p n hf

/-- **A new process** comes into the three places. -/
theorem Ok.exec (h : Ok e s l) (hk : e.k ≤ 31) (hnode : node ∉ l) (hb : base ≠ 0) (hfit : base + size < 2 ^ 64)
    (hs : s.exec e node base size = some s') : Ok e s' (l ++ [node]) := by
  unfold St.exec at hs
  obtain ⟨hi, hs⟩ := Option.ite_none_left_eq_some.1 hs
  obtain ⟨⟨index, table⟩, hadd, rfl⟩ := Option.map_eq_some_iff.1 hs
  obtain ⟨hle, hfind⟩ := h.sane.find_alloc hk (.proc node) hi
  obtain ⟨i, hid⟩ : ∃ i, i = (s.god.alloc e.k (.proc node)).1 := ⟨_, rfl⟩
  rw [← hid] at hle hfind
  have hne : ∀ p ∈ l, p ≠ node := fun p hp heq => hnode (heq ▸ hp)
  constructor
  · exact h.list.push hnode
  · exact h.sane.alloc hk _
  · intro p hp
    simp only [hfind, ← hid]
    obtain hp | hp := List.mem_append.1 hp
    · obtain ⟨n, hn⟩ := h.live p hp
      have hlt := h.id_lt hp
      refine ⟨n, ?_⟩
      rw [update_of_ne (hne p hp), update_of_ne (by omega)]
      exact hn
    · obtain rfl := List.mem_singleton.1 hp
      refine ⟨1, ?_⟩
      rw [update_self, update_self]
  · intro id p n hf
    simp only [hfind, ← hid] at hf ⊢
    by_cases hidi : id = i
    · rw [hidi, update_self] at hf
      obtain ⟨hp, -⟩ := Prod.mk.inj (Option.some.inj hf)
      obtain rfl := Obj.proc.inj hp
      exact ⟨List.mem_append_right l (List.mem_singleton_self node), by rw [update_self, hidi]⟩
    · rw [update_of_ne hidi] at hf
      obtain ⟨hp, hpid⟩ := h.owner id p n hf
      exact ⟨List.mem_append_left _ hp, by rw [update_of_ne (hne p hp)]; exact hpid⟩
  · -- the table lists the new process first, and the list has it last
    have hmirror := h.table.add hb hfit hadd
    apply hmirror.perm
    rw [List.map_append, List.map_singleton]
    have hold : l.map ({ s with
        list := s.list.insertBefore e.build () none node
        proc := update s.proc node ⟨(s.god.alloc e.k (.proc node)).1, false, some [], index, base, size⟩
        god := (s.god.alloc e.k (.proc node)).2
        table := table } : St F).image = l.map s.image := by
      apply List.map_congr_left
      intro p hp
      unfold St.image
      simp only [update_of_ne (hne p hp)]
    rw [hold]
    unfold St.image
    simp only [update_self]
    exact (List.perm_append_singleton _ _).symm

/-- A process that cannot be loaded is an object for a time, and no more. -/
theorem Ok.execFails (h : Ok e s l) (hk : e.k ≤ 31) (hnode : node ∉ l) (hlen : l.length ≤ e.n)
    (hs : s.execFails e node = some s') : Ok e s' l := by
  unfold St.execFails at hs
  obtain ⟨hi, hs⟩ := Option.ite_none_left_eq_some.1 hs
  obtain ⟨hle, hfind⟩ := h.sane.find_alloc hk (.proc node) hi
  have hsane := h.sane.alloc hk (.proc node)
  obtain ⟨r, hr⟩ : ∃ r, r = s.god.alloc e.k (.proc node) := ⟨_, rfl⟩
  rw [← hr] at hle hfind hsane hs
  -- the unlock takes the only reference
  have hf : r.2.find e.k r.1 = some (.proc node, 1) := by rw [hfind, update_self]
  have hgone := hsane.find_write hf (rfl : (God.Header.mk r.1 false false false 0).id = r.1)
  have hne : ∀ p ∈ l, p ≠ node := fun p hp heq => hnode (heq ▸ hp)
  have hin : s.list.isInserted e.n () node = some false := by
    rw [h.list.represents.isInserted () node e.n hlen, decide_eq_false hnode]
  unfold St.unlock at hs
  simp only [hsane.unlock_of_one hf, St.free, St.objectFree, runAtexit_eq, hin, Option.some.injEq] at hs
  obtain rfl := hs
  have hproc : ∀ p ∈ l, update s.proc node ⟨r.1, false, some [], 0, 0, 0⟩ p = s.proc p :=
    fun p hp => update_of_ne (hne p hp) _ _
  -- the entry that was taken is free again, and no process had the id
  have hfind' : ∀ {id}, id ≠ r.1 → Dir.find e.k { r.2 with
      header := update r.2.header (r.1 % 2 ^ e.k) ⟨r.1, false, false, false, 0⟩ } id = s.god.find e.k id := by
    intro id hid
    rw [hgone, update_of_ne hid, hfind, update_of_ne hid]
  constructor
  · exact h.list
  · exact hsane.write hf rfl (.inl rfl)
  · intro p hp
    obtain ⟨n, hn⟩ := h.live p hp
    have hlt := h.id_lt hp
    refine ⟨n, ?_⟩
    simp only [hproc p hp]
    rw [hfind' (by omega)]
    exact hn
  · intro id p n hf'
    by_cases hid : id = r.1
    · rw [hid, hgone, update_self] at hf'
      cases hf'
    · rw [hfind' hid] at hf'
      obtain ⟨hp, hpid⟩ := h.owner id p n hf'
      simp only [hproc p hp]
      exact ⟨hp, hpid⟩
  · have himage : ∀ p ∈ l, UserText.Proc.mk (update s.proc node ⟨r.1, false, some [], 0, 0, 0⟩ p).base
        (update s.proc node ⟨r.1, false, some [], 0, 0, 0⟩ p).size
        (update s.proc node ⟨r.1, false, some [], 0, 0, 0⟩ p).rangeTableIndex = s.image p := by
      intro p hp
      rw [hproc p hp]
      rfl
    have hmap := List.map_congr_left himage
    exact hmap ▸ h.table

/-! ## Runs -/

/-- Processes that are freed one after another. -/
theorem Ok.foldl (h : Ok e s l) {ds : List ℕ} (hsub : ∀ d ∈ ds, d ∈ l) (hds : ds.Nodup) :
    ∃ l', Ok e (ds.foldl (St.collect e) s) l' := by
  induction ds generalizing s l with
  | nil => exact ⟨l, h⟩
  | cons d ds ih =>
    obtain ⟨hd, hds⟩ := List.nodup_cons.1 hds
    apply ih (h.collect (hsub d List.mem_cons_self)) _ hds
    intro d' hd'
    have hne : d' ≠ d := by rintro rfl; exact hd hd'
    exact h.nodup.mem_erase_iff.2 ⟨hne, hsub d' (List.mem_cons_of_mem d hd')⟩

/-- **Every call keeps the three places together.** -/
theorem Ok.step (h : Ok e s l) (hk : e.k ≤ 31) (hn : maxObjects < e.n) {act : Act F} (hok : Allowed e s act)
    (hs : s.step e act = some s') : ∃ l', Ok e s' l' := by
  have hlen : l.length < e.n := Nat.lt_of_le_of_lt h.length_le hn
  -- a process is made in memory that is not in the list
  have hfresh : ∀ {node}, s.list.isInserted e.n () node = some false → node ∉ l := by
    intro node hin
    rw [h.list.represents.isInserted () node e.n (Nat.le_of_lt hlen)] at hin
    exact of_decide_eq_false (Option.some.inj hin)
  cases act with
  | exec node base size =>
    obtain ⟨hin, hb, hfit⟩ := hok
    exact ⟨_, h.exec hk (hfresh hin) hb hfit hs⟩
  | execFails node => exact ⟨l, h.execFails hk (hfresh hok) (Nat.le_of_lt hlen) hs⟩
  | alloc o =>
    obtain rfl := Option.some.inj hs
    exact ⟨l, h.alloc hk o⟩
  | lock id =>
    obtain rfl := Option.some.inj hs
    exact ⟨l, h.lock id⟩
  | unlock id =>
    obtain ⟨s₁, l', hs₁, hOk, -⟩ := h.unlock (Nat.le_of_lt hlen) id
    obtain rfl := Option.some.inj (hs₁.symm.trans hs)
    exact ⟨l', hOk⟩
  | atexit node callback =>
    obtain rfl := Option.some.inj hs
    exact ⟨l, h.write rfl rfl⟩
  | destroy node =>
    obtain rfl := Option.some.inj hs
    exact ⟨l, h.write rfl rfl⟩
  | gc =>
    obtain rfl := Option.some.inj ((h.listed.gc_eq hlen).symm.trans hs)
    apply h.foldl
    · intro d hd
      exact (List.mem_filter.1 hd).1
    · exact h.nodup.filter _

/-- **The list, the directory and the range table have the same processes** in every state of a run. -/
theorem reachable_ok (hk : e.k ≤ 31) (hn : maxObjects < e.n) (h : (sys e).Reach (Allowed e) s) :
    ∃ l, Ok e s l := by
  apply System.Reach.inv (I := fun s : St F => ∃ l, Ok e s l) _ _ h
  · rintro s ⟨proc, rfl⟩
    exact ⟨[], ok_start e proc⟩
  · rintro s act s' ⟨l, hl⟩ hok hs
    exact hl.step hk hn hok hs

/-- So a garbage collection at any time of a run ends, and frees the processes that are due. -/
theorem reachable_gc (hk : e.k ≤ 31) (hn : maxObjects < e.n) (h : (sys e).Reach (Allowed e) s) :
    ∃ l s', Listed e s l ∧ s.gc e = some s' ∧ Collected e s l s' := by
  obtain ⟨l, hl⟩ := reachable_ok hk hn h
  have hlen : l.length < e.n := Nat.lt_of_le_of_lt hl.length_le hn
  exact ⟨l, _, hl.listed, hl.listed.gc_eq hlen, hl.listed.collected⟩

end Prs.ProcGc
