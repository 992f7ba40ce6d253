import Prs.Model.ProcGc
import Prs.Proof.GodTable
import Prs.Proof.IdllistSeqs
import Prs.Proof.UserTextTable

/-!
# What the garbage collection frees

A walk ends at the first process of the list that is destroyed and has one reference left, after its free
callback has taken it out; the processes before it change nothing, and neither do their results. So each walk
but the last shortens the list by one process, and the last one meets none.

* `Listed`: the list, the directory and the table agree on the processes.
* `free_spec`: what the call of the directory does to a process that is due.
* `walk_spec`: a walk frees the first process that is due.
* `gc_frees`: the garbage collection frees those that are due, once each, and leaves the others alone.
-/

namespace Prs.ProcGc

open Function

variable {F : Type} {e : Env} {s s' : St F} {l pre post : List ℕ} {node p : ℕ}

/-- The header of the object of a process. -/
def St.header (e : Env) (s : St F) (node : ℕ) : God.Header := s.god.header ((s.proc node).id % 2 ^ e.k)

/-- The process is marked as destroyed and has one reference. -/
def St.due (e : Env) (s : St F) (node : ℕ) : Bool := (s.proc node).destroyed && (s.header e node).refcnt == 1

/-- The processes of the list. Each is an object in use, whatever its references, and has an entry of its own. -/
structure Listed (e : Env) (s : St F) (l : List ℕ) : Prop where
  list : Idllist.Inv e.build s.list fun _ => l
  id : ∀ p ∈ l, (s.proc p).id ≠ GodSeq.invalid
  header : ∀ p ∈ l, (s.header e p).id = (s.proc p).id ∧ (s.header e p).used = true
  object : ∀ p ∈ l, s.god.object ((s.proc p).id % 2 ^ e.k) = some (.proc p)
  index : ∀ p ∈ l, (s.proc p).rangeTableIndex < UserText.maxObjects
  distinct : ∀ p ∈ l, ∀ q ∈ l, (s.proc p).rangeTableIndex = (s.proc q).rangeTableIndex → p = q

/-! ## The call of the directory -/

/-- No process shares the entry of another in the directory. -/
theorem Listed.entry_ne (h : Listed e s l) {q : ℕ} (hp : p ∈ l) (hq : q ∈ l) (hne : p ≠ q) :
    (s.proc p).id % 2 ^ e.k ≠ (s.proc q).id % 2 ^ e.k := by
  intro heq
  have hobj := h.object p hp
  rw [heq, h.object q hq] at hobj
  exact hne (Obj.proc.inj (Option.some.inj hobj)).symm

/-- A process that has another number of references is left alone. -/
theorem Listed.tryUnlockFinal_kept (h : Listed e s l) (hp : p ∈ l) (hr : (s.header e p).refcnt ≠ 1) :
    ∃ r, r ≠ .ok ∧ s.tryUnlockFinal e (s.proc p).id = some (r, s) := by
  obtain ⟨hid, hused⟩ := h.header p hp
  -- without the checks, a count of zero is `PRS_LOCKED` as well
  have hcall : ∃ r, r ≠ .ok ∧ s.god.tryUnlockFinal e.build.checks e.k (s.proc p).id = (r, none, s.god) := by
    unfold GodSeq.Dir.tryUnlockFinal
    unfold St.header at hid hused hr
    simp only [h.id p hp, hid, hused, hr, and_false, ne_eq, not_true, if_false, reduceCtorEq]
    split
    · exact ⟨_, by decide, rfl⟩
    · exact ⟨_, by decide, rfl⟩
  obtain ⟨r, hne, hcall⟩ := hcall
  refine ⟨r, hne, ?_⟩
  unfold St.tryUnlockFinal
  rw [hcall]
  rfl

/-- The state after a process of the list was freed. -/
def St.collect (e : Env) (s : St F) (node : ℕ) : St F :=
  { s with
    list := s.list.remove e.build () node
    god := { s.god with
      header := update s.god.header ((s.proc node).id % 2 ^ e.k) (s.header e node).mark.onlyId }
    table := { s.table with
      base := update s.table.base (s.proc node).rangeTableIndex 0
      size := update s.table.size (s.proc node).rangeTableIndex 0 }
    ran := s.ran ++ ((s.proc node).atexitCallbacks).getD []
    freed := s.freed ++ [node] }

theorem runAtexit_eq (s : St F) (node : ℕ) :
    s.runAtexit node = { s with ran := s.ran ++ ((s.proc node).atexitCallbacks).getD [] } := by
  unfold St.runAtexit
  split
  case h_1 callbacks hc => rw [hc, Option.getD_some]
  case h_2 hc => rw [hc, Option.getD_none, List.append_nil]

/-- The free callback of a process of the list, after the last reference was taken. -/
theorem Listed.free (h : Listed e s l) (hp : p ∈ l) (hn : l.length ≤ e.n) :
    ({ s with god := { s.god with
        header := update s.god.header ((s.proc p).id % 2 ^ e.k) (s.header e p).mark.onlyId } } : St F).free e
      (some (.proc p)) = some (s.collect e p) := by
  have hin : s.list.isInserted e.n () p = some true := by
    rw [h.list.represents.isInserted () p e.n hn, decide_eq_true hp]
  have hdel : s.table.del (s.proc p).rangeTableIndex = some { s.table with
      base := update s.table.base (s.proc p).rangeTableIndex 0
      size := update s.table.size (s.proc p).rangeTableIndex 0 } := if_neg (Nat.not_le.2 (h.index p hp))
  simp only [St.free, St.objectFree, runAtexit_eq, hin, hdel, Option.map_some]
  rfl

/-- **A process that has one reference is freed.** -/
theorem Listed.tryUnlockFinal_freed (h : Listed e s l) (hp : p ∈ l) (hr : (s.header e p).refcnt = 1)
    (hn : l.length ≤ e.n) : s.tryUnlockFinal e (s.proc p).id = some (.ok, s.collect e p) := by
  obtain ⟨hid, hused⟩ := h.header p hp
  have hcall : s.god.tryUnlockFinal e.build.checks e.k (s.proc p).id = (.ok, some (.proc p), { s.god with
      header := update s.god.header ((s.proc p).id % 2 ^ e.k) (s.header e p).mark.onlyId }) := by
    unfold GodSeq.Dir.tryUnlockFinal
    have hobj := h.object p hp
    unfold St.header at hid hused hr ⊢
    simp only [h.id p hp, hid, hused, hr, hobj, and_false, ne_eq, not_true, if_false, if_true, reduceCtorEq]
  unfold St.tryUnlockFinal
  rw [hcall]
  simp only [h.free hp hn, Option.map_some]

/-- The rest of the list. -/
theorem Listed.collect (h : Listed e s l) (hp : p ∈ l) : Listed e (s.collect e p) (l.erase p) := by
  have hnd : l.Nodup := h.list.represents.nodup ()
  have hmem : ∀ {q}, q ∈ l.erase p → q ≠ p ∧ q ∈ l := fun hq => hnd.mem_erase_iff.1 hq
  have hother : ∀ q ∈ l.erase p, (s.collect e p).header e q = s.header e q := by
    intro q hq
    obtain ⟨hne, hq⟩ := hmem hq
    exact update_of_ne (h.entry_ne hq hp hne) _ _
  constructor
  · exact h.list.pull hp
  · exact fun q hq => h.id q (hmem hq).2
  · intro q hq
    rw [hother q hq]
    exact h.header q (hmem hq).2
  · exact fun q hq => h.object q (hmem hq).2
  · exact fun q hq => h.index q (hmem hq).2
  · exact fun q hq r hr => h.distinct q (hmem hq).2 r (hmem hr).2

/-- A process is due or not whatever else is freed. -/
theorem Listed.due_collect (h : Listed e s l) (hp : p ∈ l) {q : ℕ} (hq : q ∈ l) (hne : q ≠ p) :
    (s.collect e p).due e q = s.due e q := by
  have hheader : (s.collect e p).header e q = s.header e q := update_of_ne (h.entry_ne hq hp hne) _ _
  unfold St.due
  rw [hheader]
  rfl

/-! ## The loops -/

/-- **A walk** frees the first process that is due, or changes nothing when there is none. -/
theorem walk_spec (h : Listed e s (pre ++ post)) (hlen : (pre ++ post).length ≤ e.n) {n : ℕ}
    (hn : post.length ≤ n) {result : Outcome} (hres : result ≠ some .ok) :
    (∃ r, r ≠ some .ok ∧ s.walk e n post.head? result = some (r, s) ∧ ∀ q ∈ post, s.due e q = false) ∨
      ∃ a d c, post = a ++ d :: c ∧ (∀ q ∈ a, s.due e q = false) ∧ s.due e d = true ∧
        s.walk e n post.head? result = some (some .ok, s.collect e d) := by
  induction post generalizing pre n result with
  | nil =>
    refine .inl ⟨result, hres, ?_, fun q hq => absurd hq List.not_mem_nil⟩
    cases n <;> rfl
  | cons p post ih =>
    obtain ⟨m, rfl⟩ : ∃ m, n = m + 1 := ⟨n - 1, by rw [List.length_cons] at hn; omega⟩
    have hm : post.length ≤ m := Nat.le_of_succ_le_succ hn
    have hp : p ∈ pre ++ p :: post := List.mem_append_right pre List.mem_cons_self
    have hsplit : pre ++ p :: post = (pre ++ [p]) ++ post := by simp
    have hnext : s.list.next p = post.head? := (h.list.lists ()).links.next_eq
    -- the walk goes on, with the state that it had
    have hgo : s.due e p = false → ∀ r, r ≠ some .ok →
      s.walk e (m + 1) (some p) result = s.walk e m post.head? r →
        (∃ r, r ≠ some .ok ∧ s.walk e (m + 1) (some p) result = some (r, s) ∧
          ∀ q ∈ p :: post, s.due e q = false) ∨
          ∃ a d c, p :: post = a ++ d :: c ∧ (∀ q ∈ a, s.due e q = false) ∧ s.due e d = true ∧
            s.walk e (m + 1) (some p) result = some (some .ok, s.collect e d) := by
      intro hdue r hr hwalk
      obtain ⟨r', hr', heq, hnone⟩ | ⟨a, d, c, rfl, ha, hd, heq⟩ := ih (hsplit ▸ h) (hsplit ▸ hlen) hm hr
      · refine .inl ⟨r', hr', hwalk.trans heq, fun q hq => ?_⟩
        obtain rfl | hq := List.mem_cons.1 hq
        · exact hdue
        · exact hnone q hq
      · refine .inr ⟨p :: a, d, c, rfl, fun q hq => ?_, hd, hwalk.trans heq⟩
        obtain rfl | hq := List.mem_cons.1 hq
        · exact hdue
        · exact ha q hq
    rw [List.head?_cons]
    cases hd : (s.proc p).destroyed with
    | false =>
      apply hgo (by rw [St.due, hd, Bool.false_and]) result hres
      rw [St.walk, hd, if_neg Bool.false_ne_true, hnext]
    | true =>
      by_cases hr : (s.header e p).refcnt = 1
      · refine .inr ⟨[], p, post, rfl, fun q hq => absurd hq List.not_mem_nil, ?_, ?_⟩
        · rw [St.due, hd, hr]
          rfl
        · rw [St.walk, hd, if_pos rfl, h.tryUnlockFinal_freed hp hr hlen]
          exact if_pos rfl
      · obtain ⟨r, hne, hcall⟩ := h.tryUnlockFinal_kept hp hr
        apply hgo (by rw [St.due, hd, Bool.true_and]; exact beq_false_of_ne hr) (some r)
        · exact fun heq => hne (Option.some.inj heq)
        · rw [St.walk, hd, if_pos rfl, hcall]
          simp only [hne, if_false, hnext]

/-- **The outer loop** frees the processes that are due, from the first to the last. -/
theorem gcLoop_spec (h : Listed e s l) (hlen : l.length ≤ e.n) {m : ℕ} (hm : (l.filter (s.due e)).length < m) :
    s.gcLoop e m = some ((l.filter (s.due e)).foldl (St.collect e) s) := by
  have hhead : ∀ {s : St F} {l : List ℕ}, Listed e s l → s.list.begin () = l.head? :=
    fun h => (h.list.lists ()).head
  obtain ⟨ds, hds⟩ : ∃ ds, ds = l.filter (s.due e) := ⟨_, rfl⟩
  induction ds generalizing s l m with
  | nil =>
    obtain ⟨m, rfl⟩ : ∃ m', m = m' + 1 := ⟨m - 1, by omega⟩
    rw [← hds, List.foldl_nil, St.gcLoop, hhead h]
    obtain ⟨r, hr, hwalk, -⟩ | ⟨a, d, c, rfl, -, hd, -⟩ :=
      @walk_spec F e s [] l h hlen e.n hlen none (Option.some_ne_none _).symm
    · rw [hwalk]
      exact if_neg hr
    · have hmem : d ∈ (a ++ d :: c).filter (s.due e) :=
        List.mem_filter.2 ⟨List.mem_append_right a List.mem_cons_self, hd⟩
      rw [← hds] at hmem
      exact absurd hmem List.not_mem_nil
  | cons d ds ih =>
    obtain ⟨m, rfl⟩ : ∃ m', m = m' + 1 := ⟨m - 1, by omega⟩
    obtain ⟨r, hr, -, hnone⟩ | ⟨a, d', c, rfl, ha, hd, hwalk⟩ :=
      @walk_spec F e s [] l h hlen e.n hlen none (Option.some_ne_none _).symm
    · have hd : d ∈ l.filter (s.due e) := hds ▸ List.mem_cons_self
      obtain ⟨hdl, hdue⟩ := List.mem_filter.1 hd
      exact absurd ((hnone d hdl).symm.trans hdue) Bool.false_ne_true
    · -- the walk has freed the first process that is due
      have hnd : (a ++ d' :: c).Nodup := h.list.represents.nodup ()
      have hd' : d' ∈ a ++ d' :: c := List.mem_append_right a List.mem_cons_self
      have hda : d' ∉ a := fun hm => (List.nodup_append.1 hnd).2.2 d' hm d' List.mem_cons_self rfl
      have herase : (a ++ d' :: c).erase d' = a ++ c := by
        rw [List.erase_append_right _ hda, List.erase_cons_head]
      have hnil : a.filter (s.due e) = [] := List.filter_eq_nil_iff.2 fun q hq => ne_true_of_eq_false (ha q hq)
      have hfirst : (a ++ d' :: c).filter (s.due e) = d' :: c.filter (s.due e) := by
        rw [List.filter_append, hnil, List.nil_append, List.filter_cons_of_pos hd]
      obtain ⟨rfl, rfl⟩ := List.cons.inj (hds.trans hfirst)
      -- the others are due after it exactly when they were before
      have hrest : ((a ++ d :: c).erase d).filter ((s.collect e d).due e) = c.filter (s.due e) := by
        have hcongr : ∀ q ∈ (a ++ d :: c).erase d, (s.collect e d).due e q = s.due e q := by
          intro q hq
          obtain ⟨hne, hq⟩ := hnd.mem_erase_iff.1 hq
          exact h.due_collect hd' hq hne
        rw [List.filter_congr hcongr, herase, List.filter_append, hnil, List.nil_append]
      have hlen' : ((a ++ d :: c).erase d).length ≤ e.n := Nat.le_trans (List.length_erase_le ..) hlen
      have hm' : (((a ++ d :: c).erase d).filter ((s.collect e d).due e)).length < m := by
        rw [hfirst, List.length_cons] at hm
        rw [hrest]
        omega
      have hgo := ih (h.collect hd') hlen' hm' hrest.symm
      rw [hrest] at hgo
      rw [St.gcLoop, hhead h, hwalk, hfirst, List.foldl_cons, ← hgo]
      exact if_pos rfl

/-! ## Processes that are freed one after another -/

section Fold

variable {ds : List ℕ} {d : ℕ}

theorem foldl_proc (s : St F) (ds : List ℕ) : (ds.foldl (St.collect e) s).proc = s.proc := by
  induction ds generalizing s with
  | nil => rfl
  | cons d ds ih => exact ih (s.collect e d)

theorem foldl_freed (s : St F) (ds : List ℕ) : (ds.foldl (St.collect e) s).freed = s.freed ++ ds := by
  induction ds generalizing s with
  | nil => exact (List.append_nil _).symm
  | cons d ds ih =>
    rw [List.foldl_cons, ih]
    exact List.append_assoc _ [d] ds

theorem foldl_ran (s : St F) (ds : List ℕ) :
    (ds.foldl (St.collect e) s).ran = s.ran ++ ds.flatMap fun d => ((s.proc d).atexitCallbacks).getD [] := by
  induction ds generalizing s with
  | nil => exact (List.append_nil _).symm
  | cons d ds ih =>
    rw [List.foldl_cons, ih, List.flatMap_cons, ← List.append_assoc]
    rfl

/-- The entries of other objects. -/
theorem foldl_header {x : ℕ} (hx : ∀ d ∈ ds, (s.proc d).id % 2 ^ e.k ≠ x) :
    (ds.foldl (St.collect e) s).god.header x = s.god.header x := by
  induction ds generalizing s with
  | nil => rfl
  | cons d ds ih =>
    have hd := hx d List.mem_cons_self
    have hrest := @ih (s.collect e d) fun d' hd' => hx d' (List.mem_cons_of_mem d hd')
    exact hrest.trans (update_of_ne (Ne.symm hd) _ _)

/-- An entry that has its id only keeps it. -/
theorem foldl_onlyId {x : ℕ} {header : God.Header} (hx : s.god.header x = header.onlyId) :
    (ds.foldl (St.collect e) s).god.header x = header.onlyId := by
  induction ds generalizing s with
  | nil => exact hx
  | cons d ds ih =>
    apply ih
    by_cases hd : x = (s.proc d).id % 2 ^ e.k
    · have hself : (s.collect e d).god.header x = (s.god.header x).mark.onlyId := by
        rw [hd]
        exact update_self ..
      rw [hself, hx]
      rfl
    · exact (update_of_ne hd _ _).trans hx

/-- The entries of the processes that are freed. -/
theorem foldl_header_freed (hd : d ∈ ds) :
    (ds.foldl (St.collect e) s).god.header ((s.proc d).id % 2 ^ e.k) = (s.header e d).onlyId := by
  induction ds generalizing s with
  | nil => exact absurd hd List.not_mem_nil
  | cons d' ds ih =>
    by_cases hx : (s.proc d).id % 2 ^ e.k = (s.proc d').id % 2 ^ e.k
    · rw [List.foldl_cons]
      apply foldl_onlyId
      rw [hx]
      have hheader : s.header e d = s.header e d' := congrArg s.god.header hx
      have hself : (s.collect e d').god.header ((s.proc d').id % 2 ^ e.k) = (s.header e d').mark.onlyId :=
        update_self ..
      rw [hheader, hself]
      rfl
    · obtain rfl | hd := List.mem_cons.1 hd
      · exact absurd rfl hx
      · have hheader : (s.collect e d').header e d = s.header e d := update_of_ne hx _ _
        have hrest := @ih (s.collect e d') hd
        rwa [hheader] at hrest

/-- The entries of other processes in the range table. -/
theorem foldl_slot {i : ℕ} (hi : ∀ d ∈ ds, (s.proc d).rangeTableIndex ≠ i) :
    (ds.foldl (St.collect e) s).table.base i = s.table.base i ∧
      (ds.foldl (St.collect e) s).table.size i = s.table.size i := by
  induction ds generalizing s with
  | nil => exact ⟨rfl, rfl⟩
  | cons d ds ih =>
    have hd := hi d List.mem_cons_self
    obtain ⟨hb, hs⟩ := @ih (s.collect e d) fun d' hd' => hi d' (List.mem_cons_of_mem d hd')
    exact ⟨hb.trans (update_of_ne (Ne.symm hd) _ _), hs.trans (update_of_ne (Ne.symm hd) _ _)⟩

/-- An entry that is clear stays clear. -/
theorem foldl_clear {i : ℕ} (hi : s.table.base i = 0 ∧ s.table.size i = 0) :
    (ds.foldl (St.collect e) s).table.base i = 0 ∧ (ds.foldl (St.collect e) s).table.size i = 0 := by
  induction ds generalizing s with
  | nil => exact hi
  | cons d ds ih =>
    apply ih
    by_cases hd : i = (s.proc d).rangeTableIndex
    · rw [hd]
      exact ⟨update_self .., update_self ..⟩
    · exact ⟨(update_of_ne hd _ _).trans hi.1, (update_of_ne hd _ _).trans hi.2⟩

theorem foldl_cleared (hd : d ∈ ds) : (ds.foldl (St.collect e) s).table.base (s.proc d).rangeTableIndex = 0 ∧
    (ds.foldl (St.collect e) s).table.size (s.proc d).rangeTableIndex = 0 := by
  induction ds generalizing s with
  | nil => exact absurd hd List.not_mem_nil
  | cons d' ds ih =>
    obtain rfl | hd := List.mem_cons.1 hd
    · have hb : (s.collect e d).table.base (s.proc d).rangeTableIndex = 0 := update_self ..
      have hs : (s.collect e d).table.size (s.proc d).rangeTableIndex = 0 := update_self ..
      rw [List.foldl_cons]
      exact foldl_clear ⟨hb, hs⟩
    · exact @ih (s.collect e d') hd

/-- The rest of the list, in its order. -/
theorem Listed.foldl (h : Listed e s l) (hsub : ∀ d ∈ ds, d ∈ l) (hds : ds.Nodup) :
    Listed e (ds.foldl (St.collect e) s) (l.filter fun p => decide (p ∉ ds)) := by
  induction ds generalizing s l with
  | nil =>
    have hall : (l.filter fun p => decide (p ∉ ([] : List ℕ))) = l :=
      List.filter_eq_self.2 fun p _ => decide_eq_true List.not_mem_nil
    rw [hall]
    exact h
  | cons d ds ih =>
    obtain ⟨hd, hds⟩ := List.nodup_cons.1 hds
    have hnd : l.Nodup := h.list.represents.nodup ()
    have hsub' : ∀ d' ∈ ds, d' ∈ l.erase d := by
      intro d' hd'
      have hne : d' ≠ d := by rintro rfl; exact hd hd'
      exact hnd.mem_erase_iff.2 ⟨hne, hsub d' (List.mem_cons_of_mem d hd')⟩
    have hrest := ih (h.collect (hsub d List.mem_cons_self)) hsub' hds
    have hfilter : (l.erase d).filter (fun p => decide (p ∉ ds)) = l.filter fun p => decide (p ∉ d :: ds) := by
      rw [hnd.erase_eq_filter, List.filter_filter]
      apply List.filter_congr
      intro p _
      by_cases hpd : p = d <;> simp [hpd]
    rwa [hfilter] at hrest

end Fold

/-- What the garbage collection is for: the processes that are due are freed, in the order of the list, and
the others keep their place, their object and their entry. -/
structure Collected (e : Env) (s : St F) (l : List ℕ) (s' : St F) : Prop where
  rest : Listed e s' (l.filter fun p => !s.due e p)
  freed : s'.freed = s.freed ++ l.filter (s.due e)
  once : (l.filter (s.due e)).Nodup
  ran : s'.ran = s.ran ++ (l.filter (s.due e)).flatMap fun p => ((s.proc p).atexitCallbacks).getD []
  cleared : ∀ p ∈ l, s.due e p = true → s'.table.base (s.proc p).rangeTableIndex = 0 ∧
    s'.table.size (s.proc p).rangeTableIndex = 0 ∧ s'.header e p = (s.header e p).onlyId
  kept : ∀ p ∈ l, s.due e p = false → s'.header e p = s.header e p ∧
    s'.table.base (s.proc p).rangeTableIndex = s.table.base (s.proc p).rangeTableIndex ∧
    s'.table.size (s.proc p).rangeTableIndex = s.table.size (s.proc p).rangeTableIndex
  proc : s'.proc = s.proc
  others : ∀ x, (∀ p ∈ l, (s.proc p).id % 2 ^ e.k ≠ x) → s'.god.header x = s.god.header x

theorem Listed.collected (h : Listed e s l) : Collected e s l ((l.filter (s.due e)).foldl (St.collect e) s) := by
  have hnd : l.Nodup := h.list.represents.nodup ()
  have hmem : ∀ {p}, p ∈ l.filter (s.due e) → p ∈ l ∧ s.due e p = true := List.mem_filter.1
  refine ⟨?_, foldl_freed s _, hnd.filter _, foldl_ran s _, ?_, ?_, foldl_proc s _, ?_⟩
  · have hrest := h.foldl (fun p hp => (hmem hp).1) (hnd.filter (s.due e))
    have hcongr : (l.filter fun p => decide (p ∉ l.filter (s.due e))) = l.filter fun p => !s.due e p := by
      apply List.filter_congr
      intro p hp
      cases hdue : s.due e p <;> simp [hp, hdue]
    rwa [hcongr] at hrest
  · intro p hp hdue
    have hd : p ∈ l.filter (s.due e) := List.mem_filter.2 ⟨hp, hdue⟩
    obtain ⟨hb, hs⟩ := @foldl_cleared F e s _ p hd
    refine ⟨hb, hs, ?_⟩
    rw [St.header, foldl_proc]
    exact foldl_header_freed hd
  · intro p hp hdue
    have hne : ∀ d ∈ l.filter (s.due e), d ≠ p := by
      rintro d hd rfl
      exact Bool.false_ne_true (hdue.symm.trans (hmem hd).2)
    refine ⟨?_, ?_⟩
    · rw [St.header, foldl_proc]
      exact foldl_header fun d hd => h.entry_ne (hmem hd).1 hp (hne d hd)
    · exact foldl_slot fun d hd heq => hne d hd (h.distinct d (hmem hd).1 p hp heq)
  · intro x hx
    exact foldl_header fun d hd => hx d (hmem hd).1

/-- The loops have enough nodes and walks when the bound is above the length of the list. -/
theorem Listed.gc_eq (h : Listed e s l) (hlen : l.length < e.n) :
    s.gc e = some ((l.filter (s.due e)).foldl (St.collect e) s) := by
  have hfilter : (l.filter (s.due e)).length ≤ l.length := List.length_filter_le _ _
  apply gcLoop_spec h
  · omega
  · omega

/-- **The garbage collection ends**, and frees exactly the processes that are destroyed and have one reference. -/
theorem gc_frees (h : Listed e s l) (hlen : l.length < e.n) : ∃ s', s.gc e = some s' ∧ Collected e s l s' :=
  ⟨_, h.gc_eq hlen, h.collected⟩

/-- Two processes, of which the first is destroyed and has one reference. -/
def twoProcs : St ℕ where
  list := (Idllist.create.insertBefore ⟨true, true⟩ () none 1).insertBefore ⟨true, true⟩ () none 2
  proc p := ⟨p, p == 1, some [p], p, p, 1⟩
  god := ⟨fun x => ⟨x, true, true, false, x⟩, fun x => some (.proc x), 3⟩
  table := ⟨fun i => i, fun _ => 1, 3⟩
  ran := []
  freed := []

theorem listed_twoProcs : Listed ⟨⟨true, true⟩, 4, 3⟩ twoProcs [1, 2] where
  list := ((Idllist.inv_create ⟨true, true⟩).push List.not_mem_nil).push (by decide : 2 ∉ [1])
  id := by decide
  header := by decide
  object := by decide
  index := by decide
  distinct := by decide

theorem gc_frees_first : ∃ s', twoProcs.gc ⟨⟨true, true⟩, 4, 3⟩ = some s' ∧
    Collected ⟨⟨true, true⟩, 4, 3⟩ twoProcs [1, 2] s' :=
  gc_frees listed_twoProcs (by decide)

end Prs.ProcGc
