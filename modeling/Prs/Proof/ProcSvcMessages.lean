import Mathlib.Data.List.Perm.Basic
import Prs.Lib.Threads
import Prs.Model.ProcSvc

/-!
# Messages are in one place

Each message that has been allocated is with one task, in one queue, or freed once, whatever tasks are stopped
on the way; and its owner is the task that has it.

* `places_send`, `places_goto`, `places_take`: what moves a message.
* `Kept.act`: what every action keeps.
* `messages_once`: the result for every run. What a stopped task has in its queue is not freed.
-/

namespace Prs.ProcSvc

open Function

variable {ι E : Type} [Fintype ι] [DecidableEq ι] {svcId j k : ι} {s s' : St ι E} {m x : Msg ι E} {pc : Pc ι E}
  {q : ι → List (Msg ι E)} {i n procId : ℕ}

/-- The messages that a task has taken out of a queue or has not sent. -/
def Pc.msgs : Pc ι E → List (Msg ι E)
  | .send _ m => [m]
  | .got _ _ m => [m]
  | .post _ m => [m]
  | .took m => [m]
  | _ => []

def Svc.msgs : Svc ι E → List (Msg ι E)
  | .recv => []
  | .handle m => [m]
  | .reply m rsp => [m, rsp]
  | .free m => [m]

/-- How often the number of a message occurs. -/
def St.places (s : St ι E) (n : ℕ) : ℕ :=
  tally (fun pc => (Pc.msgs pc).map Msg.ptr) s.pc n + tally (List.map Msg.ptr) s.queue n +
    (s.svc.msgs.map Msg.ptr).count n + s.freed.count n

omit [Fintype ι] in
theorem send_pc (s : St ι E) (j k : ι) (m : Msg ι E) : (s.send j k m).pc = s.pc := by
  unfold St.send
  split <;> rfl

omit [Fintype ι] in
theorem send_svc (s : St ι E) (j k : ι) (m : Msg ι E) : (s.send j k m).svc = s.svc := by
  unfold St.send
  split <;> rfl

omit [Fintype ι] in
theorem send_next (s : St ι E) (j k : ι) (m : Msg ι E) : (s.send j k m).next = s.next := by
  unfold St.send
  split <;> rfl

/-- A message that is sent is in a queue or freed. -/
theorem places_send (s : St ι E) (j k : ι) (m : Msg ι E) (n : ℕ) :
    (s.send j k m).places n = s.places n + [m.ptr].count n := by
  unfold St.send
  split
  case isTrue =>
    unfold St.places
    dsimp only
    rw [count_cons_eq]
    omega
  case isFalse =>
    have hqueue := tally_update (List.map Msg.ptr) s.queue k (s.queue k ++ [⟨m.ptr, k, j, m.body⟩]) n
    rw [List.map_append, List.count_append, List.map_singleton] at hqueue
    unfold St.places
    dsimp only at hqueue ⊢
    omega

theorem places_goto (s : St ι E) (j : ι) (pc : Pc ι E) (n : ℕ) :
    (s.goto j pc).places n + ((s.pc j).msgs.map Msg.ptr).count n =
      s.places n + (pc.msgs.map Msg.ptr).count n := by
  have hpc := tally_update (fun pc => (Pc.msgs pc).map Msg.ptr) s.pc j pc n
  unfold St.places St.goto
  dsimp only at hpc ⊢
  omega

omit [DecidableEq ι] in
theorem places_free (s : St ι E) (m : Msg ι E) (n : ℕ) : (s.free m).places n = s.places n + [m.ptr].count n := by
  unfold St.places St.free
  dsimp only
  rw [count_cons_eq]
  omega

omit [DecidableEq ι] in
theorem places_svc (s : St ι E) (v : Svc ι E) (n : ℕ) :
    { s with svc := v }.places n + (s.svc.msgs.map Msg.ptr).count n =
      s.places n + (v.msgs.map Msg.ptr).count n := by
  unfold St.places
  dsimp only
  omega

omit [Fintype ι] in
/-- What is in a queue that a message has been taken out of was in it. -/
theorem mem_take (h : x ∈ update q j ((q j).eraseIdx i) k) : x ∈ q k := by
  by_cases hk : k = j
  · subst hk
    rw [update_self] at h
    exact List.mem_of_mem_eraseIdx h
  · rwa [update_of_ne hk] at h

/-- A message that is taken leaves the queue. -/
theorem places_take (hi : (s.queue j)[i]? = some m) (n : ℕ) :
    { s with queue := update s.queue j ((s.queue j).eraseIdx i) }.places n + [m.ptr].count n = s.places n := by
  have hqueue := tally_update (List.map Msg.ptr) s.queue j ((s.queue j).eraseIdx i) n
  obtain ⟨hlt, rfl⟩ := List.getElem?_eq_some_iff.1 hi
  have hperm := ((List.getElem_cons_eraseIdx_perm hlt).map Msg.ptr).count_eq n
  rw [List.map_cons, count_cons_eq] at hperm
  unfold St.places
  dsimp only at hqueue ⊢
  omega

structure Kept (svcId : ι) (s : St ι E) : Prop where
  places : ∀ n, s.places n = if n < s.next then 1 else 0
  queue : ∀ j, ∀ m ∈ s.queue j, m.owner = j
  pc : ∀ j, ∀ m ∈ (s.pc j).msgs, m.owner = j
  svc : ∀ m ∈ s.svc.msgs, m.owner = svcId

omit [DecidableEq ι] in
theorem kept_init : Kept svcId (St.init : St ι E) where
  places := fun n => by
    have hpc : tally (fun pc => (Pc.msgs pc).map Msg.ptr) (St.init : St ι E).pc n = 0 :=
      tally_eq_zero fun _ => List.not_mem_nil
    have hqueue : tally (List.map Msg.ptr) (St.init : St ι E).queue n = 0 :=
      tally_eq_zero fun _ => List.not_mem_nil
    unfold St.places
    rw [hpc, hqueue]
    rfl
  queue := fun _ _ hm => absurd hm List.not_mem_nil
  pc := fun _ _ hm => absurd hm List.not_mem_nil
  svc := fun _ hm => absurd hm List.not_mem_nil

/-- A task moves, and gives away what it does not have any more. -/
theorem Kept.goto (h : Kept svcId s) (hplaces : ∀ n, s'.places n = s.places n) (hnext : s'.next = s.next)
    (hpc : s'.pc = update s.pc j pc) (hqueue : ∀ k, ∀ m ∈ s'.queue k, m.owner = k) (hsvc : s'.svc = s.svc)
    (hm : ∀ m ∈ pc.msgs, m.owner = j) : Kept svcId s' where
  places := fun n => by rw [hplaces, hnext, h.places]
  queue := hqueue
  pc := fun k => by
    rw [hpc]
    by_cases hk : k = j
    · subst hk
      rw [update_self]
      exact hm
    · rw [update_of_ne hk]
      exact h.pc k
  svc := hsvc ▸ h.svc

/-- The owner of a message that is sent is the task that it is sent to. -/
theorem Kept.send_queue (h : Kept svcId s) (j k : ι) (m : Msg ι E) :
    ∀ i, ∀ x ∈ (s.send j k m).queue i, x.owner = i := by
  unfold St.send
  split
  case isTrue => exact h.queue
  case isFalse =>
    intro i x hx
    dsimp only at hx
    by_cases hi : i = k
    · subst hi
      rw [update_self, List.mem_append] at hx
      obtain hx | hx := hx
      · exact h.queue i x hx
      · rw [List.mem_singleton.1 hx]
    · rw [update_of_ne hi] at hx
      exact h.queue i x hx

theorem Kept.take_queue (h : Kept svcId s) (j : ι) (i : ℕ) :
    ∀ k, ∀ x ∈ update s.queue j ((s.queue j).eraseIdx i) k, x.owner = k :=
  fun k x hx => h.queue k x (mem_take hx)

omit [Fintype ι] [DecidableEq ι] in
theorem msgs_of_isIdle (h : pc.isIdle = true) : pc.msgs = [] := by
  cases pc with
  | idle => rfl
  | _ => cases h

/-- The number of a new message. -/
theorem lt_succ_count (next n : ℕ) :
    (if n < next then 1 else 0) + [next].count n = if n < next + 1 then 1 else 0 := by
  obtain rfl | hne := eq_or_ne n next
  · rw [if_neg (Nat.lt_irrefl n), List.count_singleton_self, if_pos (Nat.lt_succ_self n)]
  · rw [List.count_eq_zero_of_not_mem fun hm => hne (List.mem_singleton.1 hm), Nat.add_zero]
    by_cases hlt : n < next
    · rw [if_pos hlt, if_pos (Nat.lt_succ_of_lt hlt)]
    · rw [if_neg hlt, if_neg (by omega)]

/-- A task allocates a message. -/
theorem Kept.alloc (h : Kept svcId s) (hidle : (s.pc j).isIdle = true) {body : Body E}
    (hm : pc.msgs = [s.alloc j body]) :
    Kept svcId { s.goto j pc with next := s.next + 1 } where
  places := fun n => by
    have hgoto := places_goto s j pc n
    have hn := lt_succ_count s.next n
    rw [msgs_of_isIdle hidle, hm, h.places, List.map_singleton] at hgoto
    change (s.goto j pc).places n = _
    rw [← hn]
    exact hgoto
  queue := h.queue
  pc := fun k => by
    unfold St.goto
    dsimp only
    by_cases hk : k = j
    · subst hk
      rw [update_self, hm]
      intro m hm
      rw [List.mem_singleton.1 hm]
      rfl
    · rw [update_of_ne hk]
      exact h.pc k
  svc := h.svc

theorem Kept.step (h : Kept svcId s) (hs : s.step svcId j = some s') : Kept svcId s' := by
  -- a task sends or frees the one message that it has
  have hsend (dest : ι) (m : Msg ι E) (pc : Pc ι E) (hj : (s.pc j).msgs = [m]) (hpc : pc.msgs = []) :
      Kept svcId ((s.send j dest m).goto j pc) := by
    have hmove : ((s.send j dest m).goto j pc).pc = update s.pc j pc := by
      unfold St.goto
      rw [send_pc]
    refine h.goto (fun n => ?_) (send_next s j dest m) hmove (h.send_queue j dest m) (send_svc s j dest m)
      (by rw [hpc]; exact fun _ hm => absurd hm List.not_mem_nil)
    have hgoto := places_goto (s.send j dest m) j pc n
    rw [send_pc, places_send, hj, hpc, List.map_singleton] at hgoto
    exact Nat.add_right_cancel hgoto
  have hfree (m : Msg ι E) (hj : (s.pc j).msgs = [m]) : Kept svcId ((s.free m).goto j .idle) := by
    refine h.goto (fun n => ?_) rfl rfl h.queue rfl fun _ hm => absurd hm List.not_mem_nil
    have hgoto := places_goto (s.free m) j .idle n
    rw [places_free] at hgoto
    change ((s.free m).goto j .idle).places n + ((s.pc j).msgs.map Msg.ptr).count n = _ at hgoto
    rw [hj, List.map_singleton] at hgoto
    exact Nat.add_right_cancel hgoto
  unfold St.step at hs
  split at hs
  case h_1 req m hpc =>
    obtain rfl := Option.some.inj hs
    apply hsend svcId m _ (by rw [hpc]; rfl)
    split <;> rfl
  case h_2 params call m hpc =>
    obtain rfl := Option.some.inj hs
    have hkept := hfree m (by rw [hpc]; rfl)
    exact ⟨hkept.places, hkept.queue, hkept.pc, hkept.svc⟩
  case h_3 req call m _ hpc =>
    obtain rfl := Option.some.inj hs
    exact hfree m (by rw [hpc]; rfl)
  case h_4 dest m hpc =>
    obtain rfl := Option.some.inj hs
    exact hsend dest m .idle (by rw [hpc]; rfl) rfl
  case h_5 m hpc =>
    obtain rfl := Option.some.inj hs
    exact hfree m (by rw [hpc]; rfl)
  case h_6 => cases hs

theorem Kept.recv (h : Kept svcId s) (hs : s.recv j i = some s') : Kept svcId s' := by
  have htake (m : Msg ι E) (pc : Pc ι E) (hi : (s.queue j)[i]? = some m) (hj : (s.pc j).msgs = [])
    (hpc : pc.msgs = [m]) :
      Kept svcId { s.goto j pc with queue := update s.queue j ((s.queue j).eraseIdx i) } := by
    refine h.goto (fun n => ?_) rfl rfl (h.take_queue j i) rfl ?_
    · have hgoto := places_goto { s with queue := update s.queue j ((s.queue j).eraseIdx i) } j pc n
      have htake := places_take hi n
      dsimp only at hgoto
      rw [hj, hpc, List.map_singleton] at hgoto
      change St.places _ n + 0 = _ at hgoto
      exact hgoto.trans htake
    · rw [hpc]
      intro x hx
      rw [List.mem_singleton.1 hx]
      exact h.queue j m (List.mem_of_getElem? hi)
  unfold St.recv at hs
  split at hs
  case h_1 => cases hs
  case h_2 m hi =>
    split at hs
    case h_1 req call hpc =>
      split at hs
      case isTrue =>
        obtain rfl := Option.some.inj hs
        exact htake m _ hi (by rw [hpc]; rfl) rfl
      case isFalse => cases hs
    case h_2 hpc =>
      obtain rfl := Option.some.inj hs
      exact htake m _ hi (by rw [hpc]; rfl) rfl
    case h_3 => cases hs

theorem Kept.svcRecv (h : Kept svcId s) (hs : s.svcRecv svcId i = some s') : Kept svcId s' := by
  unfold St.svcRecv at hs
  split at hs
  case h_1 m hsvc hi =>
    obtain rfl := Option.some.inj hs
    refine ⟨fun n => ?_, h.take_queue svcId i, h.pc, ?_⟩
    · have htake := places_take hi n
      have hmove := places_svc { s with queue := update s.queue svcId ((s.queue svcId).eraseIdx i) } (.handle m) n
      have hnone : (s.svc.msgs.map Msg.ptr).count n = 0 := by
        rw [hsvc]
        rfl
      dsimp only at hmove
      rw [hnone] at hmove
      rw [← h.places, ← htake]
      exact hmove
    · intro x hx
      rw [List.mem_singleton.1 hx]
      exact h.queue svcId m (List.mem_of_getElem? hi)
  case h_2 => cases hs

theorem Kept.svcStep (h : Kept svcId s) (hs : s.svcStep svcId procId = some s') : Kept svcId s' := by
  unfold St.svcStep at hs
  split at hs
  case h_1 => cases hs
  case h_2 m hsvc =>
    have hm : m.owner = svcId := h.svc m (by rw [hsvc]; exact List.mem_cons_self)
    dsimp only at hs
    split at hs
    case h_1 body hbody =>
      obtain rfl := Option.some.inj hs
      refine ⟨fun n => ?_, h.queue, h.pc, ?_⟩
      · have hmove := places_svc s (.reply m (s.alloc svcId body)) n
        rw [hsvc, h.places] at hmove
        change St.places _ n + [m.ptr].count n = _ + ([m.ptr] ++ [s.next]).count n at hmove
        rw [List.count_append] at hmove
        have hn := lt_succ_count s.next n
        dsimp only
        change St.places { s with svc := .reply m (s.alloc svcId body) } n = _
        omega
      · intro x hx
        obtain rfl | hx := List.mem_cons.1 hx
        · exact hm
        · rw [List.mem_singleton.1 hx]
          rfl
    case h_2 hbody =>
      obtain rfl := Option.some.inj hs
      refine ⟨fun n => ?_, h.queue, h.pc, ?_⟩
      · have hmove := places_svc s (.free m) n
        rw [hsvc, h.places] at hmove
        exact Nat.add_right_cancel hmove
      · intro x hx
        rw [List.mem_singleton.1 hx]
        exact hm
  case h_3 m rsp hsvc =>
    obtain rfl := Option.some.inj hs
    refine ⟨fun n => ?_, h.send_queue svcId m.sender rsp, fun k => ?_, fun x hx => ?_⟩
    · have hmove := places_svc (s.send svcId m.sender rsp) (.free m) n
      rw [places_send, send_svc, hsvc, h.places] at hmove
      change St.places _ n + ([m.ptr] ++ [rsp.ptr]).count n = _ + [m.ptr].count n at hmove
      rw [List.count_append] at hmove
      refine Eq.trans (b := if n < s.next then 1 else 0) ?_ (by rw [send_next])
      dsimp only
      omega
    · dsimp only
      rw [send_pc]
      exact h.pc k
    · rw [List.mem_singleton.1 hx]
      exact h.svc m (by rw [hsvc]; exact List.mem_cons_self)
  case h_4 m hsvc =>
    obtain rfl := Option.some.inj hs
    refine ⟨fun n => ?_, h.queue, h.pc, fun _ hx => absurd hx List.not_mem_nil⟩
    have hmove := places_svc (s.free m) .recv n
    rw [places_free, h.places] at hmove
    change St.places _ n + (s.svc.msgs.map Msg.ptr).count n = _ + 0 at hmove
    rw [hsvc] at hmove
    exact Nat.add_right_cancel hmove

theorem Kept.act {a : Act ι E} (h : Kept svcId s) (hs : s.act svcId a = some s') : Kept svcId s' := by
  cases a with
  | call j req =>
    obtain ⟨⟨-, -, hidle⟩, hs⟩ := Option.ite_none_right_eq_some.1 hs
    obtain rfl := Option.some.inj hs
    exact h.alloc hidle rfl
  | post j dest id =>
    obtain ⟨⟨-, -, hidle⟩, hs⟩ := Option.ite_none_right_eq_some.1 hs
    obtain rfl := Option.some.inj hs
    exact h.alloc hidle rfl
  | recv j i => exact h.recv (Option.ite_none_right_eq_some.1 hs).2
  | step j => exact h.step (Option.ite_none_right_eq_some.1 hs).2
  | svcRecv i => exact h.svcRecv (Option.ite_none_right_eq_some.1 hs).2
  | svcStep procId => exact h.svcStep (Option.ite_none_right_eq_some.1 hs).2
  | stop j =>
    obtain rfl := Option.some.inj hs
    exact ⟨h.places, h.queue, h.pc, h.svc⟩
  | leave j =>
    obtain ⟨-, hs⟩ := Option.ite_none_right_eq_some.1 hs
    obtain rfl := Option.some.inj hs
    exact ⟨h.places, h.queue, h.pc, h.svc⟩

/-- **Messages are in one place.** In every run, each message that has been allocated is with one task, in one
queue or freed, once, and its owner is the task that has it. When all are at rest and the queues are empty,
all have been freed. -/
theorem messages_once (h : (sys svcId).Reachable s) :
    (∀ n, s.places n = if n < s.next then 1 else 0) ∧
      (∀ j, ∀ m ∈ s.queue j ++ (s.pc j).msgs, m.owner = j) ∧ (∀ m ∈ s.svc.msgs, m.owner = svcId) ∧
      ((∀ j, s.queue j = [] ∧ (s.pc j).msgs = []) → s.svc.msgs = [] → s.freed.Perm (List.range s.next)) := by
  have hkept : Kept svcId s := h.inv (by rintro _ rfl; exact kept_init) fun _ _ _ hI hs => hI.act hs
  refine ⟨hkept.places, fun j m hm => ?_, hkept.svc, fun hrest hsvc => ?_⟩
  · obtain hm | hm := List.mem_append.1 hm
    · exact hkept.queue j m hm
    · exact hkept.pc j m hm
  · apply List.perm_iff_count.2
    intro n
    have hplaces := hkept.places n
    have hpc : tally (fun pc => (Pc.msgs pc).map Msg.ptr) s.pc n = 0 := tally_eq_zero fun j => by
      rw [(hrest j).2]
      exact List.not_mem_nil
    have hqueue : tally (List.map Msg.ptr) s.queue n = 0 := tally_eq_zero fun j => by
      rw [(hrest j).1]
      exact List.not_mem_nil
    unfold St.places at hplaces
    rw [hpc, hqueue, hsvc, List.map_nil, List.count_nil] at hplaces
    rw [List.nodup_range.count]
    simpa using hplaces

/-- A task is started for task `1`: the request and the response have been freed. -/
theorem messages_once_exec : ∃ s, (sys (0 : Fin 2) (E := ℕ)).Reachable s ∧ s.executed = [(0, 7, 9)] ∧ s.next = 2 ∧
    s.freed.Perm (List.range s.next) := by
  obtain ⟨s, hs, hex, hnext, hrest, hsvc⟩ := System.exists_of_check (sys (0 : Fin 2) (E := ℕ)) (fun _ _ => True)
    (fun s => s.executed = [(0, 7, 9)] ∧ s.next = 2 ∧ (∀ j, s.queue j = [] ∧ (s.pc j).msgs = []) ∧
      s.svc.msgs = [])
    .init rfl
    [.call 1 (.exec 7), .step 1, .svcRecv 0, .svcStep 9, .svcStep 0, .svcStep 0, .recv 1 0, .step 1]
      (by decide +kernel)
  exact ⟨s, hs, hex, hnext, (messages_once hs).2.2.2 hrest hsvc⟩

end Prs.ProcSvc
