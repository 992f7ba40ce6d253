import Prs.Proof.ProcSvcCalls

/-!
# Calls of the process service return

A task waits for the response to its call, and neither it nor the service is stopped. The service receives the
oldest message, as `prs_msgq_search` does. The other tasks do anything meanwhile, and are stopped at any time,
those of a process that a request kills among them.

* `Due`: the response is in the queue of the task, or the service sends it in so many of its steps.
* `Due.serve`: each step of the service is one of these. `Due.other`: the steps of the other tasks do not put
  it off.
* `Due.run`: so in a run.
* `call_returns`: the service can go on until the response is there, and it is there after a number of its
  steps that the length of its queue bounds.
-/

namespace Prs.ProcSvc

open Function

variable {ι E : Type} [DecidableEq ι] {svcId j k : ι} {s s' : St ι E} {m rsp x : Msg ι E} {i n call procId : ℕ}
  {req : Request E} {b : Body E} {a : Act ι E} {executed : List (ℕ × E × ℕ)}

/-- A step of the service. -/
def Act.serves : Act ι E → Bool
  | .svcRecv _ => true
  | .svcStep _ => true
  | _ => false

/-- What is done while task `j` waits. It has not received its response, neither it nor the service is
stopped, and the service receives the oldest message. -/
def Act.Meanwhile (svcId j : ι) : Act ι E → Prop
  | .recv k _ => k ≠ j
  | .svcRecv i => i = 0
  | .stop k => k ≠ j ∧ k ≠ svcId
  | _ => True

instance (svcId j : ι) (a : Act ι E) : Decidable (a.Meanwhile svcId j) :=
  match a with
  | .recv k _ => inferInstanceAs (Decidable (k ≠ j))
  | .svcRecv i => inferInstanceAs (Decidable (i = 0))
  | .stop k => inferInstanceAs (Decidable (k ≠ j ∧ k ≠ svcId))
  | .call _ _ => inferInstanceAs (Decidable True)
  | .post _ _ _ => inferInstanceAs (Decidable True)
  | .step _ => inferInstanceAs (Decidable True)
  | .svcStep _ => inferInstanceAs (Decidable True)
  | .leave _ => inferInstanceAs (Decidable True)

/-- The response is in the queue of the task, and `pr_msg_recv_filter` finds it. -/
def St.CanReturn (svcId : ι) (s : St ι E) (j : ι) (req : Request E) (call : ℕ) : Prop :=
  ∃ i s' m, s.act svcId (.recv j i) = some s' ∧ s'.pc j = .got req call m

/-- The steps of the service until it receives the next message, at most. -/
def Svc.busy : Svc ι E → ℕ
  | .recv => 0
  | .free _ => 1
  | .reply _ _ => 2
  | .handle _ => 3

/-- **The response is due.** It is in the queue of the task, or the service sends it in `n` of its steps, at
most. -/
inductive Due (svcId j : ι) (s : St ι E) : ℕ → Prop
  | sent {n : ℕ} {m : Msg ι E} (hm : m ∈ s.queue j) (hresp : m.body.isResponse = true) : Due svcId j s n
  | replied {n : ℕ} {m rsp : Msg ι E} (hsvc : s.svc = .reply m rsp) (hsender : m.sender = j) :
    Due svcId j s (n + 1)
  | handled {n : ℕ} {m : Msg ι E} (hsvc : s.svc = .handle m) (hask : asking j m = true) : Due svcId j s (n + 2)
  | queued {n : ℕ} {m : Msg ι E} {before after : List (Msg ι E)} (hqueue : s.queue svcId = before ++ m :: after)
    (hask : asking j m = true) (hn : s.svc.busy + 4 * before.length + 3 ≤ n) : Due svcId j s n

section Frame

/-- What is done leaves the queues as they are, or adds to them, and stops nobody. -/
structure Grows (s s' : St ι E) : Prop where
  stopped : s'.stopped = s.stopped
  gone : s'.gone = s.gone
  queue : ∀ k, s.queue k <+: s'.queue k

omit [DecidableEq ι] in
theorem grows_of_eq (hstopped : s'.stopped = s.stopped) (hgone : s'.gone = s.gone) (hqueue : s'.queue = s.queue) :
    Grows s s' := ⟨hstopped, hgone, fun k => by rw [hqueue]⟩

theorem grows_send (s : St ι E) (j k : ι) (m : Msg ι E) : Grows s (s.send j k m) := by
  unfold St.send
  split
  case isTrue => exact grows_of_eq rfl rfl rfl
  case isFalse =>
    refine ⟨rfl, rfl, fun i => ?_⟩
    dsimp only
    by_cases hi : i = k
    · rw [hi, update_self]
      exact List.prefix_append _ _
    · rw [update_of_ne hi]

/-- A step of a task. -/
theorem step_grows (hs : s.step svcId k = some s') :
    Grows s s' ∧ s'.svc = s.svc ∧ ∃ pc, s'.pc = update s.pc k pc := by
  cases hpc : s.pc k <;> simp only [St.step, hpc, reduceCtorEq] at hs
  case send req m =>
    obtain ⟨hstopped, hgone, hqueue⟩ := grows_send s k svcId m
    rw [← Option.some.inj hs]
    exact ⟨⟨hstopped, hgone, hqueue⟩, send_svc s k svcId m, _, congrArg (update · k _) (send_pc s k svcId m)⟩
  case got req call m =>
    cases req <;> rw [← Option.some.inj hs] <;> exact ⟨grows_of_eq rfl rfl rfl, rfl, _, rfl⟩
  case post dest m =>
    obtain ⟨hstopped, hgone, hqueue⟩ := grows_send s k dest m
    rw [← Option.some.inj hs]
    exact ⟨⟨hstopped, hgone, hqueue⟩, send_svc s k dest m, _, congrArg (update · k _) (send_pc s k dest m)⟩
  case took m =>
    rw [← Option.some.inj hs]
    exact ⟨grows_of_eq rfl rfl rfl, rfl, _, rfl⟩

/-- The service sends the response. -/
theorem svcStep_reply (hsvc : s.svc = .reply m rsp) :
    s.svcStep svcId procId = some { s.send svcId m.sender rsp with svc := .free m } := by
  unfold St.svcStep
  rw [hsvc]

/-- **A step of the service** brings it nearer to the next message. -/
theorem svcStep_grows (hs : s.svcStep svcId procId = some s') :
    Grows s s' ∧ s'.pc = s.pc ∧ s'.svc.busy + 1 ≤ s.svc.busy := by
  cases hsvc : s.svc with
  | recv =>
    unfold St.svcStep at hs
    rw [hsvc] at hs
    cases hs
  | handle m =>
    rw [svcStep_handle hsvc] at hs
    split at hs
    case h_1 =>
      obtain rfl := Option.some.inj hs
      exact ⟨grows_of_eq rfl rfl rfl, rfl, Nat.le_refl 3⟩
    case h_2 =>
      obtain rfl := Option.some.inj hs
      exact ⟨grows_of_eq rfl rfl rfl, rfl, (by decide : 1 + 1 ≤ 3)⟩
  | reply m rsp =>
    rw [svcStep_reply hsvc] at hs
    obtain rfl := Option.some.inj hs
    obtain ⟨hstopped, hgone, hqueue⟩ := grows_send s svcId m.sender rsp
    exact ⟨⟨hstopped, hgone, hqueue⟩, send_pc s svcId m.sender rsp, Nat.le_refl 2⟩
  | free m =>
    unfold St.svcStep at hs
    rw [hsvc] at hs
    obtain rfl := Option.some.inj hs
    exact ⟨grows_of_eq rfl rfl rfl, rfl, Nat.le_refl 1⟩

/-- The service receives the oldest message. -/
theorem svcRecv_oldest (hs : s.svcRecv svcId 0 = some s') :
    s.svc = .recv ∧ ∃ m rest, s.queue svcId = m :: rest ∧
      s' = { s with svc := .handle m, queue := update s.queue svcId rest } := by
  unfold St.svcRecv at hs
  split at hs
  case h_2 => cases hs
  case h_1 m hsvc hm =>
    cases hq : s.queue svcId with
    | nil =>
      rw [hq] at hm
      cases hm
    | cons x rest =>
      rw [hq] at hm hs
      obtain rfl : x = m := Option.some.inj hm
      exact ⟨hsvc, x, rest, rfl, (Option.some.inj hs).symm⟩

omit [DecidableEq ι] in
/-- The filter of the call lets its response pass. -/
theorem filter_of_answers (h : Answers executed call req b) : req.filter b = true := by
  cases req with
  | exec params =>
    obtain ⟨procId, rfl, -⟩ := h
    rfl
  | kill p block =>
    obtain rfl : b = .killResponse p := h
    rfl
  | unregObject p objectId block =>
    obtain rfl : b = .unregResponse p objectId := h
    rfl

/-- A message for a task that can be found is in its queue. -/
theorem sent_mem (h : s.gone k = false) (j : ι) (m : Msg ι E) : m.sent j k ∈ (s.send j k m).queue k := by
  unfold St.send
  rw [if_neg (by rw [h]; exact Bool.false_ne_true)]
  dsimp only
  rw [update_self]
  exact List.mem_append_right _ (List.mem_singleton_self _)

/-- The steps of the other tasks do not put it off. -/
theorem due_other (hdue : Due svcId j s n) (hsvc : s'.svc = s.svc) (hrequests : s.queue svcId <+: s'.queue svcId)
    (hresponses : s.queue j <+: s'.queue j) : Due svcId j s' n := by
  cases hdue with
  | sent hm hresp => exact .sent (hresponses.subset hm) hresp
  | replied hreply hsender => exact .replied (hsvc.trans hreply) hsender
  | handled hhandle hask => exact .handled (hsvc.trans hhandle) hask
  | @queued _ x before after hqueue hask hn =>
    obtain ⟨more, hmore⟩ := hrequests
    rw [hqueue, List.append_assoc, List.cons_append] at hmore
    rw [← hsvc] at hn
    exact .queued hmore.symm hask hn

end Frame

variable [Fintype ι]

/-- The task waits, and neither it nor the service has been stopped. -/
structure Waiting (svcId : ι) (j : ι) (req : Request E) (call : ℕ) (s : St ι E) : Prop where
  calls : Calls svcId s
  pc : s.pc j = .wait req call
  stopped : s.stopped j = false
  gone : s.gone j = false
  svcStopped : s.stopped svcId = false
  svcGone : s.gone svcId = false

namespace Waiting

theorem ne_svc (h : Waiting svcId j req call s) : j ≠ svcId := by
  rintro rfl
  have hservice := h.calls.service
  rw [h.pc] at hservice
  cases hservice

/-- What stops nobody and moves others. -/
theorem keep (h : Waiting svcId j req call s) (hs : s.act svcId a = some s') (hpc : s'.pc j = s.pc j)
    (hstopped : s'.stopped = s.stopped) (hgone : s'.gone = s.gone) : Waiting svcId j req call s' where
  calls := h.calls.act hs
  pc := hpc.trans h.pc
  stopped := by rw [hstopped]; exact h.stopped
  gone := by rw [hgone]; exact h.gone
  svcStopped := by rw [hstopped]; exact h.svcStopped
  svcGone := by rw [hgone]; exact h.svcGone

/-- A task that does not wait moves, and nobody is stopped. -/
theorem move (h : Waiting svcId j req call s) (hs : s.act svcId a = some s') {pc : Pc ι E}
    (hk : (s.pc k).waits = 0) (hpc : s'.pc = update s.pc k pc) (hstopped : s'.stopped = s.stopped)
    (hgone : s'.gone = s.gone) : Waiting svcId j req call s' := by
  refine h.keep hs ?_ hstopped hgone
  rw [hpc, h.pc]
  exact wait_update hk h.pc

/-- **The other tasks** leave the service as it is, and what is in its queue and in that of the task. -/
theorem other (h : Waiting svcId j req call s) (ha : a.Meanwhile svcId j) (hserves : a.serves = false)
    (hs : s.act svcId a = some s') :
    Waiting svcId j req call s' ∧ s'.svc = s.svc ∧ s.queue svcId <+: s'.queue svcId ∧
      s.queue j <+: s'.queue j := by
  have hact := hs
  cases a with
  | call k req =>
    obtain ⟨⟨-, -, hidle⟩, ht⟩ := Option.ite_none_right_eq_some.1 hs
    obtain rfl := Option.some.inj ht
    exact ⟨h.move hact (waits_of_isIdle hidle) rfl rfl rfl, rfl, List.prefix_rfl, List.prefix_rfl⟩
  | post k dest id =>
    obtain ⟨⟨-, -, hidle⟩, ht⟩ := Option.ite_none_right_eq_some.1 hs
    obtain rfl := Option.some.inj ht
    exact ⟨h.move hact (waits_of_isIdle hidle) rfl rfl rfl, rfl, List.prefix_rfl, List.prefix_rfl⟩
  | recv k i =>
    obtain ⟨⟨-, hk⟩, ht⟩ := Option.ite_none_right_eq_some.1 hs
    obtain ⟨pc, hrecv⟩ : ∃ pc, s' = { s.goto k pc with queue := update s.queue k ((s.queue k).eraseIdx i) } := by
      unfold St.recv at ht
      split at ht
      · cases ht
      · split at ht
        · obtain ⟨-, ht⟩ := Option.ite_none_right_eq_some.1 ht
          exact ⟨_, (Option.some.inj ht).symm⟩
        · exact ⟨_, (Option.some.inj ht).symm⟩
        · cases ht
    obtain rfl := hrecv
    have hjk : j ≠ k := fun hjk => ha hjk.symm
    refine ⟨h.keep hact (update_of_ne hjk _ _) rfl rfl, rfl, ?_, ?_⟩
    · dsimp only
      rw [update_of_ne hk.symm]
    · dsimp only
      rw [update_of_ne hjk]
  | step k =>
    obtain ⟨-, ht⟩ := Option.ite_none_right_eq_some.1 hs
    obtain ⟨hgrows, hsvc, pc, hpc⟩ := step_grows ht
    have hjk : j ≠ k := by
      rintro rfl
      unfold St.step at ht
      rw [h.pc] at ht
      cases ht
    refine ⟨h.keep hact ?_ hgrows.stopped hgrows.gone, hsvc, hgrows.queue svcId, hgrows.queue j⟩
    rw [hpc, update_of_ne hjk]
  | svcRecv | svcStep => cases hserves
  | stop k =>
    obtain ⟨hkj, hksvc⟩ := ha
    obtain rfl := Option.some.inj hs
    refine ⟨⟨h.calls.act hact, h.pc, ?_, h.gone, ?_, h.svcGone⟩, rfl, List.prefix_rfl, List.prefix_rfl⟩
    · exact (update_of_ne hkj.symm _ _).trans h.stopped
    · exact (update_of_ne hksvc.symm _ _).trans h.svcStopped
  | leave k =>
    obtain ⟨hstopped, ht⟩ := Option.ite_none_right_eq_some.1 hs
    obtain rfl := Option.some.inj ht
    have hrunning : ∀ i, s.stopped i = false → i ≠ k := by
      rintro i hi rfl
      rw [hstopped] at hi
      cases hi
    refine ⟨⟨h.calls.act hact, h.pc, h.stopped, ?_, h.svcStopped, ?_⟩, rfl, List.prefix_rfl, List.prefix_rfl⟩
    · exact (update_of_ne (hrunning j h.stopped) _ _).trans h.gone
    · exact (update_of_ne (hrunning svcId h.svcStopped) _ _).trans h.svcGone

/-- **A step of the service** is one of those until the response. -/
theorem serve (h : Waiting svcId j req call s) (hdue : Due svcId j s n) (ha : a.Meanwhile svcId j)
    (hserves : a.serves = true) (hs : s.act svcId a = some s') :
    Waiting svcId j req call s' ∧ Due svcId j s' (n - 1) := by
  have hact := hs
  cases a with
  | svcRecv i =>
    obtain rfl : i = 0 := ha
    obtain ⟨-, ht⟩ := Option.ite_none_right_eq_some.1 hs
    obtain ⟨hsvc, m, rest, hqueue, rfl⟩ := svcRecv_oldest ht
    refine ⟨h.keep hact rfl rfl rfl, ?_⟩
    cases hdue with
    | sent hm hresp =>
      refine .sent ?_ hresp
      dsimp only
      rwa [update_of_ne h.ne_svc]
    | replied hreply =>
      rw [hsvc] at hreply
      cases hreply
    | handled hhandle =>
      rw [hsvc] at hhandle
      cases hhandle
    | @queued _ x before after hbefore hask hn =>
      rw [hqueue] at hbefore
      rw [hsvc] at hn
      cases before with
      | nil =>
        obtain ⟨rfl, rfl⟩ := List.cons.inj hbefore
        obtain ⟨l, rfl⟩ : ∃ l, n = l + 3 := ⟨n - 3, by simp only [Svc.busy, List.length_nil] at hn; omega⟩
        exact .handled rfl hask
      | cons y before =>
        obtain ⟨rfl, rfl⟩ := List.cons.inj hbefore
        refine .queued (?_ : _ = before ++ x :: after) hask ?_
        · exact update_self ..
        · simp only [Svc.busy, List.length_cons] at hn ⊢
          omega
  | svcStep procId =>
    obtain ⟨-, ht⟩ := Option.ite_none_right_eq_some.1 hs
    obtain ⟨hgrows, hpc, hbusy⟩ := svcStep_grows ht
    refine ⟨h.keep hact (congrFun hpc j) hgrows.stopped hgrows.gone, ?_⟩
    cases hdue with
    | sent hm hresp => exact .sent ((hgrows.queue j).subset hm) hresp
    | @replied l m rsp hsvc hsender =>
      -- the response is sent
      obtain ⟨req', -, hans⟩ := h.calls.replied m rsp hsvc
      have hmem := sent_mem (h.gone) svcId rsp
      rw [svcStep_reply hsvc, hsender] at ht
      obtain rfl := Option.some.inj ht
      exact .sent hmem (isResponse_of_filter (filter_of_answers hans))
    | @handled l m hsvc hask =>
      obtain ⟨hsender, hasks⟩ := Bool.and_eq_true_iff.1 hask
      rw [svcStep_handle hsvc] at ht
      split at ht
      case h_2 hnone => exact absurd ((not_asks_of_response hnone).symm.trans hasks) Bool.false_ne_true
      case h_1 =>
        obtain rfl := Option.some.inj ht
        exact .replied rfl (of_decide_eq_true hsender)
    | @queued _ x before after hqueue hask hn =>
      obtain ⟨more, hmore⟩ := hgrows.queue svcId
      rw [hqueue, List.append_assoc, List.cons_append] at hmore
      exact .queued hmore.symm hask (by omega)
  | _ => cases hserves

/-- **A run** in which the service makes some steps. -/
theorem run (h : Waiting svcId j req call s) (hdue : Due svcId j s n) {as : List (Act ι E)}
    (has : ∀ a ∈ as, a.Meanwhile svcId j) (hrun : (sys svcId).run s as = some s') :
    Waiting svcId j req call s' ∧ Due svcId j s' (n - as.countP Act.serves) := by
  induction as generalizing s n with
  | nil =>
    obtain rfl := Option.some.inj hrun
    exact ⟨h, hdue⟩
  | cons a as ih =>
    obtain ⟨ha, has⟩ := List.forall_mem_cons.1 has
    obtain ⟨t, hs, hrun⟩ := Option.bind_eq_some_iff.1 hrun
    cases hserves : a.serves with
    | true =>
      obtain ⟨hwaiting, hdue⟩ := h.serve hdue ha hserves hs
      have hrest := ih hwaiting hdue has hrun
      rwa [Nat.sub_sub, Nat.add_comm, ← List.countP_cons_of_pos hserves] at hrest
    | false =>
      obtain ⟨hwaiting, hsvc, hrequests, hresponses⟩ := h.other ha hserves hs
      have hrest := ih hwaiting (due_other hdue hsvc hrequests hresponses) has hrun
      rwa [← List.countP_cons_of_neg (by rw [hserves]; exact Bool.false_ne_true)] at hrest

/-- **The call is somewhere**: in the queue of the service, with it, or in the queue of the task. -/
theorem due (h : Waiting svcId j req call s) : Due svcId j s (4 * (s.queue svcId).length + 2) := by
  have htoken : 1 ≤ s.tokens svcId j := by
    have hge := h.calls.ge h.svcGone j h.gone
    rw [h.pc] at hge
    exact hge
  by_cases hresponses : 0 < responses (s.queue j)
  · obtain ⟨m, hm, hresp⟩ := List.countP_pos_iff.1 hresponses
    exact .sent hm hresp
  by_cases hqueue : 0 < (s.queue svcId).countP (asking j)
  · obtain ⟨m, hm, hask⟩ := List.countP_pos_iff.1 hqueue
    obtain ⟨before, after, hsplit⟩ := List.append_of_mem hm
    have hbusy : s.svc.busy ≤ 3 := by cases s.svc <;> simp only [Svc.busy] <;> omega
    refine .queued hsplit hask ?_
    rw [hsplit, List.length_append, List.length_cons]
    omega
  have howes : s.svc.owes j ≠ 0 := by
    unfold St.tokens at htoken
    omega
  cases hsvc : s.svc with
  | recv => exact absurd (by rw [hsvc]; rfl) howes
  | free m => exact absurd (by rw [hsvc]; rfl) howes
  | handle m =>
    refine .handled hsvc ?_
    by_contra hne
    rw [hsvc] at howes
    exact howes (if_neg hne)
  | reply m rsp =>
    refine .replied hsvc ?_
    by_contra hne
    rw [hsvc] at howes
    exact howes (if_neg hne)

/-- The response is in the queue of the task. -/
theorem canReturn (h : Waiting svcId j req call s) (hm : m ∈ s.queue j) (hresp : m.body.isResponse = true) :
    s.CanReturn svcId j req call := by
  obtain ⟨req', call', hwait, hans⟩ := h.calls.answered j m hm hresp
  obtain ⟨rfl, rfl⟩ := Pc.wait.inj (h.pc.symm.trans hwait)
  obtain ⟨i, hi⟩ := List.mem_iff_getElem?.1 hm
  have hs : s.act svcId (.recv j i) = some { s.goto j (.got req call m) with
      queue := update s.queue j ((s.queue j).eraseIdx i) } := by
    change (if s.stopped j = false ∧ j ≠ svcId then s.recv j i else none) = _
    rw [if_pos ⟨h.stopped, h.ne_svc⟩]
    unfold St.recv
    rw [hi, h.pc]
    exact if_pos (filter_of_answers hans)
  exact ⟨i, _, m, hs, update_self ..⟩

/-- The service is at work until then. -/
theorem canServe (h : Waiting svcId j req call s) (hdue : Due svcId j s n) :
    s.CanReturn svcId j req call ∨
      ∃ a : Act ι E, a.serves = true ∧ a.Meanwhile svcId j ∧ (s.act svcId a).isSome = true := by
  have hstep : s.svc ≠ .recv → (s.act svcId (.svcStep 0)).isSome = true := by
    intro hbusy
    change Option.isSome (if s.stopped svcId = false then s.svcStep svcId 0 else none) = true
    rw [if_pos h.svcStopped]
    cases hsvc : s.svc with
    | recv => exact absurd hsvc hbusy
    | handle m =>
      rw [svcStep_handle hsvc]
      split <;> rfl
    | reply m rsp =>
      rw [svcStep_reply hsvc]
      rfl
    | free m =>
      unfold St.svcStep
      rw [hsvc]
      rfl
  by_cases hrecv : s.svc = .recv
  · cases hdue with
    | sent hm hresp => exact .inl (h.canReturn hm hresp)
    | replied hsvc =>
      rw [hrecv] at hsvc
      cases hsvc
    | handled hsvc =>
      rw [hrecv] at hsvc
      cases hsvc
    | @queued _ x before after hqueue hask hn =>
      refine .inr ⟨.svcRecv 0, rfl, rfl, ?_⟩
      change Option.isSome (if s.stopped svcId = false then s.svcRecv svcId 0 else none) = true
      rw [if_pos h.svcStopped]
      unfold St.svcRecv
      rw [hrecv, hqueue]
      cases before <;> rfl
  · exact .inr ⟨.svcStep 0, rfl, trivial, hstep hrecv⟩

end Waiting

/-- **A call returns.** From every state that a run reaches in which a task waits, in every run in which
neither it nor the service is stopped and the service receives the oldest message, the service can go on until
the task has its response in its queue, and it is there after so many steps of the service. It does not matter
what the other tasks do, which of them are stopped, and when. -/
theorem call_returns (h : (sys svcId).Reachable s) (hpc : s.pc j = .wait req call) (hj : s.stopped j = false)
    (hgone : s.gone j = false) (hsvc : s.stopped svcId = false) (hsvcGone : s.gone svcId = false)
    {as : List (Act ι E)} (has : ∀ a ∈ as, a.Meanwhile svcId j) (hrun : (sys svcId).run s as = some s') :
    (s'.CanReturn svcId j req call ∨
      ∃ a : Act ι E, a.serves = true ∧ a.Meanwhile svcId j ∧ (s'.act svcId a).isSome = true) ∧
    (4 * (s.queue svcId).length + 2 ≤ as.countP Act.serves → s'.CanReturn svcId j req call) := by
  have hcalls : Calls svcId s := h.inv (by rintro _ rfl; exact calls_init) fun _ _ _ hI hs => hI.act hs
  have hw : Waiting svcId j req call s := ⟨hcalls, hpc, hj, hgone, hsvc, hsvcGone⟩
  obtain ⟨hw', hdue⟩ := hw.run hw.due has hrun
  refine ⟨hw'.canServe hdue, fun hn => ?_⟩
  rw [Nat.sub_eq_zero_of_le hn] at hdue
  cases hdue with
  | sent hm hresp => exact hw'.canReturn hm hresp
  | queued _ _ hn => omega

/-- Task `1` is stopped while the service handles its call, and task `2` waits behind it. -/
theorem call_returns_behind : ∃ s s' : St (Fin 3) ℕ, (sys 0).Reachable s ∧ s.pc 2 = .wait (.kill 4 true) 1 ∧
    s'.gone 1 = true ∧ s'.CanReturn 0 2 (.kill 4 true) 1 := by
  let as : List (Act (Fin 3) ℕ) :=
    [.svcStep 9, .stop 1, .leave 1, .svcStep 0, .svcStep 0, .svcRecv 0, .svcStep 0, .svcStep 0]
  obtain ⟨s, hs, hpc, hj, hjGone, hsvc, hsvcGone, hlength, hany⟩ :=
    System.exists_of_check (sys (0 : Fin 3) (E := ℕ))
    (fun _ _ => True) (fun s => s.pc 2 = .wait (.kill 4 true) 1 ∧ s.stopped 2 = false ∧ s.gone 2 = false ∧
      s.stopped 0 = false ∧ s.gone 0 = false ∧ (s.queue 0).length = 1 ∧
      ((sys 0).run s as).any (fun s' => s'.gone 1) = true)
    .init rfl [.call 1 (.exec 7), .call 2 (.kill 4 true), .step 1, .step 2, .svcRecv 0] (by decide +kernel)
  obtain ⟨s', hrun, hgone⟩ := (Option.any_eq_true _ _).1 hany
  have hreturns := call_returns hs hpc hj hjGone hsvc hsvcGone (by decide : ∀ a ∈ as, a.Meanwhile 0 2) hrun
  exact ⟨s, s', hs, hpc, hgone, hreturns.2 (by rw [hlength]; decide)⟩

end Prs.ProcSvc
