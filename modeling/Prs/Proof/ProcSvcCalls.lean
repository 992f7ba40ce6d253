import Prs.Proof.ProcSvcMessages

/-!
# Calls of the process service are answered once

* `Calls`: a task that waits has one token, which is its request in the queue of the service or in its hands,
  or the response in the queue of the task. One that does not wait has none.
* `Calls.act`: what every action keeps.
* `Calls.executed_once`: `prs_proc_exec` runs once for a request, because the message is freed after it.
* `Calls.answer`: as long as the task and the service can be found, the answer is on its way.
* `calls_answered`: the result for every run. The response is to the request of the call, so the assertions of
  the callers hold.
-/

namespace Prs.ProcSvc

open Function

variable {ι E : Type} [DecidableEq ι] {svcId j k : ι} {s s' : St ι E} {m rsp : Msg ι E} {pc : Pc ι E}
  {i n call procId : ℕ} {req : Request E} {b : Body E} {executed executed' : List (ℕ × E × ℕ)}

/-- The request asks for a response. -/
def Body.asks : Body E → Bool
  | .execRequest _ => true
  | .killRequest _ respond => respond
  | .unregRequest _ _ respond => respond
  | _ => false

def Body.isResponse : Body E → Bool
  | .execResponse _ => true
  | .killResponse _ => true
  | .unregResponse _ _ => true
  | _ => false

theorem asks_body (req : Request E) : req.body.asks = req.blocks := by
  cases req <;> rfl

theorem isResponse_of_filter (h : req.filter b = true) : b.isResponse = true := by
  cases req <;> cases b <;> first | rfl | cases h

theorem isResponse_of_response {rsp : Body E} (h : b.response procId = some rsp) :
    rsp.isResponse = true ∧ b.asks = true := by
  cases b with
  | execRequest params =>
    obtain rfl := Option.some.inj h
    exact ⟨rfl, rfl⟩
  | killRequest p respond =>
    obtain ⟨hr, hrsp⟩ := Option.ite_none_right_eq_some.1 h
    obtain rfl := Option.some.inj hrsp
    exact ⟨rfl, hr⟩
  | unregRequest p objectId respond =>
    obtain ⟨hr, hrsp⟩ := Option.ite_none_right_eq_some.1 h
    obtain rfl := Option.some.inj hrsp
    exact ⟨rfl, hr⟩
  | _ => cases h

theorem not_asks_of_response (h : b.response procId = none) : b.asks = false := by
  cases b with
  | execRequest params => cases h
  | killRequest p respond =>
    cases respond with
    | false => rfl
    | true => cases h
  | unregRequest p objectId respond =>
    cases respond with
    | false => rfl
    | true => cases h
  | _ => rfl

/-- The response is to the request of the call. -/
def Answers (executed : List (ℕ × E × ℕ)) (call : ℕ) : Request E → Body E → Prop
  | .exec params, b => ∃ procId, b = .execResponse procId ∧ (call, params, procId) ∈ executed
  | .kill procId _, b => b = .killResponse procId
  | .unregObject procId objectId _, b => b = .unregResponse procId objectId

theorem Answers.mono (h : Answers executed call req b) (hex : ∀ x ∈ executed, x ∈ executed') :
    Answers executed' call req b := by
  cases req with
  | exec params =>
    obtain ⟨procId, hb, hmem⟩ := h
    exact ⟨procId, hb, hex _ hmem⟩
  | _ => exact h

/-- The service answers a request. -/
theorem answers_response (hb : req.body.response procId = some b)
    (hex : ∀ params, req = .exec params → (call, params, procId) ∈ executed) : Answers executed call req b := by
  cases req with
  | exec params =>
    obtain rfl := Option.some.inj hb
    exact ⟨procId, rfl, hex params rfl⟩
  | kill p block =>
    obtain ⟨-, hb⟩ := Option.ite_none_right_eq_some.1 hb
    exact (Option.some.inj hb).symm
  | unregObject p objectId block =>
    obtain ⟨-, hb⟩ := Option.ite_none_right_eq_some.1 hb
    exact (Option.some.inj hb).symm

/-- A request of task `j` that asks for a response. -/
def asking (j : ι) (m : Msg ι E) : Bool := decide (m.sender = j) && m.body.asks

theorem asking_of_asks (h : m.body.asks = true) (j : ι) : asking j m = decide (m.sender = j) := by
  unfold asking
  rw [h, Bool.and_true]

theorem asking_of_not (h : m.body.asks = false) (j : ι) : asking j m = false := by
  unfold asking
  rw [h, Bool.and_false]

/-- The service has a request of task `j` to answer. -/
def Svc.owes (j : ι) : Svc ι E → ℕ
  | .handle m => if asking j m = true then 1 else 0
  | .reply m _ => if m.sender = j then 1 else 0
  | _ => 0

/-- What the service has handled and not freed. -/
def Svc.done : Svc ι E → List ℕ
  | .reply m _ => [m.ptr]
  | .free m => [m.ptr]
  | _ => []

def Pc.waits : Pc ι E → ℕ
  | .wait _ _ => 1
  | _ => 0

def responses (l : List (Msg ι E)) : ℕ := l.countP (·.body.isResponse)

/-- The requests and responses of task `j` on their way. -/
def St.tokens (svcId : ι) (s : St ι E) (j : ι) : ℕ :=
  (s.queue svcId).countP (asking j) + s.svc.owes j + responses (s.queue j)

/-- The task waits for the answer to the message. -/
def St.Asked (s : St ι E) (m : Msg ι E) : Prop := ∃ req, s.pc m.sender = .wait req m.ptr ∧ m.body = req.body

/-- What a task holds. -/
structure Pc.Good (executed : List (ℕ × E × ℕ)) (pc : Pc ι E) : Prop where
  sending : ∀ req m, pc = .send req m → m.body = req.body
  posting : ∀ dest m, pc = .post dest m → ∃ id, m.body = .other id
  got : ∀ req call m, pc = .got req call m → Answers executed call req m.body

structure Calls [Fintype ι] (svcId : ι) (s : St ι E) : Prop where
  kept : Kept svcId s
  service : (s.pc svcId).waits = 0
  le : ∀ j, s.tokens svcId j ≤ (s.pc j).waits
  ge : s.gone svcId = false → ∀ j, s.gone j = false → (s.pc j).waits ≤ s.tokens svcId j
  asked : ∀ m ∈ s.queue svcId, m.body.asks = true → s.Asked m
  handled : ∀ m, s.svc = .handle m → m.body.asks = true → s.Asked m
  replied : ∀ m rsp, s.svc = .reply m rsp → ∃ req, s.pc m.sender = .wait req m.ptr ∧
    Answers s.executed m.ptr req rsp.body
  answered : ∀ j, ∀ m ∈ s.queue j, m.body.isResponse = true →
    ∃ req call, s.pc j = .wait req call ∧ Answers s.executed call req m.body
  good : ∀ j, (s.pc j).Good s.executed
  once : ∀ c, (s.executed.map Prod.fst).count c ≤ s.svc.done.count c + s.freed.count c
  returned : ∀ x ∈ s.returned, x ∈ s.executed

theorem wait_update (hj : (s.pc j).waits = 0) (h : s.pc k = .wait req call) :
    update s.pc j pc k = .wait req call := by
  by_cases hk : k = j
  · subst hk
    rw [h] at hj
    cases hj
  · rw [update_of_ne hk, h]

theorem calls_init [Fintype ι] : Calls svcId (St.init : St ι E) where
  kept := kept_init
  service := rfl
  le := fun _ => Nat.le_refl 0
  ge := fun _ _ _ => Nat.le_refl 0
  asked := fun _ hm => absurd hm List.not_mem_nil
  handled := nofun
  replied := nofun
  answered := fun _ _ hm => absurd hm List.not_mem_nil
  good := fun _ => ⟨nofun, nofun, nofun⟩
  once := fun _ => Nat.le_refl 0
  returned := fun _ hx => absurd hx List.not_mem_nil

/-- The queues have the same requests and responses. -/
structure SameCalls (svcId : ι) (q q' : ι → List (Msg ι E)) : Prop where
  asks : ∀ k, (q' svcId).countP (asking k) = (q svcId).countP (asking k)
  responses : ∀ k, responses (q' k) = responses (q k)
  asked : ∀ m ∈ q' svcId, m.body.asks = true → m ∈ q svcId
  answered : ∀ k, ∀ m ∈ q' k, m.body.isResponse = true → m ∈ q k

theorem sameCalls_refl (q : ι → List (Msg ι E)) : SameCalls svcId q q :=
  ⟨fun _ => rfl, fun _ => rfl, fun _ hm _ => hm, fun _ _ hm _ => hm⟩

/-- What a message is in the queue that it is sent to. -/
def Msg.sent (m : Msg ι E) (j dest : ι) : Msg ι E := ⟨m.ptr, dest, j, m.body⟩

theorem mem_send {i : ι} (h : rsp ∈ (s.send j k m).queue i) : rsp ∈ s.queue i ∨ i = k ∧ rsp = m.sent j k := by
  unfold St.send at h
  split at h
  case isTrue => exact .inl h
  case isFalse =>
    dsimp only at h
    by_cases hi : i = k
    · rw [hi, update_self, List.mem_append] at h
      rw [hi]
      exact h.imp_right fun h => ⟨rfl, List.mem_singleton.1 h⟩
    · rw [update_of_ne hi] at h
      exact .inl h

theorem countP_send (s : St ι E) (j k i : ι) (m : Msg ι E) (p : Msg ι E → Bool) :
    ((s.send j k m).queue i).countP p =
      (s.queue i).countP p + if i = k ∧ s.gone k = false ∧ p (m.sent j k) = true then 1 else 0 := by
  unfold St.send
  split
  case isTrue hgone =>
    rw [if_neg fun hsent => by rw [hgone] at hsent; cases hsent.2.1]
    rfl
  case isFalse hgone =>
    rw [Bool.not_eq_true] at hgone
    dsimp only
    by_cases hi : i = k
    · rw [hi, update_self, List.countP_append, List.countP_singleton]
      simp only [hgone, true_and]
      rfl
    · rw [update_of_ne hi, if_neg fun hsent => hi hsent.1]
      rfl

/-- A message that is neither is sent. -/
theorem sameCalls_send (s : St ι E) (j dest : ι) (hasks : m.body.asks = false)
    (hresp : m.body.isResponse = false) :
    SameCalls svcId s.queue (s.send j dest m).queue := by
  refine ⟨fun k => ?_, fun k => ?_, fun x hx ha => ?_, fun k x hx ha => ?_⟩
  · rw [countP_send, if_neg, Nat.add_zero]
    rintro ⟨-, -, hk⟩
    rw [asking_of_not (show (m.sent j dest).body.asks = false from hasks)] at hk
    cases hk
  · unfold responses
    rw [countP_send, if_neg, Nat.add_zero]
    rintro ⟨-, -, hk⟩
    exact Bool.false_ne_true (hresp.symm.trans hk)
  · obtain hx | ⟨-, rfl⟩ := mem_send hx
    · exact hx
    · exact absurd (hasks.symm.trans ha) Bool.false_ne_true
  · obtain hx | ⟨-, rfl⟩ := mem_send hx
    · exact hx
    · exact absurd (hresp.symm.trans ha) Bool.false_ne_true

omit [DecidableEq ι] in
/-- A message is taken out of a queue. -/
theorem countP_take {q : List (Msg ι E)} (hi : q[i]? = some m) (p : Msg ι E → Bool) :
    (q.eraseIdx i).countP p + (if p m = true then 1 else 0) = q.countP p := by
  obtain ⟨hlt, rfl⟩ := List.getElem?_eq_some_iff.1 hi
  rw [← List.countP_cons, (List.getElem_cons_eraseIdx_perm hlt).countP_eq]

/-- A task takes a message that is not a response. -/
theorem sameCalls_take (s : St ι E) (hj : j ≠ svcId) (hi : (s.queue j)[i]? = some m)
    (hresp : m.body.isResponse = false) :
    SameCalls svcId s.queue (update s.queue j ((s.queue j).eraseIdx i)) := by
  refine ⟨fun k => ?_, fun k => ?_, fun x hx _ => mem_take hx, fun k x hx _ => mem_take hx⟩
  · rw [update_of_ne hj.symm]
  · by_cases hk : k = j
    · subst hk
      have htake := countP_take hi (·.body.isResponse)
      rw [hresp, if_neg Bool.false_ne_true, Nat.add_zero] at htake
      rw [update_self]
      exact htake
    · rw [update_of_ne hk]

/-- **A task that does not wait** moves to where it does not wait. -/
theorem Calls.quiet [Fintype ι] (h : Calls svcId s) (hkept : Kept svcId s') (hpc : s'.pc = update s.pc j pc)
    (hj : (s.pc j).waits = 0) (hwaits : pc.waits = 0) (hgood : pc.Good s.executed)
    (hq : SameCalls svcId s.queue s'.queue) (hsvc : s'.svc = s.svc) (hgone : s'.gone = s.gone)
    (hex : s'.executed = s.executed) (hfreed : ∀ c, s.freed.count c ≤ s'.freed.count c)
    (hret : ∀ x ∈ s'.returned, x ∈ s.executed) : Calls svcId s' := by
  have htokens (k : ι) : s'.tokens svcId k = s.tokens svcId k := by
    unfold St.tokens
    rw [hq.asks, hq.responses, hsvc]
  have hpcs (k : ι) : (s'.pc k).waits = (s.pc k).waits := by
    rw [hpc]
    by_cases hk : k = j
    · rw [hk, update_self, hwaits, hj]
    · rw [update_of_ne hk]
  have hasked (m : Msg ι E) (ha : s.Asked m) : s'.Asked m := by
    obtain ⟨req, hwait, hbody⟩ := ha
    exact ⟨req, hpc ▸ wait_update hj hwait, hbody⟩
  refine ⟨hkept, ?_, fun k => ?_, fun hg k hk => ?_, fun m hm ha => ?_, fun m hm ha => ?_, fun m rsp hm => ?_,
    fun k m hm ha => ?_, fun k => ?_, fun c => ?_, ?_⟩
  · rw [hpcs]
    exact h.service
  · rw [htokens, hpcs]
    exact h.le k
  · rw [htokens, hpcs]
    rw [hgone] at hg hk
    exact h.ge hg k hk
  · exact hasked m (h.asked m (hq.asked m hm ha) ha)
  · exact hasked m (h.handled m (hsvc ▸ hm) ha)
  · obtain ⟨req, hwait, ha⟩ := h.replied m rsp (hsvc ▸ hm)
    exact ⟨req, hpc ▸ wait_update hj hwait, hex ▸ ha⟩
  · obtain ⟨req, call, hwait, hans⟩ := h.answered k m (hq.answered k m hm ha) ha
    exact ⟨req, call, hpc ▸ wait_update hj hwait, hex ▸ hans⟩
  · rw [hpc, hex]
    exact forall_update (P := fun pc : Pc ι E => pc.Good s.executed) h.good hgood k
  · rw [hex, hsvc]
    exact Nat.le_trans (h.once c) (Nat.add_le_add_left (hfreed c) _)
  · rw [hex]
    exact hret

omit [DecidableEq ι] in
theorem good_wait (req : Request E) (call : ℕ) : (Pc.wait req call : Pc ι E).Good executed :=
  ⟨nofun, nofun, nofun⟩

omit [DecidableEq ι] in
theorem good_got (h : Answers executed call req m.body) : (Pc.got req call m).Good executed where
  sending := nofun
  posting := nofun
  got := fun req' call' m' hgot => by
    obtain ⟨rfl, rfl, rfl⟩ := Pc.got.inj hgot
    exact h

omit [DecidableEq ι] in
theorem waits_of_isIdle (h : pc.isIdle = true) : pc.waits = 0 := by
  cases pc with
  | idle => rfl
  | _ => cases h

theorem Calls.alloc [Fintype ι] (h : Calls svcId s) (hidle : (s.pc j).isIdle = true)
    (hm : pc.msgs = [s.alloc j b]) (hwaits : pc.waits = 0) (hgood : pc.Good s.executed) :
    Calls svcId { s.goto j pc with next := s.next + 1 } :=
  h.quiet (h.kept.alloc hidle hm) rfl (waits_of_isIdle hidle) hwaits hgood (sameCalls_refl s.queue) rfl rfl rfl
    (fun _ => Nat.le_refl _) h.returned

theorem send_gone (s : St ι E) (j k : ι) (m : Msg ι E) : (s.send j k m).gone = s.gone := by
  unfold St.send
  split <;> rfl

theorem send_logs (s : St ι E) (j k : ι) (m : Msg ι E) :
    (s.send j k m).executed = s.executed ∧ (s.send j k m).returned = s.returned ∧
      ∀ c, s.freed.count c ≤ (s.send j k m).freed.count c := by
  unfold St.send
  split
  · exact ⟨rfl, rfl, fun _ => List.count_le_count_cons⟩
  · exact ⟨rfl, rfl, fun _ => Nat.le_refl _⟩

/-- **The request of a call** is the token of its task. -/
theorem Calls.request [Fintype ι] (h : Calls svcId s) (hj : j ≠ svcId) (hpc : s.pc j = .send req m)
    (hblocks : req.blocks = true) (hkept : Kept svcId ((s.send j svcId m).goto j (.wait req m.ptr))) :
    Calls svcId ((s.send j svcId m).goto j (.wait req m.ptr)) := by
  obtain ⟨hex, hret, hfreed⟩ := send_logs s j svcId m
  have hbody : m.body = req.body := (h.good j).sending req m hpc
  have hasks : m.body.asks = true := by rw [hbody, asks_body, hblocks]
  have hresp : m.body.isResponse = false := by
    rw [hbody]
    cases req <;> rfl
  have hidle : (s.pc j).waits = 0 := by
    rw [hpc]
    rfl
  have hmove : ((s.send j svcId m).goto j (.wait req m.ptr)).pc = update s.pc j (.wait req m.ptr) := by
    unfold St.goto
    rw [send_pc]
  have hother (k : ι) (hk : k ≠ j) : ((s.send j svcId m).goto j (.wait req m.ptr)).pc k = s.pc k := by
    rw [hmove, update_of_ne hk]
  have hself : ((s.send j svcId m).goto j (.wait req m.ptr)).pc j = .wait req m.ptr := by
    rw [hmove, update_self]
  -- the request is a new token, unless the service is gone and it is freed
  have htokens (k : ι) : ((s.send j svcId m).goto j (.wait req m.ptr)).tokens svcId k =
      s.tokens svcId k + if s.gone svcId = false ∧ j = k then 1 else 0 := by
    have hasking : asking k (m.sent j svcId) = decide (j = k) :=
      asking_of_asks (show (m.sent j svcId).body.asks = true from hasks) k
    unfold St.tokens responses
    dsimp only [St.goto]
    rw [countP_send, countP_send, hasking, send_svc]
    have hnot : ¬ (k = svcId ∧ s.gone svcId = false ∧ (m.sent j svcId).body.isResponse = true) :=
      fun hk => Bool.false_ne_true (hresp.symm.trans hk.2.2)
    rw [if_neg hnot]
    simp only [true_and, decide_eq_true_eq]
    omega
  have hzero := h.le j
  rw [hidle] at hzero
  have hasked (m' : Msg ι E) (ha : s.Asked m') : ((s.send j svcId m).goto j (.wait req m.ptr)).Asked m' := by
    obtain ⟨req', hwait, hb⟩ := ha
    exact ⟨req', hmove ▸ wait_update hidle hwait, hb⟩
  refine ⟨hkept, ?_, fun k => ?_, fun hg k hk => ?_, fun x hx ha => ?_, fun x hx ha => ?_, fun x y hx => ?_,
    fun k x hx ha => ?_, fun k => ?_, fun c => ?_, ?_⟩
  · rw [hother svcId hj.symm]
    exact h.service
  · rw [htokens]
    by_cases hk : k = j
    · rw [hk, hself]
      change _ ≤ 1
      split <;> omega
    · rw [hother k hk, if_neg fun hgk => hk hgk.2.symm]
      exact h.le k
  · change (s.send j svcId m).gone svcId = false at hg
    change (s.send j svcId m).gone k = false at hk
    rw [send_gone] at hg hk
    rw [htokens]
    by_cases hkj : k = j
    · rw [hkj, hself, if_pos ⟨hg, rfl⟩]
      exact Nat.le_add_left 1 _
    · rw [hother k hkj]
      exact Nat.le_trans (h.ge hg k hk) (Nat.le_add_right ..)
  · obtain hx | ⟨-, rfl⟩ := mem_send hx
    · exact hasked x (h.asked x hx ha)
    · exact ⟨req, hself, hbody⟩
  · exact hasked x (h.handled x ((send_svc s j svcId m).symm.trans hx) ha)
  · obtain ⟨req', hwait, ha⟩ := h.replied x y ((send_svc s j svcId m).symm.trans hx)
    exact ⟨req', hmove ▸ wait_update hidle hwait, hex ▸ ha⟩
  · obtain hx | ⟨-, rfl⟩ := mem_send hx
    · obtain ⟨req', call, hwait, hans⟩ := h.answered k x hx ha
      exact ⟨req', call, hmove ▸ wait_update hidle hwait, hex ▸ hans⟩
    · exact absurd (hresp.symm.trans ha) Bool.false_ne_true
  · change (((s.send j svcId m).goto j (.wait req m.ptr)).pc k).Good (s.send j svcId m).executed
    rw [hmove, hex]
    exact forall_update (P := fun pc : Pc ι E => pc.Good s.executed) h.good (good_wait req m.ptr) k
  · change ((s.send j svcId m).executed.map Prod.fst).count c ≤ (s.send j svcId m).svc.done.count c + _
    rw [hex, send_svc]
    exact Nat.le_trans (h.once c) (Nat.add_le_add_left (hfreed c) _)
  · change ∀ x ∈ (s.send j svcId m).returned, x ∈ (s.send j svcId m).executed
    rw [hex, hret]
    exact h.returned

theorem Calls.step [Fintype ι] (h : Calls svcId s) (hj : j ≠ svcId) (hs : s.step svcId j = some s') :
    Calls svcId s' := by
  have hkept := h.kept.step hs
  have hgood := h.good j
  have hidle : (Pc.idle : Pc ι E).Good s.executed := ⟨nofun, nofun, nofun⟩
  have hsend (dest : ι) (m : Msg ι E) (hasks : m.body.asks = false) (hresp : m.body.isResponse = false)
      (hwaits : (s.pc j).waits = 0) (hkept : Kept svcId ((s.send j dest m).goto j .idle)) :
      Calls svcId ((s.send j dest m).goto j .idle) := by
    obtain ⟨hex, hret, hfreed⟩ := send_logs s j dest m
    have hmove : ((s.send j dest m).goto j .idle).pc = update s.pc j .idle := by
      unfold St.goto
      rw [send_pc]
    exact h.quiet hkept hmove hwaits rfl hidle (sameCalls_send s j dest hasks hresp) (send_svc s j dest m)
      (send_gone s j dest m) hex hfreed (hret ▸ h.returned)
  unfold St.step at hs
  split at hs
  case h_1 req m hpc =>
    obtain rfl := Option.some.inj hs
    cases hblocks : req.blocks with
    | true =>
      rw [hblocks, if_pos rfl] at hkept
      rw [if_pos rfl]
      exact h.request hj hpc hblocks hkept
    | false =>
      have hbody := hgood.sending req m hpc
      rw [hblocks, if_neg Bool.false_ne_true] at hkept
      rw [if_neg Bool.false_ne_true]
      refine hsend svcId m ?_ ?_ (by rw [hpc]; rfl) hkept
      · rw [hbody, asks_body, hblocks]
      · rw [hbody]
        cases req <;> rfl
  case h_2 params call m hpc =>
    obtain rfl := Option.some.inj hs
    refine h.quiet hkept rfl (by rw [hpc]; rfl) rfl hidle (sameCalls_refl s.queue) rfl rfl rfl
      (fun _ => List.count_le_count_cons) fun x hx => ?_
    obtain rfl | hx := List.mem_cons.1 hx
    · -- the response of an exec call has the result of `prs_proc_exec`
      obtain ⟨procId, hbody, hmem⟩ := hgood.got _ _ _ hpc
      have hresult : m.result = procId := by
        unfold Msg.result
        rw [hbody]
      rwa [hresult]
    · exact h.returned x hx
  case h_3 req call m _ hpc =>
    obtain rfl := Option.some.inj hs
    exact h.quiet hkept rfl (by rw [hpc]; rfl) rfl hidle (sameCalls_refl s.queue) rfl rfl rfl
      (fun _ => List.count_le_count_cons) h.returned
  case h_4 dest m hpc =>
    obtain rfl := Option.some.inj hs
    obtain ⟨id, hbody⟩ := hgood.posting dest m hpc
    exact hsend dest m (by rw [hbody]; rfl) (by rw [hbody]; rfl) (by rw [hpc]; rfl) hkept
  case h_5 m hpc =>
    obtain rfl := Option.some.inj hs
    exact h.quiet hkept rfl (by rw [hpc]; rfl) rfl hidle (sameCalls_refl s.queue) rfl rfl rfl
      (fun _ => List.count_le_count_cons) h.returned
  case h_6 => cases hs

omit [DecidableEq ι] in
theorem responses_pos {q : List (Msg ι E)} (hm : m ∈ q) (hresp : m.body.isResponse = true) : 0 < responses q :=
  List.countP_pos_iff.2 ⟨m, hm, hresp⟩

/-- Only a task that waits has a response in its queue. -/
theorem no_responses (hle : s.tokens svcId j ≤ (s.pc j).waits) (hj : (s.pc j).waits = 0) :
    responses (s.queue j) = 0 := by
  rw [hj] at hle
  unfold St.tokens at hle
  omega

theorem asking_pos {q : List (Msg ι E)} (hm : m ∈ q) (hasks : m.body.asks = true) :
    0 < q.countP (asking m.sender) := by
  apply List.countP_pos_iff.2 ⟨m, hm, _⟩
  rw [asking_of_asks hasks, decide_eq_true rfl]

/-- **A task that waits receives its response**, and no other is on its way. -/
theorem Calls.response [Fintype ι] (h : Calls svcId s) (hj : j ≠ svcId) (hi : (s.queue j)[i]? = some m)
    (hpc : s.pc j = .wait req call) (hresp : m.body.isResponse = true)
    (hs : s' = { s.goto j (.got req call m) with queue := update s.queue j ((s.queue j).eraseIdx i) })
    (hkept : Kept svcId s') : Calls svcId s' := by
  have hpc' : s'.pc = update s.pc j (.got req call m) := by rw [hs]; rfl
  have hqueue : s'.queue = update s.queue j ((s.queue j).eraseIdx i) := by rw [hs]
  have hsvc : s'.svc = s.svc := by rw [hs]; rfl
  have hex : s'.executed = s.executed := by rw [hs]; rfl
  have hgone : s'.gone = s.gone := by rw [hs]; rfl
  have hmem : m ∈ s.queue j := List.mem_of_getElem? hi
  have htake := countP_take hi (·.body.isResponse)
  rw [hresp, if_pos rfl] at htake
  -- the response was the one token
  have hle := h.le j
  rw [hpc] at hle
  unfold St.tokens responses at hle
  change _ ≤ 1 at hle
  have hnone : (s.queue svcId).countP (asking j) = 0 ∧ s.svc.owes j = 0 ∧
    responses ((s.queue j).eraseIdx i) = 0 := by
    unfold responses
    omega
  have hsvcQueue : s'.queue svcId = s.queue svcId := by rw [hqueue, update_of_ne hj.symm]
  have hself : s'.queue j = (s.queue j).eraseIdx i := by rw [hqueue, update_self]
  have htokens (k : ι) (hk : k ≠ j) : s'.tokens svcId k = s.tokens svcId k := by
    unfold St.tokens
    rw [hsvcQueue, hsvc, hqueue, update_of_ne hk]
  have hother (k : ι) (hk : k ≠ j) : s'.pc k = s.pc k := by rw [hpc', update_of_ne hk]
  -- the other tasks wait as before
  have hasked (x : Msg ι E) (hne : x.sender ≠ j) (ha : s.Asked x) : s'.Asked x := by
    obtain ⟨req', hwait, hb⟩ := ha
    exact ⟨req', (hother _ hne).trans hwait, hb⟩
  have hans : Answers s.executed call req m.body := by
    obtain ⟨req', call', hwait, hans⟩ := h.answered j m hmem hresp
    obtain ⟨rfl, rfl⟩ := Pc.wait.inj (hpc.symm.trans hwait)
    exact hans
  refine ⟨hkept, ?_, fun k => ?_, fun hg k hk => ?_, fun x hx ha => ?_, fun x hx ha => ?_, fun x y hx => ?_,
    fun k x hx ha => ?_, fun k => ?_, fun c => ?_, ?_⟩
  · rw [hother svcId hj.symm]
    exact h.service
  · by_cases hk : k = j
    · rw [hk]
      unfold St.tokens
      rw [hsvcQueue, hsvc, hself, hnone.1, hnone.2.1, hnone.2.2]
      exact Nat.zero_le _
    · rw [htokens k hk, hother k hk]
      exact h.le k
  · by_cases hkj : k = j
    · rw [hkj, hpc', update_self]
      exact Nat.zero_le _
    · rw [htokens k hkj, hother k hkj]
      rw [hgone] at hg hk
      exact h.ge hg k hk
  · rw [hsvcQueue] at hx
    refine hasked x (fun hsender => ?_) (h.asked x hx ha)
    have hpos := asking_pos hx ha
    rw [hsender] at hpos
    omega
  · rw [hsvc] at hx
    refine hasked x (fun hsender => ?_) (h.handled x hx ha)
    have howes : s.svc.owes j = 1 := by
      have hasking : asking j x = true := by rw [asking_of_asks ha, decide_eq_true hsender]
      rw [hx]
      exact if_pos hasking
    omega
  · rw [hsvc] at hx
    obtain ⟨req', hwait, ha⟩ := h.replied x y hx
    have hne : x.sender ≠ j := by
      intro hsender
      have howes : s.svc.owes j = 1 := by
        rw [hx]
        exact if_pos hsender
      omega
    exact ⟨req', (hother _ hne).trans hwait, hex ▸ ha⟩
  · by_cases hk : k = j
    · rw [hk, hself] at hx
      have hpos := responses_pos hx ha
      omega
    · rw [hqueue, update_of_ne hk] at hx
      obtain ⟨req', call', hwait, hans⟩ := h.answered k x hx ha
      exact ⟨req', call', (hother k hk).trans hwait, hex ▸ hans⟩
  · rw [hpc', hex]
    exact forall_update (P := fun pc : Pc ι E => pc.Good s.executed) h.good (good_got hans) k
  · rw [hex, hsvc, hs]
    exact h.once c
  · rw [hex, hs]
    exact h.returned

theorem Calls.recv [Fintype ι] (h : Calls svcId s) (hj : j ≠ svcId) (hs : s.recv j i = some s') :
    Calls svcId s' := by
  have hkept := h.kept.recv hs
  unfold St.recv at hs
  split at hs
  case h_1 => cases hs
  case h_2 m hi =>
    split at hs
    case h_1 req call hpc =>
      obtain ⟨hfilter, hs⟩ := Option.ite_none_right_eq_some.1 hs
      exact h.response hj hi hpc (isResponse_of_filter hfilter) (Option.some.inj hs).symm hkept
    case h_2 hpc =>
      obtain rfl := Option.some.inj hs
      have hnone := no_responses (h.le j) (by rw [hpc]; rfl)
      have hresp : m.body.isResponse = false := by
        by_contra hne
        exact (responses_pos (List.mem_of_getElem? hi) (eq_true_of_ne_false hne)).ne' hnone
      exact h.quiet hkept rfl (by rw [hpc]; rfl) rfl ⟨nofun, nofun, nofun⟩
        (sameCalls_take s hj hi hresp) rfl rfl rfl
        (fun _ => Nat.le_refl _) h.returned
    case h_3 => cases hs

/-- The service moves, and the requests and responses with it. -/
theorem Calls.serve [Fintype ι] (h : Calls svcId s) (hkept : Kept svcId s') (hpc : s'.pc = s.pc)
    (hgone : s'.gone = s.gone) (hret : s'.returned = s.returned) (hex : ∀ x ∈ s.executed, x ∈ s'.executed)
    (hle : ∀ k, s'.tokens svcId k ≤ s.tokens svcId k)
    (hge : ∀ k, s.gone k = false → s.tokens svcId k ≤ s'.tokens svcId k)
    (hasked : ∀ m ∈ s'.queue svcId, m.body.asks = true → m ∈ s.queue svcId)
    (hhandled : ∀ m, s'.svc = .handle m → m ∈ s.queue svcId)
    (hreplied : ∀ m rsp, s'.svc = .reply m rsp →
      ∃ req, s.pc m.sender = .wait req m.ptr ∧ Answers s'.executed m.ptr req rsp.body)
    (hanswered : ∀ k, ∀ m ∈ s'.queue k, m.body.isResponse = true → m ∈ s.queue k ∨
      ∃ req call, s.pc k = .wait req call ∧ Answers s.executed call req m.body)
    (honce : ∀ c, (s'.executed.map Prod.fst).count c ≤ s'.svc.done.count c + s'.freed.count c) :
    Calls svcId s' := by
  have hask (m : Msg ι E) (ha : s.Asked m) : s'.Asked m := by
    unfold St.Asked
    rw [hpc]
    exact ha
  refine ⟨hkept, ?_, fun k => ?_, fun hg k hk => ?_, fun m hm ha => hask m (h.asked m (hasked m hm ha) ha),
    fun m hm ha => hask m (h.asked m (hhandled m hm) ha), fun m rsp hm => ?_, fun k m hm ha => ?_,
      fun k => ?_, honce, ?_⟩
  · rw [hpc]
    exact h.service
  · rw [hpc]
    exact Nat.le_trans (hle k) (h.le k)
  · rw [hgone] at hg hk
    rw [hpc]
    exact Nat.le_trans (h.ge hg k hk) (hge k hk)
  · rw [hpc]
    exact hreplied m rsp hm
  · rw [hpc]
    have hans : ∃ req call, s.pc k = .wait req call ∧ Answers s.executed call req m.body := by
      obtain hm | hans := hanswered k m hm ha
      · exact h.answered k m hm ha
      · exact hans
    obtain ⟨req, call, hwait, hans⟩ := hans
    exact ⟨req, call, hwait, hans.mono hex⟩
  · rw [hpc]
    have hgood := h.good k
    exact ⟨hgood.sending, hgood.posting, fun req call m hgot => (hgood.got req call m hgot).mono hex⟩
  · rw [hret]
    exact fun x hx => hex x (h.returned x hx)

/-- The service receives a request, which is the same token. -/
theorem Calls.svcRecv [Fintype ι] (h : Calls svcId s) (hs : s.svcRecv svcId i = some s') : Calls svcId s' := by
  have hkept := h.kept.svcRecv hs
  unfold St.svcRecv at hs
  split at hs
  case h_2 => cases hs
  case h_1 m hsvc hi =>
    obtain rfl := Option.some.inj hs
    have hmem := List.mem_of_getElem? hi
    have howes (k : ι) : s.svc.owes k = 0 := by
      rw [hsvc]
      rfl
    -- the service does not wait
    have hnone := no_responses (h.le svcId) h.service
    have hrest : responses ((s.queue svcId).eraseIdx i) = 0 := by
      have htake := countP_take hi (·.body.isResponse)
      unfold responses at hnone ⊢
      omega
    have htokens (k : ι) :
        { s with svc := .handle m, queue := update s.queue svcId ((s.queue svcId).eraseIdx i) }.tokens svcId k =
          s.tokens svcId k := by
      unfold St.tokens
      rw [howes, ← countP_take hi (asking k)]
      dsimp only
      rw [update_self]
      change _ + (if asking k m = true then 1 else 0) + _ = _
      by_cases hk : k = svcId
      · rw [hk, update_self, hnone, hrest]
      · rw [update_of_ne hk]
        rfl
    refine h.serve hkept rfl rfl rfl (fun _ hx => hx) (fun k => (htokens k).le) (fun k _ => (htokens k).ge)
      (fun _ hx _ => mem_take hx) (fun x hx => ?_) (fun _ _ hx => ?_)
        (fun _ _ hx _ => .inl (mem_take hx)) fun c => ?_
    · obtain rfl := Svc.handle.inj hx
      exact hmem
    · cases hx
    · have honce := h.once c
      rw [hsvc] at honce
      exact honce

/-- What `prs_proc_exec` has run for when the service has handled the message. -/
def St.executes (s : St ι E) (m : Msg ι E) (procId : ℕ) : List (ℕ × E × ℕ) :=
  match m.body with
  | .execRequest params => (m.ptr, params, procId) :: s.executed
  | _ => s.executed

theorem svcStep_handle (hsvc : s.svc = .handle m) :
    s.svcStep svcId procId =
      match m.body.response procId with
      | some body =>
        some { s with svc := .reply m (s.alloc svcId body), next := s.next + 1, executed := s.executes m procId }
      | none => some { s with svc := .free m, executed := s.executes m procId } := by
  unfold St.svcStep
  rw [hsvc]
  rfl

omit [DecidableEq ι] in
theorem mem_executes (x : ℕ × E × ℕ) (hx : x ∈ s.executed) : x ∈ s.executes m procId := by
  unfold St.executes
  split
  · exact List.mem_cons_of_mem _ hx
  · exact hx

omit [DecidableEq ι] in
theorem executes_of_exec {params : E} (hbody : m.body = .execRequest params) :
    (m.ptr, params, procId) ∈ s.executes m procId := by
  unfold St.executes
  rw [hbody]
  exact List.mem_cons_self

omit [DecidableEq ι] in
theorem count_executes (s : St ι E) (m : Msg ι E) (procId c : ℕ) :
    ((s.executes m procId).map Prod.fst).count c ≤ [m.ptr].count c + (s.executed.map Prod.fst).count c := by
  unfold St.executes
  split
  · rw [List.map_cons, count_cons_eq]
  · exact Nat.le_add_left ..

/-- **The service handles a request**, and what it will answer is the answer. -/
theorem Calls.handle [Fintype ι] (h : Calls svcId s) (hsvc : s.svc = .handle m)
    (hs : s.svcStep svcId procId = some s') :
    Calls svcId s' := by
  have hkept := h.kept.svcStep hs
  have hcount (c : ℕ) : ((s.executes m procId).map Prod.fst).count c ≤ [m.ptr].count c + s.freed.count c := by
    have honce := h.once c
    rw [hsvc] at honce
    change _ ≤ 0 + s.freed.count c at honce
    have hexecutes := count_executes s m procId c
    omega
  have hmono (x : ℕ × E × ℕ) (hx : x ∈ s.executed) : x ∈ s.executes m procId := mem_executes x hx
  rw [svcStep_handle hsvc] at hs
  cases hb : m.body.response procId with
  | some body =>
    rw [hb] at hs
    obtain rfl := Option.some.inj hs
    obtain ⟨hresp, hasks⟩ := isResponse_of_response hb
    have htokens (k : ι) :
        { s with svc := .reply m (s.alloc svcId body), next := s.next + 1,
                 executed := s.executes m procId : St ι E }.tokens svcId k = s.tokens svcId k := by
      have howes : (Svc.handle m).owes k = if m.sender = k then 1 else 0 := by
        change (if asking k m = true then 1 else 0) = _
        simp only [asking_of_asks hasks, decide_eq_true_eq]
      unfold St.tokens
      rw [hsvc, howes]
      rfl
    refine h.serve hkept rfl rfl rfl hmono (fun k => (htokens k).le) (fun k _ => (htokens k).ge)
      (fun _ hx _ => hx)
      (fun _ hx => ?_) (fun x rsp hx => ?_) (fun _ _ hx _ => .inl hx) hcount
    · cases hx
    · obtain ⟨rfl, rfl⟩ := Svc.reply.inj hx
      obtain ⟨req, hwait, hbody⟩ := h.handled m hsvc hasks
      refine ⟨req, hwait, answers_response (hbody ▸ hb) fun params hreq => executes_of_exec ?_⟩
      rw [hbody, hreq]
      rfl
  | none =>
    rw [hb] at hs
    obtain rfl := Option.some.inj hs
    have hasks := not_asks_of_response hb
    have htokens (k : ι) :
        { s with svc := .free m, executed := s.executes m procId : St ι E }.tokens svcId k =
          s.tokens svcId k := by
      have howes : (Svc.handle m).owes k = 0 := by
        change (if asking k m = true then 1 else 0) = 0
        rw [asking_of_not hasks, if_neg Bool.false_ne_true]
      unfold St.tokens
      rw [hsvc, howes]
      rfl
    refine h.serve hkept rfl rfl rfl hmono (fun k => (htokens k).le) (fun k _ => (htokens k).ge)
      (fun _ hx _ => hx)
      (fun _ hx => ?_) (fun _ _ hx => ?_) (fun _ _ hx _ => .inl hx) hcount
    · cases hx
    · cases hx

/-- **The service sends its response**, which is then the token of the task, if the task can be found. -/
theorem Calls.reply [Fintype ι] (h : Calls svcId s) (hsvc : s.svc = .reply m rsp)
    (hkept : Kept svcId { s.send svcId m.sender rsp with svc := .free m }) :
    Calls svcId { s.send svcId m.sender rsp with svc := .free m } := by
  obtain ⟨hex, hret, hfreed⟩ := send_logs s svcId m.sender rsp
  obtain ⟨req, hwait, hans⟩ := h.replied m rsp hsvc
  have hresp : rsp.body.isResponse = true := by
    cases req with
    | exec params =>
      obtain ⟨procId, hbody, -⟩ := hans
      rw [hbody]
      rfl
    | kill p block =>
      rw [show rsp.body = .killResponse p from hans]
      rfl
    | unregObject p objectId block =>
      rw [show rsp.body = .unregResponse p objectId from hans]
      rfl
  have hne : m.sender ≠ svcId := by
    intro hsender
    have hservice := h.service
    rw [← hsender, hwait] at hservice
    cases hservice
  -- the token goes from the service to the queue of the task, or is lost when the task is gone
  have htokens (k : ι) : { s.send svcId m.sender rsp with svc := .free m }.tokens svcId k +
      (if m.sender = k then 1 else 0) =
        s.tokens svcId k + if k = m.sender ∧ s.gone m.sender = false then 1 else 0 := by
    have hqueue := countP_send s svcId m.sender svcId rsp (asking k)
    rw [if_neg fun hsent => hne hsent.1.symm, Nat.add_zero] at hqueue
    have hresponses := countP_send s svcId m.sender k rsp (·.body.isResponse)
    rw [show (rsp.sent svcId m.sender).body = rsp.body from rfl, hresp] at hresponses
    simp only [and_true] at hresponses
    have howes : s.svc.owes k = if m.sender = k then 1 else 0 := by
      rw [hsvc]
      rfl
    unfold St.tokens responses
    dsimp only
    rw [hqueue, hresponses, howes]
    change _ + 0 + _ + _ = _
    omega
  refine h.serve hkept (send_pc s svcId m.sender rsp) (send_gone s svcId m.sender rsp) hret (fun x hx => ?_)
    (fun k => ?_) (fun k hk => ?_) (fun x hx ha => ?_) (fun _ hx => ?_) (fun _ _ hx => ?_) (fun k x hx ha => ?_)
    fun c => ?_
  · dsimp only
    rw [hex]
    exact hx
  · have hk := htokens k
    by_cases hsender : m.sender = k
    · rw [if_pos hsender] at hk
      split at hk <;> omega
    · rw [if_neg hsender, if_neg fun hg => hsender hg.1.symm] at hk
      omega
  · have htok := htokens k
    by_cases hsender : m.sender = k
    · rw [if_pos hsender, if_pos ⟨hsender.symm, hsender ▸ hk⟩] at htok
      omega
    · rw [if_neg hsender, if_neg fun hg => hsender hg.1.symm] at htok
      omega
  · obtain hx | ⟨hsender, -⟩ := mem_send hx
    · exact hx
    · exact absurd hsender.symm hne
  · cases hx
  · cases hx
  · obtain hx | ⟨rfl, rfl⟩ := mem_send hx
    · exact .inl hx
    · exact .inr ⟨req, m.ptr, hwait, hans⟩
  · have honce := h.once c
    rw [hsvc] at honce
    dsimp only
    rw [hex]
    exact Nat.le_trans honce (Nat.add_le_add_left (hfreed c) _)

theorem Calls.svcStep [Fintype ι] (h : Calls svcId s) (hs : s.svcStep svcId procId = some s') :
    Calls svcId s' := by
  have hkept := h.kept.svcStep hs
  cases hsvc : s.svc with
  | recv =>
    unfold St.svcStep at hs
    rw [hsvc] at hs
    cases hs
  | handle m => exact h.handle hsvc hs
  | reply m rsp =>
    unfold St.svcStep at hs
    rw [hsvc] at hs
    obtain rfl := Option.some.inj hs
    exact h.reply hsvc hkept
  | free m =>
    unfold St.svcStep at hs
    rw [hsvc] at hs
    obtain rfl := Option.some.inj hs
    have htokens (k : ι) : { s.free m with svc := .recv }.tokens svcId k = s.tokens svcId k := by
      unfold St.tokens
      rw [hsvc]
      rfl
    refine h.serve hkept rfl rfl rfl (fun _ hx => hx) (fun k => (htokens k).le) (fun k _ => (htokens k).ge)
      (fun _ hx _ => hx) (fun _ hx => ?_) (fun _ _ hx => ?_) (fun _ _ hx _ => .inl hx) fun c => ?_
    · cases hx
    · cases hx
    · have honce := h.once c
      rw [hsvc] at honce
      change _ ≤ 0 + (m.ptr :: s.freed).count c
      rw [Nat.zero_add, count_cons_eq]
      exact honce

theorem Calls.act [Fintype ι] {a : Act ι E} (h : Calls svcId s) (hs : s.act svcId a = some s') :
    Calls svcId s' := by
  have hkept := h.kept.act hs
  cases a with
  | call j req =>
    obtain ⟨⟨-, -, hidle⟩, hs⟩ := Option.ite_none_right_eq_some.1 hs
    obtain rfl := Option.some.inj hs
    refine h.alloc hidle rfl rfl ⟨fun req' m hpc => ?_, nofun, nofun⟩
    obtain ⟨rfl, rfl⟩ := Pc.send.inj hpc
    rfl
  | post j dest id =>
    obtain ⟨⟨-, -, hidle⟩, hs⟩ := Option.ite_none_right_eq_some.1 hs
    obtain rfl := Option.some.inj hs
    refine h.alloc hidle rfl rfl ⟨nofun, fun dest' m hpc => ?_, nofun⟩
    obtain ⟨-, rfl⟩ := Pc.post.inj hpc
    exact ⟨id, rfl⟩
  | recv j i =>
    obtain ⟨⟨-, hj⟩, hs⟩ := Option.ite_none_right_eq_some.1 hs
    exact h.recv hj hs
  | step j =>
    obtain ⟨⟨-, hj⟩, hs⟩ := Option.ite_none_right_eq_some.1 hs
    exact h.step hj hs
  | svcRecv i => exact h.svcRecv (Option.ite_none_right_eq_some.1 hs).2
  | svcStep procId => exact h.svcStep (Option.ite_none_right_eq_some.1 hs).2
  | stop j =>
    obtain rfl := Option.some.inj hs
    exact { h with kept := hkept }
  | leave j =>
    obtain ⟨-, hs⟩ := Option.ite_none_right_eq_some.1 hs
    obtain rfl := Option.some.inj hs
    -- less can be found than before
    have hgone (k : ι) (hk : update s.gone j true k = false) : s.gone k = false := by
      by_cases hkj : k = j
      · rw [hkj, update_self] at hk
        cases hk
      · rwa [update_of_ne hkj] at hk
    exact { h with kept := hkept, ge := fun hg k hk => h.ge (hgone svcId hg) k (hgone k hk) }

theorem Calls.executed_once [Fintype ι] (h : Calls svcId s) (c : ℕ) : (s.executed.map Prod.fst).count c ≤ 1 := by
  -- what has been handled is with the service or freed, and a message is in one place
  have hdone : s.svc.done.count c ≤ (s.svc.msgs.map Msg.ptr).count c := by
    cases s.svc with
    | recv => exact Nat.zero_le _
    | handle m => exact Nat.zero_le _
    | reply m rsp =>
      exact (List.sublist_append_left [m.ptr] [rsp.ptr]).count_le c
    | free m => exact Nat.le_refl _
  have hplaces : s.places c ≤ 1 := by
    rw [h.kept.places]
    split <;> omega
  have honce := h.once c
  unfold St.places at hplaces
  omega

/-- Where the answer to a call is, or its request: with the service, or in one of the two queues. -/
def St.OnItsWay (svcId : ι) (s : St ι E) (j : ι) (req : Request E) (call : ℕ) : Prop :=
  (∃ m ∈ s.queue svcId, m.ptr = call ∧ m.sender = j ∧ m.body = req.body) ∨
    (∃ m, s.svc = .handle m ∧ m.ptr = call ∧ m.sender = j ∧ m.body = req.body) ∨
    (∃ m rsp, s.svc = .reply m rsp ∧ m.ptr = call ∧ m.sender = j ∧ Answers s.executed call req rsp.body) ∨
    ∃ m ∈ s.queue j, m.body.isResponse = true ∧ Answers s.executed call req m.body

theorem Calls.answer [Fintype ι] (h : Calls svcId s) (hpc : s.pc j = .wait req call) (hsvc : s.gone svcId = false)
    (hj : s.gone j = false) : s.OnItsWay svcId j req call := by
  have hge := h.ge hsvc j hj
  rw [hpc] at hge
  change 1 ≤ s.tokens svcId j at hge
  -- a request of the task is the request of this call, which is the one that it waits for
  have hrequest (m : Msg ι E) (hask : asking j m = true) (ha : m.body.asks = true → s.Asked m) :
      m.ptr = call ∧ m.sender = j ∧ m.body = req.body := by
    obtain ⟨hsender, hasks⟩ := Bool.and_eq_true_iff.1 hask
    have hsender := of_decide_eq_true hsender
    obtain ⟨req', hwait, hbody⟩ := ha hasks
    rw [hsender, hpc] at hwait
    obtain ⟨rfl, rfl⟩ := Pc.wait.inj hwait
    exact ⟨rfl, hsender, hbody⟩
  by_cases hqueue : 0 < (s.queue svcId).countP (asking j)
  · obtain ⟨m, hm, hask⟩ := List.countP_pos_iff.1 hqueue
    exact .inl ⟨m, hm, hrequest m hask (h.asked m hm)⟩
  by_cases howes : 0 < s.svc.owes j
  · cases hv : s.svc with
    | recv =>
      rw [hv] at howes
      cases howes
    | handle m =>
      rw [hv] at howes
      have hask : asking j m = true := by
        by_contra hne
        exact Nat.lt_irrefl 0 ((if_neg hne : (Svc.handle m).owes j = 0) ▸ howes)
      exact .inr (.inl ⟨m, hv, hrequest m hask (h.handled m hv)⟩)
    | reply m rsp =>
      rw [hv] at howes
      have hsender : m.sender = j := by
        by_contra hne
        exact Nat.lt_irrefl 0 ((if_neg hne : (Svc.reply m rsp).owes j = 0) ▸ howes)
      obtain ⟨req', hwait, hans⟩ := h.replied m rsp hv
      rw [hsender, hpc] at hwait
      obtain ⟨rfl, rfl⟩ := Pc.wait.inj hwait
      exact .inr (.inr (.inl ⟨m, rsp, hv, rfl, hsender, hans⟩))
    | free m =>
      rw [hv] at howes
      cases howes
  · have hpos : 0 < responses (s.queue j) := by
      unfold St.tokens at hge
      omega
    obtain ⟨m, hm, hresp⟩ := List.countP_pos_iff.1 hpos
    obtain ⟨req', call', hwait, hans⟩ := h.answered j m hm hresp
    obtain ⟨rfl, rfl⟩ := Pc.wait.inj (hpc.symm.trans hwait)
    exact .inr (.inr (.inr ⟨m, hm, hresp, hans⟩))

/-- **Calls are answered once.** In every run, a call goes on with a response to its own request, and the
process that an exec call returns is the result of the one time that `prs_proc_exec` has run for it, with the
parameters of the call. A task that waits has at most one request or response on its way, and it has one as
long as the service and the task can be found; a task that does not wait has none. -/
theorem calls_answered [Fintype ι] (h : (sys svcId).Reachable s) :
    (∀ j req call m, s.pc j = .got req call m → Answers s.executed call req m.body) ∧
      (∀ x ∈ s.returned, x ∈ s.executed) ∧ (∀ c, (s.executed.map Prod.fst).count c ≤ 1) ∧
      (∀ j, s.tokens svcId j ≤ (s.pc j).waits) ∧
      ∀ j req call, s.pc j = .wait req call → s.gone svcId = false → s.gone j = false →
      s.OnItsWay svcId j req call := by
  have hcalls : Calls svcId s := h.inv (by rintro _ rfl; exact calls_init) fun _ _ _ hI hs => hI.act hs
  exact ⟨fun j => (hcalls.good j).got, hcalls.returned, hcalls.executed_once, hcalls.le,
    fun j req call hpc hsvc hj => hcalls.answer hpc hsvc hj⟩

/-- Task `1` has started a process, and task `2` waits until another is killed. -/
theorem calls_answered_kill : ∃ s, (sys (0 : Fin 3) (E := ℕ)).Reachable s ∧ s.returned = [(0, 7, 9)] ∧
    (s.executed.map Prod.fst).count 0 ≤ 1 ∧ s.OnItsWay 0 2 (.kill 4 true) 1 := by
  obtain ⟨s, hs, hret, hpc, hsvc, hj⟩ := System.exists_of_check (sys (0 : Fin 3) (E := ℕ)) (fun _ _ => True)
    (fun s => s.returned = [(0, 7, 9)] ∧ s.pc 2 = .wait (.kill 4 true) 1 ∧ s.gone 0 = false ∧ s.gone 2 = false)
    .init rfl
    [.call 1 (.exec 7), .call 2 (.kill 4 true), .step 2, .step 1, .svcRecv 1, .svcStep 9, .svcStep 0, .svcStep 0,
      .recv 1 0, .step 1] (by decide +kernel)
  obtain ⟨-, -, honce, -, hway⟩ := calls_answered hs
  exact ⟨s, hs, hret, honce 0, hway 2 _ 1 hpc hsvc hj⟩

end Prs.ProcSvc
