import Prs.Lib.Threads
import Prs.Model.Event

/-!
# The references of an event

Each source of an event has one of the references that the event was created with, until it drops it. So an
event has as many references as sources that have still to drop theirs (`Refs.refs`), and the one that drops
the last of them is the one that frees the event (`Refs.last`, `Refs.frees`). A source accesses the event only
while it has its reference.
-/

namespace Prs.Events

open Function Prs.Task

/-- The call has dropped its reference. -/
def Call.past : Call → Bool
  | .idle => false
  | .read _ => false
  | .drop _ _ _ => false
  | _ => true

/-- The call has dropped the last reference. -/
def Call.last : Call → Bool
  | .destroy _ _ => true
  | .unblock _ _ freed => freed
  | .ready _ freed => freed
  | .done _ _ freed => freed
  | _ => false

/-- The call has freed the event. -/
def Call.freed : Call → Bool
  | .unblock _ _ freed => freed
  | .ready _ freed => freed
  | .done _ _ freed => freed
  | _ => false

/-- The number of references of the event that is being created. -/
def Owner.refcnt : Owner → Option (BitVec 64)
  | .blockLoad refcnt => refcnt
  | .blockStore refcnt _ => refcnt
  | .publish refcnt _ => some refcnt
  | _ => none

/-- How many of the first `n` sources of event `e` are where `P` says. -/
def sources (P : Call → Bool) (call : Source → Call) (e n : ℕ) : ℕ :=
  (List.range n).countP fun k => P (call (e, k))

variable {s s' : St} {x : Source} {c : Call} {P Q : Call → Bool} {call : Source → Call} {e n : ℕ}

theorem sources_update_congr (h : P c = P (call x)) : sources P (update call x c) e n = sources P call e n := by
  unfold sources
  refine congrArg (fun f => (List.range n).countP f) (funext fun k => ?_)
  by_cases hk : (e, k) = x
  · rw [hk, update_self, h]
  · rw [update_of_ne hk]

theorem sources_update_of_ne (h : e ≠ x.1) : sources P (update call x c) e n = sources P call e n := by
  unfold sources
  refine congrArg (fun f => (List.range n).countP f) (funext fun k => ?_)
  rw [update_of_ne fun hk => h (congrArg Prod.fst hk)]

theorem sources_update_flip (hx : x.2 < n) (hf : P (call x) = false) (hg : P c = true) :
    sources P (update call x c) x.1 n = sources P call x.1 n + 1 := by
  refine countP_flip List.nodup_range (List.mem_range.2 hx) hf ?_ fun k hk => ?_
  · rw [show ((x.1, x.2) : Source) = x from rfl, update_self]
    exact hg
  · rw [update_of_ne fun h => hk (congrArg Prod.snd h)]

theorem sources_lt (hx : x.2 < n) (hf : P (call x) = false) : sources P call x.1 n < n := by
  have h : sources P call x.1 n ≠ n := by
    intro h
    have hall := List.countP_eq_length.1 (h.trans List.length_range.symm)
    exact absurd (hall x.2 (List.mem_range.2 hx)) (by rw [show ((x.1, x.2) : Source) = x from rfl, hf]; nofun)
  have hle : sources P call x.1 n ≤ n := le_of_le_of_eq List.countP_le_length List.length_range
  omega

theorem sources_mono (h : ∀ c, P c = true → Q c = true) : sources P call e n ≤ sources Q call e n :=
  List.countP_mono_left fun _ _ => h _

theorem sources_eq_zero (h : ∀ k, P (call (e, k)) = false) : sources P call e n = 0 :=
  List.countP_eq_zero.2 fun k _ => by rw [h k]; nofun

/-- The sources of event `e` that are where `P` says. -/
def St.sources (s : St) (P : Call → Bool) (e : ℕ) : ℕ := Events.sources P s.call e (s.event e).initialRefcnt.toNat

structure Refs (s : St) : Prop where
  asked : ∀ n, s.owner.refcnt = some n → n ≠ 0
  inside : ∀ x, s.call x ≠ .idle → x.1 < s.created ∧ x.2 < (s.event x.1).initialRefcnt.toNat
  held : ∀ x type t n, s.call x = .drop type t n → n = (s.event x.1).initialRefcnt
  pos : ∀ e < s.created, (s.event e).initialRefcnt ≠ 0
  refs : ∀ e < s.created, (s.event e).refcnt.toNat + s.sources Call.past e = (s.event e).initialRefcnt.toNat
  last : ∀ e < s.created, (s.event e).refcnt = 0 ∧ s.sources Call.last e = 1 ∨
    (s.event e).refcnt ≠ 0 ∧ s.sources Call.last e = 0
  frees : ∀ e < s.created, (s.event e).frees = s.sources Call.freed e
  untouched : s.touched = false

theorem refs_init : Refs .init where
  asked n h := by cases h
  inside x h := absurd rfl h
  held x type t n h := by cases h
  pos e he := by cases he
  refs e he := by cases he
  last e he := by cases he
  frees e he := by cases he
  untouched := rfl

/-- A source that has its reference finds the event there. -/
theorem Refs.alive (h : Refs s) (hx : s.call x ≠ .idle) (hp : (s.call x).past = false) :
    0 < (s.event x.1).refcnt.toNat ∧ (s.event x.1).frees = 0 := by
  obtain ⟨he, hk⟩ := h.inside x hx
  have hlt : s.sources Call.past x.1 < (s.event x.1).initialRefcnt.toNat := sources_lt hk hp
  have hpos : 0 < (s.event x.1).refcnt.toNat := by
    have := h.refs x.1 he
    omega
  have hne : (s.event x.1).refcnt ≠ 0 := by
    intro h0
    rw [h0] at hpos
    exact absurd hpos (by decide)
  have hle : s.sources Call.freed x.1 ≤ s.sources Call.last x.1 := by
    refine sources_mono fun c hc => ?_
    cases c <;> first | exact hc | cases hc
  have hl : s.sources Call.last x.1 = 0 := ((h.last x.1 he).resolve_left fun h0 => hne h0.1).2
  have hf := h.frees x.1 he
  exact ⟨hpos, by omega⟩

/-! ## Steps -/

/-- A step of the owner that creates no event. -/
theorem Refs.owner (h : Refs s) (ho : ∀ n, s'.owner.refcnt = some n → n ≠ 0) (hcr : s'.created = s.created)
    (hev : s'.event = s.event) (hc : s'.call = s.call) (ht : s'.touched = s.touched) : Refs s' := by
  constructor
  case asked => exact ho
  case inside => rw [hcr, hev, hc]; exact h.inside
  case held => rw [hev, hc]; exact h.held
  case pos => rw [hcr, hev]; exact h.pos
  case refs => unfold St.sources; rw [hcr, hev, hc]; exact h.refs
  case last => unfold St.sources; rw [hcr, hev, hc]; exact h.last
  case frees => unfold St.sources; rw [hcr, hev, hc]; exact h.frees
  case untouched => rw [ht]; exact h.untouched

/-- A call goes on and keeps what it has of the event. -/
theorem Refs.callMove (h : Refs s) (hx : x.1 < s.created) (hk : x.2 < (s.event x.1).initialRefcnt.toNat)
    (hp : c.past = (s.call x).past) (hl : c.last = (s.call x).last) (hf : c.freed = (s.call x).freed)
    (hd : ∀ type t n, c = .drop type t n → n = (s.event x.1).initialRefcnt) :
    Refs { s with call := update s.call x c } := by
  constructor
  case asked => exact h.asked
  case inside =>
    intro y hy
    by_cases hyx : y = x
    · subst hyx
      exact ⟨hx, hk⟩
    · simp only [update_of_ne hyx] at hy
      exact h.inside y hy
  case held =>
    intro y type t n hy
    by_cases hyx : y = x
    · subst hyx
      simp only [update_self] at hy
      exact hd type t n hy
    · simp only [update_of_ne hyx] at hy
      exact h.held y type t n hy
  case pos => exact h.pos
  case refs =>
    intro e he
    unfold St.sources
    rw [sources_update_congr hp]
    exact h.refs e he
  case last =>
    intro e he
    unfold St.sources
    rw [sources_update_congr hl]
    exact h.last e he
  case frees =>
    intro e he
    unfold St.sources
    rw [sources_update_congr hf]
    exact h.frees e he
  case untouched => exact h.untouched

/-- A call drops its reference. The new place is that of the last source exactly when there is no other
reference. -/
theorem Refs.drop (h : Refs s) (hx : s.call x ≠ .idle) (hp : (s.call x).past = false) (hcp : c.past = true)
    (hcl : c.last = decide ((s.event x.1).refcnt = 1)) (hcf : c.freed = false) (asserts : Bool) :
    Refs { s.touch x.1 with
      event := update s.event x.1 { s.event x.1 with refcnt := (s.event x.1).refcnt - 1 }
      call := update s.call x c
      asserts := asserts } := by
  obtain ⟨he, hk⟩ := h.inside x hx
  obtain ⟨hpos, hfr⟩ := h.alive hx hp
  have hl0 : (s.call x).last = false := by
    cases hcx : s.call x <;> first | rfl | (rw [hcx] at hp; cases hp)
  have hf0 : (s.call x).freed = false := by
    cases hcx : s.call x <;> first | rfl | (rw [hcx] at hp; cases hp)
  have hsub : ((s.event x.1).refcnt - 1).toNat = (s.event x.1).refcnt.toNat - 1 := by
    have h1 : (1 : BitVec 64).toNat = 1 := rfl
    rw [BitVec.toNat_sub, h1]
    have := (s.event x.1).refcnt.isLt
    omega
  have hzero : (s.event x.1).refcnt - 1 = 0 ↔ (s.event x.1).refcnt = 1 := by
    rw [← BitVec.toNat_inj, ← BitVec.toNat_inj, hsub]
    change _ = 0 ↔ _ = 1
    omega
  have hinit : ∀ e, (update s.event x.1 { s.event x.1 with refcnt := (s.event x.1).refcnt - 1 } e).initialRefcnt =
      (s.event e).initialRefcnt := by
    intro e
    by_cases hex : e = x.1
    · subst hex
      rw [update_self]
    · rw [update_of_ne hex]
  constructor
  case asked => exact h.asked
  case inside =>
    intro y hy
    simp only [hinit]
    by_cases hyx : y = x
    · subst hyx
      exact ⟨he, hk⟩
    · simp only [update_of_ne hyx] at hy
      exact h.inside y hy
  case held =>
    intro y type t n hy
    simp only [hinit]
    by_cases hyx : y = x
    · subst hyx
      simp only [update_self] at hy
      rw [hy] at hcp
      cases hcp
    · simp only [update_of_ne hyx] at hy
      exact h.held y type t n hy
  case pos =>
    intro e hec
    simp only [hinit]
    exact h.pos e hec
  case refs =>
    intro e hec
    simp only [St.sources, hinit]
    by_cases hex : e = x.1
    · subst hex
      have := h.refs x.1 he
      unfold St.sources at this
      rw [sources_update_flip hk hp hcp, update_self, hsub]
      omega
    · rw [sources_update_of_ne hex, update_of_ne hex]
      exact h.refs e hec
  case last =>
    intro e hec
    simp only [St.sources, hinit]
    by_cases hex : e = x.1
    · subst hex
      have hzl : sources Call.last s.call x.1 (s.event x.1).initialRefcnt.toNat = 0 :=
        ((h.last x.1 he).resolve_left fun h0 => absurd hpos (by rw [h0.1]; decide)).2
      rw [update_self]
      by_cases h1 : (s.event x.1).refcnt = 1
      · refine .inl ⟨hzero.2 h1, ?_⟩
        rw [sources_update_flip hk hl0 (by rw [hcl, decide_eq_true h1]), hzl]
      · refine .inr ⟨fun h0 => h1 (hzero.1 h0), ?_⟩
        rw [sources_update_congr (by rw [hl0, hcl, decide_eq_false h1]), hzl]
    · rw [sources_update_of_ne hex, update_of_ne hex]
      exact h.last e hec
  case frees =>
    intro e hec
    simp only [St.sources, hinit]
    rw [sources_update_congr (by rw [hcf, hf0])]
    by_cases hex : e = x.1
    · subst hex
      rw [update_self]
      exact h.frees x.1 he
    · rw [update_of_ne hex]
      exact h.frees e hec
  case untouched =>
    simp only [St.touch, h.untouched, hfr]
    decide

/-- The call that has dropped the last reference frees the event. -/
theorem Refs.destroy (h : Refs s) {type : Option Kind} {t : Token} (hx : s.call x = .destroy type t)
    (hcp : c.past = true) (hcl : c.last = true) (hcf : c.freed = true) :
    Refs { s with
      event := update s.event x.1 { s.event x.1 with frees := (s.event x.1).frees + 1 }
      call := update s.call x c } := by
  obtain ⟨he, hk⟩ := h.inside x (by rw [hx]; nofun)
  have hev : ∀ e, (update s.event x.1 { s.event x.1 with frees := (s.event x.1).frees + 1 } e).initialRefcnt =
      (s.event e).initialRefcnt ∧
      (update s.event x.1 { s.event x.1 with frees := (s.event x.1).frees + 1 } e).refcnt =
        (s.event e).refcnt := by
    intro e
    by_cases hex : e = x.1
    · subst hex
      rw [update_self]
      exact ⟨rfl, rfl⟩
    · rw [update_of_ne hex]
      exact ⟨rfl, rfl⟩
  constructor
  case asked => exact h.asked
  case inside =>
    intro y hy
    simp only [(hev _).1]
    by_cases hyx : y = x
    · subst hyx
      exact ⟨he, hk⟩
    · simp only [update_of_ne hyx] at hy
      exact h.inside y hy
  case held =>
    intro y type t n hy
    simp only [(hev _).1]
    by_cases hyx : y = x
    · subst hyx
      simp only [update_self] at hy
      rw [hy] at hcp
      cases hcp
    · simp only [update_of_ne hyx] at hy
      exact h.held y type t n hy
  case pos =>
    intro e hec
    simp only [(hev _).1]
    exact h.pos e hec
  case refs =>
    intro e hec
    simp only [St.sources, (hev _).1, (hev _).2]
    rw [sources_update_congr (by rw [hcp, hx]; rfl)]
    exact h.refs e hec
  case last =>
    intro e hec
    simp only [St.sources, (hev _).1, (hev _).2]
    rw [sources_update_congr (by rw [hcl, hx]; rfl)]
    exact h.last e hec
  case frees =>
    intro e hec
    simp only [St.sources, (hev _).1]
    by_cases hex : e = x.1
    · subst hex
      rw [sources_update_flip hk (by rw [hx]; rfl) hcf, update_self]
      exact congrArg (· + 1) (h.frees x.1 he)
    · rw [sources_update_of_ne hex, update_of_ne hex]
      exact h.frees e hec
  case untouched => exact h.untouched

/-- `prs_event_create` returns the event. -/
theorem Refs.publish (h : Refs s) {refcnt : BitVec 64} {t : Token} (ho : s.owner = .publish refcnt t) :
    Refs { s with
      event := update s.event s.created ⟨t, refcnt, refcnt, 0, s.changes⟩
      created := s.created + 1
      owner := .waiting } := by
  have hold : ∀ e < s.created, update s.event s.created ⟨t, refcnt, refcnt, 0, s.changes⟩ e = s.event e :=
    fun e he => update_of_ne (Nat.ne_of_lt he) _ _
  have hidle : ∀ k, s.call (s.created, k) = .idle := by
    intro k
    by_contra hk
    exact absurd (h.inside _ hk).1 (lt_irrefl _)
  have hnone : ∀ P : Call → Bool, P .idle = false → ∀ n, sources P s.call s.created n = 0 :=
    fun P hP n => sources_eq_zero fun k => by rw [hidle k, hP]
  have hpos : refcnt ≠ 0 := h.asked refcnt (by rw [ho]; rfl)
  constructor
  case asked => exact fun n hn => by cases hn
  case inside =>
    intro y hy
    obtain ⟨hy1, hy2⟩ := h.inside y hy
    simp only [hold y.1 hy1]
    exact ⟨Nat.lt_succ_of_lt hy1, hy2⟩
  case held =>
    intro y type t n hy
    have hy1 := (h.inside y (by rw [show s.call y = _ from hy]; nofun)).1
    simp only [hold y.1 hy1]
    exact h.held y type t n hy
  case pos =>
    intro e he
    rcases Nat.lt_succ_iff_lt_or_eq.1 he with he | rfl
    · simp only [hold e he]
      exact h.pos e he
    · simp only [update_self]
      exact hpos
  case refs =>
    intro e he
    unfold St.sources
    rcases Nat.lt_succ_iff_lt_or_eq.1 he with he | rfl
    · simp only [hold e he]
      exact h.refs e he
    · simp only [update_self, hnone Call.past rfl]
      rfl
  case last =>
    intro e he
    unfold St.sources
    rcases Nat.lt_succ_iff_lt_or_eq.1 he with he | rfl
    · simp only [hold e he]
      exact h.last e he
    · simp only [update_self, hnone Call.last rfl]
      exact .inr ⟨hpos, trivial⟩
  case frees =>
    intro e he
    unfold St.sources
    rcases Nat.lt_succ_iff_lt_or_eq.1 he with he | rfl
    · simp only [hold e he]
      exact h.frees e he
    · simp only [update_self, hnone Call.freed rfl]
  case untouched => exact h.untouched

theorem Owner.refcnt_back (o : Owner) (x : Source) : (o.back x).refcnt = o.refcnt := by
  unfold Owner.back
  split
  · split_ifs <;> rfl
  · rfl

/-- The owner when the call of `x` returns, if it was in that call. -/
theorem Refs.returns (h : Refs s) (x : Source) : Refs { s with owner := s.owner.back x } :=
  h.owner (fun n hn => h.asked n (s.owner.refcnt_back x ▸ hn)) rfl rfl rfl rfl

theorem Refs.stepOwner (h : Refs s) (hs : s.stepOwner = some s') : Refs s' := by
  unfold St.stepOwner at hs
  split at hs <;> rename_i ho
  case h_7 refcnt t =>
    rw [← Option.some.inj hs]
    exact h.publish ho
  case h_8 => cases hs
  all_goals
    rw [← Option.some.inj hs]
    refine h.owner (fun n hn => ?_) rfl rfl rfl rfl
  case h_1 => cases hn
  case h_2 change t => cases change <;> cases hn
  case h_3 => cases hn
  case h_4 refcnt => exact h.asked n (by rw [ho]; exact hn)
  case h_5 => cases hn
  case h_6 refcnt t => exact h.asked n (by rw [ho]; exact hn)

theorem Refs.touch (h : Refs s) (hx : s.call x ≠ .idle) (hp : (s.call x).past = false) : s.touch x.1 = s := by
  unfold St.touch
  rw [(h.alive hx hp).2, h.untouched]
  exact congrArg (fun b => { s with touched := b }) h.untouched.symm

theorem Refs.cas (h : Refs s) {type : Kind} {t : Token} {freed : Bool} (hc : s.call x = .unblock type t freed) :
    Refs (s.cas x type t freed) := by
  obtain ⟨he, hk⟩ := h.inside x (by rw [hc]; nofun)
  have hdone : ∀ signaled, Refs { s with call := update s.call x (.done (some type) signaled freed) } :=
    fun signaled =>
    h.callMove he hk (by rw [hc]; rfl) (by rw [hc]; rfl) (by rw [hc]; rfl) nofun
  have hready : Refs { s with call := update s.call x (.ready type freed) } :=
    h.callMove he hk (by rw [hc]; rfl) (by rw [hc]; rfl) (by rw [hc]; rfl) nofun
  unfold St.cas
  split
  · split
    · exact (hdone false).owner nofun rfl rfl rfl rfl
    · exact hready.owner hready.asked rfl rfl rfl rfl
  · exact ((hdone true).returns x).owner ((hdone true).returns x).asked rfl rfl rfl rfl

theorem Refs.stepSource (h : Refs s) (hs : s.stepSource x = some s') : Refs s' := by
  unfold St.stepSource at hs
  split at hs <;> rename_i hc
  case h_1 => cases hs
  case h_2 type =>
    have hi : s.call x ≠ .idle := by rw [hc]; nofun
    obtain ⟨he, hk⟩ := h.inside x hi
    rw [← Option.some.inj hs, h.touch hi (by rw [hc]; rfl)]
    refine h.callMove he hk (by rw [hc]; rfl) (by rw [hc]; rfl) (by rw [hc]; rfl) fun _ _ _ hd => ?_
    injection hd with _ _ hn
    exact hn.symm
  case h_3 type t initial =>
    have hi : s.call x ≠ .idle := by rw [hc]; nofun
    have hp : (s.call x).past = false := by rw [hc]; rfl
    rw [← Option.some.inj hs]
    dsimp only
    split
    · rename_i h1
      exact h.drop (c := .destroy type t) hi hp rfl (decide_eq_true h1).symm rfl _
    · rename_i h1
      cases type with
      | none =>
        exact (h.drop (c := .done none false false) hi hp rfl (decide_eq_false h1).symm rfl _).returns x
      | some type => exact h.drop (c := .unblock type t false) hi hp rfl (decide_eq_false h1).symm rfl _
  case h_4 type t =>
    rw [← Option.some.inj hs]
    cases type with
    | none => exact (h.destroy (c := .done none false true) hc rfl rfl rfl).returns x
    | some type => exact h.destroy (c := .unblock type t true) hc rfl rfl rfl
  case h_5 type t freed =>
    rw [← Option.some.inj hs]
    exact h.cas hc
  case h_6 type freed =>
    obtain ⟨he, hk⟩ := h.inside x (by rw [hc]; nofun)
    rw [← Option.some.inj hs]
    have hm := (h.callMove (c := .done (some type) false freed) he hk (by rw [hc]; rfl) (by rw [hc]; rfl)
      (by rw [hc]; rfl) nofun).returns x
    exact hm.owner hm.asked rfl rfl rfl rfl
  case h_7 => cases hs

theorem Refs.step {a : Act} (h : Refs s) (hs : s.step a = some s') : Refs s' := by
  cases a with
  | owner => exact h.stepOwner hs
  | source x => exact h.stepSource hs
  | create refcnt =>
    obtain ⟨ho, rfl⟩ := Option.ite_none_right_eq_some.1 hs |>.imp_right Option.some.inj
    refine h.owner (fun n hn => ?_) rfl rfl rfl rfl
    obtain rfl : refcnt = n := Option.some.inj hn
    exact ho.2
  | call x type self =>
    obtain ⟨⟨hx, hk, hi, -⟩, rfl⟩ := Option.ite_none_right_eq_some.1 hs |>.imp_right Option.some.inj
    have hm := h.callMove (c := .read type) hx hk (by rw [hi]; rfl) (by rw [hi]; rfl) (by rw [hi]; rfl) nofun
    refine hm.owner ?_ rfl rfl rfl rfl
    cases self with
    | false => exact h.asked
    | true => nofun
  | _ =>
    obtain ⟨ho, rfl⟩ := Option.ite_none_right_eq_some.1 hs |>.imp_right Option.some.inj
    exact h.owner nofun rfl rfl rfl rfl

end Prs.Events
