import Prs.Model.Task

/-!
# The fields of the state word

The word is `count * 2 ^ 12 + cause * 2 ^ 4 + state`. A change of the state adds `PRS_TASK_COUNT_INCREMENT`,
which is `2 ^ 12` and not one, to a count that wraps at `2 ^ 52`: after `n` changes from zero the count is
`2 ^ 12 * n`, and it comes back to a value after `2 ^ 40` changes.

* `toNat_getCount_run`: the count after any calls.
* `token_period`: it is back after exactly the multiples of `2 ^ 40` changes, and a token of `prs_task_block`
  may then match again.
-/

namespace Prs.Task

open Prs.Swprio (TaskState)

theorem toNat_code_lt (s : TaskState) : (code s).toNat < 16 := by
  cases s <;> decide

theorem toNat_getState (token : Token) : (getState token).toNat = token.toNat % 16 := by
  have hm : stateMask.toNat = 2 ^ 4 - 1 := rfl
  rw [getState, BitVec.toNat_and, hm, Nat.and_two_pow_sub_one_eq_mod]

theorem toNat_getCause (token : Token) : (getCause token).toNat = token.toNat / 16 % 256 := by
  have hm : (causeMask >>> stateBits).toNat = 2 ^ 8 - 1 := rfl
  have hd : (token >>> stateBits).toNat = token.toNat / 16 := by
    rw [BitVec.toNat_ushiftRight, Nat.shiftRight_eq_div_pow]; rfl
  rw [getCause, BitVec.ushiftRight_and_distrib, BitVec.toNat_setWidth, BitVec.toNat_and, hm,
    Nat.and_two_pow_sub_one_eq_mod, hd]
  omega

theorem toNat_getCount (token : Token) : (getCount token).toNat = token.toNat / 4096 := by
  have hm : (countMask >>> (stateBits + causeBits)).toNat = 2 ^ 52 - 1 := rfl
  have hd : (token >>> (stateBits + causeBits)).toNat = token.toNat / 4096 := by
    rw [BitVec.toNat_ushiftRight, Nat.shiftRight_eq_div_pow]; rfl
  rw [getCount, BitVec.ushiftRight_and_distrib, BitVec.toNat_and, hm, Nat.and_two_pow_sub_one_eq_mod, hd]
  omega

theorem toNat_setToken (s : TaskState) (ca : BitVec 8) (co : Token) :
    (setToken s ca co).toNat = co.toNat % 2 ^ 52 * 4096 + ca.toNat * 16 + (code s).toNat := by
  have hs := toNat_code_lt s
  have hca := ca.isLt
  have hstate : (code s &&& stateMask).toNat = (code s).toNat := by
    cases s <;> rfl
  have hcause : ((ca.setWidth 64 <<< stateBits) &&& causeMask).toNat = ca.toNat <<< 4 := by
    have he : causeMask = (255#64) <<< stateBits := rfl
    rw [he, ← BitVec.shiftLeft_and_distrib, BitVec.toNat_shiftLeft, BitVec.toNat_and, BitVec.toNat_setWidth]
    have hm : (255#64).toNat = 2 ^ 8 - 1 := rfl
    rw [hm, Nat.and_two_pow_sub_one_eq_mod]
    simp only [stateBits, Nat.shiftLeft_eq]
    omega
  have hcount : (co <<< (stateBits + causeBits)).toNat = (co.toNat % 2 ^ 52) <<< 12 := by
    rw [BitVec.toNat_shiftLeft]
    simp only [stateBits, causeBits, Nat.shiftLeft_eq]
    omega
  rw [setToken, BitVec.toNat_or, BitVec.toNat_or, hstate, hcause, hcount,
    ← Nat.shiftLeft_add_eq_or_of_lt (by rw [Nat.shiftLeft_eq]; omega)]
  have hsum : (co.toNat % 2 ^ 52) <<< 12 + ca.toNat <<< 4 = (co.toNat % 2 ^ 52 * 256 + ca.toNat) <<< 4 := by
    simp only [Nat.shiftLeft_eq]
    omega
  rw [hsum, ← Nat.shiftLeft_add_eq_or_of_lt (by omega), Nat.shiftLeft_eq]
  omega

@[simp]
theorem getState_setToken (s : TaskState) (ca : BitVec 8) (co : Token) :
    getState (setToken s ca co) = code s := by
  have hs := toNat_code_lt s
  refine BitVec.eq_of_toNat_eq ?_
  rw [toNat_getState, toNat_setToken]
  omega

@[simp]
theorem getCause_setToken (s : TaskState) (ca : BitVec 8) (co : Token) : getCause (setToken s ca co) = ca := by
  have hs := toNat_code_lt s
  have hca := ca.isLt
  refine BitVec.eq_of_toNat_eq ?_
  rw [toNat_getCause, toNat_setToken]
  omega

theorem toNat_getCount_setToken (s : TaskState) (ca : BitVec 8) (co : Token) :
    (getCount (setToken s ca co)).toNat = co.toNat % 2 ^ 52 := by
  have hs := toNat_code_lt s
  have hca := ca.isLt
  rw [toNat_getCount, toNat_setToken]
  omega

/-! ## The count after a number of changes -/

/-- `token` has the count of a word that was changed `n` times since it was zero. -/
def Count (token : Token) (n : ℕ) : Prop := (getCount token).toNat = 4096 * n % 2 ^ 52

theorem count_zero : Count 0 0 := by
  unfold Count
  decide

/-- **A change moves the count** by `PRS_TASK_COUNT_INCREMENT`. -/
theorem Count.succ {token : Token} {n : ℕ} (h : Count token n) (s : TaskState) (ca : BitVec 8) :
    Count (setToken s ca (getCount token + countIncrement)) (n + 1) := by
  unfold Count at h ⊢
  have hlt : (getCount token).toNat < 2 ^ 52 := by
    rw [h]
    exact Nat.mod_lt _ (by decide)
  have hi : countIncrement.toNat = 4096 := rfl
  rw [toNat_getCount_setToken, BitVec.toNat_add, hi]
  omega

/-- Words with one count were changed equally often, as long as the count has not come round. -/
theorem Count.inj {token : Token} {m n : ℕ} (hm : Count token m) (hn : Count token n) (hml : m < 2 ^ 40)
    (hnl : n < 2 ^ 40) : m = n := by
  unfold Count at hm hn
  omega

/-! ## The period -/

/-- A call that changes the word moves the count by `PRS_TASK_COUNT_INCREMENT`, whatever it stores with it. -/
theorem step_eq {asserts : Bool} {word next : Token} {c : Change} (h : step asserts word c = some next) :
    ∃ s ca, next = setToken s ca (getCount word + countIncrement) := by
  cases c with
  | changeState expected new =>
    rw [step, Option.ite_none_left_eq_some] at h
    exact ⟨new, getCause word, (Option.some.inj h.2).symm⟩
  | block =>
    rw [step, Option.ite_none_left_eq_some] at h
    exact ⟨.blocked, 0, (Option.some.inj h.2).symm⟩
  | unblock token isCurrentTask cause =>
    rw [step, Option.ite_none_right_eq_some] at h
    obtain ⟨rfl, h⟩ := h
    exact ⟨_, cause, (Option.some.inj h).symm⟩

theorem toNat_getCount_lt (token : Token) : (getCount token).toNat < 2 ^ 52 := by
  have hlt := token.isLt
  rw [toNat_getCount]
  omega

theorem toNat_getCount_step {asserts : Bool} {word next : Token} {c : Change}
    (h : step asserts word c = some next) :
    (getCount next).toNat = ((getCount word).toNat + 4096) % 2 ^ 52 := by
  obtain ⟨s, ca, rfl⟩ := step_eq h
  have hlt := toNat_getCount_lt word
  have hi : countIncrement.toNat = 4096 := rfl
  rw [toNat_getCount_setToken, BitVec.toNat_add, hi]
  omega

/-- **The count after any calls.** -/
theorem toNat_getCount_run {asserts : Bool} {word last : Token} {cs : List Change}
    (h : run asserts word cs = some last) :
    (getCount last).toNat = ((getCount word).toNat + 4096 * cs.length) % 2 ^ 52 := by
  induction cs generalizing word with
  | nil =>
    obtain rfl := Option.some.inj h
    exact (Nat.mod_eq_of_lt (toNat_getCount_lt word)).symm
  | cons c cs ih =>
    rw [run, Option.bind_eq_some_iff] at h
    obtain ⟨next, hnext, h⟩ := h
    have hstep := toNat_getCount_step hnext
    rw [ih h, hstep, List.length_cons]
    omega

/-- The count is back exactly after a multiple of `2 ^ 40` changes. -/
theorem getCount_run_eq_iff {asserts : Bool} {word last : Token} {cs : List Change}
    (h : run asserts word cs = some last) : getCount last = getCount word ↔ 2 ^ 40 ∣ cs.length := by
  have hcount := toNat_getCount_run h
  have hlt := toNat_getCount_lt word
  constructor
  · intro heq
    rw [heq] at hcount
    omega
  · intro hdvd
    apply BitVec.eq_of_toNat_eq
    omega

/-- The task unblocks itself and blocks again, `n` times from a blocked state with this word. -/
def waits : ℕ → Token → List Change
  | 0, _ => []
  | n + 1, word => .unblock word true 0 :: .block :: waits n (block (unblock word true 0))

theorem length_waits (n : ℕ) (word : Token) : (waits n word).length = 2 * n := by
  induction n generalizing word with
  | zero => rfl
  | succ n ih =>
    rw [waits, List.length_cons, List.length_cons, ih]
    omega

/-- The word is one that `prs_task_block` stores. -/
def Blocked (word : Token) : Prop := ∃ co, word = setToken .blocked 0 co

theorem blocked_block (word : Token) : Blocked (block word) := ⟨_, rfl⟩

/-- Such a word is given by its count. -/
theorem Blocked.ext {word word' : Token} (h : Blocked word) (h' : Blocked word')
    (heq : getCount word = getCount word') :
    word = word' := by
  obtain ⟨co, rfl⟩ := h
  obtain ⟨co', rfl⟩ := h'
  have hco := congrArg BitVec.toNat heq
  rw [toNat_getCount_setToken, toNat_getCount_setToken] at hco
  apply BitVec.eq_of_toNat_eq
  rw [toNat_setToken, toNat_setToken, hco]

theorem run_waits (asserts : Bool) (n : ℕ) {word : Token} (h : Blocked word) :
    ∃ last, run asserts word (waits n word) = some last ∧ Blocked last := by
  induction n generalizing word with
  | zero => exact ⟨word, rfl, h⟩
  | succ n ih =>
    obtain ⟨last, hrun, hlast⟩ := ih (blocked_block (unblock word true 0))
    refine ⟨last, ?_, hlast⟩
    have hstate : getState (unblock word true 0) = code .running := getState_setToken ..
    have hne : code .running ≠ code .blocked := by decide
    have hblock : step asserts (unblock word true 0) .block = some (block (unblock word true 0)) := by
      rw [step, if_neg (fun hb => hne (hstate.symm.trans hb.2))]
    have hunblock : step asserts word (.unblock word true 0) = some (unblock word true 0) := by
      rw [step, if_pos rfl]
    rw [waits, run, hunblock, Option.bind_some, run, hblock, Option.bind_some]
    exact hrun

/-- After `2 ^ 40` changes, and any multiple of that, the token matches again. -/
theorem run_waits_period (asserts : Bool) (m : ℕ) {word : Token} (h : Blocked word) :
    run asserts word (waits (2 ^ 39 * m) word) = some word := by
  obtain ⟨last, hrun, hlast⟩ := run_waits asserts (2 ^ 39 * m) h
  have hdvd : 2 ^ 40 ∣ (waits (2 ^ 39 * m) word).length := by
    rw [length_waits]
    exact ⟨m, by omega⟩
  have heq := (getCount_run_eq_iff hrun).2 hdvd
  rw [hrun, hlast.ext h heq]

/-- **The period of the token is `2 ^ 40`**: the numbers `k` of changes after which the count differs in every
run, and the token of a `prs_task_block` does not match in any, are those that `2 ^ 40` does not divide. -/
theorem token_period (k : ℕ) :
    (∀ asserts word last cs, cs.length = k → run asserts word cs = some last →
      (getCount last ≠ getCount word ↔ ¬ 2 ^ 40 ∣ k)) ∧
    ((∀ asserts word token last cs, step asserts word .block = some token → cs.length = k →
      run asserts token cs = some last → last ≠ token) ↔ ¬ 2 ^ 40 ∣ k) := by
  constructor
  · rintro asserts word last cs rfl h
    exact not_congr (getCount_run_eq_iff h)
  · constructor
    · rintro h ⟨m, rfl⟩
      have hblock : step true 0 .block = some (block 0) := rfl
      have hlen : (waits (2 ^ 39 * m) (block 0)).length = 2 ^ 40 * m := by
        rw [length_waits]
        omega
      exact h true 0 (block 0) (block 0) _ hblock hlen (run_waits_period true m (blocked_block 0)) rfl
    · rintro hdvd asserts word token last cs - rfl hrun rfl
      exact hdvd ((getCount_run_eq_iff hrun).1 rfl)

/-- A running task with the count zero blocks, and after `2 ^ 40` more changes its word is the token of that
call. -/
theorem token_matches_again :
    step true (code .running) .block = some (block (code .running)) ∧
      run true (block (code .running)) (waits (2 ^ 39) (block (code .running))) = some (block (code .running)) ∧
      (waits (2 ^ 39) (block (code .running))).length = 2 ^ 40 ∧ 0 < 2 ^ 40 ∧ 2 ^ 40 < 2 ^ 52 := by
  refine ⟨rfl, ?_, ?_, by decide, by decide⟩
  · exact run_waits_period true 1 (blocked_block (code .running))
  · exact length_waits (2 ^ 39) (block (code .running))

end Prs.Task
