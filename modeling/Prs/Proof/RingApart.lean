import Mathlib.Tactic.NormNum
import Prs.Model.RingBytes
import Prs.Model.RingSeq

/-!
# The fields of a ring are apart

From a `data_size` of nine bytes on, the header, the link and the flag of an entry are bytes of their own. A
call on the bytes is then the call on three arrays.

* `header_stored`, `link_stored`, `flag_stored`: what the fields are after a store of one of them.
* `Ring.fields`: the ring that the bytes say.
* `fields_alloc`, `fields_push`, `fields_pop`, `fields_free`: a call on the bytes is the call on the fields.
-/

namespace Prs.RingBytes

open Function Bytes PoolWords

variable {k dataSize id e e' v x : ℕ} {r : Ring} {m m' : Mem}

section Positions

theorem entryPos_succ (dataSize e : ℕ) : entryPos dataSize (e + 1) = entryPos dataSize e + dataSize + 8 := by
  unfold entryPos entrySize poolOffset
  rw [Nat.succ_mul, Nat.add_assoc]

/-- Entries do not overlap. -/
theorem entryPos_le (h : e < e') : entryPos dataSize e + dataSize + 8 ≤ entryPos dataSize e' := by
  rw [← entryPos_succ]
  exact Nat.mul_le_mul_right _ h

/-- The link and the flag of an entry are in the entry. -/
theorem fields_apart (hd : 9 ≤ dataSize) (h : e ≠ e') :
    entryPos dataSize e + 17 ≤ entryPos dataSize e' ∨ entryPos dataSize e' + 17 ≤ entryPos dataSize e := by
  obtain hlt | hlt := Nat.lt_or_gt_of_ne h
  · have : entryPos dataSize e + dataSize + 8 ≤ entryPos dataSize e' := entryPos_le hlt
    omega
  · have : entryPos dataSize e' + dataSize + 8 ≤ entryPos dataSize e := entryPos_le hlt
    omega

theorem ringPos_eq (dataSize e : ℕ) : ringPos dataSize e = entryPos dataSize e + 8 := rfl

theorem dataPos_eq (dataSize e : ℕ) : dataPos dataSize e = entryPos dataSize e + 17 := rfl

/-- No two entries have their data at the same address. -/
theorem dataPos_injective (dataSize : ℕ) : Injective (dataPos dataSize) := by
  intro e e' h
  rw [dataPos_eq, dataPos_eq] at h
  by_contra hne
  obtain hlt | hlt := Nat.lt_or_gt_of_ne hne
  · have : entryPos dataSize e + dataSize + 8 ≤ entryPos dataSize e' := entryPos_le hlt
    omega
  · have : entryPos dataSize e' + dataSize + 8 ≤ entryPos dataSize e := entryPos_le hlt
    omega

end Positions

section Stores

/-- The three fields of an entry are the same in two memories. -/
structure Same (dataSize : ℕ) (m m' : Mem) (e : ℕ) : Prop where
  header : header dataSize m' e = header dataSize m e
  next : next dataSize m' e = next dataSize m e
  consumed : consumed dataSize m' e = consumed dataSize m e

/-- An entry is the same when its bytes up to the data are. -/
theorem same_of_bytes (h : ∀ x, entryPos dataSize e ≤ x → x < entryPos dataSize e + 17 → m' x = m x) :
    Same dataSize m m' e where
  header := load_congr fun x hx hlt => h x hx (by omega)
  next := load_congr fun x hx hlt => by
    rw [ringPos_eq] at hx hlt
    exact h x (by omega) (by omega)
  consumed := h _ (by unfold ringPos poolOffset consumedOffset; omega)
    (by unfold ringPos poolOffset consumedOffset; omega)

variable (hd : 9 ≤ dataSize)

include hd

/-- Bytes of the fields of one entry are no fields of another. -/
theorem same_of_ne (hne : e' ≠ e) (h : ∀ x, x < entryPos dataSize e ∨ entryPos dataSize e + 17 ≤ x → m' x = m x) :
    Same dataSize m m' e' := by
  refine same_of_bytes fun x hx hlt => h x ?_
  have := fields_apart hd hne
  omega

/-- The data of an element is in no field. -/
theorem data_apart (hlo : dataPos dataSize e ≤ x) (hhi : x + 9 < dataPos dataSize e + dataSize) (e' : ℕ) :
    x < entryPos dataSize e' ∨ entryPos dataSize e' + 17 ≤ x := by
  rw [dataPos_eq] at hlo hhi
  obtain hlt | rfl | hlt := Nat.lt_trichotomy e' e
  · have : entryPos dataSize e' + dataSize + 8 ≤ entryPos dataSize e := entryPos_le hlt
    omega
  · exact .inr hlo
  · have : entryPos dataSize e + dataSize + 8 ≤ entryPos dataSize e' := entryPos_le hlt
    omega

/-- What a user may write is in no field. -/
theorem same_written {byte : BitVec 8} (hlo : dataPos dataSize e ≤ x)
    (hhi : x + 9 < dataPos dataSize e + dataSize) (e' : ℕ) :
    Same dataSize m (update m x byte) e' := by
  have hapart := data_apart hd hlo hhi e'
  exact same_of_bytes fun y hy hlt => update_of_ne (by omega) _ _

/-- A store to a header is in no other field. -/
theorem header_stored (hv : v < 2 ^ 64) (m : Mem) (e : ℕ) :
    header dataSize (store m (entryPos dataSize e) 8 v) = update (header dataSize m) e v ∧
      next dataSize (store m (entryPos dataSize e) 8 v) = next dataSize m ∧
      consumed dataSize (store m (entryPos dataSize e) 8 v) = consumed dataSize m := by
  have hother : ∀ e', e' ≠ e → Same dataSize m (store m (entryPos dataSize e) 8 v) e' := fun e' hne =>
    same_of_ne hd hne fun x hx => store_apart (by omega)
  refine ⟨funext fun e' => ?_, funext fun e' => ?_, funext fun e' => ?_⟩ <;> by_cases he : e' = e
  · rw [he, update_self]
    exact load_store (by omega)
  · rw [update_of_ne he]
    exact (hother e' he).header
  · rw [he]
    exact load_store_apart (by rw [ringPos_eq]; omega)
  · exact (hother e' he).next
  · rw [he]
    exact store_apart (by unfold ringPos poolOffset consumedOffset; omega)
  · exact (hother e' he).consumed

/-- A store to a link is in no other field. -/
theorem link_stored (hv : v < 2 ^ 64) (m : Mem) (e : ℕ) :
    header dataSize (store m (ringPos dataSize e) 8 v) = header dataSize m ∧
      next dataSize (store m (ringPos dataSize e) 8 v) = update (next dataSize m) e v ∧
      consumed dataSize (store m (ringPos dataSize e) 8 v) = consumed dataSize m := by
  have hother : ∀ e', e' ≠ e → Same dataSize m (store m (ringPos dataSize e) 8 v) e' := fun e' hne =>
    same_of_ne hd hne fun x hx => store_apart (by rw [ringPos_eq]; omega)
  refine ⟨funext fun e' => ?_, funext fun e' => ?_, funext fun e' => ?_⟩ <;> by_cases he : e' = e
  · rw [he]
    exact load_store_apart (by rw [ringPos_eq]; omega)
  · exact (hother e' he).header
  · rw [he, update_self]
    exact load_store (by omega)
  · rw [update_of_ne he]
    exact (hother e' he).next
  · rw [he]
    exact store_apart (by unfold consumedOffset; omega)
  · exact (hother e' he).consumed

/-- A store to a flag is in no other field. -/
theorem flag_stored (byte : BitVec 8) (m : Mem) (e : ℕ) :
    header dataSize (update m (ringPos dataSize e + consumedOffset) byte) = header dataSize m ∧
      next dataSize (update m (ringPos dataSize e + consumedOffset) byte) = next dataSize m ∧
      consumed dataSize (update m (ringPos dataSize e + consumedOffset) byte) =
        update (consumed dataSize m) e byte := by
  have hpos : ringPos dataSize e + consumedOffset = entryPos dataSize e + 16 := rfl
  rw [hpos]
  have hother : ∀ e', e' ≠ e → Same dataSize m (update m (entryPos dataSize e + 16) byte) e' := fun e' hne =>
    same_of_ne hd hne fun x hx => update_of_ne (by omega) _ _
  refine ⟨funext fun e' => ?_, funext fun e' => ?_, funext fun e' => ?_⟩ <;> by_cases he : e' = e
  · rw [he]
    exact load_congr fun x hx hlt => update_of_ne (by omega) _ _
  · exact (hother e' he).header
  · rw [he]
    exact load_congr fun x hx hlt => update_of_ne (by rw [ringPos_eq] at hlt; omega) _ _
  · exact (hother e' he).next
  · rw [he, update_self]
    exact update_self ..
  · rw [update_of_ne he]
    exact (hother e' he).consumed

end Stores

section Alloc

/-- The memory after `prs_mpmcring_alloc` has taken an entry. -/
def taken (dataSize : ℕ) (m : Mem) (e id : ℕ) : Mem :=
  store (update (store m (entryPos dataSize e) 8 (fresh id)) (ringPos dataSize e + consumedOffset) 0#8)
    (ringPos dataSize e) 8 invalid

/-- **What an allocation does.** -/
theorem alloc_of_some (h : ((r.pool dataSize).alloc k).1 = some id) :
    r.alloc k dataSize = (some (dataPos dataSize (id % 2 ^ k)),
      { r with
        mem := lockFirst dataSize (taken dataSize r.mem (id % 2 ^ k) id) (id % 2 ^ k) id
        writeIndex := ((r.pool dataSize).alloc k).2.writeIndex }) := by
  unfold Ring.alloc
  rw [h]
  rfl

theorem alloc_of_none (h : ((r.pool dataSize).alloc k).1 = none) : r.alloc k dataSize = (none, r) := by
  unfold Ring.alloc
  rw [h]

/-- An allocation from the pool finds no entry, or takes one. -/
theorem pool_alloc_cases (k : ℕ) (p : Pool) :
    p.alloc k = (none, p) ∨
      ∃ id, p.alloc k = (some id, ⟨update p.header (id % 2 ^ k) (fresh id), (id + 1) % 2 ^ 64⟩) := by
  unfold Pool.alloc
  split
  case h_1 id _ => exact .inr ⟨id, rfl⟩
  case h_2 => exact .inl rfl

end Alloc

/-- **The ring that the bytes say.** -/
def Ring.fields (dataSize : ℕ) (r : Ring) : RingSeq.St where
  pool := r.pool dataSize
  next := next dataSize r.mem
  consumed e := decide (consumed dataSize r.mem e ≠ 0#8)
  headId := r.headId
  tailId := r.tailId

section Words

theorem header_lt (dataSize : ℕ) (m : Mem) (e : ℕ) : header dataSize m e < 2 ^ 64 := by
  have h : load m (entryPos dataSize e) 8 < 256 ^ 8 := load_lt m _ 8
  unfold header
  omega

theorem next_lt (dataSize : ℕ) (m : Mem) (e : ℕ) : next dataSize m e < 2 ^ 64 := by
  have h : load m (ringPos dataSize e) 8 < 256 ^ 8 := load_lt m _ 8
  unfold next
  omega

theorem getId_lt (header : ℕ) : PoolWords.getId header < 2 ^ 64 := by
  have : PoolWords.getId header < refcntInc := Nat.mod_lt _ (Nat.two_pow_pos 52)
  unfold refcntInc at this
  omega

theorem fresh_lt (id : ℕ) : fresh id < 2 ^ 64 := by
  unfold fresh allocMask refcntInc
  omega

theorem incr_lt (header : ℕ) : incr header < 2 ^ 64 := Nat.mod_lt _ (Nat.two_pow_pos 64)

theorem decr_lt (header : ℕ) : decr header < 2 ^ 64 := Nat.mod_lt _ (Nat.two_pow_pos 64)

theorem clearAlloc_lt (header : ℕ) : clearAlloc header < 2 ^ 64 := by
  unfold clearAlloc allocMask
  omega

/-- The first reference to a header without one does not carry. -/
theorem first_lt {header : ℕ} (h : header < 2 ^ 64) (hn : getRefcnt header = 0) : first header < 2 ^ 64 := by
  unfold getRefcnt refcntInc at hn
  unfold first refcntInc
  omega

end Words

/-- The flags that the bytes say, after one of them is stored. -/
theorem flags_update (c : ℕ → BitVec 8) (e : ℕ) (byte : BitVec 8) :
    (fun e' => decide (update c e byte e' ≠ 0#8)) = update (fun e' => decide (c e' ≠ 0#8)) e
    (decide (byte ≠ 0#8)) := by
  funext e'
  by_cases he : e' = e
  · rw [he, update_self, update_self]
  · rw [update_of_ne he, update_of_ne he]

section Calls

variable (hd : 9 ≤ dataSize)

include hd

theorem fields_storeHeader (hv : v < 2 ^ 64) (r : Ring) (e : ℕ) :
    ({ r with mem := store r.mem (entryPos dataSize e) 8 v } : Ring).fields dataSize =
      { r.fields dataSize with pool :=
        { r.pool dataSize with header := update (r.pool dataSize).header e v } } := by
  obtain ⟨h1, h2, h3⟩ := header_stored hd hv r.mem e
  simp only [Ring.fields, Ring.pool, h1, h2, h3]

theorem fields_storeLink (hv : v < 2 ^ 64) (r : Ring) (e : ℕ) :
    ({ r with mem := store r.mem (ringPos dataSize e) 8 v } : Ring).fields dataSize =
      { r.fields dataSize with next := update (r.fields dataSize).next e v } := by
  obtain ⟨h1, h2, h3⟩ := link_stored hd hv r.mem e
  simp only [Ring.fields, Ring.pool, h1, h2, h3]

theorem fields_storeFlag (byte : BitVec 8) (r : Ring) (e : ℕ) :
    ({ r with mem := update r.mem (ringPos dataSize e + consumedOffset) byte } : Ring).fields dataSize =
      { r.fields dataSize with consumed := update (r.fields dataSize).consumed e (decide (byte ≠ 0#8)) } := by
  obtain ⟨h1, h2, h3⟩ := flag_stored hd byte r.mem e
  simp only [Ring.fields, Ring.pool, h1, h2, h3, flags_update]

/-- `prs_pool_lock` on the bytes. -/
theorem fields_lock (r : Ring) (id : ℕ) :
    (r.lock k dataSize id).1 = ((r.fields dataSize).lock k id).1 ∧
      (r.lock k dataSize id).2.fields dataSize = ((r.fields dataSize).lock k id).2 := by
  have hsame : (r.fields dataSize).pool.header (id % 2 ^ k) = header dataSize r.mem (id % 2 ^ k) := rfl
  unfold Ring.lock RingSeq.St.lock Pool.lock
  simp only [hsame]
  split
  · exact ⟨rfl, rfl⟩
  split
  · exact ⟨rfl, rfl⟩
  split
  · exact ⟨rfl, rfl⟩
  split
  · exact ⟨rfl, rfl⟩
  split
  · exact ⟨rfl, rfl⟩
  · exact ⟨rfl, fields_storeHeader hd (incr_lt _) r _⟩

theorem fields_lockValid (r : Ring) (id : ℕ) :
    (r.lockValid k dataSize id).1 = ((r.fields dataSize).lockValid k id).1 ∧
      (r.lockValid k dataSize id).2.fields dataSize = ((r.fields dataSize).lockValid k id).2 := by
  unfold Ring.lockValid RingSeq.St.lockValid
  split
  · exact fields_lock hd r id
  · exact ⟨rfl, rfl⟩

/-- `prs_pool_unlock` on the bytes. -/
theorem fields_unlock (r : Ring) (id : ℕ) :
    (r.unlock k dataSize id).fields dataSize = (r.fields dataSize).unlock k id := by
  have hsame : (r.fields dataSize).pool.header (id % 2 ^ k) = header dataSize r.mem (id % 2 ^ k) := rfl
  unfold Ring.unlock RingSeq.St.unlock Pool.unlock
  simp only [hsame]
  split
  · rfl
  split
  · rfl
  split
  · rfl
  split
  · rfl
  · refine fields_storeHeader hd ?_ r _
    split
    · exact clearAlloc_lt _
    · exact decr_lt _

theorem fields_lockFirst (r : Ring) (id : ℕ) :
    ({ r with mem := lockFirst dataSize r.mem (id % 2 ^ k) id } : Ring).fields dataSize =
      { r.fields dataSize with pool := (r.pool dataSize).lockFirst k id } := by
  have hsame : (r.pool dataSize).header (id % 2 ^ k) = header dataSize r.mem (id % 2 ^ k) := rfl
  unfold lockFirst Pool.lockFirst
  simp only [hsame]
  split
  · rfl
  split
  · rfl
  split
  · rfl
  case isFalse hn => exact fields_storeHeader hd (first_lt (header_lt _ _ _) (not_not.1 hn)) r _

/-- The header, the flag and the link of an entry that is taken. -/
theorem fields_taken (r : Ring) (e id : ℕ) :
    ({ r with mem := taken dataSize r.mem e id } : Ring).fields dataSize =
      { r.fields dataSize with
        pool := { r.pool dataSize with header := update (r.pool dataSize).header e (fresh id) }
        next := update (r.fields dataSize).next e invalid
        consumed := update (r.fields dataSize).consumed e false } := by
  have h1 := fields_storeHeader hd (fresh_lt id) r e
  have h2 := fields_storeFlag hd 0#8 { r with mem := store r.mem (entryPos dataSize e) 8 (fresh id) } e
  have h3 := fields_storeLink hd (v := invalid) (by decide) { r with
    mem := update (store r.mem (entryPos dataSize e) 8 (fresh id)) (ringPos dataSize e + consumedOffset) 0#8 } e
  rw [h1] at h2
  rw [h2] at h3
  exact h3

/-- **An allocation** returns the element of the entry that it takes. -/
theorem fields_alloc (r : Ring) :
    (r.alloc k dataSize).1 = ((r.fields dataSize).alloc k).1.map (dataPos dataSize) ∧
      (r.alloc k dataSize).2.fields dataSize = ((r.fields dataSize).alloc k).2 := by
  have hpool : (r.fields dataSize).pool = r.pool dataSize := rfl
  unfold RingSeq.St.alloc
  rw [hpool]
  obtain hno | ⟨id, hid⟩ := pool_alloc_cases k (r.pool dataSize)
  · rw [alloc_of_none (congrArg Prod.fst hno), hno]
    exact ⟨rfl, rfl⟩
  · rw [alloc_of_some (congrArg Prod.fst hid), hid]
    refine ⟨rfl, ?_⟩
    refine (fields_lockFirst hd
      { r with mem := taken dataSize r.mem (id % 2 ^ k) id, writeIndex := (id + 1) % 2 ^ 64 } id).trans ?_
    have htaken := fields_taken hd { r with writeIndex := (id + 1) % 2 ^ 64 } (id % 2 ^ k) id
    have hp := congrArg RingSeq.St.pool htaken
    rw [htaken]
    simp only [Ring.fields] at hp ⊢
    rw [hp]
    rfl

omit hd in
/-- The id of an element is in the header of its entry. -/
theorem getId_dataPos (r : Ring) (e : ℕ) : r.getId (dataPos dataSize e) = (r.fields dataSize).getId e := by
  have hpos : dataPos dataSize e - dataOffset - poolOffset = entryPos dataSize e := by
    rw [dataPos_eq]
    unfold dataOffset poolOffset
    omega
  unfold Ring.getId
  rw [hpos]
  rfl

theorem fields_free (r : Ring) (e : ℕ) :
    (r.free k dataSize (dataPos dataSize e)).fields dataSize = (r.fields dataSize).free k e := by
  unfold Ring.free RingSeq.St.free
  rw [fields_unlock hd, getId_dataPos]

/-- **The loop of a push.** -/
theorem fields_pushLoop (hid : id < 2 ^ 64) (fuel : ℕ) (spurious : List Bool) (r : Ring) (tailId : ℕ)
    (tailEntry : Option ℕ) :
    (Ring.pushLoop k dataSize id fuel spurious r tailId tailEntry).map (Ring.fields dataSize) =
      RingSeq.St.pushLoop k id fuel spurious (r.fields dataSize) tailId tailEntry := by
  induction fuel generalizing spurious r tailId tailEntry with
  | zero => rfl
  | succ fuel ih =>
    cases tailEntry with
    | some tail =>
      obtain ⟨hentry, hlock⟩ := fields_lockValid (k := k) hd r (next dataSize r.mem tail)
      have hnext : ∀ r' : Ring, (r'.fields dataSize).next tail = next dataSize r'.mem tail := fun _ => rfl
      have htail : ∀ r' : Ring, (r'.fields dataSize).tailId = r'.tailId := fun _ => rfl
      simp only [Ring.pushLoop, RingSeq.St.pushLoop, hnext]
      rw [← hentry, ← hlock]
      cases (r.lockValid k dataSize (next dataSize r.mem tail)).1 with
      | some nextTail =>
        refine (ih ..).trans ?_
        rw [← fields_unlock hd]
        rfl
      | none =>
        simp only [hnext]
        split
        · rw [← fields_storeLink hd hid, ← fields_unlock hd]
          rfl
        · rw [← fields_unlock hd]
          simp only [htail]
          split
          · obtain ⟨h1, h2⟩ := fields_lock (k := k) hd
              ((r.lockValid k dataSize (next dataSize r.mem tail)).2.unlock k dataSize tailId)
              ((r.lockValid k dataSize (next dataSize r.mem tail)).2.unlock k dataSize tailId).tailId
            rw [ih, h1, h2]
          · exact ih ..
    | none =>
      obtain ⟨h1, h2⟩ := fields_lockValid (k := k) hd r r.tailId
      have htail : (r.fields dataSize).tailId = r.tailId := rfl
      simp only [Ring.pushLoop, RingSeq.St.pushLoop, htail]
      split
      · rfl
      · rw [ih, h1, h2]

/-- `prs_mpmcring_push` on the bytes. -/
theorem fields_push (r : Ring) (e : ℕ) (spurious : List Bool) :
    (r.push k dataSize (dataPos dataSize e) spurious).map (Ring.fields dataSize) =
      (r.fields dataSize).push k e spurious := by
  obtain ⟨h1, h2⟩ := fields_lockValid (k := k) hd r r.tailId
  unfold Ring.push RingSeq.St.push
  rw [getId_dataPos]
  refine (fields_pushLoop hd (getId_lt _) ..).trans ?_
  rw [h1, h2]
  rfl

/-- **The loop of a pop.** -/
theorem fields_popLoop (fuel : ℕ) (spurious : List Bool) (r : Ring) (headId : ℕ) (headEntry : Option ℕ) :
    (Ring.popLoop k dataSize fuel spurious r headId headEntry).map (fun p => (p.1, p.2.fields dataSize)) =
      RingSeq.St.popLoop k fuel spurious (r.fields dataSize) headId headEntry := by
  induction fuel generalizing spurious r headId headEntry with
  | zero => rfl
  | succ fuel ih =>
    have hhead : ∀ r' : Ring, (r'.fields dataSize).headId = r'.headId := fun _ => rfl
    cases headEntry with
    | some head =>
      have hflag : (r.fields dataSize).consumed head = decide (consumed dataSize r.mem head ≠ 0#8) := rfl
      have hnext : next dataSize (update r.mem (ringPos dataSize head + consumedOffset) 1#8) head =
          (r.fields dataSize).next head := congrFun (flag_stored hd 1#8 r.mem head).2.1 head
      have hset := fields_storeFlag hd 1#8 r head
      rw [show decide (1#8 ≠ 0#8) = true from rfl] at hset
      simp only [Ring.popLoop, RingSeq.St.popLoop, hflag, hnext, hhead]
      by_cases hlink : (r.fields dataSize).next head ≠ invalid
      · rw [if_pos hlink, if_pos hlink]
        -- the head is moved, or not
        obtain ⟨r₂, hr₂⟩ : ∃ r₂ : Ring, r₂ =
            if (decide (r.headId = headId) && !spurious.headD false) = true then
              ({ r with
                mem := update r.mem (ringPos dataSize head + consumedOffset) 1#8
                headId := (r.fields dataSize).next head } : Ring).unlock k dataSize headId
            else { r with mem := update r.mem (ringPos dataSize head + consumedOffset) 1#8 } := ⟨_, rfl⟩
        have hmove : r₂.fields dataSize =
            if (decide (r.headId = headId) && !spurious.headD false) = true then
              ({ r.fields dataSize with
                consumed := update (r.fields dataSize).consumed head true
                headId := (r.fields dataSize).next head } : RingSeq.St).unlock k headId
            else { r.fields dataSize with consumed := update (r.fields dataSize).consumed head true } := by
          rw [hr₂]
          split
          · refine (fields_unlock hd _ headId).trans (congrArg (RingSeq.St.unlock k · headId) ?_)
            exact congrArg (fun s : RingSeq.St => { s with headId := (r.fields dataSize).next head }) hset
          · exact hset
        simp only [hhead] at hmove
        rw [← hr₂, ← hmove]
        split
        · obtain ⟨h1, h2⟩ := fields_lock (k := k) hd (r₂.unlock k dataSize headId) r.headId
          rw [ih, h1, h2, fields_unlock hd]
        · rfl
      · rw [if_neg hlink, if_neg hlink]
        split
        · rw [Option.map_some, fields_unlock hd, hset]
          rfl
        · rw [Option.map_some, hset]
          rfl
    | none =>
      simp only [Ring.popLoop, RingSeq.St.popLoop, hhead]
      split
      · obtain ⟨h1, h2⟩ := fields_lock (k := k) hd r r.headId
        rw [ih, h1, h2]
      · rfl

/-- `prs_mpmcring_pop` on the bytes. -/
theorem fields_pop (r : Ring) (spurious : List Bool) :
    (r.pop k dataSize spurious).map (fun p => (p.1, p.2.fields dataSize)) =
      ((r.fields dataSize).pop k spurious).map fun p => (p.1.map (dataPos dataSize), p.2) := by
  obtain ⟨h1, h2⟩ := fields_lockValid (k := k) hd r r.headId
  have hloop := fields_popLoop (k := k) hd (spurious.length + 3) spurious
    (r.lockValid k dataSize r.headId).2 r.headId (r.lockValid k dataSize r.headId).1
  rw [h1, h2] at hloop
  unfold Ring.pop RingSeq.St.pop
  change _ = (RingSeq.St.popLoop k (spurious.length + 3) spurious
    ((r.fields dataSize).lockValid k r.headId).2 r.headId
    ((r.fields dataSize).lockValid k r.headId).1).map _
  rw [← hloop, Option.map_map, Option.map_map, h1]
  rfl

/-- The data of an element is in no field. -/
theorem fields_written (m : Mem) (byte : BitVec 8) (hlo : dataPos dataSize e ≤ x)
    (hhi : x + 9 < dataPos dataSize e + dataSize) :
    header dataSize (update m x byte) = header dataSize m ∧ next dataSize (update m x byte) = next dataSize m ∧
      consumed dataSize (update m x byte) = consumed dataSize m := by
  have hsame : ∀ e', Same dataSize m (update m x byte) e' := same_written hd hlo hhi
  exact ⟨funext fun e' => (hsame e').header, funext fun e' => (hsame e').next, funext fun e' =>
    (hsame e').consumed⟩

/-- A user's write to an element is in no field. -/
theorem fields_write (r : Ring) (byte : BitVec 8) (hlo : dataPos dataSize e ≤ x)
    (hhi : x + 9 < dataPos dataSize e + dataSize) :
    ({ r with mem := update r.mem x byte } : Ring).fields dataSize = r.fields dataSize := by
  obtain ⟨h1, h2, h3⟩ := fields_written hd r.mem byte hlo hhi
  simp only [Ring.fields, Ring.pool, h1, h2, h3]

/-- A new ring. -/
theorem fields_create : Ring.create.fields dataSize = .create := by
  obtain ⟨h1, h2, h3⟩ := header_stored hd (v := allocMask) (by decide) (fun _ => 0#8) 0
  rw [show entryPos dataSize 0 = 0 from Nat.zero_mul _] at h1 h2 h3
  have hzero : header dataSize (fun _ => 0#8) = fun _ => 0 := funext fun e => load_zero _ 8
  have hlink : next dataSize (fun _ => 0#8) = fun _ => 0 := funext fun e => load_zero _ 8
  rw [hzero] at h1
  rw [hlink] at h2
  simp only [Ring.fields, Ring.pool, Ring.create, RingSeq.St.create, Pool.create, h1, h2, h3]
  rfl

end Calls

end Prs.RingBytes
