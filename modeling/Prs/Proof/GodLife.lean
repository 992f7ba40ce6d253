import Prs.Model.God

/-!
# Lifetime of the entries of the directory

An entry is free, being registered, live or being freed (`Phase`). Each phase has its flags and says how many
threads register and free the entry and how many references to it there are; a thread that changes the header
of an entry takes it from one phase to the next, as every other thread finds a flag in its way.
-/

namespace Prs.God

open Function

/-! ## The header word -/

/-- The fields are within their bits. -/
def Header.Fits (h : Header) : Prop := h.id < 2 ^ 32 ∧ h.refcnt ≤ refcntMax

theorem ofWord_word {h : Header} (hf : h.Fits) : Header.ofWord h.word = h := by
  obtain ⟨id, r, u, d, n⟩ := h
  obtain ⟨h1, h2⟩ := hf
  simp only [refcntMax] at h1 h2
  have hw : (Header.word ⟨id, r, u, d, n⟩) =
      id * 4294967296 + r.toNat * 16384 + u.toNat * 8192 + d.toNat * 4096 + n := rfl
  have hr := Bool.toNat_le r
  have hu := Bool.toNat_le u
  have hd := Bool.toNat_le d
  have e1 : Header.word ⟨id, r, u, d, n⟩ / 2 ^ 32 % 2 ^ 32 = id := by rw [hw]; omega
  have e2 : Header.word ⟨id, r, u, d, n⟩ / 2 ^ 14 % 2 = r.toNat := by rw [hw]; omega
  have e3 : Header.word ⟨id, r, u, d, n⟩ / 2 ^ 13 % 2 = u.toNat := by rw [hw]; omega
  have e4 : Header.word ⟨id, r, u, d, n⟩ / 2 ^ 12 % 2 = d.toNat := by rw [hw]; omega
  have e5 : Header.word ⟨id, r, u, d, n⟩ % 2 ^ 12 = n := by rw [hw]; omega
  simp only [Header.ofWord, e1, e2, e3, e4, e5, Header.mk.injEq, true_and, and_true]
  refine ⟨?_, ?_, ?_⟩
  · cases r <;> rfl
  · cases u <;> rfl
  · cases d <;> rfl

/-- **`header + 1` does not carry** below the limit of the count. -/
theorem ofWord_succ {h : Header} (hf : h.Fits) (hn : h.refcnt ≠ refcntMax) :
    Header.ofWord (h.word + 1) = { h with refcnt := h.refcnt + 1 } := by
  have hw : h.word + 1 = Header.word { h with refcnt := h.refcnt + 1 } := by
    simp only [Header.word]
    omega
  rw [hw]
  apply ofWord_word
  obtain ⟨h1, h2⟩ := hf
  exact ⟨h1, by simp only; omega⟩

/-- **`header - 1` does not borrow** from the flags above zero. -/
theorem ofWord_pred {h : Header} (hf : h.Fits) (hn : h.refcnt ≠ 0) :
    Header.ofWord (h.word - 1) = { h with refcnt := h.refcnt - 1 } := by
  have hw : h.word - 1 = Header.word { h with refcnt := h.refcnt - 1 } := by
    simp only [Header.word]
    omega
  rw [hw]
  apply ofWord_word
  obtain ⟨h1, h2⟩ := hf
  exact ⟨h1, by simp only; omega⟩

/-! ## Phases of an entry -/

/-- The entry that a thread has begun to register and not finished. -/
def Pc.allocs (k : ℕ) : Pc → List ℕ
  | .allocIndex _ i => [i % 2 ^ k]
  | .allocStore _ i => [i % 2 ^ k]
  | _ => []

/-- The entry that a thread frees. -/
def Pc.frees (k : ℕ) : Pc → List ℕ
  | .freeLoad id => [id % 2 ^ k]
  | .freeCall id _ => [id % 2 ^ k]
  | .freeCas id _ => [id % 2 ^ k]
  | _ => []

/-- **Phases.** The header of an entry, how many threads register it, how many free it, and how many
references to it there are. -/
inductive Phase : Header → ℕ → ℕ → ℕ → Prop
  | free (id : ℕ) : Phase ⟨id, false, false, false, 0⟩ 0 0 0
  | alloc (id : ℕ) : Phase ⟨id, true, false, false, 1⟩ 1 0 0
  | live (id n : ℕ) (h0 : 0 < n) (hn : n ≤ refcntMax) : Phase ⟨id, true, true, false, n⟩ 0 0 n
  | dying (id : ℕ) : Phase ⟨id, true, true, true, 0⟩ 0 1 0

variable {ι : Type} [Fintype ι]

/-- How many references to entry `e` there are. -/
def St.outstanding (k : ℕ) (s : St ι) (e : ℕ) : ℕ := tally (List.map (· % 2 ^ k)) s.refs e

/-- What a thread knows of the values that it has read, and which reference it has. -/
def Pc.Ok (refs : List ℕ) : Pc → Prop
  | .allocHeader _ i _ => i < 2 ^ 32
  | .allocCas _ i _ h => i < 2 ^ 32 ∧ h.reserved = false
  | .lockLoad id => 0 < id
  | .lockCas id h => 0 < id ∧ h.id = id ∧ h.used = true ∧ h.deleteMark = false ∧ h.refcnt ≠ refcntMax
  | .unlockLoad id _ => id ∈ refs
  | .unlockCas id _ h => id ∈ refs ∧ h.id = id ∧ h.used = true ∧ h.refcnt ≠ 0
  | _ => True

/-- The id under which a thread registers or frees an entry. -/
def Pc.owns : Pc → Option ℕ
  | .allocIndex _ i => some i
  | .allocStore _ i => some i
  | .freeLoad id => some id
  | .freeCall id _ => some id
  | .freeCas id _ => some id
  | _ => none

/-- **The invariant of the entries.** -/
structure Inv (k : ℕ) (s : St ι) : Prop where
  phase : ∀ e, e ≠ 0 → Phase (s.header e) (tally (Pc.allocs k) s.pc e) (tally (Pc.frees k) s.pc e)
    (s.outstanding k e)
  zero : s.header 0 = ⟨0, true, true, false, 0⟩ ∧ tally (Pc.allocs k) s.pc 0 = 0 ∧ tally (Pc.frees k) s.pc 0 = 0 ∧
    s.outstanding k 0 = 0
  index : s.writeIndex < 2 ^ 32
  fits : ∀ e, (s.header e).id < 2 ^ 32
  refs : ∀ j, ∀ id ∈ s.refs j, (s.header (id % 2 ^ k)).id = id
  owns : ∀ j id, (s.pc j).owns = some id → (s.header (id % 2 ^ k)).id = id
  ok : ∀ j, (s.pc j).Ok (s.refs j)

variable {k : ℕ} {s s' : St ι} {j : ι} {e : ℕ}

theorem inv_init : Inv k (St.init : St ι) where
  phase := fun e he => by
    have h0 : ∀ f : Pc → List ℕ, f .idle = [] → tally f (St.init : St ι).pc e = 0 := fun f hf =>
      tally_eq_zero fun i => by simp [St.init, hf]
    have h1 : St.outstanding k (St.init : St ι) e = 0 := tally_eq_zero fun i => by simp [St.init]
    rw [h0 _ rfl, h0 _ rfl, h1]
    simp only [St.init, he, if_false]
    exact .free 0
  zero := ⟨rfl,
    tally_eq_zero fun i => by simp [St.init, Pc.allocs], tally_eq_zero fun i => by simp [St.init, Pc.frees],
    tally_eq_zero fun i => by simp [St.init]⟩
  index := by simp [St.init]
  fits := fun e => by
    simp only [St.init]
    split <;> simp
  refs := fun j id h => by cases h
  owns := fun j id h => by cases h
  ok := fun j => trivial

/-! ### What a phase excludes -/

variable [DecidableEq ι]

theorem Phase.of_unreserved {h : Header} {a f r : ℕ} (hp : Phase h a f r) (hr : h.reserved = false) :
    h = ⟨h.id, false, false, false, 0⟩ ∧ a = 0 ∧ f = 0 ∧ r = 0 := by
  cases hp with
  | free id => exact ⟨rfl, rfl, rfl, rfl⟩
  | alloc id => cases hr
  | live id n h0 hn => cases hr
  | dying id => cases hr

theorem Phase.of_allocs {h : Header} {a f r : ℕ} (hp : Phase h a f r) (ha : 0 < a) :
    h = ⟨h.id, true, false, false, 1⟩ ∧ a = 1 ∧ f = 0 ∧ r = 0 := by
  cases hp with
  | free id => cases ha
  | alloc id => exact ⟨rfl, rfl, rfl, rfl⟩
  | live id n h0 hn => cases ha
  | dying id => cases ha

theorem Phase.of_frees {h : Header} {a f r : ℕ} (hp : Phase h a f r) (hf : 0 < f) :
    h = ⟨h.id, true, true, true, 0⟩ ∧ a = 0 ∧ f = 1 ∧ r = 0 := by
  cases hp with
  | free id => cases hf
  | alloc id => cases hf
  | live id n h0 hn => cases hf
  | dying id => exact ⟨rfl, rfl, rfl, rfl⟩

theorem Phase.of_refs {h : Header} {a f r : ℕ} (hp : Phase h a f r) (hr : 0 < r) :
    h = ⟨h.id, true, true, false, r⟩ ∧ a = 0 ∧ f = 0 ∧ r ≤ refcntMax := by
  cases hp with
  | free id => cases hr
  | alloc id => cases hr
  | live id n h0 hn => exact ⟨rfl, rfl, rfl, hn⟩
  | dying id => cases hr

/-- An entry that can be locked is live. -/
theorem Phase.of_unmarked {h : Header} {a f r : ℕ} (hp : Phase h a f r) (hu : h.used = true)
    (hd : h.deleteMark = false) : h = ⟨h.id, true, true, false, r⟩ ∧ 0 < r ∧ a = 0 ∧ f = 0 ∧ r ≤ refcntMax := by
  cases hp with
  | free id => cases hu
  | alloc id => cases hu
  | live id n h0 hn => exact ⟨rfl, h0, rfl, rfl, hn⟩
  | dying id => cases hd

theorem Phase.refcnt_eq {h : Header} {a f r : ℕ} (hp : Phase h a f r) (hu : h.used = true) : h.refcnt = r := by
  cases hp with
  | free id => cases hu
  | alloc id => cases hu
  | live id n h0 hn => rfl
  | dying id => rfl

/-- A used entry without references is being freed. -/
theorem Phase.frees_eq_one {h : Header} {a f r : ℕ} (hp : Phase h a f r) (hu : h.used = true) (hr : r = 0) :
    f = 1 := by
  cases hp with
  | free id => cases hu
  | alloc id => cases hu
  | live id n h0 hn => exact absurd hr h0.ne'
  | dying id => rfl

theorem Phase.refcnt_le {h : Header} {a f r : ℕ} (hp : Phase h a f r) : h.refcnt ≤ refcntMax := by
  cases hp with
  | free id => exact Nat.zero_le _
  | alloc id => exact (by decide : 1 ≤ refcntMax)
  | live id n h0 hn => exact hn
  | dying id => exact Nat.zero_le _

omit [DecidableEq ι] in
theorem Inv.header_fits (h : Inv k s) (e : ℕ) : (s.header e).Fits := by
  refine ⟨h.fits e, ?_⟩
  by_cases he : e = 0
  · rw [he, h.zero.1]
    exact Nat.zero_le _
  · exact (h.phase e he).refcnt_le

omit [DecidableEq ι] in
theorem Inv.refs_pos (h : Inv k s) {id : ℕ} (hid : id ∈ s.refs j) :
    id % 2 ^ k ≠ 0 ∧ 0 < s.outstanding k (id % 2 ^ k) := by
  have hpos : 0 < s.outstanding k (id % 2 ^ k) := by
    have hle := count_le_tally (List.map (· % 2 ^ k)) s.refs j (id % 2 ^ k)
    have hc : 0 < ((s.refs j).map (· % 2 ^ k)).count (id % 2 ^ k) :=
      List.count_pos_iff.2 (List.mem_map.2 ⟨id, hid, rfl⟩)
    exact lt_of_lt_of_le hc hle
  refine ⟨fun h0 => ?_, hpos⟩
  rw [h0, h.zero.2.2.2] at hpos
  cases hpos

omit [DecidableEq ι] in
/-- An entry to which a thread has a reference is live, under the id of the reference. -/
theorem Inv.live (h : Inv k s) {id : ℕ} (hid : id ∈ s.refs j) :
    s.header (id % 2 ^ k) = ⟨id, true, true, false, s.outstanding k (id % 2 ^ k)⟩ := by
  obtain ⟨h0, hpos⟩ := h.refs_pos hid
  rw [((h.phase _ h0).of_refs hpos).1, h.refs j id hid]

omit [DecidableEq ι] in
theorem Inv.allocs_pos (h : Inv k s) (he : e ∈ (s.pc j).allocs k) : e ≠ 0 ∧ 0 < tally (Pc.allocs k) s.pc e := by
  have hpos := lt_of_lt_of_le (List.count_pos_iff.2 he) (count_le_tally (Pc.allocs k) s.pc j e)
  refine ⟨?_, hpos⟩
  rintro rfl
  rw [h.zero.2.1] at hpos
  cases hpos

omit [DecidableEq ι] in
theorem Inv.frees_pos (h : Inv k s) (he : e ∈ (s.pc j).frees k) : e ≠ 0 ∧ 0 < tally (Pc.frees k) s.pc e := by
  have hpos := lt_of_lt_of_le (List.count_pos_iff.2 he) (count_le_tally (Pc.frees k) s.pc j e)
  refine ⟨?_, hpos⟩
  rintro rfl
  rw [h.zero.2.2.1] at hpos
  cases hpos

/-! ### Steps -/

theorem owns_move {p : Pc} (h : Inv k s) (hp : ∀ id, p.owns = some id → (s.pc j).owns = some id) (i : ι) (id : ℕ)
    (hi : (update s.pc j p i).owns = some id) : (s.header (id % 2 ^ k)).id = id := by
  by_cases hij : i = j
  · subst hij
    rw [update_self] at hi
    exact h.owns i id (hp id hi)
  · rw [update_of_ne hij] at hi
    exact h.owns i id hi

/-- A thread moves on and the entries stay as they are. -/
theorem Inv.move (h : Inv k s) {p : Pc} {writeIndex : ℕ} {objects freed : List ℕ}
    (ha : p.allocs k = (s.pc j).allocs k) (hf : p.frees k = (s.pc j).frees k)
    (ho : ∀ id, p.owns = some id → (s.pc j).owns = some id) (hok : p.Ok (s.refs j))
    (hw : writeIndex < 2 ^ 32) : Inv k { s with pc := update s.pc j p, writeIndex, objects, freed } where
  phase := fun e he => by
    rw [tally_congr ha, tally_congr hf]
    exact h.phase e he
  zero := by
    rw [tally_congr ha, tally_congr hf]
    exact h.zero
  index := hw
  fits := h.fits
  refs := h.refs
  owns := owns_move h ho
  ok := fun i => by
    by_cases hij : i = j
    · subst hij
      simp only [update_self]
      exact hok
    · simp only [update_of_ne hij]
      exact h.ok i

/-- **A thread changes the header of entry `e`.** What is to be shown is about `e` alone. -/
theorem Inv.change (h : Inv k s) (h' : Header) (p : Pc) (r : List ℕ) (object : ℕ → ℕ)
    (returned locked : List (ℕ × ℕ)) (he : e ≠ 0) (hid : h'.id < 2 ^ 32)
    (hphase : Phase h' (tally (Pc.allocs k) (update s.pc j p) e) (tally (Pc.frees k) (update s.pc j p) e)
      (tally (List.map (· % 2 ^ k)) (update s.refs j r) e))
    (ha : ∀ x, x ≠ e → (p.allocs k).count x = ((s.pc j).allocs k).count x)
    (hf : ∀ x, x ≠ e → (p.frees k).count x = ((s.pc j).frees k).count x)
    (hr : ∀ x, x ≠ e → (r.map (· % 2 ^ k)).count x = ((s.refs j).map (· % 2 ^ k)).count x)
    (hrs : ∀ id ∈ r, id % 2 ^ k ≠ e → id ∈ s.refs j)
    (hps : ∀ id, p.owns = some id → id % 2 ^ k = e)
    (hrefs : ∀ i, ∀ id ∈ update s.refs j r i, id % 2 ^ k = e → h'.id = id)
    (howns : ∀ i id, (update s.pc j p i).owns = some id → id % 2 ^ k = e → h'.id = id) (hok : p.Ok r) :
    Inv k { s with
      header := update s.header e h', pc := update s.pc j p, refs := update s.refs j r, object, returned,
      locked } := by
  have hA : ∀ x, x ≠ e → tally (Pc.allocs k) (update s.pc j p) x = tally (Pc.allocs k) s.pc x :=
    fun x hx => tally_of_count (ha x hx)
  have hF : ∀ x, x ≠ e → tally (Pc.frees k) (update s.pc j p) x = tally (Pc.frees k) s.pc x :=
    fun x hx => tally_of_count (hf x hx)
  have hR : ∀ x, x ≠ e → tally (List.map (· % 2 ^ k)) (update s.refs j r) x = s.outstanding k x :=
    fun x hx => tally_of_count (hr x hx)
  exact
    { phase := fun x hx => by
        by_cases hxe : x = e
        · subst hxe
          simp only [update_self]
          exact hphase
        · simp only [update_of_ne hxe, St.outstanding, hA x hxe, hF x hxe, hR x hxe]
          exact h.phase x hx
      zero := by
        simp only [update_of_ne (Ne.symm he), St.outstanding, hA 0 (Ne.symm he), hF 0 (Ne.symm he),
          hR 0 (Ne.symm he)]
        exact h.zero
      index := h.index
      fits := fun x => by
        by_cases hxe : x = e
        · subst hxe
          simp only [update_self]
          exact hid
        · simp only [update_of_ne hxe]
          exact h.fits x
      refs := fun i id hi => by
        by_cases hxe : id % 2 ^ k = e
        · simp only [hxe, update_self]
          exact hrefs i id hi hxe
        · simp only [update_of_ne hxe]
          by_cases hij : i = j
          · subst hij
            simp only [update_self] at hi
            exact h.refs i id (hrs id hi hxe)
          · simp only [update_of_ne hij] at hi
            exact h.refs i id hi
      owns := fun i id hi => by
        by_cases hxe : id % 2 ^ k = e
        · simp only [hxe, update_self]
          exact howns i id hi hxe
        · simp only [update_of_ne hxe]
          by_cases hij : i = j
          · subst hij
            simp only [update_self] at hi
            exact absurd (hps id hi) hxe
          · simp only [update_of_ne hij] at hi
            exact h.owns i id hi
      ok := fun i => by
        by_cases hij : i = j
        · subst hij
          simp only [update_self]
          exact hok
        · simp only [update_of_ne hij]
          exact h.ok i }

theorem mem_of_owns {p : Pc} {id : ℕ} (hp : p.owns = some id) :
    id % 2 ^ k ∈ p.allocs k ∨ id % 2 ^ k ∈ p.frees k := by
  cases p <;> simp only [Pc.owns, reduceCtorEq, Option.some.injEq] at hp <;> subst hp <;> simp [Pc.allocs,
    Pc.frees]

omit [DecidableEq ι] in
/-- Nobody else registers or frees the entry that thread `j` has left alone. -/
theorem no_owner {pc : ι → Pc} (ha : tally (Pc.allocs k) pc e = 0) (hf : tally (Pc.frees k) pc e = 0) (i : ι)
    (id : ℕ) (hi : (pc i).owns = some id) : id % 2 ^ k ≠ e := by
  rintro rfl
  rcases mem_of_owns hi with hm | hm
  · exact not_mem_of_tally_eq_zero ha i hm
  · exact not_mem_of_tally_eq_zero hf i hm

omit [DecidableEq ι] in
theorem no_ref {refs : ι → List ℕ} (hr : tally (List.map (· % 2 ^ k)) refs e = 0) (i : ι) (id : ℕ)
    (hi : id ∈ refs i) : id % 2 ^ k ≠ e := by
  rintro rfl
  exact not_mem_of_tally_eq_zero hr i (List.mem_map.2 ⟨id, hi, rfl⟩)

/-- The thread that changes the header is done with the entry. -/
theorem Inv.changeIdle (h : Inv k s) (h' : Header) (r : List ℕ) (object : ℕ → ℕ) (returned locked : List (ℕ × ℕ))
    (he : e ≠ 0) (hid : h'.id < 2 ^ 32) (ha : ∀ x, x ≠ e → x ∉ (s.pc j).allocs k)
    (hf : ∀ x, x ≠ e → x ∉ (s.pc j).frees k) (ha' : tally (Pc.allocs k) (update s.pc j .idle) e = 0)
    (hf' : tally (Pc.frees k) (update s.pc j .idle) e = 0)
    (hphase : Phase h' 0 0 (tally (List.map (· % 2 ^ k)) (update s.refs j r) e))
    (hr : ∀ x, x ≠ e → (r.map (· % 2 ^ k)).count x = ((s.refs j).map (· % 2 ^ k)).count x)
    (hrs : ∀ id ∈ r, id % 2 ^ k ≠ e → id ∈ s.refs j)
    (hrefs : ∀ i, ∀ id ∈ update s.refs j r i, id % 2 ^ k = e → h'.id = id) :
    Inv k { s with
      header := update s.header e h', pc := update s.pc j .idle, refs := update s.refs j r, object, returned,
      locked } := by
  refine h.change h' .idle r object returned locked he hid ?_ ?_ ?_ hr hrs ?_ hrefs ?_ trivial
  · rw [ha', hf']
    exact hphase
  · intro x hx
    exact (List.count_eq_zero.2 (ha x hx)).symm
  · intro x hx
    exact (List.count_eq_zero.2 (hf x hx)).symm
  · intro id hi
    cases hi
  · intro i id hi hide
    exact absurd hide (no_owner ha' hf' i id hi)

theorem count_map_cons (id : ℕ) (l : List ℕ) (x : ℕ) :
    ((id :: l).map (· % 2 ^ k)).count x = (if id % 2 ^ k = x then 1 else 0) + (l.map (· % 2 ^ k)).count x := by
  rw [List.map_cons, count_cons_eq, List.count_singleton]
  by_cases hx : id % 2 ^ k = x <;> simp [hx]

theorem count_map_erase {id : ℕ} {l : List ℕ} (hid : id ∈ l) (x : ℕ) :
    (l.map (· % 2 ^ k)).count x = (if id % 2 ^ k = x then 1 else 0) + ((l.erase id).map (· % 2 ^ k)).count x := by
  have hp : (l.map (· % 2 ^ k)).Perm ((id :: l.erase id).map (· % 2 ^ k)) := (List.perm_cons_erase hid).map _
  rw [hp.count_eq, count_map_cons]

/-- The exchange of `prs_god_alloc_and_lock` succeeds. -/
theorem Inv.allocCas (h : Inv k s) {o i stop : ℕ} {header : Header} (hpc : s.pc j = .allocCas o i stop header)
    (hcas : s.header (i % 2 ^ k) = header) :
    Inv k { s with
      header := update s.header (i % 2 ^ k) ⟨i, true, false, false, 1⟩
      pc := update s.pc j (.allocIndex o i) } := by
  obtain ⟨hi, hres⟩ : i < 2 ^ 32 ∧ header.reserved = false := by
    have := h.ok j
    rw [hpc] at this
    exact this
  have he : i % 2 ^ k ≠ 0 := by
    intro h0
    rw [h0, h.zero.1] at hcas
    rw [← hcas] at hres
    cases hres
  obtain ⟨-, ha, hf, hr⟩ := (h.phase _ he).of_unreserved (by rw [hcas]; exact hres)
  have ta := tally_update (Pc.allocs k) s.pc j (.allocIndex o i) (i % 2 ^ k)
  have tf := tally_update (Pc.frees k) s.pc j (.allocIndex o i) (i % 2 ^ k)
  rw [hpc] at ta tf
  simp only [Pc.allocs, Pc.frees, List.count_nil, List.count_singleton_self, ha, hf] at ta tf
  have hchange := h.change (j := j) ⟨i, true, false, false, 1⟩ (.allocIndex o i)
    (s.refs j) s.object s.returned s.locked
    he hi ?_ ?_ ?_ (fun _ _ => rfl) (fun _ hid _ => hid) ?_ ?_ ?_ trivial
  · rwa [update_eq_self] at hchange
  · rw [update_eq_self, show tally (List.map (· % 2 ^ k)) s.refs (i % 2 ^ k) = 0 from hr]
    rw [show tally (Pc.allocs k) (update s.pc j (.allocIndex o i)) (i % 2 ^ k) = 1 by omega,
      show tally (Pc.frees k) (update s.pc j (.allocIndex o i)) (i % 2 ^ k) = 0 by omega]
    exact .alloc i
  · intro x hx
    rw [hpc]
    simp [Pc.allocs, Ne.symm hx]
  · intro x hx
    rw [hpc]
    rfl
  · intro id hid
    rw [← Option.some.inj hid]
  · intro i' id hid hid'
    rw [update_eq_self] at hid
    exact absurd hid' (no_ref hr i' id hid)
  · intro i' id hid hid'
    by_cases hij : i' = j
    · subst hij
      rw [update_self] at hid
      exact Option.some.inj hid
    · rw [update_of_ne hij] at hid
      exact absurd hid' (no_owner ha hf i' id hid)

/-- The entry is registered and its id returned. -/
theorem Inv.allocStore (h : Inv k s) {o i : ℕ} (hpc : s.pc j = .allocStore o i) :
    Inv k { s with
      object := update s.object (i % 2 ^ k) o
      header := update s.header (i % 2 ^ k) ⟨i, true, true, false, 1⟩
      pc := update s.pc j .idle
      refs := update s.refs j (i :: s.refs j)
      returned := (i, o) :: s.returned } := by
  have hid : (s.header (i % 2 ^ k)).id = i := h.owns j i (by rw [hpc]; rfl)
  obtain ⟨he, hpos⟩ := h.allocs_pos (j := j) (e := i % 2 ^ k) (by rw [hpc]; exact List.mem_singleton_self _)
  obtain ⟨-, ha, hf, hr⟩ := (h.phase _ he).of_allocs hpos
  have hi : i < 2 ^ 32 := by
    have := h.fits (i % 2 ^ k)
    rwa [hid] at this
  have ta := tally_update (Pc.allocs k) s.pc j .idle (i % 2 ^ k)
  have tf := tally_update (Pc.frees k) s.pc j .idle (i % 2 ^ k)
  have tr := tally_update (List.map (· % 2 ^ k)) s.refs j (i :: s.refs j) (i % 2 ^ k)
  rw [hpc] at ta tf
  rw [count_map_cons, if_pos rfl] at tr
  simp only [Pc.allocs, Pc.frees, List.count_nil, List.count_singleton_self, ha, hf] at ta tf
  simp only [St.outstanding] at hr
  have ha' : tally (Pc.allocs k) (update s.pc j .idle) (i % 2 ^ k) = 0 := by omega
  have hf' : tally (Pc.frees k) (update s.pc j .idle) (i % 2 ^ k) = 0 := by omega
  refine h.changeIdle ⟨i, true, true, false, 1⟩ (i :: s.refs j) _ _ _ he hi ?_ ?_ ha' hf' ?_ ?_ ?_ ?_
  · intro x hx
    rw [hpc]
    exact fun hm => hx (List.mem_singleton.1 hm)
  · intro x hx
    rw [hpc]
    exact List.not_mem_nil
  · rw [show tally (List.map (· % 2 ^ k)) (update s.refs j (i :: s.refs j)) (i % 2 ^ k) = 1 by omega]
    exact .live i 1 Nat.one_pos (by decide)
  · intro x hx
    rw [count_map_cons, if_neg (Ne.symm hx), Nat.zero_add]
  · intro id hid' hne
    rcases List.mem_cons.1 hid' with rfl | hm
    · exact absurd rfl hne
    · exact hm
  · intro i' id hid' hide
    by_cases hij : i' = j
    · subst hij
      rw [update_self] at hid'
      rcases List.mem_cons.1 hid' with rfl | hm
      · rfl
      · exact absurd hide (no_ref hr i' id hm)
    · rw [update_of_ne hij] at hid'
      exact absurd hide (no_ref hr i' id hid')

/-- The exchange of `prs_god_lock_entry` succeeds. -/
theorem Inv.lockCas (h : Inv k s) {id : ℕ} {header : Header} (hpc : s.pc j = .lockCas id header)
    (hcas : s.header (id % 2 ^ k) = header) :
    0 < s.outstanding k (id % 2 ^ k) ∧ Inv k { s with
      header := update s.header (id % 2 ^ k) (.ofWord (header.word + 1))
      pc := update s.pc j .idle
      refs := update s.refs j (id :: s.refs j)
      locked := (id, s.object (id % 2 ^ k)) :: s.locked } := by
  obtain ⟨hid0, hid, hu, hd, hmax⟩ : 0 < id ∧ header.id = id ∧ header.used = true ∧ header.deleteMark = false ∧
      header.refcnt ≠ refcntMax := by
    have := h.ok j
    rw [hpc] at this
    exact this
  have he : id % 2 ^ k ≠ 0 := by
    intro h0
    rw [h0, h.zero.1] at hcas
    rw [← hcas] at hid
    exact absurd hid (by simp only; omega)
  have hfit : header.Fits := hcas ▸ h.header_fits (id % 2 ^ k)
  obtain ⟨hh, hr, ha, hf, hle⟩ := (h.phase _ he).of_unmarked (by rw [hcas]; exact hu) (by rw [hcas]; exact hd)
  rw [hcas, hid] at hh
  refine ⟨hr, ?_⟩
  have hnew : Header.ofWord (header.word + 1) = ⟨id, true, true, false, s.outstanding k (id % 2 ^ k) + 1⟩ := by
    rw [ofWord_succ hfit hmax, hh]
  have hlt : s.outstanding k (id % 2 ^ k) + 1 ≤ refcntMax := by
    rw [hh] at hmax
    simp only at hmax
    omega
  have tr := tally_update (List.map (· % 2 ^ k)) s.refs j (id :: s.refs j) (id % 2 ^ k)
  rw [count_map_cons, if_pos rfl] at tr
  simp only [St.outstanding] at hnew hlt
  have ha' : tally (Pc.allocs k) (update s.pc j .idle) (id % 2 ^ k) = 0 :=
    (tally_congr (by rw [hpc]; rfl) _).trans ha
  have hf' : tally (Pc.frees k) (update s.pc j .idle) (id % 2 ^ k) = 0 :=
    (tally_congr (by rw [hpc]; rfl) _).trans hf
  rw [hnew]
  have hsame : ∀ i' id', id' ∈ s.refs i' → id' % 2 ^ k = id % 2 ^ k → id = id' := by
    intro i' id' hm hide
    have := h.refs i' id' hm
    rw [hide, hcas, hid] at this
    exact this
  refine h.changeIdle ⟨id, true, true, false, _⟩ (id :: s.refs j) _ _ _ he
    (hid ▸ hfit.1) ?_ ?_ ha' hf' ?_ ?_ ?_ ?_
  · intro x hx
    rw [hpc]
    exact List.not_mem_nil
  · intro x hx
    rw [hpc]
    exact List.not_mem_nil
  · rw [show tally (List.map (· % 2 ^ k)) (update s.refs j (id :: s.refs j)) (id % 2 ^ k) =
      tally (List.map (· % 2 ^ k)) s.refs (id % 2 ^ k) + 1 by omega]
    exact .live id _ (Nat.succ_pos _) hlt
  · intro x hx
    rw [count_map_cons, if_neg (Ne.symm hx), Nat.zero_add]
  · intro id' hid' hne
    rcases List.mem_cons.1 hid' with rfl | hm
    · exact absurd rfl hne
    · exact hm
  · intro i' id' hid' hide
    by_cases hij : i' = j
    · subst hij
      rw [update_self] at hid'
      rcases List.mem_cons.1 hid' with rfl | hm
      · rfl
      · exact hsame i' id' hm hide
    · rw [update_of_ne hij] at hid'
      exact hsame i' id' hid' hide

/-- The exchange of `prs_god_unlock` succeeds. The thread that drops the last reference goes on to free the
entry. -/
theorem Inv.unlockCas (h : Inv k s) {id : ℕ} {final : Bool} {header : Header}
    (hpc : s.pc j = .unlockCas id final header) (hcas : s.header (id % 2 ^ k) = header) :
    Inv k { s with
      header := update s.header (id % 2 ^ k) header.unlocked
      pc := update s.pc j (if header.unlocked.refcnt = 0 then .freeLoad id else .idle)
      refs := update s.refs j ((s.refs j).erase id) } := by
  obtain ⟨hmem, hid, -, hn0⟩ : id ∈ s.refs j ∧ header.id = id ∧ header.used = true ∧ header.refcnt ≠ 0 := by
    have := h.ok j
    rw [hpc] at this
    exact this
  obtain ⟨he, hpos⟩ := h.refs_pos hmem
  obtain ⟨-, ha, hf, hle⟩ := (h.phase _ he).of_refs hpos
  have hh := h.live hmem
  rw [hcas] at hh
  have hfit : header.Fits := hcas ▸ h.header_fits (id % 2 ^ k)
  have tr := tally_update (List.map (· % 2 ^ k)) s.refs j ((s.refs j).erase id) (id % 2 ^ k)
  rw [count_map_erase hmem, if_pos rfl] at tr
  have hcount : ∀ x, x ≠ id % 2 ^ k →
      (((s.refs j).erase id).map (· % 2 ^ k)).count x = ((s.refs j).map (· % 2 ^ k)).count x := by
    intro x hx
    rw [count_map_erase hmem x, if_neg (Ne.symm hx), Nat.zero_add]
  have hsub : ∀ id' ∈ (s.refs j).erase id, id' % 2 ^ k ≠ id % 2 ^ k → id' ∈ s.refs j := fun id' hm _ =>
    List.mem_of_mem_erase hm
  have hrefs : ∀ i', ∀ id' ∈ update s.refs j ((s.refs j).erase id) i', id' % 2 ^ k = id % 2 ^ k → id = id' := by
    intro i' id' hm hide
    have hold : id' ∈ s.refs i' := by
      by_cases hij : i' = j
      · subst hij
        rw [update_self] at hm
        exact List.mem_of_mem_erase hm
      · rwa [update_of_ne hij] at hm
    have := h.refs i' id' hold
    rw [hide, hcas, hid] at this
    exact this
  simp only [St.outstanding] at hh hpos
  by_cases hone : header.refcnt = 1
  · -- the last reference
    have hnew : header.unlocked = ⟨id, true, true, true, 0⟩ := by
      rw [Header.unlocked, if_pos hone, Header.mark, hh]
    have hr1 : tally (List.map (· % 2 ^ k)) s.refs (id % 2 ^ k) = 1 := by
      rw [hh] at hone
      exact hone
    have ta := tally_update (Pc.allocs k) s.pc j (.freeLoad id) (id % 2 ^ k)
    have tf := tally_update (Pc.frees k) s.pc j (.freeLoad id) (id % 2 ^ k)
    rw [hpc] at ta tf
    simp only [Pc.allocs, Pc.frees, List.count_nil, List.count_singleton_self, ha, hf] at ta tf
    rw [hnew, if_pos rfl]
    refine h.change ⟨id, true, true, true, 0⟩ (.freeLoad id) _ _ _ _ he
      (hid ▸ hfit.1) ?_ ?_ ?_ hcount hsub ?_ hrefs ?_
      trivial
    · rw [show tally (Pc.allocs k) (update s.pc j (.freeLoad id)) (id % 2 ^ k) = 0 by omega,
        show tally (Pc.frees k) (update s.pc j (.freeLoad id)) (id % 2 ^ k) = 1 by omega,
        show tally (List.map (· % 2 ^ k)) (update s.refs j ((s.refs j).erase id)) (id % 2 ^ k) = 0 by omega]
      exact .dying id
    · intro x hx
      rw [hpc]
      rfl
    · intro x hx
      rw [hpc]
      simp [Pc.frees, Ne.symm hx]
    · intro id' hid'
      rw [← Option.some.inj hid']
    · intro i' id' hid' hide
      by_cases hij : i' = j
      · subst hij
        rw [update_self] at hid'
        exact Option.some.inj hid'
      · rw [update_of_ne hij] at hid'
        exact absurd hide (no_owner ha hf i' id' hid')
  · have hnew :
        header.unlocked = ⟨id, true, true, false, tally (List.map (· % 2 ^ k)) s.refs (id % 2 ^ k) - 1⟩ := by
      rw [Header.unlocked, if_neg hone, ofWord_pred hfit hn0, hh]
    have hr1 : tally (List.map (· % 2 ^ k)) s.refs (id % 2 ^ k) ≠ 1 := by
      rw [hh] at hone
      exact hone
    have hne : ¬ tally (List.map (· % 2 ^ k)) s.refs (id % 2 ^ k) - 1 = 0 := by omega
    have ha' : tally (Pc.allocs k) (update s.pc j .idle) (id % 2 ^ k) = 0 :=
      (tally_congr (by rw [hpc]; rfl) _).trans ha
    have hf' : tally (Pc.frees k) (update s.pc j .idle) (id % 2 ^ k) = 0 :=
      (tally_congr (by rw [hpc]; rfl) _).trans hf
    rw [hnew, if_neg hne]
    refine h.changeIdle ⟨id, true, true, false, _⟩ _ _ _ _ he (hid ▸ hfit.1) ?_ ?_ ha' hf' ?_ hcount hsub hrefs
    · intro x hx
      rw [hpc]
      exact List.not_mem_nil
    · intro x hx
      rw [hpc]
      exact List.not_mem_nil
    · rw [show tally (List.map (· % 2 ^ k)) (update s.refs j ((s.refs j).erase id)) (id % 2 ^ k) =
        tally (List.map (· % 2 ^ k)) s.refs (id % 2 ^ k) - 1 by omega]
      simp only [St.outstanding] at hle
      exact .live id _ (by omega) (by omega)

/-- The exchange of `prs_god_free` succeeds. -/
theorem Inv.freeCas (h : Inv k s) {id : ℕ} {header : Header} (hpc : s.pc j = .freeCas id header)
    (hcas : s.header (id % 2 ^ k) = header) :
    Inv k { s with header := update s.header (id % 2 ^ k) header.onlyId, pc := update s.pc j .idle } := by
  have hid : (s.header (id % 2 ^ k)).id = id := h.owns j id (by rw [hpc]; rfl)
  obtain ⟨he, hpos⟩ := h.frees_pos (j := j) (e := id % 2 ^ k) (by rw [hpc]; exact List.mem_singleton_self _)
  obtain ⟨-, ha, hf, hr⟩ := (h.phase _ he).of_frees hpos
  have hlt := h.fits (id % 2 ^ k)
  have ta := tally_update (Pc.allocs k) s.pc j .idle (id % 2 ^ k)
  have tf := tally_update (Pc.frees k) s.pc j .idle (id % 2 ^ k)
  rw [hpc] at ta tf
  simp only [Pc.allocs, Pc.frees, List.count_nil, List.count_singleton_self, ha, hf] at ta tf
  have ha' : tally (Pc.allocs k) (update s.pc j .idle) (id % 2 ^ k) = 0 := by omega
  have hf' : tally (Pc.frees k) (update s.pc j .idle) (id % 2 ^ k) = 0 := by omega
  have hnew : header.onlyId = ⟨id, false, false, false, 0⟩ := by rw [Header.onlyId, ← hcas, hid]
  rw [hnew]
  have hchange := h.changeIdle (j := j) ⟨id, false, false, false, 0⟩ (s.refs j) s.object s.returned s.locked he
    (hid ▸ hlt) ?_ ?_ ha' hf' ?_ (fun _ _ => rfl) (fun _ hm _ => hm) ?_
  · rwa [update_eq_self] at hchange
  · intro x hx
    rw [hpc]
    exact List.not_mem_nil
  · intro x hx
    rw [hpc]
    exact fun hm => hx (List.mem_singleton.1 hm)
  · rw [update_eq_self, show tally (List.map (· % 2 ^ k)) s.refs (id % 2 ^ k) = 0 from hr]
    exact .free id
  · intro i' id' hm hide
    rw [update_eq_self] at hm
    exact absurd hide (no_ref hr i' id' hm)

/-- A place at which a thread has no entry. -/
def Pc.Plain (k : ℕ) (p : Pc) : Prop := p.allocs k = [] ∧ p.frees k = [] ∧ p.owns = none

theorem probe_plain (o i stop : ℕ) : (Pc.probe o i stop).Plain k := by
  unfold Pc.probe
  split <;> exact ⟨rfl, rfl, rfl⟩

theorem probe_ok {o i stop : ℕ} {refs : List ℕ} (hi : i < 2 ^ 32) : (Pc.probe o i stop).Ok refs := by
  unfold Pc.probe
  split
  · exact hi
  · trivial

theorem checkLock_plain (id : ℕ) (header : Header) : (Pc.checkLock id header).Plain k := by
  unfold Pc.checkLock
  split <;> exact ⟨rfl, rfl, rfl⟩

theorem checkLock_ok {id : ℕ} {header : Header} {refs : List ℕ} (h0 : 0 < id) :
    (Pc.checkLock id header).Ok refs := by
  unfold Pc.checkLock
  split
  · exact ⟨h0, ‹_›⟩
  · trivial

theorem checkUnlock_plain (id : ℕ) (final : Bool) (header : Header) :
    (Pc.checkUnlock id final header).Plain k := by
  unfold Pc.checkUnlock
  split <;> exact ⟨rfl, rfl, rfl⟩

theorem checkUnlock_ok {id : ℕ} {final : Bool} {header : Header} {refs : List ℕ} (hm : id ∈ refs) :
    (Pc.checkUnlock id final header).Ok refs := by
  unfold Pc.checkUnlock
  split
  case isTrue hc => exact ⟨hm, hc.1, hc.2.1, hc.2.2.1⟩
  case isFalse => trivial

theorem Inv.goto (h : Inv k s) {p : Pc} (hj : (s.pc j).Plain k) (hp : p.Plain k) (hok : p.Ok (s.refs j)) :
    Inv k (s.goto j p) :=
  h.move (hp.1.trans hj.1.symm) (hp.2.1.trans hj.2.1.symm)
    (fun id hid => by rw [hp.2.2] at hid; cases hid) hok h.index

theorem succ_lt (i : ℕ) : succ i < 2 ^ 32 := Nat.mod_lt _ (by decide)

theorem Inv.stepThread (h : Inv k s) {spurious : Bool} (hs : s.stepThread k j spurious = some s') : Inv k s' := by
  have hok := h.ok j
  unfold St.stepThread at hs
  split at hs <;> rename_i hpc <;> rw [hpc] at hok
  case h_1 => cases hs
  case h_2 o =>
    rw [← Option.some.inj hs]
    exact h.goto (by rw [hpc]; exact ⟨rfl, rfl, rfl⟩) (probe_plain _ _ _) (probe_ok h.index)
  case h_3 o i stop =>
    have hplain : (s.pc j).Plain k := by rw [hpc]; exact ⟨rfl, rfl, rfl⟩
    simp only at hs
    split at hs
    · rw [← Option.some.inj hs]
      exact h.goto hplain (probe_plain _ _ _) (probe_ok (succ_lt i))
    · split at hs
      · rw [← Option.some.inj hs]
        exact h.goto hplain (probe_plain _ _ _) (probe_ok (succ_lt i))
      · rename_i hres _
        rw [← Option.some.inj hs]
        exact h.goto hplain ⟨rfl, rfl, rfl⟩ ⟨hok, by simpa using hres⟩
  case h_4 o i stop header =>
    split at hs
    case isTrue hcas => rw [← Option.some.inj hs]; exact h.allocCas hpc hcas
    case isFalse =>
      rw [← Option.some.inj hs]
      exact h.goto (by rw [hpc]; exact ⟨rfl, rfl, rfl⟩) (probe_plain _ _ _) (probe_ok (succ_lt i))
  case h_5 o i =>
    rw [← Option.some.inj hs]
    exact h.move (by rw [hpc]; rfl) (by rw [hpc]; rfl) (fun id hid => by rw [hpc]; exact hid) trivial (succ_lt i)
  case h_6 o i => rw [← Option.some.inj hs]; exact h.allocStore hpc
  case h_7 id =>
    rw [← Option.some.inj hs]
    exact h.goto (by rw [hpc]; exact ⟨rfl, rfl, rfl⟩) (checkLock_plain _ _) (checkLock_ok hok)
  case h_8 id header =>
    split at hs
    case isTrue hcas => rw [← Option.some.inj hs]; exact (h.lockCas hpc hcas.1).2
    case isFalse =>
      rw [← Option.some.inj hs]
      exact h.goto (by rw [hpc]; exact ⟨rfl, rfl, rfl⟩) (checkLock_plain _ _) (checkLock_ok hok.1)
  case h_9 id final =>
    rw [← Option.some.inj hs]
    exact h.goto (by rw [hpc]; exact ⟨rfl, rfl, rfl⟩) (checkUnlock_plain _ _ _) (checkUnlock_ok hok)
  case h_10 id final header =>
    split at hs
    case isTrue hcas => rw [← Option.some.inj hs]; exact h.unlockCas hpc hcas.1
    case isFalse =>
      rw [← Option.some.inj hs]
      exact h.goto (by rw [hpc]; exact ⟨rfl, rfl, rfl⟩) (checkUnlock_plain _ _ _) (checkUnlock_ok hok.1)
  case h_11 id =>
    rw [← Option.some.inj hs]
    exact h.move (by rw [hpc]; rfl) (by rw [hpc]; rfl) (fun id hid => by rw [hpc]; exact hid) trivial h.index
  case h_12 id header =>
    rw [← Option.some.inj hs]
    exact h.move (by rw [hpc]; rfl) (by rw [hpc]; rfl) (fun id hid => by rw [hpc]; exact hid) trivial h.index
  case h_13 id header =>
    split at hs
    case isTrue hcas => rw [← Option.some.inj hs]; exact h.freeCas hpc hcas.1
    case isFalse =>
      rw [← Option.some.inj hs]
      exact h.move (by rw [hpc]; rfl) (by rw [hpc]; rfl) (fun id hid => by rw [hpc]; exact hid) trivial h.index

theorem Inv.step (h : Inv k s) {a : Act ι} (hs : s.step k a = some s') : Inv k s' := by
  cases a with
  | alloc j o =>
    obtain ⟨⟨hpc, -⟩, rfl⟩ := Option.ite_none_right_eq_some.1 hs |>.imp_right Option.some.inj
    exact h.move (by rw [hpc]; rfl) (by rw [hpc]; rfl) (fun id hid => by cases hid) trivial h.index
  | lock j id =>
    obtain ⟨⟨hpc, h0, -⟩, rfl⟩ := Option.ite_none_right_eq_some.1 hs |>.imp_right Option.some.inj
    exact h.goto (by rw [hpc]; exact ⟨rfl, rfl, rfl⟩) ⟨rfl, rfl, rfl⟩ h0
  | unlock j id final =>
    obtain ⟨⟨hpc, hm⟩, rfl⟩ := Option.ite_none_right_eq_some.1 hs |>.imp_right Option.some.inj
    exact h.goto (by rw [hpc]; exact ⟨rfl, rfl, rfl⟩) ⟨rfl, rfl, rfl⟩ hm
  | step j spurious => exact h.stepThread hs

end Prs.God
