import Prs.Model.UserTextSteps
import Prs.Proof.UserTextTable

/-!
# User text while processes come and go

A call loads the base of an entry and then its size. An entry whose process is deleted in between has no size,
so the call goes on; but the entry can have another process by then.

* `Slots`: an entry with a base has its size too, and is that of a process in the table.
* `Held`: the base that a call has loaded is that of a process it has seen, and so is the size unless the
  entry was filled again.
* `user_text_seen`: as long as no entry that was filled again makes the old base and the new size reach the
  address, an address that is found was in a process that the call has seen; and in the first step where that
  fails, it was not.
* `user_text_torn`: a base of one process and the size of the next.
-/

namespace Prs.UserText.Steps

open Function

variable {ι : Type} {s s' : St ι} {p : Proc} {c : Call} {r r' : ι} {base size i n ip b : ℕ}

/-- The entry was not filled again since its base was loaded; or the base and the size that was found do not
reach the address; or the address is in a process that was in the table anyway. -/
def Fitting (s : St ι) : Reader → Prop
  | .size c base fills =>
    s.fills c.i = fills ∨ (base + s.table.size c.i) % 2 ^ 64 ≤ c.ip ∨ ∃ p ∈ s.seen c, p.Has c.ip
  | _ => True

/-- A load of a size finds an entry like that. -/
def Meets (s : St ι) : Act ι → Prop
  | .loadSize r => Fitting s (s.reader r)
  | _ => True

/-- Every address that was found was in a process that the call has seen. -/
def Right (s : St ι) : Prop := ∀ r ip seen, s.reader r = .ret ip true seen → ∃ p ∈ seen, p.Has ip

/-- A process has a base and an end. -/
def Valid (p : Proc) : Prop := p.base ≠ 0 ∧ p.base + p.size < 2 ^ 64

/-- The entries, and what the process service is about to store. -/
structure Slots (s : St ι) : Prop where
  entry : ∀ i, s.table.base i ≠ 0 → ∃ p ∈ s.loaded, p.index = i ∧ p.base = s.table.base i ∧
    p.size = s.table.size i ∧ Valid p
  counted : ∀ i, s.table.base i ≠ 0 → i < s.table.count ∨ ∃ p, s.writer = .addCount p ∧ p.index = i
  counting : ∀ p, s.writer = .addCount p → s.table.count ≤ p.index
  adding : ∀ p, s.writer = .addBase p → s.table.base p.index = 0 ∧ s.table.size p.index = p.size ∧ Valid p
  deleting : ∀ p, s.writer = .delSize p → s.table.base p.index = 0

/-- A call in progress has seen the processes that are in the table. -/
def Sees (s : St ι) (c : Call) : Prop := c.start ≤ s.added.length ∧ ∀ p ∈ s.loaded, p ∈ s.seen c

/-- A base that was loaded. -/
structure Held (s : St ι) (c : Call) (base fills : ℕ) : Prop where
  behind : base < c.ip
  filled : fills ≤ s.fills c.i
  proc : ∃ p ∈ s.seen c, p.base = base ∧ Valid p ∧
    (s.fills c.i = fills → s.table.size c.i = p.size ∨ s.table.size c.i = 0)

/-- What holds of a call. -/
def Sound (s : St ι) : Reader → Prop
  | .out => True
  | .base c => Sees s c
  | .size c base fills => Sees s c ∧ Held s c base fills
  | .ret ip result seen => result = true → ∃ p ∈ seen, p.Has ip

structure Inv (s : St ι) : Prop where
  slots : Slots s
  sound : ∀ r, Sound s (s.reader r)

section Writer

theorem addSize_eq (h : s.addSize base size = some s') :
    s.writer = .idle ∧ base ≠ 0 ∧ base + size < 2 ^ 64 ∧
      s' = { s with
        table := { s.table with size := update s.table.size s.table.index size }
        fills := update s.fills s.table.index (s.fills s.table.index + 1)
        writer := .addBase ⟨base, size, s.table.index⟩ } := by
  unfold St.addSize at h
  cases hw : s.writer with
  | idle =>
    rw [hw] at h
    obtain ⟨⟨-, hb, hfit⟩, h⟩ := Option.ite_none_right_eq_some.1 h
    exact ⟨rfl, hb, hfit, (Option.some.inj h).symm⟩
  | addBase p => rw [hw] at h; cases h
  | addCount p => rw [hw] at h; cases h
  | delSize p => rw [hw] at h; cases h

theorem addBase_eq (h : s.addBase = some s') :
    ∃ p, s.writer = .addBase p ∧
      s' = { s with
        table := { s.table with base := update s.table.base p.index p.base }
        loaded := p :: s.loaded
        added := s.added ++ [p]
        writer := if s.table.count ≤ p.index then .addCount p else .idle } := by
  unfold St.addBase at h
  cases hw : s.writer with
  | addBase p =>
    rw [hw] at h
    exact ⟨p, rfl, (Option.some.inj h).symm⟩
  | idle => rw [hw] at h; cases h
  | addCount p => rw [hw] at h; cases h
  | delSize p => rw [hw] at h; cases h

theorem addCount_eq (h : s.addCount = some s') :
    ∃ p, s.writer = .addCount p ∧
      s' = { s with table := { s.table with count := p.index + 1 }, writer := .idle } := by
  unfold St.addCount at h
  cases hw : s.writer with
  | addCount p =>
    rw [hw] at h
    exact ⟨p, rfl, (Option.some.inj h).symm⟩
  | idle => rw [hw] at h; cases h
  | addBase p => rw [hw] at h; cases h
  | delSize p => rw [hw] at h; cases h

theorem delBase_eq (h : s.delBase p = some s') :
    s.writer = .idle ∧ p ∈ s.loaded ∧
      s' = { s with
        table := { s.table with base := update s.table.base p.index 0 }
        loaded := s.loaded.erase p
        writer := .delSize p } := by
  unfold St.delBase at h
  cases hw : s.writer with
  | idle =>
    rw [hw] at h
    obtain ⟨hp, h⟩ := Option.ite_none_right_eq_some.1 h
    exact ⟨rfl, hp, (Option.some.inj h).symm⟩
  | addBase p => rw [hw] at h; cases h
  | addCount p => rw [hw] at h; cases h
  | delSize p => rw [hw] at h; cases h

theorem delSize_eq (h : s.delSize = some s') :
    ∃ p, s.writer = .delSize p ∧
      s' = { s with table := { s.table with size := update s.table.size p.index 0 }, writer := .idle } := by
  unfold St.delSize at h
  cases hw : s.writer with
  | delSize p =>
    rw [hw] at h
    exact ⟨p, rfl, (Option.some.inj h).symm⟩
  | idle => rw [hw] at h; cases h
  | addBase p => rw [hw] at h; cases h
  | addCount p => rw [hw] at h; cases h

end Writer

section Slots

theorem Slots.counted_of_ne (h : Slots s) (hw : ∀ p, s.writer ≠ .addCount p) (hi : s.table.base i ≠ 0) :
    i < s.table.count := by
  obtain hlt | ⟨p, hp, -⟩ := h.counted i hi
  · exact hlt
  · exact absurd hp (hw p)

/-- The process service finds a free entry. -/
theorem Slots.index_free (h : Slots s) (hw : s.writer = .idle) : s.table.base s.table.index = 0 := by
  unfold Table.index
  cases hf : findFree s.table.base s.table.count with
  | none =>
    by_contra hne
    exact absurd (h.counted_of_ne (by rw [hw]; exact nofun) hne) (Nat.lt_irrefl _)
  | some i => exact (findFree_some hf).2

theorem Slots.addSize (h : Slots s) (hs : s.addSize base size = some s') : Slots s' := by
  obtain ⟨hw, hb, hfit, rfl⟩ := addSize_eq hs
  have hfree := h.index_free hw
  refine ⟨?_, ?_, nofun, ?_, nofun⟩
  · intro i hi
    have hne : i ≠ s.table.index := by rintro rfl; exact hi hfree
    dsimp only
    rw [update_of_ne hne]
    exact h.entry i hi
  · intro i hi
    exact .inl (h.counted_of_ne (by rw [hw]; exact nofun) hi)
  · rintro p hp
    cases hp
    exact ⟨hfree, update_self .., hb, hfit⟩

theorem Slots.addBase (h : Slots s) (hs : s.addBase = some s') : Slots s' := by
  obtain ⟨p, hw, rfl⟩ := addBase_eq hs
  obtain ⟨hfree, hsize, hvalid⟩ := h.adding p hw
  have hwriter : ∀ x, (if s.table.count ≤ p.index then Writer.addCount p else .idle) = x →
      x = .addCount p ∧ s.table.count ≤ p.index ∨ x = .idle := by
    rintro x rfl
    split
    · rename_i hc
      exact .inl ⟨rfl, hc⟩
    · exact .inr rfl
  refine ⟨?_, ?_, ?_, ?_, ?_⟩
  · intro i hi
    dsimp only at hi ⊢
    by_cases hip : i = p.index
    · rw [hip]
      exact ⟨p, List.mem_cons_self, rfl, by rw [update_self], hsize.symm, hvalid⟩
    · rw [update_of_ne hip] at hi ⊢
      obtain ⟨q, hq, hqi⟩ := h.entry i hi
      exact ⟨q, List.mem_cons_of_mem p hq, hqi⟩
  · intro i hi
    dsimp only at hi ⊢
    by_cases hip : i = p.index
    · by_cases hc : s.table.count ≤ p.index
      · exact .inr ⟨p, if_pos hc, hip.symm⟩
      · exact .inl (by omega)
    · rw [update_of_ne hip] at hi
      exact .inl (h.counted_of_ne (by rw [hw]; exact nofun) hi)
  · intro q hq
    obtain ⟨heq, hc⟩ | heq := hwriter _ hq
    · cases heq
      exact hc
    · cases heq
  · intro q hq
    obtain ⟨heq, -⟩ | heq := hwriter _ hq <;> cases heq
  · intro q hq
    obtain ⟨heq, -⟩ | heq := hwriter _ hq <;> cases heq

theorem Slots.addCount (h : Slots s) (hs : s.addCount = some s') : Slots s' := by
  obtain ⟨p, hw, rfl⟩ := addCount_eq hs
  refine ⟨h.entry, ?_, nofun, nofun, nofun⟩
  intro i hi
  have hle := h.counting p hw
  refine .inl ?_
  dsimp only
  obtain hlt | ⟨q, hq, hqi⟩ := h.counted i hi
  · omega
  · rw [hw] at hq
    cases hq
    omega

theorem Slots.delBase (h : Slots s) (hs : s.delBase p = some s') : Slots s' := by
  obtain ⟨hw, -, rfl⟩ := delBase_eq hs
  have hother : ∀ {i}, update s.table.base p.index 0 i ≠ 0 → i ≠ p.index ∧ s.table.base i ≠ 0 := by
    intro i hi
    have hip : i ≠ p.index := by
      rintro rfl
      exact hi (update_self ..)
    rw [update_of_ne hip] at hi
    exact ⟨hip, hi⟩
  refine ⟨?_, ?_, nofun, nofun, ?_⟩
  · intro i hi
    obtain ⟨hip, hi'⟩ := hother hi
    obtain ⟨q, hq, hqi, hrest⟩ := h.entry i hi'
    have hqp : q ≠ p := by rintro rfl; exact hip hqi.symm
    dsimp only
    rw [update_of_ne hip]
    exact ⟨q, (List.mem_erase_of_ne hqp).2 hq, hqi, hrest⟩
  · intro i hi
    exact .inl (h.counted_of_ne (by rw [hw]; exact nofun) (hother hi).2)
  · rintro q hq
    cases hq
    exact update_self ..

theorem Slots.delSize (h : Slots s) (hs : s.delSize = some s') : Slots s' := by
  obtain ⟨p, hw, rfl⟩ := delSize_eq hs
  have hfree := h.deleting p hw
  refine ⟨?_, ?_, nofun, nofun, nofun⟩
  · intro i hi
    have hip : i ≠ p.index := by rintro rfl; exact hi hfree
    dsimp only
    rw [update_of_ne hip]
    exact h.entry i hi
  · intro i hi
    exact .inl (h.counted_of_ne (by rw [hw]; exact nofun) hi)

end Slots

section Later

/-- What a call in progress can rely on in a later state. -/
structure Later (s s' : St ι) : Prop where
  added : ∃ new, s'.added = s.added ++ new ∧ ∀ p ∈ s'.loaded, p ∈ s.loaded ∨ p ∈ new
  fills : ∀ i, s.fills i ≤ s'.fills i
  size : ∀ i, s'.fills i = s.fills i → s'.table.size i = s.table.size i ∨ s'.table.size i = 0

theorem Later.seen (h : Later s s') (hc : c.start ≤ s.added.length) (hp : p ∈ s.seen c) : p ∈ s'.seen c := by
  obtain ⟨new, hnew, -⟩ := h.added
  unfold St.seen at *
  rw [hnew, List.drop_append_of_le_length hc, ← List.append_assoc]
  exact List.mem_append_left new hp

theorem Later.sees (h : Later s s') (hc : Sees s c) : Sees s' c := by
  obtain ⟨hstart, hloaded⟩ := hc
  obtain ⟨new, hnew, hnl⟩ := h.added
  refine ⟨by rw [hnew, List.length_append]; omega, ?_⟩
  intro p hp
  obtain hp | hp := hnl p hp
  · exact h.seen hstart (hloaded p hp)
  · unfold St.seen
    rw [hnew, List.drop_append_of_le_length hstart, ← List.append_assoc]
    exact List.mem_append_right _ hp

theorem Later.held (h : Later s s') (hc : Sees s c) (hh : Held s c b n) : Held s' c b n := by
  obtain ⟨p, hp, hb, hv, hsize⟩ := hh.proc
  have hle := h.fills c.i
  have hfilled := hh.filled
  refine ⟨hh.behind, Nat.le_trans hfilled hle, p, h.seen hc.1 hp, hb, hv, ?_⟩
  intro heq
  -- the entry was not filled again
  obtain hs | hs := h.size c.i (by omega)
  · rw [hs]
    exact hsize (by omega)
  · exact .inr hs

/-- **A call in progress stays sound** when others take a step. -/
theorem Later.sound (h : Later s s') {x : Reader} (hx : Sound s x) : Sound s' x := by
  cases x with
  | out => trivial
  | base c => exact h.sees hx
  | size c b n => exact ⟨h.sees hx.1, h.held hx.1 hx.2⟩
  | ret ip result seen => exact hx

theorem later_addSize (hs : s.addSize base size = some s') : Later s s' := by
  obtain ⟨-, -, -, rfl⟩ := addSize_eq hs
  refine ⟨⟨[], (List.append_nil _).symm, fun p hp => .inl hp⟩, ?_, ?_⟩
  · intro i
    dsimp only
    by_cases hi : i = s.table.index
    · rw [hi, update_self]
      exact Nat.le_succ _
    · exact Nat.le_of_eq (update_of_ne hi ..).symm
  · intro i heq
    dsimp only at heq ⊢
    by_cases hi : i = s.table.index
    · rw [hi, update_self] at heq
      omega
    · rw [update_of_ne hi]
      exact .inl rfl

theorem later_addBase (hs : s.addBase = some s') : Later s s' := by
  obtain ⟨p, -, rfl⟩ := addBase_eq hs
  refine ⟨⟨[p], rfl, ?_⟩, fun i => Nat.le_refl _, fun i _ => .inl rfl⟩
  intro q hq
  obtain rfl | hq := List.mem_cons.1 hq
  · exact .inr List.mem_cons_self
  · exact .inl hq

theorem later_addCount (hs : s.addCount = some s') : Later s s' := by
  obtain ⟨p, -, rfl⟩ := addCount_eq hs
  exact ⟨⟨[], (List.append_nil _).symm, fun p hp => .inl hp⟩, fun i => Nat.le_refl _, fun i _ => .inl rfl⟩

theorem later_delBase (hs : s.delBase p = some s') : Later s s' := by
  obtain ⟨-, -, rfl⟩ := delBase_eq hs
  exact ⟨⟨[], (List.append_nil _).symm, fun q hq => .inl (List.mem_of_mem_erase hq)⟩, fun i => Nat.le_refl _,
    fun i _ => .inl rfl⟩

theorem later_delSize (hs : s.delSize = some s') : Later s s' := by
  obtain ⟨p, -, rfl⟩ := delSize_eq hs
  refine ⟨⟨[], (List.append_nil _).symm, fun p hp => .inl hp⟩, fun i => Nat.le_refl _, ?_⟩
  intro i _
  dsimp only
  by_cases hi : i = p.index
  · rw [hi, update_self]
    exact .inr rfl
  · rw [update_of_ne hi]
    exact .inl rfl

/-- **What a load of a size decides** is right when the step meets the condition. -/
theorem Held.right (h : Held s c b n) (hm : s.fills c.i = n ∨ (b + s.table.size c.i) % 2 ^ 64 ≤ c.ip ∨
    ∃ p ∈ s.seen c, p.Has c.ip)
    (hs : s.table.size c.i ≠ 0) (hip : c.ip < (b + s.table.size c.i) % 2 ^ 64) : ∃ p ∈ s.seen c, p.Has c.ip := by
  obtain ⟨p, hp, hb, ⟨-, hfit⟩, hsize⟩ := h.proc
  obtain heq | hle | hseen := hm
  · obtain heq | hzero := hsize heq
    · have hbehind := h.behind
      rw [heq, ← hb, Nat.mod_eq_of_lt hfit] at hip
      exact ⟨p, hp, by omega, hip⟩
    · exact absurd hzero hs
  · omega
  · exact hseen

/-- A step of the process service leaves the calls alone. -/
theorem Inv.writer (h : Inv s) (hslots : Slots s') (hl : Later s s') (hr : s'.reader = s.reader) : Inv s' := by
  refine ⟨hslots, fun r => ?_⟩
  rw [hr]
  exact hl.sound (h.sound r)

theorem inv_start : Inv (St.start : St ι) where
  slots := ⟨fun _ h => absurd rfl h, fun _ h => absurd rfl h, nofun, nofun, nofun⟩
  sound := fun _ => trivial

theorem Inv.right (h : Inv s) : Right s := by
  intro r ip seen hr
  have hsound := h.sound r
  rw [hr] at hsound
  exact hsound rfl

end Later

section Reader

variable [DecidableEq ι]

/-- A step of a call changes its own variables only. -/
theorem Inv.setReader (h : Inv s) {x : Reader} (hx : Sound s x) : Inv (s.setReader r x) := by
  have hl : Later s (s.setReader r x) :=
    ⟨⟨[], (List.append_nil _).symm, fun p hp => .inl hp⟩, fun i => Nat.le_refl _, fun i _ => .inl rfl⟩
  refine ⟨⟨h.slots.entry, h.slots.counted, h.slots.counting, h.slots.adding, h.slots.deleting⟩, fun r' => ?_⟩
  by_cases hr : r' = r
  · rw [hr, show (s.setReader r x).reader r = x from update_self ..]
    exact hl.sound hx
  · rw [show (s.setReader r x).reader r' = s.reader r' from update_of_ne hr ..]
    exact hl.sound (h.sound r')

theorem Inv.begin (h : Inv s) (hs : s.begin r ip = some s') : Inv s' := by
  have hsees : Sees s ⟨ip, s.table.count, 0, s.loaded, s.added.length⟩ :=
    ⟨Nat.le_refl _, fun p hp => List.mem_append_left _ hp⟩
  unfold St.begin at hs
  split at hs
  · obtain rfl := Option.some.inj hs
    exact h.setReader hsees
  · obtain rfl := Option.some.inj hs
    exact h.setReader hsees
  · cases hs

theorem Inv.loadBase (h : Inv s) (hs : s.loadBase r = some s') : Inv s' := by
  unfold St.loadBase at hs
  have hsound := h.sound r
  cases hr : s.reader r with
  | base c =>
    rw [hr] at hs hsound
    have hsees : Sees s c := hsound
    dsimp only at hs
    by_cases hi : c.i < c.count
    · rw [if_pos hi] at hs
      by_cases hb : s.table.base c.i ≠ 0 ∧ s.table.base c.i < c.ip
      · rw [if_pos hb] at hs
        obtain rfl := Option.some.inj hs
        -- the process that is in the entry now
        obtain ⟨p, hp, -, hpb, hps, hv⟩ := h.slots.entry c.i hb.1
        exact h.setReader ⟨hsees, hb.2, Nat.le_refl _, p, hsees.2 p hp, hpb, hv, fun _ => .inl hps.symm⟩
      · rw [if_neg hb] at hs
        obtain rfl := Option.some.inj hs
        exact h.setReader (show Sees s { c with i := c.i + 1 } from hsees)
    · rw [if_neg hi] at hs
      obtain rfl := Option.some.inj hs
      exact h.setReader (show Sound s (.ret c.ip false (s.seen c)) from nofun)
  | out => rw [hr] at hs; cases hs
  | size c b n => rw [hr] at hs; cases hs
  | ret ip result seen => rw [hr] at hs; cases hs

theorem Inv.loadSize (h : Inv s) (hm : Meets s (.loadSize r)) (hs : s.loadSize r = some s') : Inv s' := by
  unfold St.loadSize at hs
  unfold Meets Fitting at hm
  dsimp only at hm
  have hsound := h.sound r
  cases hr : s.reader r with
  | size c b n =>
    rw [hr] at hs hsound hm
    obtain ⟨hsees, hheld⟩ := hsound
    dsimp only at hs hm
    by_cases hhit : s.table.size c.i ≠ 0 ∧ c.ip < (b + s.table.size c.i) % 2 ^ 64
    · rw [if_pos hhit] at hs
      obtain rfl := Option.some.inj hs
      exact h.setReader (show Sound s (.ret c.ip true (s.seen c)) from fun _ => hheld.right hm hhit.1 hhit.2)
    · rw [if_neg hhit] at hs
      obtain rfl := Option.some.inj hs
      exact h.setReader (show Sees s { c with i := c.i + 1 } from hsees)
  | out => rw [hr] at hs; cases hs
  | base c => rw [hr] at hs; cases hs
  | ret ip result seen => rw [hr] at hs; cases hs

/-- **Each step keeps the invariant.** -/
theorem inv_step (h : Inv s) {a : Act ι} (hm : Meets s a) (hs : s.step a = some s') : Inv s' := by
  cases a with
  | addSize base size =>
    exact h.writer (h.slots.addSize hs) (later_addSize hs) (by obtain ⟨-, -, -, rfl⟩ := addSize_eq hs; rfl)
  | addBase =>
    exact h.writer (h.slots.addBase hs) (later_addBase hs) (by obtain ⟨p, -, rfl⟩ := addBase_eq hs; rfl)
  | addCount =>
    exact h.writer (h.slots.addCount hs) (later_addCount hs) (by obtain ⟨p, -, rfl⟩ := addCount_eq hs; rfl)
  | delBase p =>
    exact h.writer (h.slots.delBase hs) (later_delBase hs) (by obtain ⟨-, -, rfl⟩ := delBase_eq hs; rfl)
  | delSize =>
    exact h.writer (h.slots.delSize hs) (later_delSize hs) (by obtain ⟨p, -, rfl⟩ := delSize_eq hs; rfl)
  | begin r ip => exact h.begin hs
  | loadBase r => exact h.loadBase hs
  | loadSize r => exact h.loadSize hm hs

theorem inv_reach (h : (sys ι).Reach Meets s) : Inv s := by
  apply h.inv
  · rintro s rfl
    exact inv_start
  · intro s a s' hi hm hs
    exact inv_step hi hm hs

/-- A load that does not meet the condition decides wrongly. -/
theorem Inv.not_right (h : Inv s) (hm : ¬ Meets s (.loadSize r)) (hs : s.loadSize r = some s') : ¬ Right s' := by
  unfold St.loadSize at hs
  unfold Meets Fitting at hm
  dsimp only at hm
  have hsound := h.sound r
  cases hr : s.reader r with
  | size c b n =>
    rw [hr] at hs hsound hm
    dsimp only at hs hm
    obtain ⟨p, -, hb, ⟨-, hfit⟩, -⟩ := hsound.2.proc
    have hbehind := hsound.2.behind
    -- the entry was filled again, and what was put together reaches the address
    rw [not_or, not_or] at hm
    obtain ⟨-, hip, hno⟩ := hm
    have hzero : s.table.size c.i ≠ 0 := by
      intro hz
      rw [hz] at hip
      omega
    rw [if_pos ⟨hzero, Nat.lt_of_not_le hip⟩] at hs
    obtain rfl := Option.some.inj hs
    intro hright
    exact hno (hright r c.ip (s.seen c) (update_self ..))
  | out => rw [hr] at hm; exact absurd trivial hm
  | base c => rw [hr] at hm; exact absurd trivial hm
  | ret ip result seen => rw [hr] at hm; exact absurd trivial hm

/-- **An address that is found was in a process of the table**, in every run whose steps meet the condition. A
load of a size that does not meet it finds an address that was in none. -/
theorem user_text_seen (h : (sys ι).Reach Meets s) :
    Right s ∧ ∀ r s', (sys ι).step s (.loadSize r) = some s' → (Right s' ↔ Meets s (.loadSize r)) := by
  have hi := inv_reach h
  refine ⟨hi.right, ?_⟩
  intro r s' hs
  constructor
  · intro hright
    by_contra hm
    exact hi.not_right hm hs hright
  · intro hm
    exact (inv_step hi hm hs).right

instance (s : St ι) : (x : Reader) → Decidable (Fitting s x)
  | .out => .isTrue trivial
  | .base _ => .isTrue trivial
  | .size c base fills =>
    inferInstanceAs (Decidable (s.fills c.i = fills ∨ (base + s.table.size c.i) % 2 ^ 64 ≤ c.ip ∨
      ∃ p ∈ s.seen c, p.Has c.ip))
  | .ret _ _ _ => .isTrue trivial

instance (s : St ι) : (a : Act ι) → Decidable (Meets s a)
  | .addSize _ _ => .isTrue trivial
  | .addBase => .isTrue trivial
  | .addCount => .isTrue trivial
  | .delBase _ => .isTrue trivial
  | .delSize => .isTrue trivial
  | .begin _ _ => .isTrue trivial
  | .loadBase _ => .isTrue trivial
  | .loadSize r => inferInstanceAs (Decidable (Fitting s (s.reader r)))

end Reader

section Runs

/-- A call has found an address, in the process it should be in or not. -/
def found (inside : Bool) : Reader → Bool
  | .ret ip true seen => (seen.any fun p => decide (p.Has ip)) == inside
  | _ => false

/-- A process is loaded, and an address in it is found. -/
theorem user_text_seen_found :
    ∃ s, (sys ℕ).Reach Meets s ∧ found true (s.reader 0) = true ∧
      (Right s ∧ ∀ r s', (sys ℕ).step s (.loadSize r) = some s' → (Right s' ↔ Meets s (.loadSize r))) := by
  obtain ⟨s, hs, hf⟩ := System.exists_of_check (sys ℕ) Meets
    (fun s => found true (s.reader 0) = true) St.start rfl
    [.addSize 100 10, .addBase, .addCount, .begin 0 105, .loadBase 0, .loadSize 0] (by decide +kernel)
  exact ⟨s, hs, hf, user_text_seen hs⟩

/-- The base of one process and the size of the next: `500` is neither in `[100, 110)` nor in `[1000, 2000)`. -/
theorem user_text_torn : (∃ s, (sys ℕ).Reachable s ∧ found false (s.reader 0) = true) ∧ ¬ ∀ s,
    (sys ℕ).Reachable s → Right s := by
  have htorn : ∃ s, (sys ℕ).Reachable s ∧ found false (s.reader 0) = true :=
    System.exists_of_check (sys ℕ) (fun _ _ => True) (fun s => found false (s.reader 0) = true) St.start rfl
      [.addSize 100 10, .addBase, .addCount, .begin 0 500, .loadBase 0, .delBase ⟨100, 10, 0⟩, .delSize,
        .addSize 1000 1000, .addBase, .loadSize 0] (by decide +kernel)
  refine ⟨htorn, fun h => ?_⟩
  obtain ⟨s, hs, hf⟩ := htorn
  unfold found at hf
  split at hf
  · rename_i ip seen hr
    obtain ⟨p, hp, hip⟩ := h s hs 0 ip seen hr
    have hany : (seen.any fun p => decide (p.Has ip)) = true := List.any_eq_true.2 ⟨p, hp, decide_eq_true hip⟩
    rw [hany] at hf
    cases hf
  · cases hf

end Runs

end Prs.UserText.Steps
