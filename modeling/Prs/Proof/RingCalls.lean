import Prs.Model.RingSeq
import Prs.Proof.PoolTable

/-!
# What the calls of a ring do

`Rep` is what the words of a ring say: the nodes that are linked from `head_id` on, of which the first one may
be spent (its element was popped before and it is only passed by the next pop), the ids that users have from
`prs_mpmcring_alloc`, and those they have from `prs_mpmcring_pop`. An entry has one reference for each of the
three.

* `alloc_rep`, `push_rep`, `pop_rep`, `free_rep`: the calls keep `Rep`.
* `pop_fresh`, `pop_spent`: a pop of a ring whose first node is not spent, or is.
-/

namespace Prs.RingSeq

open Function PoolWords

variable {k id h n : ℕ} {s s' : St} {c : Bool} {ns : List ℕ}

section Refs

/-- A count of references, as the pool has it. -/
def counted : ℕ → Option ℕ
  | 0 => none
  | n + 1 => some (n + 1)

theorem counted_ne_none (h : n ≠ 0) : counted n ≠ none := by
  cases n with
  | zero => exact absurd rfl h
  | succ n => exact Option.some_ne_none _

/-- The references to an entry. -/
def refs (nodes : List ℕ) (owned popped : Finset ℕ) (id : ℕ) : ℕ :=
  (if id ∈ nodes then 1 else 0) + (if id ∈ owned then 1 else 0) + (if id ∈ popped then 1 else 0)

theorem refs_le (nodes : List ℕ) (owned popped : Finset ℕ) (id : ℕ) : refs nodes owned popped id ≤ 3 := by
  unfold refs
  split <;> split <;> split <;> omega

/-- An unlock takes one reference. -/
theorem unlock_counted {p : Pool} (h : Sane k p) (hf : p.find k id = some (n + 1)) :
    Sane k (p.unlock k id).2 ∧ (p.unlock k id).2.find k = update (p.find k) id (counted n) ∧
      (p.unlock k id).2.writeIndex = p.writeIndex := by
  obtain ⟨-, -, hn, -⟩ := h.find_eq_some.1 hf
  cases n with
  | zero =>
    rw [h.unlock_of_one hf]
    exact ⟨h.release hf, h.find_release hf, rfl⟩
  | succ n =>
    rw [h.unlock_of_find hf]
    exact ⟨h.set hf (by omega), h.find_set hf (by omega), rfl⟩

theorem writeIndex_lock (p : Pool) (id : ℕ) : (p.lock k id).2.writeIndex = p.writeIndex := by
  unfold Pool.lock
  dsimp only
  repeat' split
  all_goals rfl

end Refs

section Linked

/-- The id that a list starts with. -/
def firstId (ids : List ℕ) : ℕ := ids.head?.getD invalid

/-- The entries of a list of ids are linked. The first flag is `c`, and the others are false. -/
def Linked (k : ℕ) (next : ℕ → ℕ) (consumed : ℕ → Bool) : Bool → List ℕ → Prop
  | _, [] => True
  | c, id :: ids =>
    consumed (id % 2 ^ k) = c ∧ next (id % 2 ^ k) = firstId ids ∧ Linked k next consumed false ids

variable {next next' : ℕ → ℕ} {consumed consumed' : ℕ → Bool}

theorem Linked.congr (h : Linked k next consumed c ns)
    (heq : ∀ x ∈ ns, next' (x % 2 ^ k) = next (x % 2 ^ k) ∧ consumed' (x % 2 ^ k) = consumed (x % 2 ^ k)) :
    Linked k next' consumed' c ns := by
  induction ns generalizing c with
  | nil => trivial
  | cons x ns ih =>
    obtain ⟨hn, hc⟩ := heq x List.mem_cons_self
    exact ⟨hc.trans h.1, hn.trans h.2.1, ih h.2.2 fun y hy => heq y (List.mem_cons_of_mem x hy)⟩

/-- One more node at the end. -/
theorem Linked.snoc {l i : ℕ} (h : Linked k next consumed c (ns ++ [l])) (hne : ∀ x ∈ ns, x % 2 ^ k ≠ l % 2 ^ k)
    (hil : i % 2 ^ k ≠ l % 2 ^ k) (hnext : next (i % 2 ^ k) = invalid)
    (hconsumed : consumed (i % 2 ^ k) = false) :
    Linked k (update next (l % 2 ^ k) i) consumed c (ns ++ [l] ++ [i]) := by
  induction ns generalizing c with
  | nil =>
    refine ⟨h.1, update_self .., hconsumed, ?_, trivial⟩
    rw [update_of_ne hil]
    exact hnext
  | cons x ns ih =>
    refine ⟨h.1, ?_, ih h.2.2 fun y hy => hne y (List.mem_cons_of_mem x hy)⟩
    rw [update_of_ne (hne x List.mem_cons_self)]
    refine h.2.1.trans ?_
    cases ns <;> rfl

end Linked

/-- **What a ring has**: the nodes that are linked, with whether the first is spent, and the ids that users
have, allocated or popped. -/
structure Rep (k : ℕ) (s : St) (nodes : List ℕ) (spent : Bool) (owned popped : Finset ℕ) : Prop where
  sane : Sane k s.pool
  find : ∀ id, s.pool.find k id = counted (refs nodes owned popped id)
  linked : Linked k s.next s.consumed spent nodes
  nodup : nodes.Nodup
  head : s.headId = firstId nodes
  tail : s.tailId = nodes.getLast?.getD invalid
  fresh : nodes = [] → spent = false
  owned : ∀ id ∈ owned, id ∉ nodes ∧ id ∉ popped ∧ s.next (id % 2 ^ k) = invalid ∧ s.consumed (id % 2 ^ k) = false
  popped : ∀ id ∈ popped, id ∈ nodes → spent = true ∧ nodes.head? = some id

variable {nodes : List ℕ} {spent : Bool} {owned popped : Finset ℕ}

theorem rep_create (k : ℕ) : Rep k .create [] false ∅ ∅ where
  sane := sane_create k
  find := fun id => by
    have hrefs : refs [] ∅ ∅ id = 0 := by simp [refs]
    rw [hrefs]
    unfold Pool.find
    apply if_neg
    rintro ⟨hpos, -, ha⟩
    have hheader : St.create.pool.header (id % 2 ^ k) = 0 := by
      refine (create_header _).trans ?_
      rw [if_neg hpos]
    rw [hheader] at ha
    exact absurd ha (by decide)
  linked := trivial
  nodup := List.nodup_nil
  head := rfl
  tail := rfl
  fresh := fun _ => rfl
  owned := fun id hid => absurd hid (Finset.notMem_empty id)
  popped := fun id hid => absurd hid (Finset.notMem_empty id)

section Basic

theorem Rep.find_of_refs (h : Rep k s nodes spent owned popped) (hn : refs nodes owned popped id = n + 1) :
    s.pool.find k id = some (n + 1) := by
  rw [h.find, hn]
  rfl

theorem Rep.ne_none (h : Rep k s nodes spent owned popped) (hid : id ∈ nodes ∨ id ∈ owned ∨ id ∈ popped) :
    s.pool.find k id ≠ none := by
  rw [h.find]
  refine counted_ne_none ?_
  unfold refs
  obtain hid | hid | hid := hid <;> rw [if_pos hid] <;> omega

theorem Rep.ne_invalid (h : Rep k s nodes spent owned popped) (hid : id ∈ nodes ∨ id ∈ owned ∨ id ∈ popped) :
    id ≠ invalid := by
  obtain ⟨n, hn⟩ := Option.ne_none_iff_exists'.1 (h.ne_none hid)
  exact PoolWords.ne_invalid (h.sane.find_eq_some.1 hn).2.1

/-- Ids that are in use are in different entries. -/
theorem Rep.slot_ne (h : Rep k s nodes spent owned popped) {x y : ℕ} (hx : x ∈ nodes ∨ x ∈ owned ∨ x ∈ popped)
    (hy : y ∈ nodes ∨ y ∈ owned ∨ y ∈ popped) (hne : x ≠ y) : x % 2 ^ k ≠ y % 2 ^ k :=
  fun heq => hne (h.sane.find_inj (h.ne_none hx) (h.ne_none hy) heq)

theorem Rep.getId (h : Rep k s nodes spent owned popped) (hid : id ∈ nodes ∨ id ∈ owned ∨ id ∈ popped) :
    s.getId (id % 2 ^ k) = id := by
  obtain ⟨n, hn⟩ := Option.ne_none_iff_exists'.1 (h.ne_none hid)
  obtain ⟨-, hlt, -, hh⟩ := h.sane.find_eq_some.1 hn
  unfold St.getId
  rw [hh, getId_held hlt]

/-- **A lock** of a node, and the unlock that takes it back. -/
theorem Rep.lock (h : Rep k s nodes spent owned popped) (hid : id ∈ nodes ∨ id ∈ owned ∨ id ∈ popped) :
    s.lock k id = (some (id % 2 ^ k), { s with pool := (s.pool.lock k id).2 }) ∧
      (s.pool.lock k id).2.unlock k id = (false, s.pool) ∧ Sane k (s.pool.lock k id).2 ∧
      (s.pool.lock k id).2.find k = update (s.pool.find k) id (some (refs nodes owned popped id + 1)) := by
  have hle := refs_le nodes owned popped id
  obtain ⟨n, hn⟩ : ∃ n, refs nodes owned popped id = n + 1 := by
    refine ⟨refs nodes owned popped id - 1, ?_⟩
    unfold refs
    obtain hid | hid | hid := hid <;> rw [if_pos hid] <;> omega
  have hf := h.find_of_refs hn
  have hlt : n + 1 < refcntMax := by
    unfold refcntMax
    omega
  have hlock := h.sane.lock_of_find hf hlt
  refine ⟨?_, h.sane.unlock_lock hf hlt, ?_, ?_⟩
  · unfold St.lock
    rw [hlock, if_pos rfl]
  · rw [hlock]
    exact h.sane.set hf hlt
  · rw [hlock, hn]
    exact h.sane.find_set hf hlt

theorem Rep.lockValid (h : Rep k s nodes spent owned popped) (hid : id ∈ nodes ∨ id ∈ owned ∨ id ∈ popped) :
    s.lockValid k id = (some (id % 2 ^ k), { s with pool := (s.pool.lock k id).2 }) := by
  unfold St.lockValid
  rw [if_pos (h.ne_invalid hid)]
  exact (h.lock hid).1

theorem lockValid_invalid (s : St) : s.lockValid k invalid = (none, s) := if_neg fun h => h rfl

end Basic

section Push

/-- The loop of a push, with the last node locked. -/
theorem Rep.pushLoop (h : Rep k s (ns ++ [n]) spent owned popped) {i fuel : ℕ} {spurious : List Bool}
    (hfuel : spurious.length < fuel) :
    St.pushLoop k i fuel spurious { s with pool := (s.pool.lock k n).2 } n (some (n % 2 ^ k)) =
      some { s with next := update s.next (n % 2 ^ k) i, tailId := i } := by
  have hn : n ∈ ns ++ [n] := List.mem_append_right ns List.mem_cons_self
  obtain ⟨hlock, hunlock, -, -⟩ := h.lock (.inl hn)
  have htail : s.tailId = n := by
    rw [h.tail, List.getLast?_concat]
    rfl
  have hnext : s.next (n % 2 ^ k) = invalid := by
    have hlinked := h.linked
    clear * - hlinked
    induction ns generalizing spent with
    | nil => exact hlinked.2.1
    | cons x ns ih => exact ih hlinked.2.2
  have hback : St.unlock k { s with pool := (s.pool.lock k n).2 } n = s := by
    unfold St.unlock
    simp only [hunlock]
  -- by induction on the exchanges that fail: each one ends where it started
  induction spurious generalizing fuel with
  | nil =>
    obtain ⟨f, rfl⟩ : ∃ f, fuel = f + 1 := ⟨fuel - 1, by simp only [List.length_nil] at hfuel; omega⟩
    unfold St.pushLoop
    simp only [hnext, lockValid_invalid]
    simp [St.unlock, hunlock, htail]
  | cons b spurious ih =>
    obtain ⟨f, rfl⟩ : ∃ f, fuel = f + 1 := ⟨fuel - 1, by omega⟩
    have hrest := @ih f (by simpa using hfuel)
    unfold St.pushLoop
    simp only [hnext, lockValid_invalid]
    cases b with
    | false => simp [St.unlock, hunlock, htail]
    | true =>
      have hne := h.ne_invalid (.inl hn)
      simp only [List.headD_cons, Bool.true_eq_false, and_false, if_false, List.tail_cons, hback]
      rw [htail, if_pos hne, hlock]
      exact hrest

/-- **A push** of an element that its user has allocated. -/
theorem push_rep (h : Rep k s nodes spent owned popped) (hid : id ∈ owned) (spurious : List Bool) :
    ∃ s', s.push k (id % 2 ^ k) spurious = some s' ∧ Rep k s' (nodes ++ [id]) spent (owned.erase id) popped ∧
      s'.pool = s.pool := by
  obtain ⟨hno, hnp, hnext, hconsumed⟩ := h.owned id hid
  have hrefs : ∀ x, refs (nodes ++ [id]) (owned.erase id) popped x = refs nodes owned popped x := by
    intro x
    unfold refs
    by_cases hx : x = id
    · subst hx
      simp [hno, hid]
    · simp [hx]
  have hnodup : (nodes ++ [id]).Nodup := by
    rw [List.nodup_append]
    refine ⟨h.nodup, List.nodup_singleton id, fun x hx y hy hxy => ?_⟩
    rw [List.mem_singleton] at hy
    subst hxy hy
    exact hno hx
  unfold St.push
  rw [h.getId (.inr (.inl hid))]
  obtain hnil | ⟨ns, n, hnodes⟩ := List.eq_nil_or_concat' nodes
  · -- the first push
    subst hnil
    have htail : s.tailId = invalid := h.tail
    rw [htail, lockValid_invalid]
    unfold St.pushLoop
    simp only [htail, if_pos]
    refine ⟨_, rfl, ⟨h.sane, fun x => (h.find x).trans (by rw [hrefs]), ?_, hnodup, rfl, rfl, fun hc => ?_,
      fun x hx => ?_, fun x hx hmem => ?_⟩, rfl⟩
    · rw [h.fresh rfl]
      exact ⟨hconsumed, hnext, trivial⟩
    · exact absurd hc (List.append_ne_nil_of_right_ne_nil _ (List.cons_ne_nil _ _))
    · obtain ⟨hxid, hx⟩ := Finset.mem_erase.1 hx
      obtain ⟨-, hp, hn, hc⟩ := h.owned x hx
      exact ⟨by simpa using hxid, hp, hn, hc⟩
    · rw [List.nil_append, List.mem_singleton] at hmem
      subst hmem
      exact absurd hx hnp
  · subst hnodes
    have hn : n ∈ ns ++ [n] := List.mem_append_right ns List.mem_cons_self
    have htail : s.tailId = n := by
      rw [h.tail, List.getLast?_concat]
      rfl
    have hne : id ≠ n := by
      rintro rfl
      exact hno hn
    have hslot := h.slot_ne (.inr (.inl hid)) (.inl hn) hne
    rw [htail, h.lockValid (.inl hn)]
    refine ⟨_, h.pushLoop (Nat.lt_succ_self _),
      ⟨h.sane, fun x => (h.find x).trans (by rw [hrefs]), ?_, hnodup, ?_, ?_,
      fun hc => ?_, fun x hx => ?_, fun x hx hmem => ?_⟩, rfl⟩
    · refine h.linked.snoc (fun x hx => ?_) hslot hnext hconsumed
      refine h.slot_ne (.inl (List.mem_append_left _ hx)) (.inl hn) ?_
      rintro rfl
      exact (List.nodup_append.1 h.nodup).2.2 x hx x List.mem_cons_self rfl
    · have hhead := h.head
      rw [show firstId (ns ++ [n] ++ [id]) = firstId (ns ++ [n]) by cases ns <;> rfl]
      exact hhead
    · simp only [List.getLast?_concat, Option.getD_some]
    · exact absurd hc (List.append_ne_nil_of_right_ne_nil _ (List.cons_ne_nil _ _))
    · obtain ⟨hxid, hx⟩ := Finset.mem_erase.1 hx
      obtain ⟨hxn, hp, hxnext, hc⟩ := h.owned x hx
      refine ⟨?_, hp, ?_, hc⟩
      · rw [List.mem_append, List.mem_singleton, not_or]
        exact ⟨hxn, hxid⟩
      · have hxne : x ≠ n := by
          rintro rfl
          exact hxn hn
        exact (update_of_ne (h.slot_ne (.inr (.inl hx)) (.inl hn) hxne) _ _).trans hxnext
    · obtain hmem | hmem := List.mem_append.1 hmem
      · obtain ⟨hs, hhead⟩ := h.popped x hx hmem
        refine ⟨hs, ?_⟩
        rw [List.head?_append, hhead]
        rfl
      · rw [List.mem_singleton] at hmem
        subst hmem
        exact absurd hx hnp

end Push

section Users

/-- An entry that is not allocated is none of those in use. -/
theorem Rep.slot_ne_free (h : Rep k s nodes spent owned popped) {x e : ℕ}
    (hx : x ∈ nodes ∨ x ∈ owned ∨ x ∈ popped) (he : testAlloc (s.pool.header e) = false) : x % 2 ^ k ≠ e := by
  rintro rfl
  obtain ⟨n, hn⟩ := Option.ne_none_iff_exists'.1 (h.ne_none hx)
  obtain ⟨-, hlt, hmax, hh⟩ := h.sane.find_eq_some.1 hn
  rw [hh, testAlloc_held hlt hmax] at he
  cases he

/-- An id that is in no use has no references. -/
theorem Rep.unused (h : Rep k s nodes spent owned popped) (hf : s.pool.find k id = none) :
    id ∉ nodes ∧ id ∉ owned ∧ id ∉ popped :=
  ⟨fun hid => h.ne_none (.inl hid) hf, fun hid => h.ne_none (.inr (.inl hid)) hf,
    fun hid => h.ne_none (.inr (.inr hid)) hf⟩

/-- **An allocation** takes an entry that is not allocated, or all are. -/
theorem alloc_rep (h : Rep k s nodes spent owned popped) (hfit : s.pool.writeIndex + 2 ^ k ≤ refcntInc) :
    (s.alloc k = (none, s) ∧ ∀ e < 2 ^ k, testAlloc (s.pool.header e) = true) ∨
      ∃ id, (s.alloc k).1 = some (id % 2 ^ k) ∧ testAlloc (s.pool.header (id % 2 ^ k)) = false ∧
        Rep k (s.alloc k).2 nodes spent (insert id owned) popped := by
  obtain ⟨heq, hfull⟩ | ⟨id, -, -, -, hfree, heq⟩ := h.sane.alloc_cases hfit
  · refine .inl ⟨?_, hfull⟩
    unfold St.alloc
    rw [heq]
  · have hsome : (s.pool.alloc k).1 = some id := by rw [heq]
    obtain ⟨hsane, hnone, hfind, -⟩ := h.sane.find_alloc hfit hsome
    obtain ⟨hno, -, hnp⟩ := h.unused hnone
    have hzero : (s.pool.alloc k).2.find k id = some 0 := by rw [hfind, update_self]
    have hfirst := hsane.lockFirst_of_zero hzero
    have hfind' : ((s.pool.alloc k).2.lockFirst k id).find k = update (s.pool.find k) id (some 1) := by
      rw [hfirst, hsane.find_set hzero (by decide), hfind, update_idem]
    have hstep : s.alloc k = (some (id % 2 ^ k),
      ⟨(s.pool.alloc k).2.lockFirst k id, update s.next (id % 2 ^ k) invalid,
        update s.consumed (id % 2 ^ k) false, s.headId, s.tailId⟩) := by
      have hpair : s.pool.alloc k = (some id, (s.pool.alloc k).2) := Prod.ext hsome rfl
      unfold St.alloc
      rw [hpair]
    have hslot : ∀ x, x ∈ nodes ∨ x ∈ owned ∨ x ∈ popped → x % 2 ^ k ≠ id % 2 ^ k :=
      fun x hx => h.slot_ne_free hx hfree
    rw [hstep]
    refine .inr ⟨id, rfl, hfree, ⟨?_, fun x => ?_, ?_, h.nodup, h.head, h.tail, h.fresh, fun x hx => ?_,
      h.popped⟩⟩
    · rw [hfirst]
      exact hsane.set hzero (by decide)
    · refine (congrFun hfind' x).trans ?_
      by_cases hx : x = id
      · subst hx
        rw [update_self]
        unfold refs
        simp [hno, hnp, counted]
      · rw [update_of_ne hx, h.find]
        unfold refs
        simp [hx]
    · exact h.linked.congr fun x hx => ⟨update_of_ne (hslot x (.inl hx)) _ _,
        update_of_ne (hslot x (.inl hx)) _ _⟩
    · obtain rfl | hx := Finset.mem_insert.1 hx
      · exact ⟨hno, hnp, update_self .., update_self ..⟩
      · obtain ⟨hxn, hxp, hnext, hconsumed⟩ := h.owned x hx
        exact ⟨hxn, hxp, (update_of_ne (hslot x (.inr (.inl hx))) _ _).trans hnext,
          (update_of_ne (hslot x (.inr (.inl hx))) _ _).trans hconsumed⟩

/-- **A release** by a user. -/
theorem free_rep (h : Rep k s nodes spent owned popped) (hid : id ∈ owned ∨ id ∈ popped) :
    Rep k (s.free k (id % 2 ^ k)) nodes spent (owned.erase id) (popped.erase id) ∧
      (s.free k (id % 2 ^ k)).pool.writeIndex = s.pool.writeIndex := by
  have huse : id ∈ nodes ∨ id ∈ owned ∨ id ∈ popped := .inr hid
  have hone : refs nodes owned popped id = refs nodes (owned.erase id) (popped.erase id) id + 1 := by
    unfold refs
    obtain hid | hid := hid
    · obtain ⟨-, hp, -, -⟩ := h.owned id hid
      simp [hid, hp]
    · have ho : id ∉ owned := fun ho => (h.owned id ho).2.1 hid
      simp [hid, ho]
  obtain ⟨hsane, hfind, hwi⟩ := unlock_counted h.sane (h.find_of_refs hone)
  unfold St.free
  rw [h.getId huse]
  refine ⟨⟨hsane, fun x => ?_, h.linked, h.nodup, h.head, h.tail, h.fresh, fun x hx => ?_, fun x hx => ?_⟩, hwi⟩
  · refine (congrFun hfind x).trans ?_
    by_cases hx : x = id
    · subst hx
      rw [update_self]
    · rw [update_of_ne hx, h.find]
      unfold refs
      simp [hx]
  · obtain ⟨hn, hp, hrest⟩ := h.owned x (Finset.mem_of_mem_erase hx)
    exact ⟨hn, fun hc => hp (Finset.mem_of_mem_erase hc), hrest⟩
  · exact h.popped x (Finset.mem_of_mem_erase hx)

end Users

section Pop

/-- The elements that have not been popped. -/
def contents (spent : Bool) (nodes : List ℕ) : List ℕ := if spent then nodes.tail else nodes

/-- What a pop of a ring with the elements `ids` comes to. -/
def Pops (k : ℕ) (s : St) (ids : List ℕ) (owned popped : Finset ℕ) (x : Option (Option ℕ × St)) : Prop :=
  ∃ s' nodes' spent', x = some (ids.head?.map (· % 2 ^ k), s') ∧
    Rep k s' nodes' spent' owned (ids.head?.elim popped fun id => insert id popped) ∧
    contents spent' nodes' = ids.tail ∧ s'.pool.writeIndex = s.pool.writeIndex

section Turns

variable (s : St) (fuel : ℕ) (spurious : List Bool) {e j : ℕ}

/-- The element has not been consumed, and the head moves on. -/
theorem popLoop_move (hc : s.consumed e = false) (hn : s.next e ≠ invalid) (hh : s.headId = id)
    (hs : spurious.headD false = false) :
    St.popLoop k (fuel + 1) spurious s id (some e) =
      some (some e, St.unlock k { s with consumed := update s.consumed e true, headId := s.next e } id) := by
  unfold St.popLoop
  simp only [hc, hh, hs, decide_true, Bool.not_false, Bool.and_true, if_true, Bool.false_eq_true, if_false]
  rw [if_pos hn]

/-- The element has not been consumed, and the head stays. -/
theorem popLoop_stay (hc : s.consumed e = false) (hn : s.next e = invalid ∨ spurious.headD false = true) :
    St.popLoop k (fuel + 1) spurious s id (some e) = some
    (some e, { s with consumed := update s.consumed e true }) := by
  unfold St.popLoop
  obtain hn | hs := hn
  · simp only [hc, hn, ne_eq, not_true_eq_false, if_false, Bool.false_eq_true]
  · simp only [hc, hs, Bool.not_true, Bool.and_false, Bool.false_eq_true, if_false, ite_self]

theorem consumed_eq_self (hc : s.consumed e = true) : update s.consumed e true = s.consumed :=
  update_eq_iff.2 ⟨hc.symm, fun _ _ => rfl⟩

/-- The last element has been consumed. -/
theorem popLoop_empty (hc : s.consumed e = true) (hn : s.next e = invalid) :
    St.popLoop k (fuel + 1) spurious s id (some e) = some (none, s.unlock k id) := by
  unfold St.popLoop
  simp only [hc, consumed_eq_self s hc, hn, ne_eq, not_true_eq_false, if_false, if_true]

/-- The element has been consumed, and the head moves on. -/
theorem popLoop_pass (hc : s.consumed e = true) (hn : s.next e ≠ invalid) (hh : s.headId = id)
    (hs : spurious.headD false = false) {t : St}
    (ht : (St.unlock k { s with headId := s.next e } id).unlock k id = t) :
    St.popLoop k (fuel + 1) spurious s id (some e) =
      St.popLoop k fuel spurious.tail (t.lock k id).2 id (t.lock k id).1 := by
  subst ht
  conv_lhs => unfold St.popLoop
  simp only [hc, consumed_eq_self s hc, hh, hs, decide_true, Bool.not_false, Bool.and_true, if_true]
  rw [if_pos hn]

/-- The element has been consumed, and the head does not move, or has moved before. -/
theorem popLoop_retry (hc : s.consumed e = true) (hn : s.next e ≠ invalid)
    (hs : s.headId ≠ id ∨ spurious.headD false = true) (hj : s.headId = j) {t : St} (ht : s.unlock k id = t) :
    St.popLoop k (fuel + 1) spurious s id (some e) =
      St.popLoop k fuel spurious.tail (t.lock k j).2 j (t.lock k j).1 := by
  subst ht hj
  have hfail : (decide (s.headId = id) && !spurious.headD false) = false := by
    obtain hne | hs := hs
    · rw [decide_eq_false hne, Bool.false_and]
    · rw [hs, Bool.not_true, Bool.and_false]
  conv_lhs => unfold St.popLoop
  simp only [hc, consumed_eq_self s hc, hfail, Bool.false_eq_true, if_false, if_true]
  rw [if_pos hn]

/-- The first node was not found, and there is a new one. -/
theorem popLoop_none (hh : s.headId ≠ id) (hj : s.headId = j) :
    St.popLoop k (fuel + 1) spurious s id none = St.popLoop k fuel spurious (s.lock k j).2 j (s.lock k j).1 := by
  subst hj
  conv_lhs => unfold St.popLoop
  exact if_pos hh

end Turns

/-- **The first node is not spent**: it is popped. -/
theorem Rep.pop_fresh (h : Rep k s (n :: ns) false owned popped) (fuel : ℕ) (spurious : List Bool) :
    Pops k s (n :: ns) owned popped
      (St.popLoop k (fuel + 1) spurious { s with pool := (s.pool.lock k n).2 } n (some (n % 2 ^ k))) := by
  have hn : n ∈ n :: ns := List.mem_cons_self
  obtain ⟨-, hunlock, hsane, hfind⟩ := h.lock (.inl hn)
  obtain ⟨hconsumed, hnext, hlinked⟩ := h.linked
  have hhead : s.headId = n := h.head
  have hnotMem : n ∉ ns := (List.nodup_cons.1 h.nodup).1
  have hp : n ∉ popped := fun hc => absurd (h.popped n hc hn).1 Bool.false_ne_true
  have ho : n ∉ owned := fun hc => (h.owned n hc).1 hn
  have hpopped : ∀ x ∈ insert n popped, x ∉ ns := by
    intro x hx
    obtain rfl | hx := Finset.mem_insert.1 hx
    · exact hnotMem
    · exact fun hmem => absurd (h.popped x hx (List.mem_cons_of_mem n hmem)).1 Bool.false_ne_true
  have hslot : ∀ x, x ∈ n :: ns ∨ x ∈ owned ∨ x ∈ popped → x ≠ n →
    update s.consumed (n % 2 ^ k) true (x % 2 ^ k) =
      s.consumed (x % 2 ^ k) := fun x hx hxn => update_of_ne (h.slot_ne hx (.inl hn) hxn) _ _
  have hrest : Linked k s.next (update s.consumed (n % 2 ^ k) true) false ns := by
    refine hlinked.congr fun x hx => ⟨rfl, hslot x (.inl (List.mem_cons_of_mem n hx)) ?_⟩
    rintro rfl
    exact hnotMem hx
  have howned : ∀ x ∈ owned, x ∉ n :: ns ∧ x ∉ insert n popped ∧ s.next (x % 2 ^ k) = invalid ∧
      update s.consumed (n % 2 ^ k) true (x % 2 ^ k) = false := by
    intro x hx
    obtain ⟨hxn, hxp, hxnext, hxc⟩ := h.owned x hx
    have hne : x ≠ n := by
      rintro rfl
      exact hxn hn
    refine ⟨hxn, ?_, hxnext, (hslot x (.inr (.inl hx)) hne).trans hxc⟩
    rw [Finset.mem_insert, not_or]
    exact ⟨hne, hxp⟩
  by_cases hmove : s.next (n % 2 ^ k) ≠ invalid ∧ spurious.headD false = false
  · -- the head moves on, and the reference of the ring is the user's now
    obtain ⟨hvalid, hok⟩ := hmove
    obtain ⟨m, ns', rfl⟩ : ∃ m ns', ns = m :: ns' := by
      cases ns with
      | nil => exact absurd hnext hvalid
      | cons m ns' => exact ⟨m, ns', rfl⟩
    have hnextm : s.next (n % 2 ^ k) = m := hnext
    refine ⟨⟨s.pool, s.next, update s.consumed (n % 2 ^ k) true, m, s.tailId⟩, m :: ns', false, ?_,
      ⟨h.sane, fun x => ?_, hrest, (List.nodup_cons.1 h.nodup).2, rfl, h.tail,
        fun hc => absurd hc (List.cons_ne_nil _ _),
        fun x hx => ?_, fun x hx hmem => absurd hmem (hpopped x hx)⟩, rfl, rfl⟩
    · rw [popLoop_move { s with pool := (s.pool.lock k n).2 } fuel spurious hconsumed hvalid hhead hok]
      unfold St.unlock
      simp only [hunlock, hnextm]
      rfl
    · rw [h.find]
      unfold refs
      by_cases hx : x = n
      · subst hx
        simp [hnotMem, ho, hp]
      · simp [hx]
    · obtain ⟨hxn, hrest⟩ := howned x hx
      exact ⟨fun hmem => hxn (List.mem_cons_of_mem n hmem), hrest⟩
  · -- the node stays, with a reference more
    refine ⟨⟨(s.pool.lock k n).2, s.next, update s.consumed (n % 2 ^ k) true, s.headId, s.tailId⟩, n :: ns,
      true, ?_, ⟨hsane, fun x => ?_, ⟨update_self .., hnext, hrest⟩, h.nodup, h.head, h.tail,
        fun hc => absurd hc (List.cons_ne_nil _ _),
        howned, fun x hx hmem => ?_⟩, rfl, ?_⟩
    · refine popLoop_stay _ fuel spurious hconsumed ?_
      rw [not_and_or, not_not, Bool.not_eq_false] at hmove
      exact hmove
    · refine (congrFun hfind x).trans ?_
      by_cases hx : x = n
      · subst hx
        rw [update_self]
        unfold refs
        simp [hn, ho, hp, counted]
      · rw [update_of_ne hx, h.find]
        unfold refs
        simp [hx]
    · obtain rfl | hmem := List.mem_cons.1 hmem
      · exact ⟨rfl, rfl⟩
      · exact absurd hmem (hpopped x hx)
    · exact writeIndex_lock s.pool n

/-- The ring after the head has passed its first node. -/
theorem Rep.pass {m : ℕ} (h : Rep k s (n :: m :: ns) true owned popped) {p : Pool} (hsane : Sane k p)
    (hfind : p.find k = update (s.pool.find k) n (counted (if n ∈ popped then 1 else 0))) :
    Rep k { s with pool := p, headId := m } (m :: ns) false owned popped := by
  have hn : n ∈ n :: m :: ns := List.mem_cons_self
  have hnotMem : n ∉ m :: ns := (List.nodup_cons.1 h.nodup).1
  have ho : n ∉ owned := fun hc => (h.owned n hc).1 hn
  refine ⟨hsane, fun x => ?_, h.linked.2.2, (List.nodup_cons.1 h.nodup).2, rfl, h.tail,
    fun hc => absurd hc (List.cons_ne_nil _ _), fun x hx => ?_, fun x hx hmem => ?_⟩
  · refine (congrFun hfind x).trans ?_
    unfold refs
    by_cases hx : x = n
    · subst hx
      rw [update_self, if_neg hnotMem, if_neg ho]
      simp
    · rw [update_of_ne hx, h.find]
      unfold refs
      simp [hx]
  · obtain ⟨hxn, hrest⟩ := h.owned x hx
    exact ⟨fun hmem => hxn (List.mem_cons_of_mem n hmem), hrest⟩
  · obtain ⟨-, hhead⟩ := h.popped x hx (List.mem_cons_of_mem n hmem)
    obtain rfl : n = x := Option.some.inj hhead
    exact absurd hmem hnotMem

/-- A pop that has moved the head on looks at the node that it has passed once more. It is still locked by its
user, or is not found. -/
theorem Rep.popLoop_past {m : ℕ} (h : Rep k s (m :: ns) false owned popped) (hne : n ≠ m) (hnm : n ∉ ns)
    (ho : n ∉ owned) (hnext : s.next (n % 2 ^ k) = m) (hconsumed : s.consumed (n % 2 ^ k) = true) (fuel : ℕ)
    (spurious : List Bool) :
    ∃ spurious', St.popLoop k (fuel + 1) spurious (s.lock k n).2 n (s.lock k n).1 =
      St.popLoop k fuel spurious' { s with pool := (s.pool.lock k m).2 } m (some (m % 2 ^ k)) := by
  have hm : m ∈ m :: ns := List.mem_cons_self
  have hvalid : s.next (n % 2 ^ k) ≠ invalid := by
    rw [hnext]
    exact h.ne_invalid (.inl hm)
  have hhead : s.headId = m := h.head
  have hmoved : s.headId ≠ n := fun hc => hne (hc.symm.trans hhead)
  obtain ⟨hlockm, -, -, -⟩ := h.lock (.inl hm)
  by_cases hp : n ∈ popped
  · obtain ⟨hlock, hunlock, -, -⟩ := h.lock (.inr (.inr hp))
    have hback : St.unlock k { s with pool := (s.pool.lock k n).2 } n = s := by
      unfold St.unlock
      simp only [hunlock]
    refine ⟨spurious.tail, ?_⟩
    rw [hlock]
    have hturn := popLoop_retry { s with pool := (s.pool.lock k n).2 } fuel spurious hconsumed hvalid
      (.inl hmoved) hhead hback
    rw [hlockm] at hturn
    exact hturn
  · have hfind : s.pool.find k n = none := by
      rw [h.find]
      unfold refs
      simp [hne, hnm, ho, hp, counted]
    have hlock : s.lock k n = (none, s) := by
      unfold St.lock
      rw [h.sane.lock_of_none hfind, if_neg Bool.false_ne_true]
    refine ⟨spurious, ?_⟩
    rw [hlock, popLoop_none s fuel spurious hmoved hhead, hlockm]

/-- **The first node is spent**: the pop passes it, when there is another. -/
theorem Rep.pop_spent (h : Rep k s (n :: ns) true owned popped) {fuel : ℕ} {spurious : List Bool}
    (hfuel : spurious.length + 3 ≤ fuel) :
    Pops k s ns owned popped
      (St.popLoop k fuel spurious { s with pool := (s.pool.lock k n).2 } n (some (n % 2 ^ k))) := by
  have hn : n ∈ n :: ns := List.mem_cons_self
  obtain ⟨hlock, hunlock, -, -⟩ := h.lock (.inl hn)
  obtain ⟨hconsumed, hnext, -⟩ := h.linked
  have hhead : s.headId = n := h.head
  have hback : St.unlock k { s with pool := (s.pool.lock k n).2 } n = s := by
    unfold St.unlock
    simp only [hunlock]
  cases ns with
  | nil =>
    -- nothing is left
    obtain ⟨f, rfl⟩ : ∃ f, fuel = f + 1 := ⟨fuel - 1, by omega⟩
    refine ⟨s, [n], true, ?_, h, rfl, rfl⟩
    rw [popLoop_empty { s with pool := (s.pool.lock k n).2 } f spurious hconsumed hnext, hback]
    rfl
  | cons m ns =>
    have hnextm : s.next (n % 2 ^ k) = m := hnext
    have hvalid : s.next (n % 2 ^ k) ≠ invalid := by
      rw [hnextm]
      exact h.ne_invalid (.inl (List.mem_cons_of_mem n List.mem_cons_self))
    have hnotMem := (List.nodup_cons.1 h.nodup).1
    rw [List.mem_cons, not_or] at hnotMem
    have ho : n ∉ owned := fun hc => (h.owned n hc).1 hn
    -- without the reference of the ring
    have hrefs : refs (n :: m :: ns) owned popped n = (if n ∈ popped then 1 else 0) + 1 := by
      unfold refs
      rw [if_pos hn, if_neg ho]
      omega
    obtain ⟨hsane, hfind, hwi⟩ := unlock_counted h.sane (h.find_of_refs hrefs)
    have hpass := h.pass hsane hfind
    have hmoved : ∀ {f : ℕ} {spurious : List Bool}, 2 ≤ f → spurious.headD false = false →
        Pops k s (m :: ns) owned popped
          (St.popLoop k (f + 1) spurious { s with pool := (s.pool.lock k n).2 } n (some (n % 2 ^ k))) := by
      intro f spurious hf hok
      obtain ⟨g, rfl⟩ : ∃ g, f = g + 2 := ⟨f - 2, by omega⟩
      obtain ⟨spurious', heq⟩ := hpass.popLoop_past hnotMem.1 hnotMem.2 ho hnextm hconsumed (g + 1) spurious.tail
      obtain ⟨s', nodes', spent', hpop, hrep, hcont, hwi'⟩ := hpass.pop_fresh g spurious'
      refine ⟨s', nodes', spent', ?_, hrep, hcont, hwi'.trans hwi⟩
      rw [← hpop, ← heq]
      refine popLoop_pass { s with pool := (s.pool.lock k n).2 } (g + 2) spurious hconsumed hvalid hhead hok ?_
      unfold St.unlock
      simp only [hunlock, hnextm]
    -- by induction on the exchanges that fail: each one ends where it started
    induction spurious generalizing fuel with
    | nil =>
      obtain ⟨f, rfl⟩ : ∃ f, fuel = f + 1 := ⟨fuel - 1, by omega⟩
      exact hmoved (by simp only [List.length_nil] at hfuel; omega) rfl
    | cons b spurious ih =>
      rw [List.length_cons] at hfuel
      obtain ⟨f, rfl⟩ : ∃ f, fuel = f + 1 := ⟨fuel - 1, by omega⟩
      cases b with
      | false => exact hmoved (by omega) rfl
      | true =>
        have hrest := @ih f (by omega)
        have hturn := popLoop_retry { s with pool := (s.pool.lock k n).2 } f
          (true :: spurious) hconsumed hvalid (.inr rfl)
          hhead hback
        rw [hlock] at hturn
        rw [hturn]
        exact hrest

/-- **A pop** takes the first element, when there is one. -/
theorem pop_rep (h : Rep k s nodes spent owned popped) (spurious : List Bool) :
    Pops k s (contents spent nodes) owned popped (s.pop k spurious) := by
  unfold St.pop
  cases nodes with
  | nil =>
    have hhead : s.headId = invalid := h.head
    have hspent := h.fresh rfl
    subst hspent
    rw [hhead, lockValid_invalid]
    refine ⟨s, [], false, ?_, h, rfl, rfl⟩
    unfold St.popLoop
    simp only [hhead, ne_eq, not_true_eq_false, if_false]
    rfl
  | cons n ns =>
    have hhead : s.headId = n := h.head
    rw [hhead, h.lockValid (.inl List.mem_cons_self)]
    cases spent with
    | false => exact h.pop_fresh (spurious.length + 2) spurious
    | true => exact h.pop_spent le_rfl

end Pop

end Prs.RingSeq
