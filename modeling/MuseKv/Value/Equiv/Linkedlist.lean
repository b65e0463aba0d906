import MuseKv.Value.Heap
import MuseKv.Kvstore.Equiv.Text
import Mathlib.Data.Finset.Card
import Mathlib.Data.List.InsertIdx
import Mathlib.Data.Finset.Range

/-!
# The list in memory is a sequence

`Holds m t l`: the nodes of the list `t` are a ring with the contents (and addresses) `l`, and its
counter is their number, in an `int`.  Every operation of `HeapList` does to the contents what the
operation of `Linkedlist` of the same name does, and changes no other node (`Changes`).

`refines_sequence`: after every sequence of calls on the empty list, as long as the list stays below
`2^31` contents, the ring is the sequence that the calls denote, and the next call returns what the
sequence operation returns.
-/

namespace MuseKv

open General Kvstore

namespace HeapList

/-- The list holds the contents `l`. -/
structure Holds (m : NodeHeap) (t : HeapList) (l : List (ℕ × Str)) : Prop where
  ring : m.mem.Ring t.head l
  lt : ∀ p ∈ Heap.addrs l, p < m.top
  length : t.length = wrap32 l.length

/-- What an operation on the list with the nodes `l` changes: the nodes of `l`, and fresh ones. -/
structure Changes (m m' : NodeHeap) (l l' : List (ℕ × Str)) : Prop where
  le : m.top ≤ m'.top
  frame : ∀ q, q ∉ Heap.addrs l → q < m.top → m'.mem q = m.mem q
  fresh : ∀ p ∈ Heap.addrs l', p ∈ Heap.addrs l ∨ m.top ≤ p

variable {m : NodeHeap} {t : HeapList} {l : List (ℕ × Str)}

/-! ### The representation -/

theorem holds_new (m : NodeHeap) : Holds m new [] where
  ring := ⟨List.nodup_nil, rfl, none, rfl, rfl⟩
  lt p hp := absurd hp (by simp)
  length := rfl

/-- **Frame rule**: a list survives whatever leaves its nodes alone. -/
theorem Holds.congr (h : Holds m t l) {m' : NodeHeap} (hle : m.top ≤ m'.top)
    (hm : ∀ p ∈ Heap.addrs l, m'.mem p = m.mem p) : Holds m' t l :=
  ⟨h.ring.congr hm, fun p hp => (h.lt p hp).trans_le hle, h.length⟩

theorem Holds.head_none (h : Holds m t l) : t.head = none ↔ l = [] := by
  rw [h.ring.head_eq, List.head?_eq_none_iff, List.map_eq_nil_iff]

/-- The head of a list that is not empty. -/
theorem Holds.head_cons {p : ℕ} {a : Str} (h : Holds m t ((p, a) :: l)) : t.head = some p :=
  h.ring.head_eq

/-- The number of addresses handed out is enough fuel. -/
theorem Holds.length_le (h : Holds m t l) : l.length ≤ m.top := by
  have hsub : (Heap.addrs l).toFinset ⊆ Finset.range m.top := by
    intro p hp
    exact Finset.mem_range.mpr (h.lt p (List.mem_toFinset.mp hp))
  have hcard := Finset.card_le_card hsub
  rwa [List.toFinset_card_of_nodup h.ring.nodup, Finset.card_range, List.length_map] at hcard

theorem Holds.length_exact (h : Holds m t l) (hlt : l.length < 2 ^ 31) : t.length = l.length := by
  rw [h.length, wrap32_natCast hlt]

/-- The addresses of a list are below `top`, so the next node is a fresh one. -/
theorem Holds.top_not_mem (h : Holds m t l) : m.top ∉ Heap.addrs l := fun hmem =>
  absurd (h.lt _ hmem) (lt_irrefl _)

/-! ### `push_front` and `push_back` -/

theorem wrap_length_succ (h : Holds m t l) (x : ℕ × Str) :
    wrap32 (t.length + 1) = wrap32 (x :: l).length := by
  rw [h.length, wrap32_add_left, List.length_cons]
  push_cast
  rfl

/-- The first node of a list. -/
theorem holds_newRing (h : Holds m t []) (content : Str) :
    Holds (newRing m content) ⟨some m.top, wrap32 (t.length + 1)⟩ [(m.top, content)] where
  ring := Heap.ring_singleton (Function.update_self ..)
  lt p hp := by
    rw [List.mem_singleton.mp hp]
    exact Nat.lt_succ_self _
  length := wrap_length_succ h _

theorem changes_newRing (m : NodeHeap) (content : Str) :
    Changes m (newRing m content) [] [(m.top, content)] where
  le := Nat.le_succ _
  frame _ _ hq := Function.update_of_ne (Nat.ne_of_lt hq) _ _
  fresh _ hp := Or.inr (List.mem_singleton.mp hp).ge

/-- A node linked in front of the head of a ring, which may then become the head. -/
theorem Holds.insertBefore {p : ℕ} {a : Str} (h : Holds m t ((p, a) :: l)) (content : Str) :
    ∃ mem, m.mem.insertBefore p m.top content = some mem ∧
      Holds ⟨mem, m.top + 1⟩ ⟨some p, wrap32 (t.length + 1)⟩ ((p, a) :: l ++ [(m.top, content)]) ∧
      Holds ⟨mem, m.top + 1⟩ ⟨some m.top, wrap32 (t.length + 1)⟩
        ((m.top, content) :: (p, a) :: l) ∧
      Changes m ⟨mem, m.top + 1⟩ ((p, a) :: l) ((m.top, content) :: (p, a) :: l) := by
  have hring : m.mem.Ring (some p) ((p, a) :: l) := h.head_cons ▸ h.ring
  obtain ⟨mem, hmem, hring', hframe⟩ := hring.insertBefore h.top_not_mem content
  have hlt : ∀ q ∈ Heap.addrs ((m.top, content) :: (p, a) :: l), q < m.top + 1 := by
    intro q hq
    rcases List.mem_cons.mp hq with rfl | hq
    · exact Nat.lt_succ_self _
    · exact (h.lt q hq).trans (Nat.lt_succ_self _)
  have hrot : ((p, a) :: l ++ [(m.top, content)]).Perm ((m.top, content) :: (p, a) :: l) :=
    List.perm_append_comm
  have hperm := hrot.map Prod.fst
  refine ⟨mem, hmem, ⟨hring', fun q hq => hlt q (hperm.subset hq), ?_⟩,
    ⟨hring'.rotate, hlt, wrap_length_succ h _⟩, Nat.le_succ _, ?_, ?_⟩
  · rw [wrap_length_succ h (m.top, content), hrot.length_eq]
  · intro q hq hlt'
    apply hframe
    rw [Heap.addrs, hperm.mem_iff]
    intro hq'
    rcases List.mem_cons.mp hq' with rfl | hq'
    · exact absurd hlt' (lt_irrefl _)
    · exact hq hq'
  · intro q hq
    rcases List.mem_cons.mp hq with rfl | hq
    · exact Or.inr le_rfl
    · exact Or.inl hq

/-- **`push_front`.** -/
theorem Holds.pushFront (h : Holds m t l) (content : Str) :
    ∃ m' t' l', HeapList.pushFront m t content = some (m', t') ∧ Holds m' t' l' ∧
      l'.map Prod.snd = Linkedlist.pushFront (l.map Prod.snd) content ∧ Changes m m' l l' := by
  cases l with
  | nil =>
    refine ⟨newRing m content, _, _, ?_, holds_newRing h content, rfl, changes_newRing m content⟩
    rw [HeapList.pushFront, h.head_none.mpr rfl]
  | cons x l =>
    obtain ⟨mem, hmem, -, hholds, hchanges⟩ := h.insertBefore content
    refine ⟨_, _, _, ?_, hholds, rfl, hchanges⟩
    rw [HeapList.pushFront, h.head_cons]
    simp only [hmem, Option.map_some]

/-- **`push_back`.** -/
theorem Holds.pushBack (h : Holds m t l) (content : Str) :
    ∃ m' t' l', HeapList.pushBack m t content = some (m', t') ∧ Holds m' t' l' ∧
      l'.map Prod.snd = Linkedlist.pushBack (l.map Prod.snd) content ∧ Changes m m' l l' := by
  cases l with
  | nil =>
    refine ⟨newRing m content, _, _, ?_, holds_newRing h content, rfl, changes_newRing m content⟩
    rw [HeapList.pushBack, h.head_none.mpr rfl]
  | cons x l =>
    obtain ⟨mem, hmem, hholds, -, hle, hframe, hfresh⟩ := h.insertBefore content
    refine ⟨_, _, _, ?_, hholds, ?_, hle, hframe, fun q hq => hfresh q ?_⟩
    · rw [HeapList.pushBack, h.head_cons]
      simp only [hmem, Option.map_some]
    · rw [List.map_append]
      rfl
    · rw [Heap.addrs, List.map_append, List.mem_append] at hq
      rw [Heap.addrs_cons, List.mem_cons]
      exact hq.symm.imp List.mem_singleton.mp id

/-! ### Taking a node out -/

theorem wrap_length_pred (h : Holds m t l) {l' : List (ℕ × Str)} (hl : l.length = l'.length + 1) :
    wrap32 (t.length - 1) = wrap32 l'.length := by
  rw [h.length, hl, sub_eq_add_neg, wrap32_add_left]
  congr 1
  push_cast
  ring

/-- The links of a node; it is the only one if and only if it is linked to itself. -/
theorem Holds.links {l' : List (ℕ × Str)} {p : ℕ} {a : Str} (h : Holds m t (l ++ (p, a) :: l')) :
    ∃ c, m.mem p = some c ∧ c.val = a ∧ c.next = (Heap.addrs (l' ++ l)).head?.or (some p) ∧
      c.prev = (Heap.addrs (l' ++ l)).getLast?.or (some p) ∧ (c.next = some p ↔ l ++ l' = []) := by
  have hrot : m.mem.Ring (some p) ((p, a) :: (l' ++ l)) := h.ring.rotate
  obtain ⟨hnodup, -, last, -, n, hp, hseg⟩ := hrot
  rw [Heap.addrs_cons, List.nodup_cons] at hnodup
  have hnext := hseg.head_eq
  refine ⟨_, hp, rfl, hnext, hseg.last_eq, ?_⟩
  have hcomm : l ++ l' = [] ↔ l' ++ l = [] := by
    rw [List.append_eq_nil_iff, List.append_eq_nil_iff, and_comm]
  rw [hcomm]
  dsimp only
  rw [hnext]
  cases hr : l' ++ l with
  | nil => exact iff_of_true rfl rfl
  | cons x r =>
    rw [hr] at hnodup
    refine iff_of_false (fun heq => hnodup.1 ?_) (List.cons_ne_nil _ _)
    rw [← Option.some.inj heq]
    exact List.mem_cons_self ..

/-- **Taking a node out** of two or more, and freeing it. -/
theorem Holds.bypass {l' : List (ℕ × Str)} {p : ℕ} {a : Str} (h : Holds m t (l ++ (p, a) :: l'))
    (hne : l ++ l' ≠ []) :
    ∃ mem, m.mem.bypass p = some mem ∧ mem p = m.mem p ∧
      Holds ⟨mem.free p, m.top⟩ ⟨(Heap.addrs (l ++ l')).head?, wrap32 (t.length - 1)⟩ (l ++ l') ∧
      Changes m ⟨mem.free p, m.top⟩ (l ++ (p, a) :: l') (l ++ l') := by
  obtain ⟨mem, hmem, hring, hframe⟩ := h.ring.bypass hne
  have hperm : (l ++ (p, a) :: l').Perm ((p, a) :: (l ++ l')) := List.perm_middle
  have hnodup := (hperm.map Prod.fst).nodup_iff.mp h.ring.nodup
  rw [List.map_cons, List.nodup_cons] at hnodup
  have hmem' : ∀ q, q ∈ Heap.addrs (l ++ (p, a) :: l') ↔ q = p ∨ q ∈ Heap.addrs (l ++ l') := by
    intro q
    rw [Heap.addrs, (hperm.map Prod.fst).mem_iff, List.map_cons, List.mem_cons]
  have hp : p ∉ Heap.addrs (l ++ l') := hnodup.1
  refine ⟨mem, hmem, hframe p hp, ⟨?_, ?_, ?_⟩, le_rfl, ?_, ?_⟩
  · apply hring.congr
    intro q hq
    apply Function.update_of_ne
    rintro rfl
    exact hp hq
  · exact fun q hq => h.lt q ((hmem' q).mpr (Or.inr hq))
  · exact wrap_length_pred h hperm.length_eq
  · intro q hq _
    rw [hmem', not_or] at hq
    change Function.update mem p none q = m.mem q
    rw [Function.update_of_ne hq.1, hframe q hq.2]
  · exact fun q hq => Or.inl ((hmem' q).mpr (Or.inr hq))

/-- The list without its only node. -/
theorem Holds.drop_only {x : ℕ × Str} (h : Holds m t [x]) (m' : NodeHeap) :
    Holds m' ⟨none, wrap32 (t.length - 1)⟩ [] where
  ring := ⟨List.nodup_nil, rfl, none, rfl, rfl⟩
  lt p hp := absurd hp (by simp)
  length := wrap_length_pred h rfl

/-- **`pop_front`.** -/
theorem Holds.popFront (h : Holds m t l) :
    ∃ m' t' l', HeapList.popFront m t = some ((Linkedlist.popFront (l.map Prod.snd)).1, m', t') ∧
      Holds m' t' l' ∧ l'.map Prod.snd = (Linkedlist.popFront (l.map Prod.snd)).2 ∧
      Changes m m' l l' := by
  cases l with
  | nil =>
    refine ⟨m, t, [], ?_, h, rfl, le_rfl, fun _ _ _ => rfl, fun _ hp => absurd hp (by simp)⟩
    rw [HeapList.popFront, h.head_none.mpr rfl]
    rfl
  | cons x l =>
    obtain ⟨p, a⟩ := x
    obtain ⟨c, hc, hval, hnext, hprev, hself⟩ := Holds.links (l := []) h
    rw [HeapList.popFront, h.head_cons]
    simp only [hc, Option.bind_some, hval]
    by_cases hl : l = []
    · subst hl
      rw [if_pos (hself.mpr rfl)]
      exact ⟨_, _, [], rfl, h.drop_only m, rfl, le_rfl, fun _ _ _ => rfl,
        fun _ hp => absurd hp (by simp)⟩
    · rw [if_neg (mt hself.mp hl)]
      obtain ⟨mem, hmem, hmp, hholds, hchanges⟩ := Holds.bypass (l := []) h hl
      refine ⟨_, _, l, ?_, hholds, rfl, hchanges⟩
      rw [hmem, Option.bind_some, hmp, hc, Option.map_some, hnext, List.append_nil]
      obtain ⟨y, r, rfl⟩ := List.exists_cons_of_ne_nil hl
      rfl

/-- **`pop_back`.** -/
theorem Holds.popBack (h : Holds m t l) :
    ∃ m' t' l', HeapList.popBack m t = some ((Linkedlist.popBack (l.map Prod.snd)).1, m', t') ∧
      Holds m' t' l' ∧ l'.map Prod.snd = (Linkedlist.popBack (l.map Prod.snd)).2 ∧
      Changes m m' l l' := by
  cases l with
  | nil =>
    refine ⟨m, t, [], ?_, h, rfl, le_rfl, fun _ _ _ => rfl, fun _ hp => absurd hp (by simp)⟩
    rw [HeapList.popBack, h.head_none.mpr rfl]
    rfl
  | cons x l =>
    obtain ⟨p, a⟩ := x
    obtain ⟨c, hc, hval, hnext, hprev, hself⟩ := Holds.links (l := []) h
    rw [HeapList.popBack, h.head_cons]
    simp only [hc, Option.bind_some]
    rcases List.eq_nil_or_concat l with rfl | ⟨r, z, rfl⟩
    · rw [if_pos (hself.mpr rfl), hval]
      exact ⟨_, _, [], rfl, h.drop_only m, rfl, le_rfl, fun _ _ _ => rfl,
        fun _ hp => absurd hp (by simp)⟩
    · rw [List.concat_eq_append] at h hprev hself ⊢
      obtain ⟨q, b⟩ := z
      -- the node before `head` is the last one
      have htail : c.prev = some q := by
        rw [hprev, List.append_nil, Heap.addrs, List.map_append, List.map_singleton,
          List.getLast?_concat]
        rfl
      have hmid : Holds m t (((p, a) :: r) ++ (q, b) :: []) := h
      obtain ⟨c', hc', hval', -⟩ := hmid.links
      obtain ⟨mem, hmem, -, hholds, hchanges⟩ := hmid.bypass (by simp)
      rw [if_neg (mt hself.mp (by simp)), htail, Option.bind_some, hc', Option.bind_some, hmem,
        Option.map_some, hval']
      have hmap : ((p, a) :: (r ++ [(q, b)])).map Prod.snd = (((p, a) :: r).map Prod.snd) ++ [b] := by
        rw [← List.cons_append, List.map_append]
        rfl
      refine ⟨_, _, _, ?_, hholds, ?_, hchanges⟩
      · rw [hmap, Linkedlist.popBack, List.getLast?_concat]
        rfl
      · rw [hmap, Linkedlist.popBack, List.dropLast_concat, List.append_nil]

/-! ### `at` -/

/-- **`at`** walks to the position that `Linkedlist.position` gives. -/
theorem Holds.nodeAt (h : Holds m t l) (hlt : l.length < 2 ^ 31) (index : Int) :
    HeapList.nodeAt m t index = some (Heap.addrs l)[Linkedlist.position index l.length]? := by
  by_cases hl : l = []
  · subst hl
    rw [HeapList.nodeAt, h.head_none.mpr rfl]
    rfl
  have hpos : 0 < l.length := List.length_pos_iff.mpr hl
  have hpos' : (0 : Int) < l.length := by exact_mod_cast hpos
  obtain ⟨p, hp⟩ := Option.ne_none_iff_exists'.mp (mt h.head_none.mp hl)
  have hnext := h.ring.follow_next hl
  have hprev := h.ring.follow_prev hl
  rw [hp] at hnext hprev
  rw [HeapList.nodeAt, hp, h.length_exact hlt]
  dsimp only
  rw [if_neg (by omega), Linkedlist.position]
  split_ifs with hindex
  · have hmod := Int.tmod_lt_of_pos index hpos'
    rw [hnext, Nat.mod_eq_of_lt (by omega)]
  · -- going back `k` nodes is going on `length - k` nodes
    set k := ((wrap32 (-index)).tmod l.length).toNat with hk
    have hmod := Int.tmod_lt_of_pos (wrap32 (-index)) hpos'
    have hkl : k < l.length := by omega
    have hback : (-(k : Int) % l.length) = ((l.length - k) % l.length : ℕ) := by
      rw [← Int.add_emod_right, Int.natCast_emod, Nat.cast_sub hkl.le]
      congr 1
      ring
    rw [hprev, hback, Int.toNat_natCast]

/-- The node at a position of a list. -/
theorem exists_nodeAt (hl : l ≠ []) (index : Int) :
    ∃ p a, l[Linkedlist.position index l.length]? = some (p, a) := by
  have hlt := Linkedlist.position_lt (l := l.map Prod.snd) (by simpa using hl) index
  rw [List.length_map] at hlt
  exact ⟨_, _, List.getElem?_eq_getElem hlt⟩

/-- **`get`.** -/
theorem Holds.get (h : Holds m t l) (hlt : l.length < 2 ^ 31) (index : Int) :
    HeapList.get m t index = Linkedlist.get (l.map Prod.snd) index := by
  rw [HeapList.get, h.nodeAt hlt, Option.bind_some, Linkedlist.get, List.length_map,
    List.getElem?_map, List.getElem?_map]
  by_cases hl : l = []
  · subst hl
    rfl
  · obtain ⟨p, a, hx⟩ := exists_nodeAt hl index
    rw [hx, Option.map_some, Option.bind_some, h.ring.getElem hx]
    rfl

/-- **`set`.** -/
theorem Holds.set (h : Holds m t l) (hlt : l.length < 2 ^ 31) (hl : l ≠ []) (index : Int)
    (content : Str) :
    ∃ m' l', HeapList.set m t index content = some m' ∧ Holds m' t l' ∧
      Linkedlist.set (l.map Prod.snd) index content = some (l'.map Prod.snd) ∧
      Changes m m' l l' := by
  obtain ⟨p, a, hx⟩ := exists_nodeAt hl index
  obtain ⟨mem, hmem, hring, hframe⟩ := h.ring.setVal hx fun _ => content
  have haddrs := Heap.addrs_set hx content
  have hp : p ∈ Heap.addrs l := List.mem_map_of_mem (List.mem_of_getElem? hx)
  refine ⟨⟨mem, m.top⟩, _, ?_, ⟨hring, ?_, ?_⟩, ?_, le_rfl, ?_, ?_⟩
  · rw [HeapList.set, h.nodeAt hlt, Option.bind_some, List.getElem?_map, hx, Option.map_some,
      Option.bind_some, hmem, Option.map_some]
  · rw [haddrs]
    exact h.lt
  · rw [h.length, List.length_set]
  · rw [Linkedlist.set, if_neg (by simpa using hl), List.length_map, List.map_set]
  · exact fun q hq _ => hframe q fun heq => hq (heq ▸ hp)
  · exact fun q hq => Or.inl (haddrs ▸ hq)

/-- **`del`.** -/
theorem Holds.del (h : Holds m t l) (hlt : l.length < 2 ^ 31) (index : Int) :
    ∃ m' t' l', HeapList.del m t index
        = some ((Linkedlist.del (l.map Prod.snd) index).1, m', t') ∧
      Holds m' t' l' ∧ l'.map Prod.snd = (Linkedlist.del (l.map Prod.snd) index).2 ∧
      Changes m m' l l' := by
  rw [HeapList.del, h.nodeAt hlt, Option.bind_some, Linkedlist.del, List.length_map]
  by_cases hl : l = []
  · subst hl
    exact ⟨m, t, [], rfl, h, rfl, le_rfl, fun _ _ _ => rfl, fun _ hp => absurd hp (by simp)⟩
  obtain ⟨p, a, hx⟩ := exists_nodeAt hl index
  rw [if_neg (by simpa using hl), List.getElem?_map, hx, List.eraseIdx_map]
  -- the list is cut at the node that goes
  generalize Linkedlist.position index l.length = i at hx
  obtain ⟨l₁, l₂, rfl, rfl⟩ : ∃ l₁ l₂, l = l₁ ++ (p, a) :: l₂ ∧ l₁.length = i := by
    obtain ⟨hi, hx⟩ := List.getElem?_eq_some_iff.mp hx
    refine ⟨l.take i, l.drop (i + 1), ?_, List.length_take_of_le hi.le⟩
    rw [← hx, List.getElem_cons_drop, List.take_append_drop]
  have herase : (l₁ ++ (p, a) :: l₂).eraseIdx l₁.length = l₁ ++ l₂ := by
    rw [List.eraseIdx_append_of_length_le le_rfl, Nat.sub_self]
    rfl
  rw [herase]
  obtain ⟨c, hc, -, hnext, -, hself⟩ := h.links
  simp only [Option.map_some, hc, Option.bind_some]
  by_cases hne : l₁ ++ l₂ = []
  · obtain ⟨rfl, rfl⟩ := List.append_eq_nil_iff.mp hne
    rw [if_pos (hself.mpr rfl)]
    refine ⟨_, _, [], rfl, h.drop_only _, rfl, le_rfl, ?_, fun _ hp => absurd hp (by simp)⟩
    intro q hq _
    exact Function.update_of_ne (List.ne_of_not_mem_cons hq) _ _
  · obtain ⟨mem, hmem, -, hholds, hchanges⟩ := h.bypass hne
    rw [if_neg (mt hself.mp hne), hmem, Option.map_some]
    -- the new head is the next node if the old one goes
    have hhead : (if t.head = some p then c.next else t.head)
        = (Heap.addrs (l₁ ++ l₂)).head? := by
      cases l₁ with
      | nil =>
        obtain ⟨y, r, rfl⟩ := List.exists_cons_of_ne_nil hne
        have hhead : t.head = some p := h.ring.head_eq
        rw [if_pos hhead, hnext, List.append_nil]
        rfl
      | cons y r =>
        have hhead : t.head = some y.1 := h.ring.head_eq
        have hyp : y.1 ≠ p := by
          have hnodup := h.ring.nodup
          rw [List.cons_append, Heap.addrs_cons, List.nodup_cons] at hnodup
          rintro rfl
          exact hnodup.1 (by simp)
        rw [hhead, if_neg (by simpa using hyp)]
        rfl
    rw [hhead]
    exact ⟨_, _, _, rfl, hholds, rfl, hchanges⟩

/-! ### The loops that stop at `head` -/

/-- Inside a ring, the last cell of a part is followed by `head`, and no other one is. -/
theorem next_eq_head {h : ℕ} {prev n last : Option ℕ}
    (hseg : m.mem.Seg prev n l last (some h)) (hh : h ∉ Heap.addrs l) : n = some h ↔ l = [] := by
  rw [hseg.head_eq]
  cases l with
  | nil => exact iff_of_true rfl rfl
  | cons y l =>
    refine iff_of_false (fun heq => hh ?_) (List.cons_ne_nil _ _)
    rw [← Option.some.inj heq]
    exact List.mem_cons_self ..

/-- The loop of `find` over a part of the ring that ends in front of `head`. -/
theorem findFrom_eq (content : Str) {h : ℕ} {prev res last : Option ℕ} (hne : l ≠ [])
    (hseg : m.mem.Seg prev res l last (some h)) (hh : h ∉ Heap.addrs l.tail) {fuel : ℕ}
    (hf : l.length ≤ fuel) (index : ℕ) (hlt : index + l.length < 2 ^ 31) :
    findFrom m h content fuel res index
      = some (((l.map Prod.snd).idxOf? content).elim (-1) fun i => ((index + i : ℕ) : Int)) := by
  induction l generalizing prev res fuel index with
  | nil => exact absurd rfl hne
  | cons x l ih =>
    obtain ⟨rfl, n, hx, hseg⟩ := hseg
    obtain ⟨fuel, rfl⟩ : ∃ k, fuel = k + 1 := ⟨fuel - 1, by simp at hf; omega⟩
    rw [List.length_cons] at hf hlt
    rw [findFrom, Option.bind_some, hx, Option.bind_some, List.map_cons, List.idxOf?_cons]
    dsimp only
    -- the loop compares before it asks whether the next node is `head`
    by_cases hval : x.2 = content
    · rw [if_pos hval, if_pos (beq_iff_eq.mpr hval)]
      rfl
    · have hbeq : ¬(x.2 == content) = true := by simpa using hval
      rw [if_neg hval, if_neg hbeq]
      by_cases hl : l = []
      · subst hl
        rw [if_pos hseg.1]
        rfl
      · -- the counter does not wrap, since there are fewer than `2^31` nodes
        have hwrap : wrap32 ((index : Int) + 1) = ((index + 1 : ℕ) : Int) := by
          rw [wrap32_of_bounds (by omega) (by omega)]
          push_cast
          rfl
        have hh' : h ∉ Heap.addrs l.tail := fun hmem =>
          hh (List.map_subset _ (List.tail_subset l) hmem)
        rw [if_neg (mt (next_eq_head hseg hh).mp hl), hwrap,
          ih hl hseg hh' (by omega) (index + 1) (by omega)]
        cases (l.map Prod.snd).idxOf? content with
        | none => rfl
        | some i =>
          simp only [Option.map_some, Option.elim_some, Option.some.injEq]
          push_cast
          ring

/-- **`find`.** -/
theorem Holds.find (h : Holds m t l) (hlt : l.length < 2 ^ 31) (content : Str) :
    HeapList.find m t content = some (Linkedlist.find (l.map Prod.snd) content) := by
  cases l with
  | nil =>
    rw [HeapList.find, h.head_none.mpr rfl]
    rfl
  | cons x l =>
    obtain ⟨hnodup, -, last, hseg⟩ := h.ring
    rw [h.head_cons] at hseg
    rw [Heap.addrs_cons, List.nodup_cons] at hnodup
    have hloop := findFrom_eq content (List.cons_ne_nil x l) hseg hnodup.1 h.length_le 0 (by omega)
    rw [HeapList.find, h.head_cons]
    simp only [Nat.cast_zero, Nat.zero_add] at hloop
    exact hloop

/-- The loop of `print` over a part of the ring that ends in front of `head`. -/
theorem printFrom_eq {h : ℕ} {prev it last : Option ℕ}
    (hseg : m.mem.Seg prev it l last (some h)) (hh : h ∉ Heap.addrs l) {fuel : ℕ}
    (hf : l.length ≤ fuel) (str : Str) :
    printFrom m h fuel it str = some (joinArgs str (l.map Prod.snd)) := by
  induction l generalizing prev it fuel str with
  | nil =>
    obtain ⟨rfl, -⟩ := hseg
    cases fuel with
    | zero => rw [printFrom, if_pos rfl]; rfl
    | succ fuel => rw [printFrom, if_pos rfl]; rfl
  | cons x l ih =>
    have hit := mt (next_eq_head hseg hh).mp (List.cons_ne_nil x l)
    obtain ⟨rfl, n, hx, hseg⟩ := hseg
    obtain ⟨fuel, rfl⟩ : ∃ k, fuel = k + 1 := ⟨fuel - 1, by simp at hf; omega⟩
    rw [Heap.addrs_cons, List.mem_cons, not_or] at hh
    rw [printFrom, if_neg hit, Option.bind_some, hx, Option.bind_some,
      ih hseg hh.2 (by simpa using hf)]
    rfl

/-- **`print`.** -/
theorem Holds.print (h : Holds m t l) :
    HeapList.print m t = some (Linkedlist.print (l.map Prod.snd)) := by
  cases l with
  | nil =>
    rw [HeapList.print, h.head_none.mpr rfl]
    rfl
  | cons x l =>
    obtain ⟨hnodup, -, last, hseg⟩ := h.ring
    rw [h.head_cons] at hseg
    obtain ⟨-, n, hx, hseg⟩ := hseg
    rw [Heap.addrs_cons, List.nodup_cons] at hnodup
    have hlen := h.length_le
    rw [List.length_cons] at hlen
    rw [HeapList.print, h.head_cons]
    simp only [hx, Option.bind_some]
    rw [printFrom_eq hseg hnodup.1 (by omega), joinArgs_eq]
    rfl

end HeapList

/-! ### The sequence that the calls denote -/

namespace ListOp

/-- The position that an index denotes. -/
def position (index : Int) (l : List Str) : ℕ := (index % l.length).toNat

/-- The sequence after a call. -/
def after : ListOp → List Str → List Str
  | .pushFront content, l => content :: l
  | .pushBack content, l => l ++ [content]
  | .popFront, l => l.tail
  | .popBack, l => l.dropLast
  | .find _, l => l
  | .nodeAt _, l => l
  | .get _, l => l
  | .set index content, l => l.set (position index l) content
  | .del index, l => l.eraseIdx (position index l)
  | .print, l => l

/-- What a call on a sequence returns; a node is named by its position. -/
def result : ListOp → List Str → ListResult
  | .pushFront _, _ => .unit
  | .pushBack _, _ => .unit
  | .popFront, l => .text (l.head?.getD [])
  | .popBack, l => .text (l.getLast?.getD [])
  | .find content, l => .int ((l.idxOf? content).elim (-1) fun i => (i : Int))
  | .nodeAt index, l => .node (if l = [] then none else some (position index l))
  | .get index, l => .text (l[position index l]?.getD [])
  | .set _ _, _ => .unit
  | .del _, l => .bool (l ≠ [])
  | .print, l => .text ([byte ','].intercalate l)

/-- An `int` that may be negated. -/
def InRange (index : Int) : Prop := -2 ^ 31 < index ∧ index < 2 ^ 31

/-- The calls that a caller may make on a sequence. -/
def Allowed : ListOp → List Str → Prop
  | .nodeAt index, _ => InRange index
  | .get index, l => l ≠ [] ∧ InRange index
  | .set index _, l => l ≠ [] ∧ InRange index
  | .del index, _ => InRange index
  | _, _ => True

/-- The sequence that the calls denote. -/
def denote (ops : List ListOp) (l : List Str) : List Str := ops.foldl (fun l op => op.after l) l

/-- A sequence of calls that a caller may make. -/
def AllAllowed : List ListOp → List Str → Prop
  | [], _ => True
  | op :: ops, l => op.Allowed l ∧ AllAllowed ops (op.after l)

theorem length_after_le (op : ListOp) (l : List Str) : (op.after l).length ≤ l.length + 1 := by
  cases op with
  | pushFront => exact le_rfl
  | pushBack => rw [after, List.length_append, List.length_singleton]
  | popFront => rw [after, List.length_tail]; omega
  | popBack => rw [after, List.length_dropLast]; omega
  | set => rw [after, List.length_set]; omega
  | del => exact (List.length_eraseIdx_le ..).trans (Nat.le_succ _)
  | _ => exact Nat.le_succ _

/-- A call adds one content at most. -/
theorem length_denote_le (ops : List ListOp) (l : List Str) :
    (denote ops l).length ≤ l.length + ops.length := by
  induction ops generalizing l with
  | nil => exact le_rfl
  | cons op ops ih =>
    have hafter := length_after_le op l
    have htail := ih (op.after l)
    rw [List.length_cons]
    change (denote ops (op.after l)).length ≤ _
    omega

/-- The truncated remainder of the source is the Euclidean one, counted from the other end for a
negative index. -/
theorem position_eq {index : Int} (h : InRange index) {l : List Str} (hl : l ≠ []) :
    Linkedlist.position index l.length = position index l := by
  have hpos : (0 : Int) < l.length := by exact_mod_cast List.length_pos_iff.mpr hl
  rw [Linkedlist.position, position]
  split_ifs with h₀
  · rw [Int.tmod_eq_emod_of_nonneg h₀]
  · have hlt := Int.emod_lt_of_pos (-index) hpos
    have hnonneg := Int.emod_nonneg (-index) (ne_of_gt hpos)
    rw [wrap32_of_bounds (by have := h.2; omega) (by have := h.1; omega),
      Int.tmod_eq_emod_of_nonneg (by omega)]
    have hback : ((l.length - (-index % l.length).toNat) % l.length : ℕ) = index % l.length := by
      rw [Int.natCast_emod, Nat.cast_sub (by omega), Int.toNat_of_nonneg hnonneg,
        Int.sub_emod_emod, sub_neg_eq_add, add_comm, Int.add_emod_right]
    rw [← hback, Int.toNat_natCast]

end ListOp

/-- A result on the list in memory, for a result on the sequence. -/
def ListResult.locate (ps : List ℕ) : ListResult → ListResult
  | .node i => .node (i.bind fun i => ps[i]?)
  | r => r

namespace HeapList

/-- The list in memory is the sequence `l`, on the nodes `ps`. -/
structure IsSequence (s : NodeHeap × HeapList) (l : List Str) (ps : List ℕ) : Prop where
  nodup : ps.Nodup
  length_ps : ps.length = l.length
  length : s.2.length = l.length
  null : s.2.head = none ↔ s.2.length = 0
  visits : ∀ i < l.length, s.1.mem.follow Cell.next i s.2.head = some ps[i]?
  returns : s.1.mem.follow Cell.next l.length s.2.head = some s.2.head
  content : ∀ (i p : ℕ), ps[i]? = some p → ∃ c, s.1.mem p = some c ∧ l[i]? = some c.val
  inverse : ∀ p ∈ ps, ∀ q, (∃ c, s.1.mem p = some c ∧ c.next = some q) ↔
    q ∈ ps ∧ ∃ c, s.1.mem q = some c ∧ c.prev = some p

/-- After the calls the list is the sequence that they denote, and the next call returns what the
sequence returns. -/
def Refines (ops : List ListOp) : Prop :=
  ∃ s ps, run ops (⟨fun _ => none, 0⟩, new) = some s ∧ IsSequence s (ListOp.denote ops []) ps ∧
    ∀ op : ListOp, op.Allowed (ListOp.denote ops []) →
      ∃ s', step op s = some ((op.result (ListOp.denote ops [])).locate ps, s')

variable {m : NodeHeap} {t : HeapList} {l : List (ℕ × Str)}

theorem Holds.isSequence (h : Holds m t l) (hlt : l.length < 2 ^ 31) :
    IsSequence (m, t) (l.map Prod.snd) (Heap.addrs l) where
  nodup := h.ring.nodup
  length_ps := by rw [List.length_map, List.length_map]
  length := by rw [List.length_map, h.length_exact hlt]
  null := by
    change t.head = none ↔ t.length = 0
    rw [h.head_none, h.length_exact hlt, Int.natCast_eq_zero, List.length_eq_zero_iff]
  visits i hi := by
    rw [List.length_map] at hi
    have hl : l ≠ [] := List.length_pos_iff.mp (by omega)
    exact (h.ring.follow_next hl i).trans (by rw [Nat.mod_eq_of_lt hi])
  returns := by
    rw [List.length_map]
    by_cases hl : l = []
    · subst hl
      rfl
    · refine (h.ring.follow_next hl _).trans ?_
      rw [Nat.mod_self, ← List.head?_eq_getElem?, ← h.ring.head_eq]
  content i p hp := by
    rw [List.getElem?_map] at hp
    obtain ⟨x, hx, rfl⟩ := Option.map_eq_some_iff.mp hp
    exact ⟨_, h.ring.getElem hx, by rw [List.getElem?_map, hx]; rfl⟩
  inverse p hp q := h.ring.next_iff_prev hp

/-- **One call**: it returns what the sequence returns, and has the effect it has on the sequence. -/
theorem Holds.step (h : Holds m t l) (hlt : l.length < 2 ^ 31) {op : ListOp}
    (hop : op.Allowed (l.map Prod.snd)) :
    ∃ m' t' l', HeapList.step op (m, t)
        = some ((op.result (l.map Prod.snd)).locate (Heap.addrs l), m', t') ∧
      Holds m' t' l' ∧ l'.map Prod.snd = op.after (l.map Prod.snd) ∧ Changes m m' l l' := by
  have hsame : Changes m m l l := ⟨le_rfl, fun _ _ _ => rfl, fun _ hp => Or.inl hp⟩
  have hmap : l.map Prod.snd = [] ↔ l = [] := List.map_eq_nil_iff
  cases op with
  | pushFront content =>
    obtain ⟨m', t', l', hstep, hholds, hl', hchanges⟩ := h.pushFront content
    exact ⟨m', t', l', by rw [HeapList.step, hstep]; rfl, hholds, hl', hchanges⟩
  | pushBack content =>
    obtain ⟨m', t', l', hstep, hholds, hl', hchanges⟩ := h.pushBack content
    exact ⟨m', t', l', by rw [HeapList.step, hstep]; rfl, hholds, hl', hchanges⟩
  | popFront =>
    obtain ⟨m', t', l', hstep, hholds, hl', hchanges⟩ := h.popFront
    refine ⟨m', t', l', ?_, hholds, ?_, hchanges⟩
    · rw [HeapList.step, hstep]
      cases l <;> rfl
    · rw [hl']
      cases l <;> rfl
  | popBack =>
    obtain ⟨m', t', l', hstep, hholds, hl', hchanges⟩ := h.popBack
    exact ⟨m', t', l', by rw [HeapList.step, hstep]; rfl, hholds, hl', hchanges⟩
  | find content =>
    exact ⟨m, t, l, by rw [HeapList.step, h.find hlt]; rfl, h, rfl, hsame⟩
  | nodeAt index =>
    refine ⟨m, t, l, ?_, h, rfl, hsame⟩
    rw [HeapList.step, h.nodeAt hlt, ListOp.result]
    by_cases hl : l = []
    · subst hl
      rfl
    · rw [if_neg (mt hmap.mp hl), ← ListOp.position_eq hop (mt hmap.mp hl), List.length_map]
      rfl
  | get index =>
    -- the calls that only read leave the memory as it is
    refine ⟨m, t, l, ?_, h, rfl, hsame⟩
    obtain ⟨x, hx, -⟩ := Linkedlist.exists_get hop.1 index
    rw [HeapList.step, h.get hlt, hx, ListOp.result, ← ListOp.position_eq hop.2 hop.1]
    rw [Linkedlist.get] at hx
    rw [hx]
    rfl
  | set index content =>
    obtain ⟨m', l', hstep, hholds, hl', hchanges⟩ := h.set hlt (mt hmap.mpr hop.1) index content
    refine ⟨m', t, l', by rw [HeapList.step, hstep]; rfl, hholds, ?_, hchanges⟩
    rw [Linkedlist.set, if_neg hop.1, ListOp.position_eq hop.2 hop.1] at hl'
    exact (Option.some.inj hl').symm
  | del index =>
    -- `del` on an empty list returns `false`, and leaves it alone
    obtain ⟨m', t', l', hstep, hholds, hl', hchanges⟩ := h.del hlt index
    refine ⟨m', t', l', ?_, hholds, ?_, hchanges⟩
    · rw [HeapList.step, hstep, Linkedlist.del, ListOp.result]
      by_cases hl : l.map Prod.snd = []
      · rw [if_pos hl, hl]
        rfl
      · rw [if_neg hl]
        simp [hl, ListResult.locate]
    · rw [hl', Linkedlist.del, ListOp.after]
      by_cases hl : l.map Prod.snd = []
      · rw [if_pos hl, hl]
        rfl
      · rw [if_neg hl, ListOp.position_eq hop hl]
  | print =>
    exact ⟨m, t, l, by rw [HeapList.step, h.print]; rfl, h, rfl, hsame⟩

/-- The calls of a run, from any list: each one is made on fewer than `2^31` contents. -/
theorem Holds.run {ops : List ListOp} (h : Holds m t l)
    (hops : ListOp.AllAllowed ops (l.map Prod.snd))
    (hlt : ∀ k, (ListOp.denote (ops.take k) (l.map Prod.snd)).length < 2 ^ 31) :
    ∃ m' t' l', HeapList.run ops (m, t) = some (m', t') ∧ Holds m' t' l' ∧
      l'.map Prod.snd = ListOp.denote ops (l.map Prod.snd) := by
  induction ops generalizing m t l with
  | nil => exact ⟨m, t, l, rfl, h, rfl⟩
  | cons op ops ih =>
    have hlen : l.length < 2 ^ 31 := by
      have h₀ := hlt 0
      rwa [List.take_zero, ListOp.denote, List.foldl_nil, List.length_map] at h₀
    obtain ⟨m₁, t₁, l₁, hstep, hholds, hl₁, -⟩ := h.step hlen hops.1
    obtain ⟨m', t', l', hrun, hholds', hl'⟩ := ih hholds (hl₁ ▸ hops.2) fun k => by
      rw [hl₁]
      exact hlt (k + 1)
    refine ⟨m', t', l', ?_, hholds', ?_⟩
    · rw [HeapList.run, hstep, Option.bind_some, hrun]
    · rw [hl', hl₁]
      rfl

/-- **The list in memory is the sequence that its calls denote**, as long as it stays below `2^31`
contents. -/
theorem refines_sequence {ops : List ListOp} (hops : ListOp.AllAllowed ops [])
    (hlt : ∀ k, (ListOp.denote (ops.take k) []).length < 2 ^ 31) : Refines ops := by
  obtain ⟨m, t, l, hrun, hholds, hl⟩ := (holds_new ⟨fun _ => none, 0⟩).run hops hlt
  have hlen : l.length < 2 ^ 31 := by
    have hall := hlt ops.length
    rw [List.take_length] at hall
    rw [← List.length_map (f := Prod.snd), hl]
    exact hall
  change l.map Prod.snd = ListOp.denote ops [] at hl
  refine ⟨(m, t), Heap.addrs l, hrun, hl ▸ hholds.isSequence hlen, fun op hop => ?_⟩
  obtain ⟨m', t', -, hstep, -⟩ := hholds.step hlen (hl ▸ hop)
  rw [hl] at hstep
  exact ⟨(m', t'), hstep⟩

/-- Both ends, a negative index beyond the length, and a node that goes. -/
theorem refines_sequence_five :
    Refines [.pushBack (lit "b"), .pushFront (lit "a"), .pushBack (lit "c"), .del (-5), .popBack] := by
  refine refines_sequence ⟨trivial, trivial, trivial, ⟨by decide, by decide⟩, trivial, trivial⟩
    fun k => ?_
  have hlen := ListOp.length_denote_le
    ([.pushBack (lit "b"), .pushFront (lit "a"), .pushBack (lit "c"), .del (-5), .popBack].take k) []
  rw [List.length_take, List.length_nil] at hlen
  exact lt_of_le_of_lt hlen (by simp)

/-! ### The counter is an `int` -/

theorem denote_replicate (n : ℕ) (content : Str) (l : List Str) :
    (ListOp.denote (List.replicate n (.pushBack content)) l).length = l.length + n := by
  induction n generalizing l with
  | zero => rfl
  | succ n ih =>
    rw [List.replicate_succ, ListOp.denote, List.foldl_cons]
    refine (ih (l ++ [content])).trans ?_
    rw [List.length_append, List.length_singleton]
    omega

theorem allAllowed_replicate (n : ℕ) (content : Str) (l : List Str) :
    ListOp.AllAllowed (List.replicate n (.pushBack content)) l := by
  induction n generalizing l with
  | zero => trivial
  | succ n ih => exact ⟨trivial, ih _⟩

/-- `push_back` needs no bound: the counter wraps. -/
theorem Holds.run_replicate (n : ℕ) (content : Str) (h : Holds m t l) :
    ∃ m' t' l', HeapList.run (List.replicate n (.pushBack content)) (m, t) = some (m', t') ∧
      Holds m' t' l' ∧ l'.length = l.length + n := by
  induction n generalizing m t l with
  | zero => exact ⟨m, t, l, rfl, h, rfl⟩
  | succ n ih =>
    obtain ⟨m₁, t₁, l₁, hstep, hholds, hl₁, -⟩ := h.pushBack content
    obtain ⟨m', t', l', hrun, hholds', hlen⟩ := ih hholds
    refine ⟨m', t', l', ?_, hholds', ?_⟩
    · rw [List.replicate_succ, HeapList.run, HeapList.step, hstep, Option.map_some, Option.bind_some,
        hrun]
    · have hlen₁ := congrArg List.length hl₁
      rw [List.length_map, Linkedlist.pushBack, List.length_append, List.length_map,
        List.length_singleton] at hlen₁
      omega

theorem not_refines_replicate {n : ℕ} (hn : wrap32 n ≠ n) (content : Str) :
    ¬Refines (List.replicate n (.pushBack content)) := by
  rintro ⟨s, ps, hrun, hseq, -⟩
  obtain ⟨m', t', l', hrun', hholds, hlen⟩ :=
    (holds_new ⟨fun _ => none, 0⟩).run_replicate n content
  obtain rfl := Option.some.inj (hrun.symm.trans hrun')
  have hlength := hseq.length
  rw [denote_replicate, hholds.length, hlen, List.length_nil, Nat.zero_add, List.length_nil,
    Nat.zero_add] at hlength
  exact hn hlength

/-- After `2^31` calls of `push_back` the counter is `-2^31`. -/
theorem not_refines_of_two_pow_31 :
    ListOp.AllAllowed (List.replicate (2 ^ 31) (.pushBack (lit "a"))) [] ∧
    ¬Refines (List.replicate (2 ^ 31) (.pushBack (lit "a"))) := by
  refine ⟨allAllowed_replicate _ _ _, not_refines_replicate ?_ _⟩
  have hwrap : wrap32 ((2 ^ 31 : ℕ) : Int) < 2 ^ 31 := (wrap32_bounds _).2
  exact fun heq => absurd (heq ▸ hwrap) (by norm_num)

end HeapList

end MuseKv
