import MuseKv.Value.HashsetHeap
import MuseKv.Value.Equiv.Linkedlist
import MuseKv.General.Chains
import Mathlib.Algebra.BigOperators.Ring.Finset
import Mathlib.Algebra.Order.BigOperators.Group.List

/-!
# The hash set in memory is a finite set

`Rep s b`: the 97 lists hold the contents `b`, on disjoint nodes.  `Refines s S`: they hold the lists
of the set `S`, whose structure carries that an element is in the list of its own hash, once.  `push`,
`pop` and `del` keep the refinement (`Refines.step`), and on `S` they do to the elements what they do
to a set (`isSetStep_step`).  `refines_set` puts the two together, for every sequence of calls.
-/

namespace MuseKv

open General Kvstore

namespace HeapHashset

/-- The lists hold the contents `b`. -/
structure Rep (s : HeapHashset) (b : Fin 97 → List (ℕ × Str)) : Prop where
  holds : ∀ i, HeapList.Holds s.heap (s.table i) (b i)
  disjoint : ∀ i j p, p ∈ Heap.addrs (b i) → p ∈ Heap.addrs (b j) → i = j

/-- The lists hold the elements of a set. -/
def Refines (s : HeapHashset) (S : Hashset) : Prop :=
  ∃ b, Rep s b ∧ ∀ i, (b i).map Prod.snd = S.table i

variable {s s' : HeapHashset} {b : Fin 97 → List (ℕ × Str)} {S : Hashset}

theorem rep_new : Rep new fun _ => [] where
  holds _ := HeapList.holds_new _
  disjoint _ _ _ hp := absurd hp (by simp)

theorem refines_new : Refines new Hashset.empty := ⟨_, rep_new, fun _ => rfl⟩

/-- **A change of one list** leaves the others alone. -/
theorem Rep.update (hr : Rep s b) {i : Fin 97} {m' : NodeHeap} {t' : HeapList}
    {l' : List (ℕ × Str)} (hholds : HeapList.Holds m' t' l')
    (hchanges : HeapList.Changes s.heap m' (b i) l') :
    Rep ⟨m', Function.update s.table i t'⟩ (Function.update b i l') := by
  -- an address of another list is neither in the old list nor in the new one
  have hother : ∀ j, j ≠ i → ∀ p ∈ Heap.addrs (b j), p ∉ Heap.addrs (b i) ∧ p ∉ Heap.addrs l' := by
    intro j hj p hp
    have hpi : p ∉ Heap.addrs (b i) := fun hpi => hj (hr.disjoint j i p hp hpi)
    refine ⟨hpi, fun hpl => ?_⟩
    rcases hchanges.fresh p hpl with h | h
    · exact hpi h
    · exact absurd ((hr.holds j).lt p hp) (Nat.not_lt.mpr h)
  constructor
  · intro j
    rcases eq_or_ne j i with rfl | hj
    · simp only [Function.update_self]
      exact hholds
    · simp only [Function.update_of_ne hj]
      refine (hr.holds j).congr hchanges.le fun p hp => ?_
      exact hchanges.frame p (hother j hj p hp).1 ((hr.holds j).lt p hp)
  · exact Heap.disjoint_update hr.disjoint fun j hj p hp => (hother j hj p hp).2

/-- A change of one list, on the side of the set. -/
theorem map_update (hb : ∀ i, (b i).map Prod.snd = S.table i) (i : Fin 97) {l' : List (ℕ × Str)}
    {l : List Str} (hl : l'.map Prod.snd = l) (j : Fin 97) :
    (Function.update b i l' j).map Prod.snd = Function.update S.table i l j := by
  rcases eq_or_ne j i with rfl | hj
  · rw [Function.update_self, Function.update_self, hl]
  · rw [Function.update_of_ne hj, Function.update_of_ne hj, hb]

/-! ### `find` -/

theorem find_nonneg_iff {l : List Str} {x : Str} : 0 ≤ Linkedlist.find l x ↔ x ∈ l := by
  rw [Linkedlist.find, ← List.isSome_idxOf?]
  cases l.idxOf? x with
  | none => simp
  | some i => simp

/-- The sizes of the lists are bounded by that of the set. -/
theorem length_table_le (S : Hashset) (i : Fin 97) : (S.table i).length ≤ S.elements.length := by
  rw [Hashset.elements, List.length_flatMap]
  exact List.single_le_sum (by simp) _ (List.mem_map.mpr ⟨i, List.mem_finRange i, rfl⟩)

theorem Rep.length_lt (hb : ∀ i, (b i).map Prod.snd = S.table i)
    (hlt : S.elements.length < 2 ^ 31) (i : Fin 97) : (b i).length < 2 ^ 31 := by
  rw [← List.length_map (f := Prod.snd), hb]
  exact (length_table_le S i).trans_lt hlt

/-! ### The operations -/

/-- **`push`.** -/
theorem Refines.push (hr : Refines s S) (hlt : S.elements.length < 2 ^ 31) (x : Str) :
    ∃ s', s.push x = some s' ∧ Refines s' (S.push x) := by
  obtain ⟨b, hrep, hb⟩ := hr
  have hfind := (hrep.holds (Hashset.slot x)).find (Rep.length_lt hb hlt _) x
  rw [hb] at hfind
  by_cases hx : x ∈ S.table (Hashset.slot x)
  · refine ⟨s, ?_, b, hrep, ?_⟩
    · rw [HeapHashset.push, hfind, Option.bind_some, if_neg]
      exact not_lt.mpr (find_nonneg_iff.mpr hx)
    · rw [Hashset.push, dif_pos hx]
      exact hb
  · obtain ⟨m', t', l', hpush, hholds, hl', hchanges⟩ := (hrep.holds (Hashset.slot x)).pushBack x
    refine ⟨_, ?_, _, hrep.update hholds hchanges, ?_⟩
    · rw [HeapHashset.push, hfind, Option.bind_some, if_pos, hpush, Option.map_some]
      exact not_le.mp (mt find_nonneg_iff.mp hx)
    · rw [Hashset.push, dif_neg hx]
      rw [hb] at hl'
      exact map_update hb _ hl'

/-- **`pop`.** -/
theorem Refines.pop (hr : Refines s S) (hlt : S.elements.length < 2 ^ 31) :
    ∃ s', s.pop = some (S.pop.1, s') ∧ Refines s' S.pop.2 := by
  obtain ⟨b, hrep, hb⟩ := hr
  have hlen : ∀ i, (s.table i).length = (S.table i).length := by
    intro i
    rw [(hrep.holds i).length_exact (Rep.length_lt hb hlt i), ← hb, List.length_map]
  have hfirst : ((List.finRange 97).find? fun i => 0 < (s.table i).length) = S.firstNonempty := by
    simp only [Hashset.firstNonempty, hlen, Nat.cast_pos]
  rw [HeapHashset.pop, hfirst, Hashset.pop]
  cases S.firstNonempty with
  | none => exact ⟨s, rfl, b, hrep, hb⟩
  | some i =>
    obtain ⟨m', t', l', hpop, hholds, hl', hchanges⟩ := (hrep.holds i).popBack
    rw [hb] at hpop hl'
    refine ⟨_, ?_, _, hrep.update hholds hchanges, map_update hb i hl'⟩
    simp only [hpop, Option.map_some]

/-- Deleting at the position that `find` gives removes the first occurrence. -/
theorem del_find {l : List Str} {x : Str} (hx : x ∈ l) :
    Linkedlist.del l (Linkedlist.find l x) = (true, l.erase x) := by
  obtain ⟨i, hi⟩ := Option.isSome_iff_exists.mp (List.isSome_idxOf?.mpr hx)
  obtain ⟨hlt, -⟩ := List.idxOf?_eq_some_iff.mp hi
  have hfind : Linkedlist.find l x = i := by rw [Linkedlist.find, hi, Option.elim_some]
  have hposition : Linkedlist.position (i : Int) l.length = i := by
    rw [Linkedlist.position, if_pos (Int.natCast_nonneg _),
      Int.tmod_eq_of_lt (Int.natCast_nonneg _) (by exact_mod_cast hlt), Int.toNat_natCast]
  have herase := List.erase_eq_eraseIdx l x
  rw [hi] at herase
  rw [Linkedlist.del, if_neg (List.ne_nil_of_mem hx), hfind, hposition, herase]

/-- The loop of `del`, up to the first list that has the element. -/
theorem delFrom_eq (hrep : Rep s b) (hb : ∀ i, (b i).map Prod.snd = S.table i)
    (hlt : S.elements.length < 2 ^ 31) (x : Str) (is : List (Fin 97)) :
    s.delFrom x is = ((is.find? fun i => x ∈ S.table i).elim (some (false, s)) fun i =>
      (HeapList.del s.heap (s.table i) (Linkedlist.find (S.table i) x)).map fun r =>
        (true, ⟨r.2.1, Function.update s.table i r.2.2⟩)) := by
  induction is with
  | nil => rfl
  | cons i is ih =>
    have hfind := (hrep.holds i).find (Rep.length_lt hb hlt _) x
    rw [hb] at hfind
    rw [delFrom, hfind, Option.bind_some]
    by_cases hx : x ∈ S.table i
    · rw [if_pos (find_nonneg_iff.mpr hx), List.find?_cons_of_pos (by simpa using hx)]
      rfl
    · rw [if_neg (mt find_nonneg_iff.mp hx), List.find?_cons_of_neg (by simpa using hx), ih]

/-- **`del`.** -/
theorem Refines.del (hr : Refines s S) (hlt : S.elements.length < 2 ^ 31) (x : Str) :
    ∃ s', s.del x = some ((S.del x).1, s') ∧ Refines s' (S.del x).2 := by
  obtain ⟨b, hrep, hb⟩ := hr
  rw [HeapHashset.del, delFrom_eq hrep hb hlt, Hashset.del, ← Hashset.listOf]
  cases hfirst : S.listOf x with
  | none => exact ⟨s, rfl, b, hrep, hb⟩
  | some i =>
    have hx : x ∈ S.table i := by simpa using List.find?_some hfirst
    obtain ⟨m', t', l', hdel, hholds, hl', hchanges⟩ :=
      (hrep.holds i).del (Rep.length_lt hb hlt i) (Linkedlist.find (S.table i) x)
    rw [hb, del_find hx] at hdel hl'
    refine ⟨_, ?_, _, hrep.update hholds hchanges, map_update hb i hl'⟩
    rw [Option.elim_some, hdel, Option.map_some]

/-- `get_length` is the number of elements, in an `int`. -/
theorem Refines.getLength (hr : Refines s S) : s.getLength = wrap32 S.elements.length := by
  obtain ⟨b, hrep, hb⟩ := hr
  have hlen : (S.elements.length : Int)
      = ((List.finRange 97).map fun i => ((S.table i).length : Int)).sum := by
    rw [Hashset.elements, List.length_flatMap, Nat.cast_list_sum, List.map_map]
    rfl
  have hzero : (0 : Int) = wrap32 0 := by decide
  have htable : ∀ i, (s.table i).length = wrap32 (S.table i).length := by
    intro i
    rw [(hrep.holds i).length, ← hb, List.length_map]
  rw [HeapHashset.getLength, hlen]
  simp only [htable]
  rw [hzero, foldl_wrap32 (fun i => ((S.table i).length : Int)), zero_add]

/-- The prints of the lists that are not empty. -/
def prints (S : Hashset) (is : List (Fin 97)) : List Str :=
  (is.filter fun i => S.table i ≠ []).map fun i => Linkedlist.print (S.table i)

theorem isEmpty_eq (hrep : Rep s b) (hb : ∀ i, (b i).map Prod.snd = S.table i) (i : Fin 97) :
    (s.table i).isEmpty = true ↔ S.table i = [] := by
  rw [HeapList.isEmpty, beq_iff_eq, (hrep.holds i).head_none, ← hb, List.map_eq_nil_iff]

/-- The loop of `print` behind its first list. -/
theorem printFrom_false (hrep : Rep s b) (hb : ∀ i, (b i).map Prod.snd = S.table i)
    (is : List (Fin 97)) (str : Str) :
    s.printFrom is false str = some (joinArgs str (prints S is)) := by
  induction is generalizing str with
  | nil => rfl
  | cons i is ih =>
    rw [printFrom, (hrep.holds i).print, hb, Option.bind_some, prints]
    by_cases hi : S.table i = []
    · rw [if_pos ((isEmpty_eq hrep hb i).mpr hi), List.filter_cons_of_neg (by simpa using hi), ih]
      rfl
    · rw [if_neg (mt (isEmpty_eq hrep hb i).mp hi), List.filter_cons_of_pos (by simpa using hi),
        if_neg Bool.false_ne_true, ih]
      rfl

/-- The loop of `print` up to its first list. -/
theorem printFrom_true (hrep : Rep s b) (hb : ∀ i, (b i).map Prod.snd = S.table i)
    (is : List (Fin 97)) : s.printFrom is true [] = some (merge (byte ',') (prints S is)) := by
  induction is with
  | nil => rfl
  | cons i is ih =>
    rw [printFrom, (hrep.holds i).print, hb, Option.bind_some, prints]
    by_cases hi : S.table i = []
    · rw [if_pos ((isEmpty_eq hrep hb i).mpr hi), List.filter_cons_of_neg (by simpa using hi), ih]
      rfl
    · rw [if_neg (mt (isEmpty_eq hrep hb i).mp hi), List.filter_cons_of_pos (by simpa using hi),
        if_pos rfl, printFrom_false hrep hb, List.nil_append, joinArgs_eq]
      rfl

/-- **`print`.** -/
theorem Refines.print (hr : Refines s S) : s.print = some S.print := by
  obtain ⟨b, hrep, hb⟩ := hr
  exact printFrom_true hrep hb _

/-- **One call.** -/
theorem Refines.step (hr : Refines s S) (hlt : S.elements.length < 2 ^ 31) (op : SetOp) :
    ∃ s', HeapHashset.step op s = some ((Hashset.step op S).1, s') ∧
      Refines s' (Hashset.step op S).2 := by
  cases op with
  | push content =>
    obtain ⟨s', hpush, hr'⟩ := hr.push hlt content
    exact ⟨s', by rw [HeapHashset.step, hpush]; rfl, hr'⟩
  | pop =>
    obtain ⟨s', hpop, hr'⟩ := hr.pop hlt
    exact ⟨s', by rw [HeapHashset.step, hpop]; rfl, hr'⟩
  | del content =>
    obtain ⟨s', hdel, hr'⟩ := hr.del hlt content
    exact ⟨s', by rw [HeapHashset.step, hdel]; rfl, hr'⟩

/-- **A run**, each call of which is made on fewer than `2^31` elements. -/
theorem Refines.run {ops : List SetOp} (hr : Refines s S)
    (hlt : ∀ k < ops.length, (Hashset.run (ops.take k) S).elements.length < 2 ^ 31) :
    ∃ s', HeapHashset.run ops s = some s' ∧ Refines s' (Hashset.run ops S) := by
  induction ops generalizing s S with
  | nil => exact ⟨s, rfl, hr⟩
  | cons op ops ih =>
    obtain ⟨s₁, hstep, hr₁⟩ := hr.step (hlt 0 (Nat.succ_pos _)) op
    obtain ⟨s', hrun, hr'⟩ := ih hr₁ fun k hk => hlt (k + 1) (Nat.succ_lt_succ hk)
    exact ⟨s', by rw [HeapHashset.run, hstep, Option.bind_some, hrun], hr'⟩

end HeapHashset

/-! ### The set that the calls denote -/

namespace Hashset

variable {S : Hashset}

theorem nodup_table (S : Hashset) (i : Fin 97) : (S.table i).Nodup := by
  have hnodup := S.wf.nodup i
  rwa [List.map_id] at hnodup

theorem elements_nodup (S : Hashset) : S.elements.Nodup := by
  have hnodup := S.wf.nodup_flatMap (List.nodup_finRange 97)
  simp only [List.map_id] at hnodup
  exact hnodup

/-- The elements as a set. -/
def contents (S : Hashset) : Finset Str := S.elements.toFinset

theorem mem_contents {x : Str} : x ∈ S.contents ↔ x ∈ S := by
  rw [contents, List.mem_toFinset, mem_elements]

theorem card_contents (S : Hashset) : S.contents.card = S.elements.length :=
  List.toFinset_card_of_nodup S.elements_nodup

theorem isEmpty_iff : S.isEmpty = true ↔ S.contents = ∅ := by
  rw [isEmpty, beq_iff_eq, ← Finset.card_eq_zero, card_contents, elements, List.length_flatMap]
  rfl

/-- `pop` on the empty set. -/
theorem pop_of_isEmpty (h : S.isEmpty = true) : S.pop = ([], S) := by
  have hnone : S.firstNonempty = none := by
    rw [firstNonempty, List.find?_eq_none]
    intro i _
    have helements : S.elements = [] := by
      rwa [isEmpty_iff, contents, List.toFinset_eq_empty_iff] at h
    rw [elements_eq_nil_iff.mp helements i]
    exact of_decide_eq_false rfl
  rw [pop]
  simp only [hnone]

/-- **`del`** returns whether the element was there, and removes exactly it. -/
theorem del_spec (S : Hashset) (x : Str) :
    (S.del x).1 = decide (x ∈ S.contents) ∧ (S.del x).2.contents = S.contents.erase x := by
  rw [del]
  cases hfirst : S.listOf x with
  | none =>
    have hx : x ∉ S.contents := by
      rw [mem_contents]
      rintro ⟨i, hi⟩
      have hno := List.find?_eq_none.mp hfirst i (List.mem_finRange i)
      exact hno (decide_eq_true hi)
    simp only [hx, decide_false, true_and]
    exact (Finset.erase_eq_of_notMem hx).symm
  | some i =>
    have hi : x ∈ S.table i := by simpa using List.find?_some hfirst
    have hx : x ∈ S.contents := mem_contents.mpr ⟨i, hi⟩
    simp only [hx, decide_true, true_and]
    ext y
    rw [mem_contents, Finset.mem_erase, mem_contents]
    change (∃ j, y ∈ Function.update S.table i ((S.table i).erase x) j) ↔ _
    constructor
    · -- an element of another list has another hash, so it is not the one that goes
      rintro ⟨j, hj⟩
      rcases eq_or_ne j i with rfl | hne
      · rw [Function.update_self, (S.nodup_table j).mem_erase_iff] at hj
        exact ⟨hj.1, j, hj.2⟩
      · rw [Function.update_of_ne hne] at hj
        refine ⟨?_, j, hj⟩
        rintro rfl
        exact hne ((S.wf.placed j y hj).symm.trans (S.wf.placed i y hi))
    · rintro ⟨hyx, j, hj⟩
      refine ⟨j, ?_⟩
      rcases eq_or_ne j i with rfl | hne
      · rw [Function.update_self, (S.nodup_table j).mem_erase_iff]
        exact ⟨hyx, hj⟩
      · rwa [Function.update_of_ne hne]

end Hashset

/-- What a call does to a set, and what it returns. -/
def IsSetStep (A A' : Finset Str) : SetOp → SetResult → Prop
  | .push x, r => r = .unit ∧ A' = insert x A
  | .pop, r => (A = ∅ → r = .text [] ∧ A' = ∅) ∧ (A.Nonempty → ∃ x ∈ A, r = .text x ∧ A' = A.erase x)
  | .del x, r => r = .bool (x ∈ A) ∧ A' = A.erase x

/-- **A call on a set** does to its elements what it does to a set. -/
theorem Hashset.isSetStep_step (S : Hashset) (op : SetOp) :
    IsSetStep S.contents (Hashset.step op S).2.contents op (Hashset.step op S).1 := by
  cases op with
  | push x =>
    refine ⟨rfl, ?_⟩
    ext y
    rw [Finset.mem_insert, mem_contents, mem_contents]
    exact mem_push
  | pop =>
    refine ⟨fun hempty => ?_, fun hne => ?_⟩
    · have hpop := pop_of_isEmpty (isEmpty_iff.mpr hempty)
      rw [Hashset.step, hpop]
      exact ⟨rfl, hempty⟩
    · have hnot : S.isEmpty = false := by
        rw [Bool.eq_false_iff, ne_eq, isEmpty_iff]
        exact hne.ne_empty
      obtain ⟨hmem, hrest⟩ := pop_spec hnot
      refine ⟨S.pop.1, mem_contents.mpr hmem, rfl, ?_⟩
      ext y
      rw [Finset.mem_erase, mem_contents, mem_contents, and_comm]
      exact hrest y
  | del x =>
    obtain ⟨hfst, hsnd⟩ := S.del_spec x
    exact ⟨congrArg SetResult.bool hfst, hsnd⟩

/-- A call adds one element at most. -/
theorem IsSetStep.card_le {A A' : Finset Str} {op : SetOp} {r : SetResult}
    (h : IsSetStep A A' op r) : A'.card ≤ A.card + 1 := by
  cases op with
  | push x =>
    rw [h.2]
    exact Finset.card_insert_le x A
  | pop =>
    rcases A.eq_empty_or_nonempty with hA | hA
    · rw [(h.1 hA).2]
      exact Nat.zero_le _
    · obtain ⟨x, -, -, rfl⟩ := h.2 hA
      exact (Finset.card_erase_le).trans (Nat.le_succ _)
  | del x =>
    rw [h.2]
    exact (Finset.card_erase_le).trans (Nat.le_succ _)

theorem Hashset.card_run_le (ops : List SetOp) (S : Hashset) :
    (Hashset.run ops S).contents.card ≤ S.contents.card + ops.length := by
  induction ops generalizing S with
  | nil => exact le_rfl
  | cons op ops ih =>
    have hstep := (S.isSetStep_step op).card_le
    have hrest := ih (Hashset.step op S).2
    rw [List.length_cons]
    change (Hashset.run ops (Hashset.step op S).2).contents.card ≤ _
    omega

namespace HeapHashset

/-- The set that the calls denote, from the empty one. -/
def denote (ops : List SetOp) : Finset Str := (Hashset.run ops Hashset.empty).contents

/-- The set in memory is the set `A`, with the lists `b`. -/
structure IsSet (s : HeapHashset) (A : Finset Str) (b : Fin 97 → List Str) : Prop where
  list : ∀ i, ∃ ps, HeapList.IsSequence (s.heap, s.table i) (b i) ps
  mem : ∀ x, x ∈ A ↔ ∃ i, x ∈ b i
  placed : ∀ i, ∀ x ∈ b i, Hashset.hashFunc x = (i : ℕ)
  once : ∀ x ∈ A, ((List.finRange 97).flatMap b).count x = 1
  getLength : s.getLength = A.card
  print : s.print = some ([byte ','].intercalate ((List.finRange 97).flatMap b))

/-- After the calls the set in memory is the set that they denote, and the next call does what it does
to a set. -/
def RefinesSet (ops : List SetOp) : Prop :=
  ∃ s b, run ops new = some s ∧ IsSet s (denote ops) b ∧
    ∀ op, ∃ r s', step op s = some (r, s') ∧
      IsSetStep (denote ops) (denote (ops ++ [op])) op r

theorem denote_nil : denote [] = ∅ := by
  ext x
  rw [denote, Hashset.mem_contents]
  exact iff_of_false (Hashset.not_mem_empty x) (Finset.notMem_empty x)

variable {s : HeapHashset} {S : Hashset}

theorem Refines.isSet (hr : Refines s S) (hlt : S.elements.length < 2 ^ 31) :
    IsSet s S.contents S.table where
  list i := by
    obtain ⟨b, hrep, hb⟩ := hr
    have hseq := (hrep.holds i).isSequence (Rep.length_lt hb hlt i)
    rw [hb] at hseq
    exact ⟨_, hseq⟩
  mem x := by rw [Hashset.mem_contents, Hashset.mem_def]
  placed i x hx := by
    have hslot : Hashset.slot x = i := S.wf.placed i x hx
    rw [← hslot]
    exact (bucketOf_val (polyHash 96 x) 97).symm
  once x hx := List.count_eq_one_of_mem S.elements_nodup (List.mem_toFinset.mp hx)
  getLength := by
    rw [hr.getLength, Hashset.card_contents, wrap32_natCast hlt]
  print := by rw [hr.print, Hashset.print_eq]; rfl

/-- **The set in memory is the set that its calls denote**, as long as it stays below `2^31`
elements. -/
theorem refines_set {ops : List SetOp} (hlt : ∀ k, (denote (ops.take k)).card < 2 ^ 31) :
    (∀ x, 0 ≤ Hashset.hashFunc x ∧ Hashset.hashFunc x < 97) ∧ denote [] = ∅ ∧ RefinesSet ops := by
  refine ⟨fun x => tableIndex_bounds _ (by decide), denote_nil, ?_⟩
  simp only [denote, Hashset.card_contents] at hlt
  obtain ⟨s, hrun, hr⟩ := refines_new.run fun k _ => hlt k
  have hlen := hlt ops.length
  rw [List.take_length] at hlen
  refine ⟨s, _, hrun, hr.isSet hlen, fun op => ?_⟩
  obtain ⟨s', hstep, -⟩ := hr.step hlen op
  refine ⟨_, s', hstep, ?_⟩
  have hdenote : denote (ops ++ [op])
      = (Hashset.step op (Hashset.run ops Hashset.empty)).2.contents := by
    rw [denote, Hashset.run, List.foldl_append]
    rfl
  rw [hdenote]
  exact Hashset.isSetStep_step _ op

/-- An element pushed twice, one popped and one deleted. -/
theorem refines_set_five :
    RefinesSet [.push (lit "a"), .push (lit "b"), .push (lit "a"), .pop, .del (lit "b")] := by
  refine (refines_set fun k => ?_).2.2
  have hcard := Hashset.card_run_le
    ([.push (lit "a"), .push (lit "b"), .push (lit "a"), .pop, .del (lit "b")].take k) Hashset.empty
  have hempty : Hashset.empty.contents.card = 0 := by
    rw [Finset.card_eq_zero]
    exact denote_nil
  rw [hempty, Nat.zero_add, List.length_take] at hcard
  exact lt_of_le_of_lt hcard (by simp)

/-! ### The counters are `int`s -/

/-- The calls that push `n` different elements. -/
def pushes (n : ℕ) : List SetOp := (List.range n).map fun k => .push (toStr (k : ℕ))

theorem card_pushes (n : ℕ) : (denote (pushes n)).card = n := by
  have hrun : Hashset.run (pushes n) Hashset.empty
      = ((List.range n).map fun k => toStr (k : ℕ)).foldl Hashset.push
        Hashset.empty := by
    rw [Hashset.run, pushes, List.foldl_map, List.foldl_map]
    rfl
  have hset : denote (pushes n)
      = ((List.range n).map fun k => toStr (k : ℕ)).toFinset := by
    ext x
    rw [denote, hrun, Hashset.mem_contents, Hashset.mem_foldl_push, List.mem_toFinset]
    exact or_iff_left (Hashset.not_mem_empty x)
  have hnodup : ((List.range n).map fun k => toStr (k : ℕ)).Nodup :=
    List.Nodup.map toStr_natCast_injective List.nodup_range
  rw [hset, List.toFinset_card_of_nodup hnodup, List.length_map, List.length_range]

theorem take_pushes (k n : ℕ) : (pushes n).take k = pushes (min k n) := by
  rw [pushes, ← List.map_take, List.take_range, pushes]

theorem not_refinesSet_pushes {n : ℕ} (hn : n ≤ 2 ^ 31) (hwrap : wrap32 n ≠ n) :
    ¬RefinesSet (pushes n) := by
  rintro ⟨s, b, hrun, hset, -⟩
  have hlen : (pushes n).length = n := by rw [pushes, List.length_map, List.length_range]
  obtain ⟨s', hrun', hr⟩ := Refines.run refines_new fun k (hk : k < (pushes n).length) => by
    have hcard := card_pushes (min k n)
    rw [denote, Hashset.card_contents, ← take_pushes] at hcard
    rw [hcard]
    rw [hlen] at hk
    omega
  obtain rfl := Option.some.inj (hrun.symm.trans hrun')
  have hlength := hset.getLength
  have hcard := card_pushes n
  rw [hr.getLength, ← Hashset.card_contents, ← denote, hcard] at hlength
  exact hwrap hlength

/-- After `2^31` different elements have been pushed, `get_length` is `-2^31`. -/
theorem not_refinesSet_of_two_pow_31 : ¬RefinesSet (pushes (2 ^ 31)) := by
  refine not_refinesSet_pushes le_rfl ?_
  have hwrap : wrap32 ((2 ^ 31 : ℕ) : Int) < 2 ^ 31 := (wrap32_bounds _).2
  exact fun heq => absurd (heq ▸ hwrap) (by norm_num)

end HeapHashset

end MuseKv
