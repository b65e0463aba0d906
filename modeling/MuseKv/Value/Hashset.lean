import MuseKv.HashFunc
import MuseKv.General.Buckets
import MuseKv.Value.Linkedlist
import MuseKv.Kvstore.Equiv.Text
import Mathlib.Data.List.FinRange

/-!
# `hashset::Hashset`

The set type of the store: 97 lists, an element in the list of its own hash and at most once.
The invariant is carried by the structure; `push`, `pop` and `del` keep it.
-/

namespace MuseKv

open General Kvstore

instance Hashset.neZero : NeZero 97 := ⟨by decide⟩

/-- `hash_func` of `Hashset`: `(str[i] - 'a' + 1) * p`. -/
def Hashset.hashFunc (str : Str) : Int := tableIndex (polyHash 96 str) 97

/-- The list an element belongs to. -/
def Hashset.slot (str : Str) : Fin 97 := bucketOf (polyHash 96 str) 97

/-- A `Hashset`. -/
structure Hashset where
  table : Fin 97 → List Str
  wf : Buckets.WF Hashset.slot id table

namespace Hashset

/-- The element `pop` of list `i` removes, if the list has one. -/
def firstNonempty (s : Hashset) : Option (Fin 97) :=
  (List.finRange 97).find? fun i => 0 < (s.table i).length

/-- The list that holds `content`, searching all of them as `del` does. -/
def listOf (s : Hashset) (content : Str) : Option (Fin 97) :=
  (List.finRange 97).find? fun i => content ∈ s.table i

/-- A constructed `Hashset`: 97 empty lists. -/
def empty : Hashset where
  table _ := []
  wf := ⟨by simp, by simp⟩

/-- `push`: append to the list of the element's hash unless that list has the element. -/
def push (s : Hashset) (content : Str) : Hashset :=
  if h : content ∈ s.table (slot content) then s
  else
    { table := Buckets.append slot id s.table content
      wf := s.wf.append (Buckets.find_eq_none_iff.mpr fun a ha heq => h ((show a = content from heq) ▸ ha)) }

/-- `pop`: `pop_back` of the first non-empty list. -/
def pop (s : Hashset) : Str × Hashset :=
  match s.firstNonempty with
  | none => ([], s)
  | some i =>
    ((Linkedlist.popBack (s.table i)).1,
      { table := Function.update s.table i (Linkedlist.popBack (s.table i)).2
        wf := s.wf.sublist fun j => by
          rcases eq_or_ne j i with rfl | hj
          · rw [Function.update_self]
            exact List.dropLast_sublist _
          · rw [Function.update_of_ne hj] })

/-- `del`: remove the first occurrence from the first list that has the element. -/
def del (s : Hashset) (content : Str) : Bool × Hashset :=
  match s.listOf content with
  | none => (false, s)
  | some i =>
    (true,
      { table := Function.update s.table i ((s.table i).erase content)
        wf := s.wf.sublist fun j => by
          rcases eq_or_ne j i with rfl | hj
          · rw [Function.update_self]
            exact List.erase_sublist
          · rw [Function.update_of_ne hj] })

/-- `get_length`. -/
def getLength (s : Hashset) : ℕ := ((List.finRange 97).map fun i => (s.table i).length).sum

def isEmpty (s : Hashset) : Bool := s.getLength == 0

/-- `print`: the prints of the non-empty lists, comma-separated. -/
def print (s : Hashset) : Str :=
  merge (byte ',') (((List.finRange 97).filter fun i => s.table i ≠ []).map fun i =>
    Linkedlist.print (s.table i))

/-- The elements in the order `print` shows them. -/
def elements (s : Hashset) : List Str := (List.finRange 97).flatMap s.table

instance : Membership Str Hashset := ⟨fun s x => ∃ i, x ∈ s.table i⟩

theorem mem_def {s : Hashset} {x : Str} : x ∈ s ↔ ∃ i, x ∈ s.table i := Iff.rfl

theorem mem_elements {s : Hashset} {x : Str} : x ∈ s.elements ↔ x ∈ s := by
  rw [elements, List.mem_flatMap, mem_def]
  simp

@[simp]
theorem not_mem_empty (x : Str) : x ∉ empty := by
  rintro ⟨i, hi⟩
  simp [empty] at hi

/-- `push` adds exactly its argument. -/
theorem mem_push {s : Hashset} {x y : Str} : x ∈ s.push y ↔ x = y ∨ x ∈ s := by
  rw [push]
  split_ifs with h
  · constructor
    · exact Or.inr
    · rintro (rfl | hx)
      · exact ⟨_, h⟩
      · exact hx
  · exact Buckets.mem_append id

theorem mem_foldl_push {x : Str} (l : List Str) (s : Hashset) :
    x ∈ l.foldl push s ↔ x ∈ l ∨ x ∈ s := by
  induction l generalizing s with
  | nil => simp
  | cons y l ih =>
    rw [List.foldl_cons, ih, mem_push, List.mem_cons]
    tauto

/-- `pop` hands out an element, or the empty string. -/
theorem pop_fst (s : Hashset) : s.pop.1 = [] ∨ s.pop.1 ∈ s := by
  rw [pop]
  cases s.firstNonempty with
  | none => exact Or.inl rfl
  | some i =>
    dsimp only [Linkedlist.popBack]
    cases hlast : (s.table i).getLast? with
    | none => exact Or.inl rfl
    | some x => exact Or.inr ⟨i, List.mem_of_getLast? hlast⟩

/-- **`pop` on a set that is not empty** removes the element that it hands out. -/
theorem pop_spec {s : Hashset} (h : s.isEmpty = false) :
    s.pop.1 ∈ s ∧ ∀ x, x ∈ s.pop.2 ↔ x ∈ s ∧ x ≠ s.pop.1 := by
  have hfirst : s.firstNonempty ≠ none := by
    intro hnone
    rw [firstNonempty, List.find?_eq_none] at hnone
    have hsum : s.getLength = 0 := by
      rw [getLength, List.sum_eq_zero_iff_forall_eq_nat]
      intro k hk
      obtain ⟨i, hi, rfl⟩ := List.mem_map.mp hk
      simpa using hnone i hi
    rw [isEmpty, hsum] at h
    exact absurd h (by decide)
  obtain ⟨i, hi⟩ := Option.ne_none_iff_exists'.mp hfirst
  have hlen : s.table i ≠ [] := by
    intro hnil
    have hpos := List.find?_some hi
    rw [hnil] at hpos
    exact absurd hpos (by decide)
  have hlast : (s.table i).getLast?.getD [] = (s.table i).getLast hlen := by
    rw [List.getLast?_eq_some_getLast hlen, Option.getD_some]
  rw [pop]
  simp only [hi]
  change (s.table i).getLast?.getD [] ∈ s ∧ ∀ x,
    (∃ j, x ∈ Function.update s.table i (s.table i).dropLast j) ↔
      x ∈ s ∧ x ≠ (s.table i).getLast?.getD []
  rw [hlast]
  have hnodup : (s.table i).Nodup := by
    have hmap := s.wf.nodup i
    rwa [List.map_id] at hmap
  -- no element is twice in its list, so only one is gone
  have hmem : ∀ x, x ∈ (s.table i).dropLast ↔ x ∈ s.table i ∧ x ≠ (s.table i).getLast hlen := by
    intro x
    constructor
    · intro hx
      refine ⟨List.mem_of_mem_dropLast hx, ?_⟩
      rintro rfl
      rw [← List.dropLast_append_getLast hlen, List.nodup_append] at hnodup
      exact hnodup.2.2 _ hx _ (List.mem_singleton_self _) rfl
    · rintro ⟨hx, hne⟩
      exact List.mem_dropLast_of_mem_of_ne_getLast hx hne
  refine ⟨⟨i, List.getLast_mem hlen⟩, fun x => ⟨?_, ?_⟩⟩
  · rintro ⟨j, hj⟩
    rcases eq_or_ne j i with rfl | hne
    · rw [Function.update_self, hmem] at hj
      exact ⟨⟨j, hj.1⟩, hj.2⟩
    · rw [Function.update_of_ne hne] at hj
      refine ⟨⟨j, hj⟩, ?_⟩
      -- an element is only in the list of its hash
      rintro rfl
      exact hne ((s.wf.placed j _ hj).symm.trans (s.wf.placed i _ (List.getLast_mem hlen)))
  · rintro ⟨⟨j, hj⟩, hx⟩
    refine ⟨j, ?_⟩
    rcases eq_or_ne j i with rfl | hne
    · rw [Function.update_self, hmem]
      exact ⟨hj, hx⟩
    · rwa [Function.update_of_ne hne]

theorem mem_of_mem_pop {s : Hashset} {x : Str} (h : x ∈ s.pop.2) : x ∈ s := by
  rw [pop] at h
  cases hf : s.firstNonempty with
  | none => simpa only [hf] using h
  | some i =>
    simp only [hf] at h
    obtain ⟨j, hj⟩ := h
    refine ⟨j, ?_⟩
    change x ∈ Function.update s.table i _ j at hj
    rcases eq_or_ne j i with rfl | hne
    · rw [Function.update_self] at hj
      exact List.mem_of_mem_dropLast hj
    · rwa [Function.update_of_ne hne] at hj

theorem mem_of_mem_del {s : Hashset} {x y : Str} (h : x ∈ (s.del y).2) : x ∈ s := by
  rw [del] at h
  cases hf : s.listOf y with
  | none => simpa only [hf] using h
  | some i =>
    simp only [hf] at h
    obtain ⟨j, hj⟩ := h
    refine ⟨j, ?_⟩
    change x ∈ Function.update s.table i _ j at hj
    rcases eq_or_ne j i with rfl | hne
    · rw [Function.update_self] at hj
      exact List.mem_of_mem_erase hj
    · rwa [Function.update_of_ne hne] at hj

/-- A set without elements prints nothing and has length `0`. -/
theorem elements_eq_nil_iff {s : Hashset} : s.elements = [] ↔ ∀ i, s.table i = [] := by
  rw [elements, List.flatMap_eq_nil_iff]
  simp

/-- Merging the merges of the non-empty lists merges everything. -/
theorem merge_merge {t : UInt8} {ι : Type*} (f : ι → List Str) (l : List ι) :
    merge t ((l.filter fun i => f i ≠ []).map fun i => merge t (f i)) = merge t (l.flatMap f) := by
  induction l with
  | nil => rfl
  | cons i l ih =>
    by_cases hi : f i = []
    · simp only [List.filter_cons, hi, List.flatMap_cons, List.nil_append] at ih ⊢
      simpa using ih
    · rw [List.filter_cons_of_pos (by simpa using hi), List.map_cons, List.flatMap_cons]
      by_cases hrest : l.flatMap f = []
      · have hnil : (l.filter fun j => f j ≠ []) = [] := by
          rw [List.filter_eq_nil_iff]
          intro j hj
          have := (List.flatMap_eq_nil_iff.mp hrest) j hj
          simp [this]
        rw [hnil, hrest, List.append_nil, List.map_nil, merge_singleton]
      · have hne : ((l.filter fun j => f j ≠ []).map fun j => merge t (f j)) ≠ [] := by
          intro h
          apply hrest
          rw [List.map_eq_nil_iff, List.filter_eq_nil_iff] at h
          rw [List.flatMap_eq_nil_iff]
          intro j hj
          simpa using h j hj
        rw [merge_cons t _ hne, ih, merge_append hi hrest]

/-- **`print` is the comma-join of the elements.** -/
theorem print_eq (s : Hashset) : s.print = merge (byte ',') s.elements :=
  merge_merge s.table (List.finRange 97)

end Hashset

end MuseKv
