import MuseKv.Kvstore.Equiv.Text
import MuseKv.General.Buckets
import Mathlib.Data.List.FinRange

/-!
# `hashmap::Hashmap`

The field/value map of the store: 97 chains of `(field, value)` nodes and a counter.  `set_fv`
takes the chain of a new node from the index that `find_hashmapNode` leaves at `0` when it finds
nothing, so every node is in chain `0`; the structure carries that, the distinctness of the fields
and the counter.
-/

namespace MuseKv

open General Kvstore

/-- A `Hashmap`. -/
structure Hashmap where
  hMap : Fin 97 → List (Str × Str)
  size : ℕ
  others_nil : ∀ i, i ≠ 0 → hMap i = []
  nodup : ((hMap 0).map Prod.fst).Nodup
  size_eq : size = (hMap 0).length

namespace Hashmap

/-- A constructed `Hashmap`. -/
def empty : Hashmap where
  hMap _ := []
  size := 0
  others_nil _ _ := rfl
  nodup := List.nodup_nil
  size_eq := rfl

/-- `int index = 0`: the chain of a new node, as `find_hashmapNode` sets the index only when it finds one. -/
def firstIndex : Fin 97 := 0

/-- `find_hashmapNode`: the first node with the field in any chain, with the index of the chain. -/
def findHashmapNode (m : Hashmap) (field : Str) : Option (Fin 97 × Str × Str) :=
  (List.finRange 97).findSome? fun i =>
    ((m.hMap i).find? fun n => n.1 = field).map fun n => (i, n)

def isEmpty (m : Hashmap) : Bool := m.size == 0

/-- The text of the three listing functions: each chain is joined by commas, and the chains are
put one behind the other. -/
def listing (m : Hashmap) (show_ : Str × Str → List Str) : Str :=
  (List.finRange 97).flatMap fun i => merge (byte ',') ((m.hMap i).flatMap show_)

def fields (m : Hashmap) : Str := m.listing fun n => [n.1]

def values (m : Hashmap) : Str := m.listing fun n => [n.2]

def fvs (m : Hashmap) : Str := m.listing fun n => [n.1, n.2]

/-- `get_v`: the text `NULL` stands for an absent field. -/
def getV (m : Hashmap) (field : Str) : Str :=
  match m.findHashmapNode field with
  | none => lit "NULL"
  | some n => n.2.2

/-! ### The single chain -/

/-- The nodes of the map, newest first. -/
def nodes (m : Hashmap) : List (Str × Str) := m.hMap 0

theorem finRange_eq : List.finRange 97 = 0 :: (List.finRange 96).map Fin.succ :=
  List.finRange_succ

theorem find_eq (m : Hashmap) (field : Str) :
    m.findHashmapNode field = (m.nodes.find? fun n => n.1 = field).map fun n => (0, n) := by
  have hrest : ((List.finRange 96).map Fin.succ).findSome?
      (fun i => ((m.hMap i).find? fun n => n.1 = field).map fun n => (i, n)) = none := by
    rw [List.findSome?_eq_none_iff]
    intro i hi
    obtain ⟨j, _, rfl⟩ := List.mem_map.mp hi
    rw [m.others_nil _ (Fin.succ_ne_zero j)]
    rfl
  rw [findHashmapNode, finRange_eq, List.findSome?_cons, hrest, nodes]
  cases (m.hMap 0).find? fun n => n.1 = field with
  | none => rfl
  | some n => rfl

theorem find_fst {m : Hashmap} {field : Str} {r : Fin 97 × Str × Str}
    (h : m.findHashmapNode field = some r) : r.1 = 0 := by
  rw [find_eq] at h
  obtain ⟨n, _, rfl⟩ := Option.map_eq_some_iff.mp h
  rfl

theorem listing_eq (m : Hashmap) (f : Str × Str → List Str) :
    m.listing f = merge (byte ',') (m.nodes.flatMap f) := by
  have hrest : ((List.finRange 96).map Fin.succ).flatMap
      (fun i => merge (byte ',') ((m.hMap i).flatMap f)) = [] := by
    rw [List.flatMap_eq_nil_iff]
    intro i hi
    obtain ⟨j, _, rfl⟩ := List.mem_map.mp hi
    rw [m.others_nil _ (Fin.succ_ne_zero j)]
    rfl
  rw [listing, finRange_eq, List.flatMap_cons, hrest, List.append_nil, nodes]

/-! ### The mutators -/

/-- `change_v` on the node of a field. -/
def changeV (field value : Str) (l : List (Str × Str)) : List (Str × Str) :=
  l.map fun n => if n.1 = field then (n.1, value) else n

/-- `set_fv`: a new node goes to the front of the chain whose index was left at `0`, and an existing
node gets the new value. -/
def setFv (m : Hashmap) (field value : Str) : Hashmap :=
  match h : m.findHashmapNode field with
  | none =>
    { hMap := Function.update m.hMap 0 ((field, value) :: m.hMap 0)
      size := m.size + 1
      others_nil := fun i hi => by rw [Function.update_of_ne hi, m.others_nil i hi]
      nodup := by
        rw [Function.update_self, List.map_cons, List.nodup_cons]
        refine ⟨fun hmem => ?_, m.nodup⟩
        rw [find_eq, Option.map_eq_none_iff, List.find?_eq_none] at h
        obtain ⟨n, hn, hf⟩ := List.mem_map.mp hmem
        exact h n hn (by simpa using hf)
      size_eq := by rw [Function.update_self, List.length_cons, m.size_eq] }
  | some r =>
    { hMap := Function.update m.hMap r.1 (changeV field value (m.hMap r.1))
      size := m.size
      others_nil := fun i hi => by
        rw [find_fst h, Function.update_of_ne hi, m.others_nil i hi]
      nodup := by
        rw [find_fst h, Function.update_self, changeV,
          Buckets.map_key_alter Prod.fst field (f := fun n => (n.1, value)) (fun _ => rfl)]
        exact m.nodup
      size_eq := by rw [find_fst h, Function.update_self, changeV, List.length_map, m.size_eq] }

/-- `del_fv`: dereferencing the node of an absent field is a fault (`none`). -/
def delFv (m : Hashmap) (field : Str) : Option Hashmap :=
  match h : m.findHashmapNode field with
  | none => none
  | some r =>
    some
      { hMap := Function.update m.hMap r.1 ((m.hMap r.1).eraseP fun n => n.1 = field)
        size := m.size - 1
        others_nil := fun i hi => by
          rw [find_fst h, Function.update_of_ne hi, m.others_nil i hi]
        nodup := by
          rw [find_fst h, Function.update_self]
          exact m.nodup.sublist (List.eraseP_sublist.map Prod.fst)
        size_eq := by
          rw [find_eq, Option.map_eq_some_iff] at h
          obtain ⟨n, hn, rfl⟩ := h
          have hlen := List.length_eraseP_of_mem (List.mem_of_find?_eq_some hn)
            (List.find?_some hn)
          rw [nodes] at hlen
          rw [Function.update_self, m.size_eq, hlen] }

theorem setFv_of_none {m : Hashmap} {field : Str} (h : m.findHashmapNode field = none) (value : Str) :
    (m.setFv field value).hMap = Function.update m.hMap 0 ((field, value) :: m.hMap 0) ∧
      (m.setFv field value).size = m.size + 1 := by
  rw [setFv]
  split
  next => exact ⟨rfl, rfl⟩
  next r hr => exact absurd (h.symm.trans hr) (by simp)

theorem setFv_of_some {m : Hashmap} {field : Str} {r : Fin 97 × Str × Str}
    (h : m.findHashmapNode field = some r) (value : Str) : (m.setFv field value).hMap =
        Function.update m.hMap r.1 (changeV field value (m.hMap r.1)) ∧
      (m.setFv field value).size = m.size := by
  rw [setFv]
  split
  next hr => exact absurd (h.symm.trans hr) (by simp)
  next r' hr =>
    obtain rfl := Option.some.inj (h.symm.trans hr)
    exact ⟨rfl, rfl⟩

theorem delFv_of_some {m : Hashmap} {field : Str} {r : Fin 97 × Str × Str}
    (h : m.findHashmapNode field = some r) : ∃ m', m.delFv field = some m' ∧
      m'.hMap = Function.update m.hMap r.1 ((m.hMap r.1).eraseP fun n => n.1 = field) ∧
      m'.size = m.size - 1 := by
  rw [delFv]
  split
  next hr => exact absurd (h.symm.trans hr) (by simp)
  next r' hr =>
    obtain rfl := Option.some.inj (h.symm.trans hr)
    exact ⟨_, rfl, rfl, rfl⟩

/-! ### The map they denote -/

/-- The value of a field. -/
def lookup (m : Hashmap) (field : Str) : Option Str :=
  (m.nodes.find? fun n => n.1 = field).map Prod.snd

@[simp]
theorem lookup_empty (field : Str) : empty.lookup field = none := rfl

theorem isEmpty_iff (m : Hashmap) : m.isEmpty = true ↔ m.nodes = [] := by
  rw [isEmpty, beq_iff_eq, m.size_eq, nodes, List.length_eq_zero_iff]

theorem lookup_setFv (m : Hashmap) (field value f : Str) :
    (m.setFv field value).lookup f = if f = field then some value else m.lookup f := by
  rw [lookup, nodes]
  cases h : m.findHashmapNode field with
  | none =>
    rw [(setFv_of_none h value).1, Function.update_self]
    by_cases hf : f = field
    · simp [hf]
    · rw [List.find?_cons_of_neg (by simpa using fun h => hf h.symm), if_neg hf, lookup, nodes]
  | some r =>
    rw [(setFv_of_some h value).1, find_fst h, Function.update_self, changeV]
    rw [find_eq, Option.map_eq_some_iff] at h
    obtain ⟨n, hn, -⟩ := h
    rw [nodes] at hn
    rw [Buckets.find?_map_alter Prod.fst field (f := fun n => (n.1, value)) (fun _ => rfl),
      lookup, nodes]
    split_ifs with hf
    · rw [hf, hn]
      rfl
    · rfl

theorem nodes_delFv {m m' : Hashmap} {field : Str} (h : m.delFv field = some m') :
    m'.nodes = m.nodes.eraseP fun n => n.1 = field := by
  cases hfind : m.findHashmapNode field with
  | none =>
    rw [delFv] at h
    split at h
    next => exact absurd h (by simp)
    next r hr => exact absurd (hfind.symm.trans hr) (by simp)
  | some r =>
    obtain ⟨m'', hdel, hmap, -⟩ := delFv_of_some hfind
    obtain rfl := Option.some.inj (hdel.symm.trans h)
    rw [nodes, nodes, hmap, find_fst hfind, Function.update_self]

theorem lookup_delFv {m m' : Hashmap} {field : Str} (h : m.delFv field = some m') (f : Str) :
    m'.lookup f = if f = field then none else m.lookup f := by
  rw [lookup, nodes_delFv h, lookup]
  split_ifs with hf
  · rw [List.find?_eq_none.mpr, Option.map_none]
    intro n hn
    have hne := Buckets.eraseP_key_ne m.nodup field n hn
    simpa [hf] using hne
  · rw [Buckets.find?_eraseP_ne hf]

theorem mem_nodes_iff {m : Hashmap} {n : Str × Str} : n ∈ m.nodes ↔ m.lookup n.1 = some n.2 := by
  rw [lookup, Option.map_eq_some_iff]
  constructor
  · intro hn
    exact ⟨n, Buckets.find?_eq_some_of_mem Prod.fst m.nodup hn, rfl⟩
  · rintro ⟨n', hn', hsnd⟩
    have hfst : n'.1 = n.1 := by simpa using List.find?_some hn'
    have : n' = n := Prod.ext hfst hsnd
    exact this ▸ List.mem_of_find?_eq_some hn'

end Hashmap

end MuseKv
