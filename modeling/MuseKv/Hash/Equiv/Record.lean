import MuseKv.Hash.Snapshot
import MuseKv.Value.Same

/-!
# One record of the snapshot

`readRecord_record`: what `read` makes of the record of an entry with a clean key, in closed form.
`exists_rebuild_same_iff`: a value is rebuilt as it was exactly when it is `Storable`.
-/

namespace MuseKv

open General Kvstore

/-- Without the two bytes that a record cannot carry inside an item: the separator and NUL. -/
def Clean (s : Str) : Prop := byte ',' ∉ s ∧ (0 : UInt8) ∉ s

/-- The values that a record can carry.  A list or set that prints nothing is shown as `(empty)`. -/
def Value.Storable : Value → Prop
  | .string s => Clean s
  | .list l => l ≠ [] ∧ l ≠ [[]] ∧ ∀ x ∈ l, Clean x
  | .set s => s.elements ≠ [] ∧ s.elements ≠ [[]] ∧ ∀ x ∈ s, Clean x
  | .hashmap m => ∀ f v, m.lookup f = some v → Clean f ∧ Clean v
  | .unset => False

/-! ### Clean texts -/

/-- The pieces of a message are clean. -/
theorem clean_of_mem_split {s x : Str} (h0 : (0 : UInt8) ∉ s) (hx : x ∈ split s (byte ',')) :
    Clean x :=
  ⟨(mem_split hx).1, fun hz => h0 ((mem_split hx).2 0 hz)⟩

theorem not_mem_merge {l : List Str} (h : ∀ x ∈ l, Clean x) :
    (0 : UInt8) ∉ merge (byte ',') l := fun h0 => by
  rcases mem_merge h0 with h0 | ⟨x, hx, h0⟩
  · exact absurd h0 (by decide)
  · exact (h x hx).2 h0

/-! ### The items of a record -/

/-- The value `read` builds from the text of a value: for a `String`, its first piece only. -/
def readBack (x : Str) : Dtype → Option Value
  | .string => some (.string ((x.splitOn (byte ',')).headD []))
  | dtype => Value.dataEncode x dtype

/-- The number `read` takes the type code for. -/
def Dtype.num : Dtype → Int
  | .string => 0
  | .list => 1
  | .set => 2
  | .hashmap => 3

theorem strtoint_code (dtype : Dtype) : strtoint dtype.code = some (true, dtype.num) := by
  cases dtype <;> decide

theorem clean_code (dtype : Dtype) : Clean dtype.code := by
  unfold Clean
  cases dtype <;> decide

theorem clean_toStr (n : Int) : Clean (toStr n) :=
  ⟨not_mem_toStr (by decide) (by decide) n, not_mem_toStr (by decide) (by decide) n⟩

theorem strtoint_level (a : UInt8) : strtoint (toStr a.toNat) = some (true, (a.toNat : Int)) := by
  have := a.toNat_lt
  exact strtoint_toStr (by omega)

theorem readValue_num {x arg : Str} {args : List Str} (h : x.splitOn (byte ',') = arg :: args)
    (dtype : Dtype) : Hash.readValue dtype.num arg args = readBack x dtype := by
  have hjoin : joinArgs arg args = x := by
    rw [joinArgs_eq, ← h, merge, List.intercalate_splitOn]
  cases dtype with
  | string =>
    rw [readBack, h]
    rfl
  | list => rw [← hjoin]; rfl
  | set => rw [← hjoin]; rfl
  | hashmap => rw [← hjoin]; rfl

/-- **The record of an entry, read.**  The key and the levels come back; of the value, what
`readBack` makes of its text. -/
theorem readRecord_record (dtype : Dtype) (authw authr : UInt8) {k : Str} (hk : Clean k) (x : Str) :
    Hash.readRecord (merge (byte ',') [dtype.code, toStr authw.toNat, toStr authr.toNat, k, x])
      = (readBack x dtype).map fun value => some (k, value, authr, authw) := by
  obtain ⟨arg, args, hx⟩ := List.exists_cons_of_ne_nil (List.splitOn_ne_nil (byte ',') x)
  have hsplit : split (merge (byte ',') [dtype.code, toStr authw.toNat, toStr authr.toNat, k, x])
      (byte ',') = dtype.code :: toStr authw.toNat :: toStr authr.toNat :: k :: arg :: args := by
    simp only [merge_cons_cons, merge_singleton]
    rw [split_of_ne_nil (by simp), List.splitOn_append_cons_self_of_not_mem (clean_code dtype).1,
      List.splitOn_append_cons_self_of_not_mem (clean_toStr _).1,
      List.splitOn_append_cons_self_of_not_mem (clean_toStr _).1,
      List.splitOn_append_cons_self_of_not_mem hk.1, hx]
  have hrange : ¬ (dtype.num < 0 ∧ dtype.num > 3) := by omega
  rw [Hash.readRecord, hsplit]
  simp only [strtoint_code, strtoint_level, readValue_num hx, toU8_natCast_toNat]
  rw [if_neg (by simpa using hrange)]

/-! ### Values -/

/-- What `read` makes of a value that `save` wrote. -/
def rebuild (v : Value) : Option Value :=
  v.dataDecode.bind fun x => readBack (cString x) v.dataDtype

theorem splitData_eq_some {x : Str} {l : List Str} :
    Value.splitData x = some l ↔ x ≠ [] ∧ split x (byte ',') = l := by
  rw [Value.splitData]
  by_cases hx : x = []
  · simp [hx]
  · simp [hx]

theorem foldl_pushBack (l m : List Str) : l.foldl Linkedlist.pushBack m = m ++ l := by
  induction l generalizing m with
  | nil => rw [List.foldl_nil, List.append_nil]
  | cons x l ih =>
    rw [List.foldl_cons, ih, Linkedlist.pushBack, List.append_assoc, List.singleton_append]

theorem split_ne_nil {x : Str} (hx : x ≠ []) : split x (byte ',') ≠ [] := by
  rw [split_of_ne_nil hx]
  exact List.splitOn_ne_nil _ _

/-- A list of clean strings that prints something is carried as it is. -/
theorem splitData_orEmpty {l : List Str} (h : l ≠ []) (h' : l ≠ [[]]) (hc : ∀ x ∈ l, Clean x) :
    Value.splitData (cString (Value.orEmpty (merge (byte ',') l))) = some l := by
  have hne : merge (byte ',') l ≠ [] := fun h0 => (merge_eq_nil.mp h0).elim h h'
  rw [Value.orEmpty, if_pos hne, cString_of_not_mem (not_mem_merge hc), splitData_eq_some]
  exact ⟨hne, split_merge (fun x hx => (hc x hx).1) hne⟩

theorem splitData_empty : Value.splitData (cString (lit "(empty)")) = some [lit "(empty)"] := by
  decide

/-- A list that reads back the same from its text is one that a record can carry. -/
theorem storable_of_splitData {l l' : List Str} (hsame : ∀ x, x ∈ l ↔ x ∈ l')
    (h : Value.splitData (cString (Value.orEmpty (merge (byte ',') l))) = some l') :
    l ≠ [] ∧ l ≠ [[]] ∧ ∀ x ∈ l, Clean x := by
  obtain ⟨hne, rfl⟩ := splitData_eq_some.mp h
  refine ⟨?_, ?_, fun x hx => clean_of_mem_split (not_mem_cString _) ((hsame x).mp hx)⟩
  · rintro rfl
    obtain ⟨y, hy⟩ := List.exists_mem_of_ne_nil _ (split_ne_nil hne)
    exact List.not_mem_nil ((hsame y).mpr hy)
  · rintro rfl
    have hl : Value.orEmpty (merge (byte ',') [[]]) = lit "(empty)" := by decide
    rw [hl, splitData_empty, Option.some.injEq] at h
    rw [hl, ← h] at hsame
    exact absurd ((hsame (lit "(empty)")).mpr (List.mem_singleton_self _)) (by decide)

/-! ### Field/value maps -/

/-- The fields and values that `setPairs` enters are pieces. -/
theorem lookup_setPairs_mem (l : List Str) (m : Hashmap) {f v : Str}
    (h : (Value.setPairs l m).lookup f = some v) : m.lookup f = some v ∨ (f ∈ l ∧ v ∈ l) := by
  induction l, m using Value.setPairs.induct with
  | case1 f' v' rest m ih =>
    rw [Value.setPairs] at h
    rcases ih h with h | ⟨hf, hv⟩
    · rw [Hashmap.lookup_setFv] at h
      split_ifs at h with hff
      · exact Or.inr ⟨by simp [hff], by simp [Option.some.inj h]⟩
      · exact Or.inl h
    · exact Or.inr ⟨by simp [hf], by simp [hv]⟩
  | case2 l m hl =>
    rw [Value.setPairs] at h
    · exact Or.inl h
    · exact hl

/-- Entering the pairs of nodes with distinct fields. -/
theorem lookup_setPairs_nodes (ns : List (Str × Str)) (hns : (ns.map Prod.fst).Nodup) (m : Hashmap)
    (f : Str) : (Value.setPairs (ns.flatMap fun n => [n.1, n.2]) m).lookup f
      = ((ns.find? fun n => n.1 = f).map Prod.snd).or (m.lookup f) := by
  induction ns generalizing m with
  | nil => rfl
  | cons n ns ih =>
    rw [List.map_cons, List.nodup_cons] at hns
    rw [List.flatMap_cons, List.cons_append, List.cons_append, List.nil_append, Value.setPairs,
      ih hns.2, Hashmap.lookup_setFv]
    by_cases hf : n.1 = f
    · have hnone : (ns.find? fun n => n.1 = f) = none := by
        rw [List.find?_eq_none]
        intro n' hn'
        simpa [← hf] using fun h : n'.1 = n.1 => hns.1 (h ▸ List.mem_map_of_mem hn')
      rw [hnone, if_pos hf.symm, List.find?_cons_of_pos (by simpa using hf)]
      rfl
    · rw [if_neg fun h => hf h.symm, List.find?_cons_of_neg (by simpa using hf)]

/-- A field/value map with clean items is carried as it is. -/
theorem rebuild_hashmap {m : Hashmap} (h : ∀ f v, m.lookup f = some v → Clean f ∧ Clean v) :
    ∃ m', rebuild (.hashmap m) = some (.hashmap m') ∧ ∀ f, m.lookup f = m'.lookup f := by
  have hrebuild : ∀ x l, Value.dataDecode (.hashmap m) = some x →
      Value.splitData (cString x) = some l →
      rebuild (.hashmap m) = some (.hashmap (Value.setPairs l Hashmap.empty)) := by
    intro x l hx hl
    rw [rebuild, hx, Option.bind_some, Value.dataDtype, readBack, Value.dataEncode, hl,
      Option.map_some]
    simp
  by_cases hnil : m.nodes = []
  · -- an empty map is written as a word, which is no field with a value
    refine ⟨_, hrebuild (lit "(empty)") [lit "(empty)"] ?_ splitData_empty, fun f => ?_⟩
    · rw [Value.dataDecode, if_pos ((Hashmap.isEmpty_iff m).mpr hnil)]
    · rw [Hashmap.lookup, hnil]
      rfl
  · set l := m.nodes.flatMap fun n => [n.1, n.2] with hl
    have hclean : ∀ x ∈ l, Clean x := by
      intro x hx
      obtain ⟨n, hn, hx⟩ := List.mem_flatMap.mp hx
      have hc := h n.1 n.2 (Hashmap.mem_nodes_iff.mp hn)
      rcases List.mem_cons.mp hx with rfl | hx
      · exact hc.1
      · exact List.mem_singleton.mp hx ▸ hc.2
    have hne : merge (byte ',') l ≠ [] := by
      obtain ⟨n, ns, hns⟩ := List.exists_cons_of_ne_nil hnil
      rw [hl, hns, List.flatMap_cons, List.cons_append, List.cons_append, merge_cons_cons]
      simp
    refine ⟨_, hrebuild (merge (byte ',') l) l ?_ ?_, fun f => ?_⟩
    · rw [Value.dataDecode, if_neg fun he => hnil ((Hashmap.isEmpty_iff m).mp he), Hashmap.fvs,
        Hashmap.listing_eq]
    · rw [cString_of_not_mem (not_mem_merge hclean), splitData_eq_some]
      exact ⟨hne, split_merge (fun x hx => (hclean x hx).1) hne⟩
    · rw [hl, lookup_setPairs_nodes m.nodes m.nodup, Hashmap.lookup_empty, Option.or_none,
        Hashmap.lookup]

/-- A string is the first of its pieces exactly when it has no comma and no zero byte. -/
theorem exists_rebuild_string_iff (s : Str) :
    (∃ v', rebuild (.string s) = some v' ∧ Value.Same (.string s) v') ↔
      Value.Storable (.string s) := by
  rw [rebuild, Value.dataDecode, Option.bind_some, Value.dataDtype, readBack]
  constructor
  · rintro ⟨v', hv', hsame⟩
    obtain rfl := Option.some.inj hv'
    obtain ⟨arg, args, hx⟩ := List.exists_cons_of_ne_nil
      (List.splitOn_ne_nil (byte ',') (cString s))
    rw [hx] at hsame
    have hs : s = arg := hsame
    -- the empty text has one piece, which `split` does not give
    by_cases hne : cString s = []
    · rw [hne] at hx
      have : arg = [] := by simpa using (congrArg (List.headD · []) hx).symm
      rw [hs, this]
      exact ⟨List.not_mem_nil, List.not_mem_nil⟩
    · rw [Value.Storable, hs]
      refine clean_of_mem_split (not_mem_cString s) ?_
      rw [split_of_ne_nil hne, hx]
      exact List.mem_cons_self ..
  · intro hs
    refine ⟨_, rfl, ?_⟩
    rw [cString_of_not_mem hs.2, List.splitOn_eq_singleton hs.1]
    rfl

/-- A list is pushed again in the order in which it was written. -/
theorem exists_rebuild_list_iff (l : List Str) :
    (∃ v', rebuild (.list l) = some v' ∧ Value.Same (.list l) v') ↔ Value.Storable (.list l) := by
  rw [rebuild, Value.dataDecode, Option.bind_some, Value.dataDtype, readBack, Value.dataEncode,
    Linkedlist.print]
  · constructor
    · rintro ⟨v', hv', hsame⟩
      obtain ⟨l', hl', rfl⟩ := Option.map_eq_some_iff.mp hv'
      rw [foldl_pushBack, List.nil_append] at hsame
      have hll : l = l' := hsame
      exact storable_of_splitData (fun x => by rw [hll]) hl'
    · rintro ⟨h, h', hc⟩
      refine ⟨_, by rw [splitData_orEmpty h h' hc]; rfl, ?_⟩
      change l = l.foldl Linkedlist.pushBack []
      rw [foldl_pushBack, List.nil_append]
  · simp

/-- A set only keeps its members, so the order of what is pushed again does not count. -/
theorem exists_rebuild_set_iff (s : Hashset) :
    (∃ v', rebuild (.set s) = some v' ∧ Value.Same (.set s) v') ↔ Value.Storable (.set s) := by
  have hmem : ∀ (l : List Str) x, x ∈ l.foldl Hashset.push Hashset.empty ↔ x ∈ l := by
    intro l x
    rw [Hashset.mem_foldl_push]
    simp
  rw [rebuild, Value.dataDecode, Option.bind_some, Value.dataDtype, readBack, Value.dataEncode,
    Hashset.print_eq]
  · constructor
    · rintro ⟨v', hv', hsame⟩
      obtain ⟨l', hl', rfl⟩ := Option.map_eq_some_iff.mp hv'
      have hs : ∀ x, x ∈ s ↔ x ∈ l' := fun x => (hsame x).trans (hmem l' x)
      obtain ⟨h, h', hc⟩ :=
        storable_of_splitData (fun x => Hashset.mem_elements.trans (hs x)) hl'
      exact ⟨h, h', fun x hx => hc x (Hashset.mem_elements.mpr hx)⟩
    · rintro ⟨h, h', hc⟩
      have hl := splitData_orEmpty h h' fun x hx => hc x (Hashset.mem_elements.mp hx)
      refine ⟨_, by rw [hl]; rfl, ?_⟩
      intro x
      rw [hmem, Hashset.mem_elements]
  · simp

/-- A field/value map survives exactly when all its fields and values are clean. -/
theorem exists_rebuild_hashmap_iff (m : Hashmap) :
    (∃ v', rebuild (.hashmap m) = some v' ∧ Value.Same (.hashmap m) v') ↔
      Value.Storable (.hashmap m) := by
  constructor
  · rintro ⟨v', hv', hsame⟩ f v hf
    rw [rebuild, Option.bind_eq_some_iff] at hv'
    obtain ⟨x, -, hv'⟩ := hv'
    rw [Value.dataDtype, readBack, Value.dataEncode] at hv'
    · obtain ⟨l, hl, rfl⟩ := Option.map_eq_some_iff.mp hv'
      obtain ⟨-, rfl⟩ := splitData_eq_some.mp hl
      have hlook := hsame f
      rw [hf] at hlook
      -- what the new map holds came out of the pieces of the text
      rcases lookup_setPairs_mem _ _ hlook.symm with h | ⟨hf, hv⟩
      · simp at h
      · exact ⟨clean_of_mem_split (not_mem_cString _) hf,
          clean_of_mem_split (not_mem_cString _) hv⟩
    · simp
  · intro h
    obtain ⟨m', hm', hlook⟩ := rebuild_hashmap h
    exact ⟨_, hm', hlook⟩

/-- **The values that survive.**  A value is rebuilt with its content exactly when it is
`Storable`. -/
theorem exists_rebuild_same_iff (v : Value) :
    (∃ v', rebuild v = some v' ∧ v.Same v') ↔ v.Storable := by
  cases v with
  | string s => exact exists_rebuild_string_iff s
  | list l => exact exists_rebuild_list_iff l
  | set s => exact exists_rebuild_set_iff s
  | hashmap m => exact exists_rebuild_hashmap_iff m
  | unset =>
    constructor
    · rintro ⟨v', hv', -⟩
      exact absurd hv' (by simp [rebuild, Value.dataDecode])
    · exact False.elim

end MuseKv
