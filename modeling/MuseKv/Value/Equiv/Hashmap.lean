import MuseKv.Value.HashmapHeap
import MuseKv.Value.Hashset
import MuseKv.General.Chains
import Mathlib.Data.Set.Card

/-!
# The map in memory refines the map

`Refines t m`: the heap holds the chains of the map `m`, and the counter is its size in an `int`.
`find_hashmapNode` leaves the index at `0` when it finds nothing, so a new node goes to chain `0` and the
other chains stay empty; the loops of the listings then put every comma that is needed
(`Refines.listing`).

* **`run_representsMap`**: a sequence of calls leaves a map in memory that is the finite map it denotes.
* `not_isEmpty_of_two_pow_32`: with `2^32` fields the counter is `0` again.
-/

namespace MuseKv

open General Kvstore

namespace HeapHashmap

/-- The heap holds the nodes of a map. -/
def Refines (t : HeapHashmap) (m : Hashmap) : Prop :=
  ∃ b, Heap.Chains t.mem t.top t.hMap b ∧ (∀ i, (b i).map Prod.snd = m.hMap i) ∧
    t.size = wrap32 m.size

variable {t : HeapHashmap} {m : Hashmap} {b : Fin 97 → List (ℕ × Str × Str)} {field : Str}

theorem refines_new : Refines new Hashmap.empty := by
  have hsize : wrap32 (0 : ℕ) = 0 := by decide
  exact ⟨_, Heap.chains_nil 0, fun _ => rfl, hsize.symm⟩

/-! ### Searching -/

/-- The first node with a field, with the index of its chain. -/
def nodeOf (b : Fin 97 → List (ℕ × Str × Str)) (field : Str) (is : List (Fin 97)) :
    Option (Fin 97 × ℕ × Str × Str) :=
  is.findSome? fun i => ((b i).find? fun x => x.2.1 = field).map fun x => (i, x)

theorem findFrom_eq (hc : Heap.Chains t.mem t.top t.hMap b) (field : Str) (index : Fin 97)
    (is : List (Fin 97)) : t.findFrom field index is =
      some (((nodeOf b field is).map fun r => r.2.1), ((nodeOf b field is).map Prod.fst).getD index) := by
  induction is with
  | nil => rfl
  | cons i is ih =>
    rw [findFrom, hc.search (fun n => n.1 = field) i, Option.bind_some, nodeOf, List.findSome?_cons]
    cases (b i).find? fun x => x.2.1 = field with
    | none => exact ih
    | some x => rfl

/-- The node is the one that the map finds. -/
theorem find_eq (hb : ∀ i, (b i).map Prod.snd = m.hMap i) (field : Str) :
    m.findHashmapNode field =
      (nodeOf b field (List.finRange 97)).map fun r => (r.1, r.2.2) := by
  rw [Hashmap.findHashmapNode, nodeOf, List.map_findSome?]
  congr 1
  funext i
  rw [← hb, List.find?_map, Function.comp_apply, Option.map_map, Option.map_map]
  rfl

/-- The node that is found is in its chain, behind nodes of other fields. -/
theorem mem_of_nodeOf {is : List (Fin 97)} {r : Fin 97 × ℕ × Str × Str}
    (h : nodeOf b field is = some r) : r.2.2.1 = field ∧ ∃ l l', b r.1 = l ++ r.2 :: l' ∧
      ∀ y ∈ l, y.2.1 ≠ field := by
  obtain ⟨i, -, hi⟩ := List.exists_of_findSome?_eq_some h
  obtain ⟨x, hx, rfl⟩ := Option.map_eq_some_iff.mp hi
  obtain ⟨hfield, l, l', hl, hfirst⟩ := List.find?_eq_some_iff_append.mp hx
  exact ⟨by simpa using hfield, l, l', hl, fun y hy => by simpa using hfirst y hy⟩

/-! ### Mutators -/

/-- A chain and the values in it, when one chain changes. -/
theorem map_snd_update (hb : ∀ i, (b i).map Prod.snd = m.hMap i) {i : Fin 97}
    {l : List (ℕ × Str × Str)} {ns : List (Str × Str)} (hl : l.map Prod.snd = ns) (j : Fin 97) :
    (Function.update b i l j).map Prod.snd = Function.update m.hMap i ns j := by
  rcases eq_or_ne j i with rfl | hj
  · rw [Function.update_self, Function.update_self, hl]
  · rw [Function.update_of_ne hj, Function.update_of_ne hj, hb]

/-- The fields of a chain are distinct. -/
theorem nodup_chain (m : Hashmap) (i : Fin 97) : ((m.hMap i).map Prod.fst).Nodup := by
  by_cases hi : i = 0
  · rw [hi]
    exact m.nodup
  · rw [m.others_nil i hi]
    exact List.nodup_nil

/-- **`set_fv`** on the heap. -/
theorem Refines.setFv (hr : Refines t m) (field value : Str) :
    ∃ t', t.setFv field value = some t' ∧ Refines t' (m.setFv field value) := by
  obtain ⟨b, hc, hb, hsize⟩ := hr
  have hfind := find_eq hb field
  rw [HeapHashmap.setFv, findHashmapNode, findFrom_eq hc, Option.bind_some]
  cases hnode : nodeOf b field (List.finRange 97) with
  | none =>
    rw [hnode, Option.map_none] at hfind
    obtain ⟨hmap, hcount⟩ := Hashmap.setFv_of_none hfind value
    obtain ⟨mem, hpush, hchains⟩ := hc.pushFront Hashmap.firstIndex (field, value)
    refine ⟨_, by simp only [Option.map_none, Option.getD_none, hpush, Option.map_some]; rfl, _,
      hchains, ?_, ?_⟩
    · rw [hmap]
      exact map_snd_update hb (by rw [List.map_cons, hb, Hashmap.firstIndex])
    · rw [hcount, hsize, wrap32_add_left]
      push_cast
      rfl
  | some r =>
    rw [hnode, Option.map_some] at hfind
    obtain ⟨hmap, hcount⟩ := Hashmap.setFv_of_some hfind value
    obtain ⟨hfield, l, l', hl, -⟩ := mem_of_nodeOf hnode
    have hmem : r.2 ∈ b r.1 := by
      rw [hl]
      exact List.mem_append_right _ (List.mem_cons_self ..)
    obtain ⟨mem, hset, hchains⟩ := hc.setVal (List.mem_map_of_mem hmem) fun n => (n.1, value)
    refine ⟨{ t with mem := mem }, by simp only [Option.map_some, hset], _, hchains, ?_, ?_⟩
    · rw [hmap]
      refine map_snd_update hb ?_
      -- the address and the field pick out the same node
      have hsame : ∀ y ∈ b r.1, y.1 = r.2.1 ↔ y.2.1 = field := by
        intro y hy
        have hfields := nodup_chain m r.1
        rw [← hb, List.map_map] at hfields
        rw [Heap.addr_eq_iff_key_eq (hc.nodup _) hfields hmem hy, hfield]
      rw [Hashmap.changeV, ← hb, List.map_map, List.map_map]
      refine List.map_congr_left fun y hy => ?_
      rw [Function.comp_apply, Function.comp_apply]
      by_cases hy' : y.1 = r.2.1
      · rw [if_pos hy', if_pos ((hsame y hy).mp hy')]
      · rw [if_neg hy', if_neg fun h => hy' ((hsame y hy).mpr h)]
    · rw [hcount, hsize]

/-- **`del_fv`** on the heap, on a present field. -/
theorem Refines.delFv (hr : Refines t m) (hfield : m.lookup field ≠ none) :
    ∃ t' m', t.delFv field = some t' ∧ m.delFv field = some m' ∧ Refines t' m' := by
  obtain ⟨b, hc, hb, hsize⟩ := hr
  have hfind := find_eq hb field
  rw [HeapHashmap.delFv, findHashmapNode, findFrom_eq hc, Option.bind_some]
  cases hnode : nodeOf b field (List.finRange 97) with
  | none =>
    rw [hnode, Option.map_none, Hashmap.find_eq, Option.map_eq_none_iff] at hfind
    exact absurd (by rw [Hashmap.lookup, hfind, Option.map_none]) hfield
  | some r =>
    rw [hnode, Option.map_some] at hfind
    obtain ⟨m', hdel, hmap, hcount⟩ := Hashmap.delFv_of_some hfind
    obtain ⟨hkey, l, l', hl, hfirst⟩ := mem_of_nodeOf hnode
    obtain ⟨mem, head, hunlink, hchains⟩ := hc.unlink hl
    refine ⟨_, m', by simp only [Option.map_some, Option.getD_some, hunlink]; rfl, hdel, _, hchains,
      ?_, ?_⟩
    · rw [hmap]
      refine map_snd_update hb ?_
      rw [← hb, hl, List.map_append, List.map_append, List.map_cons, List.eraseP_append_right,
        List.eraseP_cons_of_pos (by simpa using hkey)]
      intro n hn
      obtain ⟨y, hy, rfl⟩ := List.mem_map.mp hn
      simpa using hfirst y hy
    · have hpos : 1 ≤ m.size := by
        rw [m.size_eq, ← Hashmap.find_fst hfind, ← hb, hl, List.length_map, List.length_append,
          List.length_cons]
        omega
      rw [hcount, hsize, sub_eq_add_neg, wrap32_add_left, ← sub_eq_add_neg, Nat.cast_sub hpos,
        Nat.cast_one]

/-! ### Listings -/

variable {text : Str × Str → Str} {result : Str}

/-- The further nodes of a chain, each behind a comma. -/
theorem listRest_eq {prev head last : Option ℕ} {l : List (ℕ × Str × Str)} {fuel : ℕ}
    (hseg : t.mem.Seg prev head l last none) (hfuel : l.length ≤ fuel) :
    t.listRest text fuel head result =
      some (result ++ l.flatMap fun x => byte ',' :: text x.2) := by
  induction l generalizing prev head fuel result with
  | nil =>
    obtain ⟨rfl, -⟩ := hseg
    rw [listRest, List.flatMap_nil, List.append_nil]
  | cons x l ih =>
    obtain ⟨rfl, n, hx, hseg⟩ := hseg
    obtain ⟨fuel, rfl⟩ : ∃ k, fuel = k + 1 := ⟨fuel - 1, by simp at hfuel; omega⟩
    rw [listRest, hx, Option.bind_some, ih hseg (by simpa using hfuel), List.flatMap_cons,
      List.append_assoc]

/-- A merge is the first text and the others, each behind the separator. -/
theorem merge_cons_eq_flatMap {α : Type} (token : UInt8) (f : α → Str) (x : α) (l : List α) :
    merge token ((x :: l).map f) = f x ++ l.flatMap fun y => token :: f y := by
  induction l generalizing x with
  | nil => rw [List.map_singleton, merge_singleton, List.flatMap_nil, List.append_nil]
  | cons y l ih =>
    rw [List.map_cons, merge_cons token _ (by simp), ih, List.flatMap_cons, List.cons_append]

/-- **The body of the loop** joins the texts of a chain by commas. -/
theorem listChain_eq (hc : Heap.Chains t.mem t.top t.hMap b) (i : Fin 97) :
    t.listChain text (t.hMap i) result =
      some (result ++ merge (byte ',') ((b i).map fun x => text x.2)) := by
  obtain ⟨last, hseg⟩ := hc.seg i
  have hlen := hc.length_le i
  cases hbi : b i with
  | nil =>
    rw [hbi] at hseg
    obtain ⟨hnone, -⟩ := hseg
    rw [hnone, listChain]
    exact congrArg some (List.append_nil result).symm
  | cons x l =>
    rw [hbi] at hseg hlen
    obtain ⟨hhead, n, hx, hseg⟩ := hseg
    rw [hhead, listChain, hx, Option.bind_some,
      listRest_eq hseg ((Nat.le_succ _).trans hlen), merge_cons_eq_flatMap, List.append_assoc]

theorem listFrom_eq (hc : Heap.Chains t.mem t.top t.hMap b) (is : List (Fin 97)) :
    t.listFrom text is result = some (result ++
      is.flatMap fun i => merge (byte ',') ((b i).map fun x => text x.2)) := by
  induction is generalizing result with
  | nil => rw [listFrom, List.flatMap_nil, List.append_nil]
  | cons i is ih =>
    rw [listFrom, listChain_eq hc, Option.bind_some, ih, List.flatMap_cons, List.append_assoc]

/-- **A listing** is the comma-join of the nodes, since they are all in one chain. -/
theorem Refines.listing (hr : Refines t m) (text : Str × Str → Str) :
    t.listing text = some (merge (byte ',') (m.nodes.map text)) := by
  obtain ⟨b, hc, hb, -⟩ := hr
  have hchain : ∀ i, (b i).map (fun x => text x.2) = (m.hMap i).map text := by
    intro i
    rw [← hb, List.map_map]
    rfl
  have hrest : ((List.finRange 96).map Fin.succ).flatMap
      (fun i => merge (byte ',') ((m.hMap i).map text)) = [] := by
    rw [List.flatMap_eq_nil_iff]
    intro i hi
    obtain ⟨j, -, rfl⟩ := List.mem_map.mp hi
    rw [m.others_nil _ (Fin.succ_ne_zero j)]
    rfl
  rw [HeapHashmap.listing, listFrom_eq hc, List.nil_append]
  simp only [hchain]
  rw [Hashmap.finRange_eq, List.flatMap_cons, hrest, List.append_nil, Hashmap.nodes]

/-- **`get_v`** on the heap. -/
theorem Refines.getV (hr : Refines t m) (field : Str) : t.getV field = some (m.getV field) := by
  obtain ⟨b, hc, hb, -⟩ := hr
  have hfind := find_eq hb field
  rw [HeapHashmap.getV, findHashmapNode, findFrom_eq hc, Option.bind_some, Hashmap.getV, hfind]
  cases hnode : nodeOf b field (List.finRange 97) with
  | none => rfl
  | some r =>
    obtain ⟨-, l, l', hl, -⟩ := mem_of_nodeOf hnode
    obtain ⟨last, hseg⟩ := hc.seg r.1
    obtain ⟨c, hmem, hval⟩ := hseg.cell (x := r.2) (by
      rw [hl]
      exact List.mem_append_right _ (List.mem_cons_self ..))
    simp only [Option.map_some, hmem, hval]

/-- The listings on the heap are those of the map. -/
theorem Refines.fields (hr : Refines t m) : t.fields = some (merge (byte ',') (m.nodes.map Prod.fst)) :=
  hr.listing fun n => n.1

theorem Refines.values (hr : Refines t m) : t.values = some (merge (byte ',') (m.nodes.map Prod.snd)) :=
  hr.listing fun n => n.2

theorem Refines.fvs (hr : Refines t m) :
    t.fvs = some (merge (byte ',') (m.nodes.flatMap fun n => [n.1, n.2])) := by
  have hpair : ∀ n : Str × Str, n.1 ++ (byte ',' :: n.2) = merge (byte ',') [n.1, n.2] := by
    intro n
    rw [merge_cons_cons, merge_singleton]
  have hall : m.nodes.filter (fun n => [n.1, n.2] ≠ []) = m.nodes :=
    List.filter_eq_self.mpr fun n _ => by simp
  have hmerge := Hashset.merge_merge (t := byte ',') (fun n : Str × Str => [n.1, n.2]) m.nodes
  rw [hall] at hmerge
  rw [HeapHashmap.fvs, hr.listing, ← hmerge]
  simp only [hpair]

/-- **What the commands call** on a map is what is computed in memory. -/
theorem Refines.texts (hr : Refines t m) :
    t.fields = some m.fields ∧ t.values = some m.values ∧ t.fvs = some m.fvs := by
  refine ⟨?_, ?_, ?_⟩
  · rw [hr.fields, Hashmap.fields, Hashmap.listing_eq, List.map_eq_flatMap]
  · rw [hr.values, Hashmap.values, Hashmap.listing_eq, List.map_eq_flatMap]
  · rw [hr.fvs, Hashmap.fvs, Hashmap.listing_eq]

/-! ### Runs -/

open MapOp

/-- **One call**: an admissible one succeeds in memory, and what it leaves refines a map that is changed
as the call denotes. -/
theorem exec_refines (hr : Refines t m) {op : MapOp} (hop : op.Admissible m.lookup) :
    ∃ t' m', op.exec t = some t' ∧ Refines t' m' ∧ m'.lookup = op.apply m.lookup := by
  cases op with
  | setFv field value =>
    obtain ⟨t', ht', hr'⟩ := hr.setFv field value
    refine ⟨t', _, ht', hr', funext fun f => ?_⟩
    rw [Hashmap.lookup_setFv, MapOp.apply, Function.update_apply]
  | delFv field =>
    obtain ⟨t', m', ht', hdel, hr'⟩ := hr.delFv hop
    refine ⟨t', m', ht', hr', funext fun f => ?_⟩
    rw [Hashmap.lookup_delFv hdel, MapOp.apply, Function.update_apply]

/-- **A sequence of calls.** -/
theorem run_refines {ops : List MapOp} (hr : Refines t m) (hops : AllAdmissible m.lookup ops) :
    ∃ t' m', run ops t = some t' ∧ Refines t' m' ∧ m'.lookup = denote ops m.lookup := by
  induction ops generalizing t m with
  | nil => exact ⟨t, m, rfl, hr, rfl⟩
  | cons op ops ih =>
    obtain ⟨t₁, m₁, ht₁, hr₁, hm₁⟩ := exec_refines hr hops.1
    obtain ⟨t', m', ht', hr', hm'⟩ := ih hr₁ (hm₁ ▸ hops.2)
    refine ⟨t', m', by rw [run, ht₁, Option.bind_some, ht'], hr', ?_⟩
    rw [hm', hm₁]
    rfl

/-! ### The finite map -/

/-- A map in memory represents a finite map. -/
structure RepresentsMap (t : HeapHashmap) (M : Str → Option Str) : Prop where
  /-- Following `next_ptr` from each head collects the nodes, which are the entries of the finite map,
  each field once.  The three listings follow this one order, with a comma between any two texts. -/
  entries : ∃ (c : Fin 97 → List (ℕ × Str × Str)) (es : List (Str × Str)),
    (∀ i, t.mem.walk t.top (t.hMap i) = some (c i)) ∧
    ((List.finRange 97).flatMap fun i => (c i).map Prod.snd) = es ∧ (es.map Prod.fst).Nodup ∧
    (∀ f v, (f, v) ∈ es ↔ M f = some v) ∧
    t.fields = some ([byte ','].intercalate (es.map Prod.fst)) ∧
    t.values = some ([byte ','].intercalate (es.map Prod.snd)) ∧
    t.fvs = some ([byte ','].intercalate (es.flatMap fun e => [e.1, e.2]))
  /-- `get_v` of a present field is its last value. -/
  getV : ∀ f v, M f = some v → t.getV f = some v

/-- All nodes are in the first chain. -/
theorem flatMap_hMap (m : Hashmap) : (List.finRange 97).flatMap m.hMap = m.nodes := by
  have hrest : ((List.finRange 96).map Fin.succ).flatMap m.hMap = [] := by
    rw [List.flatMap_eq_nil_iff]
    intro i hi
    obtain ⟨j, -, rfl⟩ := List.mem_map.mp hi
    exact m.others_nil _ (Fin.succ_ne_zero j)
  rw [Hashmap.finRange_eq, List.flatMap_cons, hrest, List.append_nil, Hashmap.nodes]

theorem Refines.representsMap (hr : Refines t m) : RepresentsMap t m.lookup := by
  refine ⟨?_, fun f v hv => ?_⟩
  · have hr' := hr
    obtain ⟨b, hc, hb, -⟩ := hr'
    refine ⟨b, m.nodes, hc.walk, ?_, m.nodup, fun f v => Hashmap.mem_nodes_iff, hr.fields, hr.values,
      hr.fvs⟩
    simp only [hb]
    exact flatMap_hMap m
  · rw [hr.getV, Hashmap.getV, Hashmap.find_eq]
    obtain ⟨n, hn, rfl⟩ := Option.map_eq_some_iff.mp hv
    rw [hn]
    rfl

/-- The number of the fields. -/
theorem ncard_fields (m : Hashmap) : {f | m.lookup f ≠ none}.ncard = m.size := by
  have hset : {f | m.lookup f ≠ none} = ((m.nodes.map Prod.fst).toFinset : Set Str) := by
    ext f
    rw [Set.mem_ofPred_eq, List.coe_toFinset, Set.mem_ofPred_eq, List.mem_map]
    constructor
    · intro hne
      obtain ⟨v, hv⟩ := Option.ne_none_iff_exists'.mp hne
      exact ⟨(f, v), Hashmap.mem_nodes_iff.mpr hv, rfl⟩
    · rintro ⟨n, hn, rfl⟩
      rw [Hashmap.mem_nodes_iff.mp hn]
      simp
  have hnodup : (m.nodes.map Prod.fst).Nodup := m.nodup
  rw [hset, Set.ncard_coe_finset, List.toFinset_card_of_nodup hnodup, List.length_map, m.size_eq,
    Hashmap.nodes]

/-- A map without fields has no node. -/
theorem lookup_eq_none_iff (m : Hashmap) : (∀ f, m.lookup f = none) ↔ m.size = 0 := by
  rw [m.size_eq, List.length_eq_zero_iff]
  constructor
  · intro h
    rw [List.eq_nil_iff_forall_not_mem]
    intro n hn
    have hsome := Hashmap.mem_nodes_iff.mp hn
    rw [h] at hsome
    exact absurd hsome (by simp)
  · intro h f
    rw [Hashmap.lookup, Hashmap.nodes, h]
    rfl

/-- **`is_empty` counts modulo `2^32`.** -/
theorem Refines.isEmpty_iff (hr : Refines t m) : t.isEmpty = true ↔ 2 ^ 32 ∣ m.size := by
  obtain ⟨b, -, -, hsize⟩ := hr
  rw [HeapHashmap.isEmpty, beq_iff_eq, hsize, wrap32, ← Int.dvd_iff_bmod_eq_zero]
  norm_cast

/-- **The map in memory is the finite map that its calls denote.** -/
theorem run_representsMap {ops : List MapOp} (hops : AllAdmissible (fun _ => none) ops) :
    ∃ t, run ops new = some t ∧ RepresentsMap t (denote ops fun _ => none) ∧
      ({f | denote ops (fun _ => none) f ≠ none}.ncard < 2 ^ 32 →
        (t.isEmpty = true ↔ ∀ f, denote ops (fun _ => none) f = none)) := by
  have hempty : Hashmap.empty.lookup = fun _ => none := rfl
  obtain ⟨t, m, ht, hr, hm⟩ := run_refines refines_new (hempty ▸ hops)
  rw [hempty] at hm
  refine ⟨t, ht, hm ▸ hr.representsMap, fun hlt => ?_⟩
  rw [← hm, ncard_fields] at hlt
  rw [hr.isEmpty_iff, ← hm, lookup_eq_none_iff]
  constructor
  · exact fun hdvd => Nat.eq_zero_of_dvd_of_lt hdvd hlt
  · exact fun hzero => hzero ▸ Nat.dvd_zero _

/-- Two fields, one of them stored twice and one deleted. -/
theorem run_representsMap_four : ∃ t, run [.setFv (lit "f") (lit "x"), .setFv (lit "g") (lit "y"),
      .setFv (lit "f") (lit "z"), .delFv (lit "g")] new = some t ∧
    t.getV (lit "f") = some (lit "z") := by
  have hops : AllAdmissible (fun _ => none) [.setFv (lit "f") (lit "x"), .setFv (lit "g") (lit "y"),
      .setFv (lit "f") (lit "z"), .delFv (lit "g")] :=
    ⟨trivial, trivial, trivial, Option.some_ne_none (lit "y"), trivial⟩
  obtain ⟨t, ht, hrep, -⟩ := run_representsMap hops
  exact ⟨t, ht, hrep.getV _ _ rfl⟩

/-! ### Too many fields for the counter -/

/-- Short fields that are pairwise different. -/
def distinctFields (is : List ℕ) : List MapOp := is.map fun i => .setFv (toStr (i : ℕ)) []

theorem allAdmissible_distinctFields (M : Str → Option Str) (is : List ℕ) :
    AllAdmissible M (distinctFields is) := by
  induction is generalizing M with
  | nil => trivial
  | cons i is ih => exact ⟨trivial, ih _⟩

theorem denote_distinctFields (M : Str → Option Str) (is : List ℕ) (f : Str) :
    denote (distinctFields is) M f ≠ none ↔
      M f ≠ none ∨ ∃ i ∈ is, toStr (i : ℕ) = f := by
  induction is generalizing M with
  | nil => simp [denote, distinctFields]
  | cons i is ih =>
    have hstep : denote (distinctFields (i :: is)) M
        = denote (distinctFields is) ((MapOp.setFv (toStr (i : ℕ)) []).apply M) := rfl
    rw [hstep, ih, MapOp.apply, Function.update_apply]
    by_cases hf : f = toStr (i : ℕ)
    · simp [hf]
    · simp [hf, eq_comm]

theorem ncard_distinctFields (n : ℕ) :
    {f | denote (distinctFields (List.range n)) (fun _ => none) f ≠ none}.ncard = n := by
  have hnodup : ((List.range n).map fun i => toStr (i : ℕ)).Nodup :=
    List.Nodup.map toStr_natCast_injective List.nodup_range
  have hset : {f | denote (distinctFields (List.range n)) (fun _ => none) f ≠ none}
      = (((List.range n).map fun i => toStr (i : ℕ)).toFinset : Set Str) := by
    ext f
    rw [Set.mem_ofPred_eq, denote_distinctFields, List.coe_toFinset, Set.mem_ofPred_eq, List.mem_map]
    simp
  rw [hset, Set.ncard_coe_finset, List.toFinset_card_of_nodup hnodup, List.length_map,
    List.length_range]

theorem not_isEmpty_iff {n : ℕ} (hdvd : 2 ^ 32 ∣ n) (hpos : n ≠ 0) {t : HeapHashmap}
    (ht : run (distinctFields (List.range n)) new = some t) :
    ¬ (t.isEmpty = true ↔ ∀ f, denote (distinctFields (List.range n)) (fun _ => none) f = none) := by
  intro hiff
  obtain ⟨t', m, ht', hr, hm⟩ := run_refines (m := Hashmap.empty) refines_new
    (allAdmissible_distinctFields _ (List.range n))
  obtain rfl := Option.some.inj (ht.symm.trans ht')
  have hempty : Hashmap.empty.lookup = fun _ => none := rfl
  have hcard := ncard_distinctFields n
  rw [← hempty, ← hm, ncard_fields] at hcard
  have hnone := hiff.mp (hr.isEmpty_iff.mpr (hcard ▸ hdvd))
  rw [← hempty, ← hm, lookup_eq_none_iff, hcard] at hnone
  exact hpos hnone

/-- **With `2^32` fields the counter is `0` again**, and `is_empty` holds of a map that is not empty. -/
theorem not_isEmpty_of_two_pow_32 : ¬ ∀ ops : List MapOp, AllAdmissible (fun _ => none) ops →
    ∃ t, run ops new = some t ∧ RepresentsMap t (denote ops fun _ => none) ∧
      (t.isEmpty = true ↔ ∀ f, denote ops (fun _ => none) f = none) := by
  intro hall
  obtain ⟨t, ht, -, hiff⟩ := hall _ (allAdmissible_distinctFields _ (List.range (2 ^ 32)))
  exact not_isEmpty_iff dvd_rfl (by norm_num) ht hiff

end HeapHashmap

end MuseKv
