import MuseKv.Value.Equiv.Hashmap

/-!
# The chains of a map in memory

`Hash` and `Hashset` keep an entry in the chain of its hash.  `set_fv` puts a new node into the chain whose
index `find_hashmapNode` left, which is `0`: `hash_func` is not called.  So the fields of a map are in the
chains of their hashes just when the hash of each of them is `0` (**`bucketed_iff`**).
-/

namespace MuseKv

open General Kvstore

namespace HeapHashmap

open MapOp

/-- The chains of a map as those of `Hash` and `Hashset` are kept. -/
structure Bucketed (t : HeapHashmap) : Prop where
  /-- Following `next_ptr` from each head collects the nodes: `size` is their number, and a field is only
  in the chain of its hash. -/
  chains : ∃ c : Fin 97 → List (ℕ × Str × Str), (∀ i, t.mem.walk t.top (t.hMap i) = some (c i)) ∧
    t.size = ((List.finRange 97).flatMap c).length ∧
    ∀ i, ∀ x ∈ c i, hashFunc x.2.1 = (i : ℕ)
  /-- `prev_ptr` undoes `next_ptr`. -/
  next_prev : ∀ p q n, t.mem p = some n → n.next = some q →
    ∃ n', t.mem q = some n' ∧ n'.prev = some p
  /-- `next_ptr` undoes `prev_ptr`. -/
  prev_next : ∀ p q n, t.mem p = some n → n.prev = some q →
    ∃ n', t.mem q = some n' ∧ n'.next = some p
  /-- A head has no predecessor. -/
  head_prev : ∀ i p, t.hMap i = some p → ∃ n, t.mem p = some n ∧ n.prev = none

variable {t : HeapHashmap} {m : Hashmap} {b : Fin 97 → List (ℕ × Str × Str)}

/-- The number of the nodes in all chains. -/
theorem length_flatMap_chains (hb : ∀ i, (b i).map Prod.snd = m.hMap i) :
    ((List.finRange 97).flatMap b).length = m.size := by
  have hnodes : ((List.finRange 97).flatMap b).map Prod.snd = m.nodes := by
    rw [List.map_flatMap, ← flatMap_hMap]
    exact List.flatMap_congr fun i _ => hb i
  rw [m.size_eq, ← Hashmap.nodes, ← hnodes, List.length_map]

/-- The fields are in the chains of their hashes just when these are all the first chain. -/
theorem placed_iff (hb : ∀ i, (b i).map Prod.snd = m.hMap i) :
    (∀ i, ∀ x ∈ b i, hashFunc x.2.1 = (i : ℕ)) ↔ ∀ f, m.lookup f ≠ none → hashFunc f = 0 := by
  constructor
  · intro hplaced f hf
    obtain ⟨v, hv⟩ := Option.ne_none_iff_exists'.mp hf
    have hmem : (f, v) ∈ m.hMap 0 := Hashmap.mem_nodes_iff.mpr hv
    rw [← hb, List.mem_map] at hmem
    obtain ⟨x, hx, hxf⟩ := hmem
    have hhash := hplaced 0 x hx
    rw [hxf] at hhash
    exact hhash
  · intro hzero i x hx
    have hmem : x.2 ∈ m.hMap i := hb i ▸ List.mem_map_of_mem hx
    by_cases hi : i = 0
    · rw [hi] at hmem ⊢
      apply hzero
      rw [Hashmap.mem_nodes_iff.mp hmem]
      simp
    · -- the other chains have no nodes
      rw [m.others_nil i hi] at hmem
      exact absurd hmem (by simp)

theorem Refines.bucketed (hr : Refines t m) :
    Bucketed t ↔ (∀ f, m.lookup f ≠ none → hashFunc f = 0) ∧ m.size < 2 ^ 31 := by
  obtain ⟨b, hc, hb, hsize⟩ := hr
  constructor
  · rintro ⟨⟨c, hwalk, hcount, hplaced⟩, -, -, -⟩
    have heq : c = b := by
      ext1 i
      exact Option.some.inj ((hwalk i).symm.trans (hc.walk i))
    rw [heq] at hcount hplaced
    rw [length_flatMap_chains hb, hsize, wrap32_natCast_eq_iff] at hcount
    exact ⟨(placed_iff hb).mp hplaced, hcount⟩
  · rintro ⟨hzero, hlt⟩
    refine ⟨⟨b, hc.walk, ?_, (placed_iff hb).mpr hzero⟩, fun p q n => hc.next_prev,
      fun p q n => hc.prev_next, fun i p => hc.head_prev⟩
    rw [length_flatMap_chains hb, hsize, wrap32_natCast_eq_iff]
    exact hlt

/-- The map that a sequence of calls leaves. -/
theorem run_bucketed {ops : List MapOp} (hops : AllAdmissible (fun _ => none) ops) :
    ∃ t, run ops new = some t ∧ (Bucketed t ↔
      (∀ f, denote ops (fun _ => none) f ≠ none → hashFunc f = 0) ∧
        {f | denote ops (fun _ => none) f ≠ none}.ncard < 2 ^ 31) := by
  have hempty : Hashmap.empty.lookup = fun _ => none := rfl
  obtain ⟨t, m, ht, hr, hm⟩ := run_refines refines_new (hempty ▸ hops)
  rw [hempty] at hm
  refine ⟨t, ht, ?_⟩
  rw [hr.bucketed, ← hm, ncard_fields]

/-- **A map keeps its fields in the chains of their hashes** if and only if all of them have the hash `0`,
and an `int` counts them. -/
theorem bucketed_iff {ops : List MapOp} (hops : AllAdmissible (fun _ => none) ops) {t : HeapHashmap}
    (ht : run ops new = some t) : Bucketed t ↔
      (∀ f, denote ops (fun _ => none) f ≠ none → hashFunc f = 0) ∧
        {f | denote ops (fun _ => none) f ≠ none}.ncard < 2 ^ 31 := by
  obtain ⟨t', ht', hiff⟩ := run_bucketed hops
  obtain rfl := Option.some.inj (ht.symm.trans ht')
  exact hiff

/-- Three fields with the hash `0`, of which the one in the middle is erased. -/
def zeroFields : List MapOp :=
  [.setFv (lit "@") (lit "x"), .setFv (lit "@@") (lit "y"), .setFv (lit "@@@") (lit "z"),
    .delFv (lit "@@")]

theorem allAdmissible_zeroFields : AllAdmissible (fun _ => none) zeroFields :=
  ⟨trivial, trivial, trivial, Option.some_ne_none (lit "y"), trivial⟩

theorem denote_zeroFields :
    {f | denote zeroFields (fun _ => none) f ≠ none} = {lit "@", lit "@@@"} := by
  have h₁ : lit "@" ≠ lit "@@" := by decide
  have h₂ : lit "@@@" ≠ lit "@@" := by decide
  have h₃ : lit "@" ≠ lit "@@@" := by decide
  ext f
  show Function.update (Function.update (Function.update (Function.update (fun _ => none) (lit "@")
    (some (lit "x"))) (lit "@@") (some (lit "y"))) (lit "@@@") (some (lit "z"))) (lit "@@") none f
      ≠ none ↔ f = lit "@" ∨ f = lit "@@@"
  simp only [Function.update_apply]
  by_cases hf : f = lit "@@"
  · simp [hf, h₁.symm, h₂.symm]
  · by_cases hf₁ : f = lit "@"
    · simp [hf₁, h₁, h₃]
    · simp [hf, hf₁]

/-- The two fields that are left are linked in the first chain. -/
theorem bucketed_three : ∃ t, run zeroFields new = some t ∧ Bucketed t := by
  obtain ⟨t, ht, -⟩ := run_bucketed allAdmissible_zeroFields
  refine ⟨t, ht, (bucketed_iff allAdmissible_zeroFields ht).mpr ⟨fun f hf => ?_, ?_⟩⟩
  · have hmem : f ∈ ({lit "@", lit "@@@"} : Set Str) := denote_zeroFields ▸ hf
    rcases hmem with rfl | rfl <;> decide
  · rw [denote_zeroFields, Set.ncard_pair (by decide)]
    norm_num

/-- **A field with another hash** is in the first chain all the same. -/
theorem not_bucketed_one : ¬ ∀ ops : List MapOp, AllAdmissible (fun _ => none) ops →
    ∃ t, run ops new = some t ∧ Bucketed t := by
  intro hall
  have hops : AllAdmissible (fun _ => none) [.setFv (lit "f") (lit "x")] := ⟨trivial, trivial⟩
  obtain ⟨t, ht, hbucketed⟩ := hall _ hops
  obtain ⟨t', ht', hiff⟩ := run_bucketed hops
  obtain rfl := Option.some.inj (ht.symm.trans ht')
  have hhash := (hiff.mp hbucketed).1 (lit "f") (by decide)
  exact absurd hhash (by decide)

end HeapHashmap

end MuseKv
