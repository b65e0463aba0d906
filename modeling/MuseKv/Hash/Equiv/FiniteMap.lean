import MuseKv.Hash.Equiv.Heap
import Mathlib.Data.Set.Card

/-!
# The table is a finite map

A sequence of `set` and `del` operations denotes a finite map from keys to a value and two levels.
`run_represents`: performed on the empty table in memory, the operations succeed and leave a table
that represents the map, with counters that are exact as long as fewer than `2^31` keys are stored.
An `int` does not count further (`not_exact_of_two_pow_31`).
-/

namespace MuseKv

open General Hash

/-- What the map holds under a key: a value and its levels `authr` and `authw`. -/
abbrev Entry := Value × UInt8 × UInt8

/-- An operation on the table. -/
inductive TableOp
  | set (key : Str) (value : Value) (authr authw : UInt8)
  | del (key : Str)

namespace TableOp

/-- What an operation does to the map. -/
def apply (m : Str → Option Entry) : TableOp → Str → Option Entry
  | set k v r w => Function.update m k (some (v, r, w))
  | del k => Function.update m k none

/-- The map that a sequence of operations leaves. -/
def denote (ops : List TableOp) (m : Str → Option Entry) : Str → Option Entry := ops.foldl apply m

/-- What the callers see to: ordered levels for `set`, and a key that is present for `del`.  The value
that `del` frees has an object behind it; the default value has none. -/
def Admissible (m : Str → Option Entry) : TableOp → Prop
  | set _ _ r w => r ≤ w
  | del k => ∃ e, m k = some e ∧ e.1.isUnset = false

/-- A sequence of admissible operations. -/
def AllAdmissible : (Str → Option Entry) → List TableOp → Prop
  | _, [] => True
  | m, op :: ops => op.Admissible m ∧ AllAdmissible (op.apply m) ops

/-- An operation on the table in memory. -/
def exec (t : HeapHash) : TableOp → Option HeapHash
  | set k v r w => t.set k v r w
  | del k => t.del k

/-- A sequence of operations on the table in memory. -/
def run : List TableOp → HeapHash → Option HeapHash
  | [], t => some t
  | op :: ops, t => (op.exec t).bind (run ops)

end TableOp

namespace HeapHash

open TableOp

/-- A table in memory represents a map. -/
structure Represents (t : HeapHash) (m : Str → Option Entry) : Prop where
  /-- Following `next_ptr` from each head collects the chains: every key is in the chain of its hash
  and once in the table, the keys are those of the map, and a counter is the length of its chain, as
  an `int`. -/
  chains : ∃ c : Fin totalSlotNum → List (ℕ × Str × Kv), (∀ i, t.walk i = some (c i)) ∧
    (∀ i, ∀ x ∈ c i, Hash.hashFunc x.2.1 = (i : ℕ)) ∧
    ((List.finRange totalSlotNum).flatMap fun i => (c i).map fun x => x.2.1).Nodup ∧
    (∀ k, (∃ i, ∃ x ∈ c i, x.2.1 = k) ↔ m k ≠ none) ∧
    ∀ i, t.size i = wrap32 (c i).length
  /-- `prev_ptr` undoes `next_ptr`. -/
  next_prev : ∀ p q n, t.mem p = some n → n.next = some q →
    ∃ n', t.mem q = some n' ∧ n'.prev = some p
  /-- `next_ptr` undoes `prev_ptr`. -/
  prev_next : ∀ p q n, t.mem p = some n → n.prev = some q →
    ∃ n', t.mem q = some n' ∧ n'.next = some p
  /-- A head has no predecessor. -/
  head_prev : ∀ i p, t.h i = some p → ∃ n, t.mem p = some n ∧ n.prev = none
  /-- `find_node` returns `NULL` for a key that is not in the map. -/
  find_none : ∀ k, m k = none → t.findNode k = some none
  /-- `find_node` returns the node of a key of the map, with its last value and levels. -/
  find_some : ∀ k v r w, m k = some (v, r, w) → ∃ p n, t.findNode k = some (some p) ∧
    t.mem p = some n ∧ n.val.1 = k ∧ n.val.2.v = v ∧ n.val.2.authr = r ∧ n.val.2.authw = w

/-- The counters are exact: `size[i]` is the length of chain `i`, and `keys` fills exactly
`get_size()` cells with each key of the map once. -/
structure Exact (t : HeapHash) (m : Str → Option Entry) : Prop where
  size : ∀ i c, t.walk i = some c → t.size i = c.length
  keys : ∃ l, t.keys = some l ∧ (l.length : Int) = t.getSize ∧ l.Nodup ∧ ∀ k, k ∈ l ↔ m k ≠ none

variable {t : HeapHash} {b : Fin totalSlotNum → List (ℕ × Str × Kv)} {h : Hash}
  {m : Str → Option Entry}

/-! ### From the table to the map -/

/-- The map of a table. -/
def toMap (h : Hash) (k : Str) : Option Entry := (h.findNode k).map fun n => (n.v, n.authr, n.authw)

theorem toMap_set (h : Hash) (k : Str) (v : Value) {r w : UInt8} (hrw : r ≤ w) :
    toMap (h.set k v r w) = (TableOp.set k v r w).apply (toMap h) := by
  funext k'
  rw [toMap, findNode_set, TableOp.apply]
  by_cases hk : k' = k
  · rw [if_pos hk, hk, Function.update_self, Option.map_some]
    cases h.findNode k with
    | none => rfl
    | some n =>
      obtain ⟨hr, hw⟩ := Kv.overwrite_levels n v hrw
      rw [setEntry, hr, hw, Kv.overwrite_v]
  · rw [if_neg hk, Function.update_of_ne hk, toMap]

theorem toMap_del {h h' : Hash} {k : Str} (hdel : h.del k = some h') :
    toMap h' = (TableOp.del k).apply (toMap h) := by
  funext k'
  rw [toMap, findNode_del hdel, TableOp.apply]
  by_cases hk : k' = k
  · rw [if_pos hk, hk, Function.update_self, Option.map_none]
  · rw [if_neg hk, Function.update_of_ne hk, toMap]

/-- **One operation**: an admissible one succeeds in memory, and what it leaves refines a table with
the map it denotes. -/
theorem exec_refines (hr : Refines t h) {op : TableOp} (hop : op.Admissible (toMap h)) :
    ∃ t' h', op.exec t = some t' ∧ Refines t' h' ∧ toMap h' = op.apply (toMap h) := by
  cases op with
  | set k v r w =>
    obtain ⟨t', ht', hr'⟩ := hr.set k v r w
    exact ⟨t', _, ht', hr', toMap_set h k v hop⟩
  | del k =>
    obtain ⟨e, he, hset⟩ := hop
    obtain ⟨n, hn, rfl⟩ := Option.map_eq_some_iff.mp he
    obtain ⟨h', hh'⟩ := del_isSome hn hset
    obtain ⟨t', ht', hr'⟩ := hr.del hh'
    exact ⟨t', h', ht', hr', toMap_del hh'⟩

/-- **A sequence of operations.** -/
theorem run_refines {ops : List TableOp} (hr : Refines t h) (hops : AllAdmissible (toMap h) ops) :
    ∃ t' h', run ops t = some t' ∧ Refines t' h' ∧ toMap h' = denote ops (toMap h) := by
  induction ops generalizing t h with
  | nil => exact ⟨t, h, rfl, hr, rfl⟩
  | cons op ops ih =>
    obtain ⟨t₁, h₁, ht₁, hr₁, hm₁⟩ := exec_refines hr hops.1
    obtain ⟨t', h', ht', hr', hm'⟩ := ih hr₁ (hm₁ ▸ hops.2)
    refine ⟨t', h', by rw [run, ht₁, Option.bind_some, ht'], hr', ?_⟩
    rw [hm', hm₁]
    rfl

/-! ### What a refining table represents -/

theorem mem_keys_iff (h : Hash) (k : Str) : k ∈ h.keys ↔ toMap h k ≠ none := by
  rw [Hash.keys, List.mem_map, toMap, ne_eq, Option.map_eq_none_iff]
  constructor
  · rintro ⟨⟨k, n⟩, he, rfl⟩
    rw [findNode_eq_some_iff.mpr he]
    simp
  · intro hne
    obtain ⟨n, hn⟩ := Option.ne_none_iff_exists'.mp hne
    exact ⟨(k, n), findNode_eq_some_iff.mp hn, rfl⟩

/-- The keys of the chains are the keys of the table. -/
theorem flatMap_keys (hb : ∀ i, (b i).map Prod.snd = h.h i) :
    ((List.finRange totalSlotNum).flatMap fun i => (b i).map fun x => x.2.1) = h.keys := by
  rw [Hash.keys, Hash.entries, List.map_flatMap]
  refine List.flatMap_congr fun i _ => ?_
  rw [← hb, List.map_map]
  rfl

theorem Refines.represents (hr : Refines t h) : Represents t (toMap h) := by
  obtain ⟨b, hrep, hb⟩ := hr
  constructor
  · refine ⟨b, hrep.walk, ?_, ?_, ?_, hrep.size⟩
    · intro i x hx
      have hmem : x.2 ∈ h.h i := hb i ▸ List.mem_map_of_mem hx
      rw [← slot_val, h.wf.placed i x.2 hmem]
    · rw [flatMap_keys hb]
      exact h.keys_nodup
    · intro k
      rw [← mem_keys_iff, ← flatMap_keys hb, List.mem_flatMap]
      simp
  · exact fun p q n => hrep.chains.next_prev
  · exact fun p q n => hrep.chains.prev_next
  · exact fun i p => hrep.chains.head_prev
  · intro k hk
    rw [toMap, find_chain hb k, Option.map_eq_none_iff, Option.map_eq_none_iff] at hk
    rw [hrep.findNode, hk, Option.map_none]
  · intro k v r w hk
    rw [toMap, find_chain hb k, Option.map_map, Option.map_eq_some_iff] at hk
    obtain ⟨x, hx, he⟩ := hk
    obtain ⟨hmem, rfl⟩ := mem_of_find hx
    obtain ⟨last, hseg⟩ := hrep.seg (slot x.2.1)
    obtain ⟨c, hc, hval⟩ := hseg.cell hmem
    obtain ⟨rfl, hlevels⟩ := Prod.mk.inj he
    obtain ⟨rfl, rfl⟩ := Prod.mk.inj hlevels
    exact ⟨x.1, c, by rw [hrep.findNode, hx, Option.map_some], hc, by rw [hval], by rw [hval],
      by rw [hval], by rw [hval]⟩

/-! ### Counting -/

/-- `get_size` is the number of keys, as an `int`. -/
theorem getSize_eq (hrep : Rep t b) (hb : ∀ i, (b i).map Prod.snd = h.h i) :
    t.getSize = wrap32 h.keys.length := by
  have hlen : ((List.finRange totalSlotNum).flatMap b).length = h.keys.length := by
    rw [← flatMap_keys hb, List.length_flatMap, List.length_flatMap]
    simp only [List.length_map]
  rw [hrep.getSize, hlen]

theorem walkKeys_eq (hrep : Rep t b) (is : List (Fin totalSlotNum)) :
    t.walkKeys is = some (is.flatMap fun i => (b i).map fun x => x.2.1) := by
  induction is with
  | nil => rfl
  | cons i is ih =>
    rw [walkKeys, hrep.walk, Option.bind_some, ih, Option.map_some, List.flatMap_cons]

/-- Below `2^31` keys the counters are exact. -/
theorem Refines.exact (hr : Refines t h) (hlt : h.keys.length < 2 ^ 31) : Exact t (toMap h) := by
  obtain ⟨b, hrep, hb⟩ := hr
  have hsize : t.getSize = h.keys.length := by
    rw [getSize_eq hrep hb, wrap32_natCast hlt]
  constructor
  · intro i c hc
    obtain rfl := Option.some.inj ((hrep.walk i).symm.trans hc)
    have hle : (b i).length ≤ h.keys.length := by
      rw [← flatMap_keys hb, List.length_flatMap, ← List.length_map (f := fun x => x.2.1)]
      refine List.single_le_sum (by simp) _ (List.mem_map.mpr ⟨i, List.mem_finRange i, ?_⟩)
      rw [List.length_map]
    rw [hrep.size, wrap32_of_bounds (by omega) (by omega)]
  · refine ⟨h.keys, ?_, hsize.symm, h.keys_nodup, mem_keys_iff h⟩
    rw [keys, walkKeys_eq hrep, flatMap_keys hb, Option.bind_some, hsize, Int.toNat_natCast,
      if_neg (by omega), if_pos le_rfl, Nat.sub_self, List.replicate_zero, List.append_nil]

/-- The number of keys of the map. -/
theorem ncard_keys (h : Hash) : {k | toMap h k ≠ none}.ncard = h.keys.length := by
  have hset : {k | toMap h k ≠ none} = (h.keys.toFinset : Set Str) := by
    ext k
    rw [Set.mem_ofPred_eq, ← mem_keys_iff, List.coe_toFinset, Set.mem_ofPred_eq]
  rw [hset, Set.ncard_coe_finset, List.toFinset_card_of_nodup h.keys_nodup]

theorem toMap_new (port : Int) : toMap (Hash.new port) = fun _ => none := rfl

/-- **The table in memory is the finite map its operations denote.** -/
theorem run_represents {ops : List TableOp} (hops : AllAdmissible (fun _ => none) ops) :
    (∀ k, 0 ≤ Hash.hashFunc k ∧ Hash.hashFunc k < totalSlotNum) ∧
    ∃ t, run ops new = some t ∧ Represents t (denote ops fun _ => none) ∧
      ({k | denote ops (fun _ => none) k ≠ none}.ncard < 2 ^ 31 →
        Exact t (denote ops fun _ => none)) := by
  obtain ⟨t, h, ht, hr, hm⟩ := run_refines (refines_new 0) (toMap_new 0 ▸ hops)
  rw [toMap_new] at hm
  refine ⟨hashFunc_bounds, t, ht, hm ▸ hr.represents, fun hlt => ?_⟩
  rw [← hm, ncard_keys] at hlt
  exact hm ▸ hr.exact hlt

/-- Two keys, one of them overwritten and one deleted again. -/
theorem run_represents_three : ∃ t,
    run [.set (lit "a") (.string (lit "x")) 0 1, .set (lit "a") (.string (lit "y")) 1 2,
      .set (lit "b") (.list []) 0 0, .del (lit "b")] new = some t ∧
    ∃ p n, t.findNode (lit "a") = some (some p) ∧ t.mem p = some n ∧ n.val.1 = lit "a" ∧
      n.val.2.v = .string (lit "y") ∧ n.val.2.authr = 1 ∧ n.val.2.authw = 2 := by
  have hops : AllAdmissible (fun _ => none)
      [.set (lit "a") (.string (lit "x")) 0 1, .set (lit "a") (.string (lit "y")) 1 2,
        .set (lit "b") (.list []) 0 0, .del (lit "b")] :=
    ⟨UInt8.le_of_lt (by decide), UInt8.le_of_lt (by decide), UInt8.le_refl _, ⟨_, rfl, rfl⟩, trivial⟩
  obtain ⟨-, t, ht, hrep, -⟩ := run_represents hops
  exact ⟨t, ht, hrep.find_some _ _ _ _ rfl⟩

/-! ### Too many keys for an `int` -/

theorem foldl_wrap32_lt {ι : Type} (f : ι → Int) (l : List ι) {a : Int} (ha : a < 2 ^ 31) :
    l.foldl (fun s i => wrap32 (s + f i)) a < 2 ^ 31 := by
  induction l generalizing a with
  | nil => exact ha
  | cons i l ih => exact ih (wrap32_bounds _).2

/-- Short keys that are pairwise different. -/
def distinctKeys (n : ℕ) : List TableOp :=
  (List.range n).map fun i => .set (toStr (i : ℕ)) (.string []) 0 0

theorem allAdmissible_sets (m : Str → Option Entry) (is : List ℕ) : AllAdmissible m
    (is.map fun i => .set (toStr (i : ℕ)) (.string []) 0 0) := by
  induction is generalizing m with
  | nil => trivial
  | cons i is ih => exact ⟨UInt8.le_refl _, ih _⟩

theorem denote_sets (m : Str → Option Entry) (is : List ℕ) (k : Str) :
    denote (is.map fun i => .set (toStr (i : ℕ)) (.string []) 0 0) m k ≠ none ↔
      m k ≠ none ∨ ∃ i ∈ is, toStr (i : ℕ) = k := by
  induction is generalizing m with
  | nil => simp [denote]
  | cons i is ih =>
    have hstep : denote ((i :: is).map fun i => .set (toStr (i : ℕ)) (.string []) 0 0) m
        = denote (is.map fun i => .set (toStr (i : ℕ)) (.string []) 0 0)
          ((TableOp.set (toStr (i : ℕ)) (.string []) 0 0).apply m) := rfl
    rw [hstep, ih, TableOp.apply, Function.update_apply]
    by_cases hk : k = toStr (i : ℕ)
    · simp [hk]
    · simp [hk, eq_comm]

/-- **An `int` does not count `2^31` keys**: the sum of the counters is then negative, or at least
not the number of keys. -/
theorem not_exact_of_two_pow_31 : ¬ ∀ ops : List TableOp, AllAdmissible (fun _ => none) ops →
    ∃ t, run ops new = some t ∧ Represents t (denote ops fun _ => none) ∧
      Exact t (denote ops fun _ => none) := by
  intro hall
  obtain ⟨t, -, -, hexact⟩ := hall (distinctKeys (2 ^ 31)) (allAdmissible_sets _ _)
  obtain ⟨l, -, hsize, hnodup, hl⟩ := hexact.keys
  have hkeys : ((List.range (2 ^ 31)).map fun i => toStr (i : ℕ)).Nodup :=
    List.Nodup.map toStr_natCast_injective List.nodup_range
  have hperm : l.Perm ((List.range (2 ^ 31)).map fun i => toStr (i : ℕ)) := by
    rw [List.perm_ext_iff_of_nodup hnodup hkeys]
    intro k
    rw [hl, distinctKeys, denote_sets, List.mem_map]
    simp only [ne_eq, not_true_eq_false, false_or]
  have hlen := hperm.length_eq
  rw [List.length_map, List.length_range] at hlen
  have hlt : t.getSize < 2 ^ 31 := foldl_wrap32_lt _ _ (by decide)
  rw [← hsize, hlen] at hlt
  omega

end HeapHash

end MuseKv
