import MuseKv.Hash.Heap
import MuseKv.General.Chains

/-!
# The table in memory refines the table

`Rep t b`: the heap holds exactly the chains `b`, one for each slot, on disjoint addresses, and the
counters are their lengths in an `int`.  `Refines t h`: the chains hold the entries of the table `h`.
`Refines.set` and `Refines.del`: the operations succeed on the heap whenever they do on the table, and
keep the refinement.
-/

namespace MuseKv

open General Hash

namespace HeapHash

/-- The heap holds the chains `b`, and nothing else. -/
structure Rep (t : HeapHash) (b : Fin totalSlotNum → List (ℕ × Str × Kv)) : Prop where
  seg : ∀ i, ∃ last, t.mem.Seg none (t.h i) (b i) last none
  nodup : ∀ i, (Heap.addrs (b i)).Nodup
  disjoint : ∀ i j p, p ∈ Heap.addrs (b i) → p ∈ Heap.addrs (b j) → i = j
  lt : ∀ i, ∀ p ∈ Heap.addrs (b i), p < t.top
  used : ∀ p c, t.mem p = some c → ∃ i, p ∈ Heap.addrs (b i)
  size : ∀ i, t.size i = wrap32 (b i).length

/-- The heap holds the entries of a table. -/
def Refines (t : HeapHash) (h : Hash) : Prop :=
  ∃ b, Rep t b ∧ ∀ i, (b i).map Prod.snd = h.h i

variable {t : HeapHash} {b : Fin totalSlotNum → List (ℕ × Str × Kv)} {h h' : Hash}

/-! ### Chains -/

theorem Rep.chains (hr : Rep t b) : Heap.Chains t.mem t.top t.h b :=
  ⟨hr.seg, hr.nodup, hr.disjoint, hr.lt, hr.used⟩

theorem rep_of_chains (hc : Heap.Chains t.mem t.top t.h b)
    (hsize : ∀ i, t.size i = wrap32 (b i).length) : Rep t b :=
  ⟨hc.seg, hc.nodup, hc.disjoint, hc.lt, hc.used, hsize⟩

theorem rep_new : Rep new fun _ => [] := rep_of_chains (Heap.chains_nil 0) fun _ => rfl

theorem Rep.walk (hr : Rep t b) (i : Fin totalSlotNum) : t.walk i = some (b i) := hr.chains.walk i

theorem Rep.findNode (hr : Rep t b) (k : Str) :
    t.findNode k = some (((b (slot k)).find? fun x => x.2.1 = k).map Prod.fst) :=
  hr.chains.search (fun e => e.1 = k) (slot k)

/-- The counters, when one chain and its counter change. -/
theorem Rep.size_update (hr : Rep t b) {i : Fin totalSlotNum} {l : List (ℕ × Str × Kv)} {n : Int}
    (hn : n = wrap32 l.length) (j : Fin totalSlotNum) :
    Function.update t.size i n j = wrap32 (Function.update b i l j).length := by
  rcases eq_or_ne j i with rfl | hj
  · rw [Function.update_self, Function.update_self, hn]
  · rw [Function.update_of_ne hj, Function.update_of_ne hj, hr.size]

/-- `get_size` is the number of nodes, as an `int`. -/
theorem Rep.getSize (hr : Rep t b) :
    t.getSize = wrap32 ((List.finRange totalSlotNum).flatMap b).length := by
  have hlen : (((List.finRange totalSlotNum).flatMap b).length : Int)
      = ((List.finRange totalSlotNum).map fun i => ((b i).length : Int)).sum := by
    rw [List.length_flatMap, Nat.cast_list_sum, List.map_map]
    rfl
  have hzero : (0 : Int) = wrap32 0 := by decide
  rw [HeapHash.getSize, hlen]
  simp only [hr.size]
  rw [hzero, foldl_wrap32 (fun i => ((b i).length : Int)), zero_add]

/-! ### The operations -/

theorem refines_new (port : Int) : Refines new (Hash.new port) := ⟨_, rep_new, fun _ => rfl⟩

/-- The node with a key, in the chain and in the table. -/
theorem find_chain (hb : ∀ i, (b i).map Prod.snd = h.h i) (k : Str) :
    h.findNode k = ((b (slot k)).find? fun x => x.2.1 = k).map fun x => x.2.2 := by
  rw [Hash.findNode, Buckets.find, ← hb, List.find?_map, Option.map_map]
  rfl

/-- The found node, its address and its key. -/
theorem mem_of_find {k : Str} {x : ℕ × Str × Kv} {l : List (ℕ × Str × Kv)}
    (hx : (l.find? fun x => x.2.1 = k) = some x) : x ∈ l ∧ x.2.1 = k :=
  ⟨List.mem_of_find?_eq_some hx, by simpa using List.find?_some hx⟩

/-- **`set`** on the heap. -/
theorem Refines.set (hr : Refines t h) (k : Str) (v : Value) (r w : UInt8) :
    ∃ t', t.set k v r w = some t' ∧ Refines t' (h.set k v r w) := by
  obtain ⟨b, hrep, hb⟩ := hr
  have hfind := find_chain hb k
  rw [HeapHash.set, hrep.findNode, Option.bind_some]
  cases hx : (b (slot k)).find? fun x => x.2.1 = k with
  | none =>
    -- a new node goes in front of its chain
    obtain ⟨m, hpush, hc⟩ := hrep.chains.pushFront (slot k) (k, { v := v, authr := r, authw := w })
    refine ⟨_, by simp only [Option.map_none, hpush, Option.map_some]; rfl,
      Function.update b (slot k) _, rep_of_chains hc (hrep.size_update ?_), ?_⟩
    · rw [hrep.size, wrap32_add_left]
      push_cast [List.length_cons]
      rfl
    · have hnone : h.findNode k = none := by rw [hfind, hx, Option.map_none]
      intro i
      rw [set_of_none hnone, Buckets.push]
      rcases eq_or_ne i (slot k) with rfl | hi
      · rw [Function.update_self, Function.update_self, List.map_cons, hb]
      · rw [Function.update_of_ne hi, Function.update_of_ne hi, hb]
  | some x =>
    obtain ⟨hmem, hxk⟩ := mem_of_find hx
    -- the node that is there is overwritten in place
    obtain ⟨m, hset, hc⟩ := hrep.chains.setVal (List.mem_map_of_mem hmem)
      fun e => (e.1, e.2.overwrite v r w)
    have hsize := hrep.size_update (i := slot k) (n := t.size (slot k))
      (l := (b (slot k)).map fun y => if y.1 = x.1 then (y.1, (y.2.1, y.2.2.overwrite v r w)) else y)
      (by rw [hrep.size, List.length_map])
    rw [Function.update_eq_self] at hsize
    refine ⟨{ t with mem := m }, by simp only [Option.map_some, hset], _,
      rep_of_chains (t := { t with mem := m }) hc hsize, ?_⟩
    -- the address and the key pick out the same node
    have hsame : ∀ y ∈ b (slot k), y.1 = x.1 ↔ y.2.1 = k := by
      intro y hy
      have hkeys := h.wf.nodup (slot k)
      rw [← hb, List.map_map] at hkeys
      rw [Heap.addr_eq_iff_key_eq (hrep.nodup _) hkeys hmem hy, hxk]
    have hsome : h.findNode k = some x.2.2 := by rw [hfind, hx, Option.map_some]
    intro i
    rw [set_of_some hsome]
    change _ = Buckets.alter slot Prod.fst h.h k _ i
    rw [Buckets.alter]
    rcases eq_or_ne i (slot k) with rfl | hi
    · rw [Function.update_self, Function.update_self, ← hb, List.map_map, List.map_map]
      refine List.map_congr_left fun y hy => ?_
      rw [Function.comp_apply, Function.comp_apply]
      by_cases hyx : y.1 = x.1
      · rw [if_pos hyx, if_pos ((hsame y hy).mp hyx)]
      · rw [if_neg hyx, if_neg fun hyk => hyx ((hsame y hy).mpr hyk)]
    · rw [Function.update_of_ne hi, Function.update_of_ne hi, hb]

/-- **`del`** takes the first node with the key out of its chain. -/
theorem Rep.del (hrep : Rep t b) {k : Str} {p : ℕ} {n : Kv} {l l' : List (ℕ × Str × Kv)}
    (hl : b (slot k) = l ++ (p, (k, n)) :: l') (hfirst : ∀ y ∈ l, y.2.1 ≠ k)
    (hv : n.v.isUnset = false) :
    ∃ t', t.del k = some t' ∧ Rep t' (Function.update b (slot k) (l ++ l')) := by
  obtain ⟨last, hseg⟩ := hrep.seg (slot k)
  have hfind : ((b (slot k)).find? fun x => x.2.1 = k) = some (p, (k, n)) := by
    rw [List.find?_eq_some_iff_append]
    exact ⟨by simp, l, l', hl, fun y hy => by simpa using hfirst y hy⟩
  obtain ⟨c, hc, hval⟩ := hseg.cell (List.mem_of_find?_eq_some hfind)
  obtain ⟨m, head, hunlink, hchains⟩ := hrep.chains.unlink hl
  have hsize : wrap32 (t.size (slot k) - 1) = wrap32 (l ++ l').length := by
    rw [hrep.size, hl, sub_eq_add_neg, wrap32_add_left, List.length_append, List.length_append,
      List.length_cons]
    push_cast
    congr 1
    ring
  refine ⟨⟨m, t.top, Function.update t.h (slot k) head,
    Function.update t.size (slot k) (wrap32 (t.size (slot k) - 1))⟩, ?_,
    rep_of_chains hchains (hrep.size_update hsize)⟩
  rw [HeapHash.del, hrep.findNode, Option.bind_some, hfind, Option.map_some]
  simp only [hc, Option.bind_some, hval, hv, Bool.false_eq_true, ↓reduceIte, hunlink,
    Option.map_some]

/-- **`del`** on the heap, when it succeeds on the table. -/
theorem Refines.del (hr : Refines t h) {k : Str} (hdel : h.del k = some h') :
    ∃ t', t.del k = some t' ∧ Refines t' h' := by
  obtain ⟨b, hrep, hb⟩ := hr
  obtain ⟨⟨n, hn, hv⟩, rfl⟩ := del_eq_some hdel
  rw [find_chain hb k, Option.map_eq_some_iff] at hn
  obtain ⟨⟨p, k', n'⟩, hx, rfl⟩ := hn
  obtain ⟨hk', l, l', hl, hfirst⟩ := List.find?_eq_some_iff_append.mp hx
  obtain rfl : k' = k := by simpa using hk'
  obtain ⟨t', ht', hrep'⟩ := hrep.del hl (fun y hy => by simpa using hfirst y hy) hv
  refine ⟨t', ht', _, hrep', ?_⟩
  intro i
  change (Function.update b (slot k') (l ++ l') i).map Prod.snd
    = Buckets.erase slot Prod.fst h.h k' i
  rw [Buckets.erase]
  rcases eq_or_ne i (slot k') with rfl | hi
  · rw [Function.update_self, Function.update_self, ← hb, hl, List.map_append, List.map_append,
      List.map_cons, List.eraseP_append_right, List.eraseP_cons_of_pos (by simp)]
    intro e he
    obtain ⟨y, hy, rfl⟩ := List.mem_map.mp he
    simpa using hfirst y hy
  · rw [Function.update_of_ne hi, Function.update_of_ne hi, hb]

end HeapHash

end MuseKv
