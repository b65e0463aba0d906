import MuseKv.Command.Equiv.Execute
import MuseKv.Command.TwoStep

/-!
# Tables in memory

A memory represents a table (`Represents`) when its nodes and values are those of the entries, each at
an address of its own.  Then a lookup finds the node of the entry (`findNode_eq_some`), and each of the
changes does to the memory what an action does to the table.
-/

namespace MuseKv

open General Kvstore Command

/-! ### Memories and tables -/

/-- Every node has a value of its own, which is set, and what was not handed out is free. -/
structure Memory.WF (m : Memory) : Prop where
  live : ∀ p n, m.node p = some n → (m.value n.dataAddr).isSome = true
  separate : ∀ p q n n' a, m.node p = some n → m.node q = some n' → n.dataAddr = some a →
    n'.dataAddr = some a → p = q
  fresh : ∀ p, m.top ≤ p → m.node p = none ∧ m.data p = none
  isSet : ∀ a v, m.data a = some v → v.isUnset = false

/-- A memory that holds a table: its chains are those of the table. -/
structure Memory.Represents (m : Memory) (h : Hash) : Prop where
  wf : m.WF
  chain : ∀ i, (m.h i).map m.entry = (h.h i).map some
  linked : ∀ p n, m.node p = some n → p ∈ m.h (Hash.slot n.k)
  startNum : m.startNum = h.startNum
  endNum : m.endNum = h.endNum

namespace Memory

variable {m m' : Memory} {h : Hash} {p q a : ℕ} {k : Str} {e : Str × Kv} {i : Fin totalSlotNum}

theorem entry_eq_some : m.entry p = some e ↔ ∃ n v, m.node p = some n ∧
    m.value n.dataAddr = some v ∧ e = (n.k, n.kv v) := by
  rw [entry, Option.bind_eq_some_iff]
  constructor
  · rintro ⟨n, hn, hmap⟩
    obtain ⟨v, hv, rfl⟩ := Option.map_eq_some_iff.mp hmap
    exact ⟨n, v, hn, hv, rfl⟩
  · rintro ⟨n, v, hn, hv, rfl⟩
    exact ⟨n, hn, Option.map_eq_some_iff.mpr ⟨v, hv, rfl⟩⟩

/-- The key of an entry is that of the node. -/
theorem entry_key {n : HashNode} (he : m.entry p = some e) (hn : m.node p = some n) : e.1 = n.k := by
  obtain ⟨n', v, hn', -, rfl⟩ := entry_eq_some.mp he
  rw [Option.some.inj (hn'.symm.trans hn)]

namespace WF

theorem lt_top (h : m.WF) {n : HashNode} (hn : m.node p = some n) : p < m.top := by
  by_contra hle
  rw [(h.fresh p (not_lt.mp hle)).1] at hn
  exact absurd hn (by simp)

/-- The value of a node. -/
theorem exists_data (h : m.WF) {n : HashNode} (hn : m.node p = some n) (ha : n.dataAddr = some a) :
    ∃ v, m.data a = some v := by
  have hlive := h.live p n hn
  rw [ha] at hlive
  exact Option.isSome_iff_exists.mp hlive

/-- The address of a value in use. -/
theorem addr_lt_top (h : m.WF) {n : HashNode} (hn : m.node p = some n) (ha : n.dataAddr = some a) :
    a < m.top := by
  obtain ⟨v, hv⟩ := h.exists_data hn ha
  by_contra hle
  rw [(h.fresh a (not_lt.mp hle)).2] at hv
  exact absurd hv (by simp)

/-- Nodes whose values are all there. -/
theorem live_of_data {m : Memory}
    (h : ∀ p n a, m.node p = some n → n.dataAddr = some a → ∃ v, m.data a = some v) :
    ∀ p n, m.node p = some n → (m.value n.dataAddr).isSome = true := by
  intro p n hn
  cases ha : n.dataAddr with
  | none => rfl
  | some a => exact Option.isSome_iff_exists.mpr (h p n a hn ha)

/-- A node with a new value. -/
theorem renew (h : m.WF) {n : HashNode} {v : Value} (hv : v.isUnset = false) (hp : p ≤ m.top)
    (hn : n.dataAddr = some m.top) (hnode : ∀ q, m'.node q = if q = p then some n else m.node q)
    (hdata : ∀ b, m'.data b = if b = m.top then some v else m.data b) (htop : m'.top = m.top + 1) :
    m'.WF := by
  -- a node is this one, or an old one with its old value
  have hcases : ∀ q n', m'.node q = some n' → q = p ∧ n'.dataAddr = some m.top ∨ m.node q = some n' := by
    intro q n' hq
    rw [hnode] at hq
    split_ifs at hq with hqp
    · exact Or.inl ⟨hqp, Option.some.inj hq ▸ hn⟩
    · exact Or.inr hq
  constructor
  · refine live_of_data fun q n' a hq ha => ?_
    rw [hdata]
    split_ifs with hnew
    · exact ⟨v, rfl⟩
    · rcases hcases q n' hq with ⟨-, hq⟩ | hq
      · exact absurd (Option.some.inj (ha.symm.trans hq)) hnew
      · exact h.exists_data hq ha
  · intro q q' n₁ n₂ a hq hq' ha ha'
    rcases hcases q n₁ hq with ⟨rfl, hnew⟩ | hold
    · obtain rfl := Option.some.inj (ha.symm.trans hnew)
      rcases hcases q' n₂ hq' with ⟨rfl, -⟩ | hold'
      · rfl
      · exact absurd (h.addr_lt_top hold' ha') (lt_irrefl _)
    · rcases hcases q' n₂ hq' with ⟨rfl, hnew⟩ | hold'
      · obtain rfl := Option.some.inj (ha'.symm.trans hnew)
        exact absurd (h.addr_lt_top hold ha) (lt_irrefl _)
      · exact h.separate q q' n₁ n₂ a hold hold' ha ha'
  · intro q hq
    rw [htop] at hq
    rw [hnode, hdata, if_neg (by omega), if_neg (by omega)]
    exact h.fresh q (by omega)
  · intro b v' hb
    rw [hdata] at hb
    split_ifs at hb
    · rwa [← Option.some.inj hb]
    · exact h.isSet b v' hb

theorem push (h : m.WF) (k : Str) {v : Value} (hv : v.isUnset = false) (authr authw : UInt8) :
    (m.push k v authr authw).WF :=
  h.renew hv le_rfl rfl (push_node m k v authr authw) (push_data m k v authr authw) rfl

theorem overwrite (h : m.WF) {n : HashNode} (hn : m.node p = some n) {v : Value}
    (hv : v.isUnset = false) (authr authw : UInt8) : (m.overwrite p n v authr authw).WF :=
  h.renew hv (h.lt_top hn).le rfl (overwrite_node m v authr authw p · n)
    (overwrite_data m v authr authw p · n) rfl

theorem free (h : m.WF) {n : HashNode} (hn : m.node p = some n) (ha : n.dataAddr = some a)
    (k : Str) : (m.free k p a).WF := by
  have hold : ∀ q n', (m.free k p a).node q = some n' → q ≠ p ∧ m.node q = some n' := by
    intro q n' hq
    rw [free_node] at hq
    split_ifs at hq with hqp
    exact ⟨hqp, hq⟩
  constructor
  · refine live_of_data fun q n' b hq hb => ?_
    obtain ⟨hne, hq⟩ := hold q n' hq
    have hba : b ≠ a := fun hba => hne (h.separate q p n' n a hq hn (hba ▸ hb) ha)
    rw [free_data, if_neg hba]
    exact h.exists_data hq hb
  · intro q q' n₁ n₂ b hq hq' hb hb'
    exact h.separate q q' n₁ n₂ b (hold q n₁ hq).2 (hold q' n₂ hq').2 hb hb'
  · intro q hq
    have htop : m.top ≤ q := hq
    rw [free_node, free_data]
    refine ⟨?_, ?_⟩
    · split_ifs
      · rfl
      · exact (h.fresh q htop).1
    · split_ifs
      · rfl
      · exact (h.fresh q htop).2
  · intro b v' hb
    rw [free_data] at hb
    split_ifs at hb
    exact h.isSet b v' hb

theorem write (h : m.WF) (ha : a < m.top) {v : Value} (hv : v.isUnset = false) : (m.write a v).WF := by
  constructor
  · refine live_of_data fun q n' b hq hb => ?_
    rw [write_data]
    split_ifs
    · exact ⟨v, rfl⟩
    · exact h.exists_data hq hb
  · exact h.separate
  · intro q hq
    have htop : m.top ≤ q := hq
    rw [write_data, if_neg (by omega)]
    exact h.fresh q htop
  · intro b v' hb
    rw [write_data] at hb
    split_ifs at hb
    · rwa [← Option.some.inj hb]
    · exact h.isSet b v' hb

end WF

namespace Represents

/-- The nodes of a chain. -/
theorem exists_entry (hr : m.Represents h) (hp : p ∈ m.h i) : ∃ e ∈ h.h i, m.entry p = some e := by
  have hmem : m.entry p ∈ (h.h i).map some := by
    rw [← hr.chain i]
    exact List.mem_map.mpr ⟨p, hp, rfl⟩
  obtain ⟨e, he, heq⟩ := List.mem_map.mp hmem
  exact ⟨e, he, heq.symm⟩

/-- A node sits in the chain of its key. -/
theorem eq_slot (hr : m.Represents h) (hp : p ∈ m.h i) (he : m.entry p = some e) :
    i = Hash.slot e.1 := by
  obtain ⟨e', he', hpe⟩ := hr.exists_entry hp
  obtain rfl := Option.some.inj (hpe.symm.trans he)
  exact (h.wf.placed i e' he').symm

theorem keys_nodup (hr : m.Represents h) (i : Fin totalSlotNum) :
    ((m.h i).map fun p => (m.entry p).map Prod.fst).Nodup := by
  have hmap := congrArg (List.map (Option.map Prod.fst)) (hr.chain i)
  rw [List.map_map, List.map_map] at hmap
  have hkeys : (h.h i).map (Option.map Prod.fst ∘ some) = ((h.h i).map Prod.fst).map some := by
    rw [List.map_map]
    rfl
  rw [hkeys] at hmap
  change ((m.h i).map (Option.map Prod.fst ∘ m.entry)).Nodup
  rw [hmap]
  exact (h.wf.nodup i).map (Option.some_injective _)

theorem nodup (hr : m.Represents h) (i : Fin totalSlotNum) : (m.h i).Nodup :=
  List.Nodup.of_map _ (hr.keys_nodup i)

/-- No key has two nodes. -/
theorem eq_of_key (hr : m.Represents h) {j : Fin totalSlotNum} (hp : p ∈ m.h i) (hq : q ∈ m.h j)
    {n n' : Kv} (hpk : m.entry p = some (k, n)) (hqk : m.entry q = some (k, n')) : p = q := by
  obtain rfl : i = j := (hr.eq_slot hp hpk).trans (hr.eq_slot hq hqk).symm
  refine List.inj_on_of_nodup_map (hr.keys_nodup i) hp hq ?_
  rw [hpk, hqk]
  rfl

/-- The empty table. -/
theorem new (port : Int) : Memory.new.Represents (Hash.new port) where
  wf := ⟨by simp [Memory.new], by simp [Memory.new], by simp [Memory.new], by simp [Memory.new]⟩
  chain _ := rfl
  linked := by simp [Memory.new]
  startNum := rfl
  endNum := rfl

/-! ### Looking up -/

theorem find_eq (hr : m.Represents h) (k : Str) : (m.findNode k).map m.entry
    = ((h.h (Hash.slot k)).find? fun e => e.1 = k).map some := by
  have hnode : m.findNode k = (m.h (Hash.slot k)).find? fun p => (m.entry p).any fun e => e.1 = k := by
    rw [findNode]
    apply List.find?_congr
    intro p hp
    obtain ⟨e, -, hpe⟩ := hr.exists_entry hp
    obtain ⟨n, v, hn, -, rfl⟩ := entry_eq_some.mp hpe
    rw [hn, hpe]
    rfl
  have hmap := List.find?_map (f := m.entry) (p := fun o => o.any fun e => e.1 = k)
    (l := m.h (Hash.slot k))
  have hmap' := List.find?_map (f := some) (p := fun o : Option (Str × Kv) => o.any fun e => e.1 = k)
    (l := h.h (Hash.slot k))
  rw [hr.chain, hmap'] at hmap
  rw [hnode]
  exact hmap.symm

/-- A node is found under its key. -/
theorem findNode_of_node (hr : m.Represents h) {n : HashNode} (hn : m.node p = some n) :
    m.findNode n.k = some p := by
  have hp := hr.linked p n hn
  have hfind : (m.findNode n.k).isSome = true := by
    rw [findNode, List.find?_isSome]
    exact ⟨p, hp, by simp [hn]⟩
  obtain ⟨q, hq⟩ := Option.isSome_iff_exists.mp hfind
  have hqmem : q ∈ m.h (Hash.slot n.k) := List.mem_of_find?_eq_some hq
  obtain ⟨⟨k', kv⟩, -, hqe⟩ := hr.exists_entry hqmem
  obtain ⟨⟨k, kv'⟩, -, hpe⟩ := hr.exists_entry hp
  have hkey := List.find?_some hq
  obtain ⟨n', v', hn', -, -⟩ := entry_eq_some.mp hqe
  rw [hn', Option.any_some, decide_eq_true_eq] at hkey
  have hqk : k' = n'.k := entry_key hqe hn'
  have hpk : k = n.k := entry_key hpe hn
  rw [hqk, hkey, ← hpk] at hqe
  rw [hq, hr.eq_of_key hqmem hp hqe hpe]

theorem findNode_eq_none (hr : m.Represents h) (hf : m.findNode k = none) : h.findNode k = none := by
  have heq := hr.find_eq k
  rw [hf, Option.map_none, eq_comm, Option.map_eq_none_iff] at heq
  rw [Hash.findNode, Buckets.find, heq, Option.map_none]

theorem findNode_eq_some (hr : m.Represents h) (hf : m.findNode k = some p) :
    p ∈ m.h (Hash.slot k) ∧ ∃ n v, m.node p = some n ∧ m.value n.dataAddr = some v ∧ n.k = k ∧
      h.findNode k = some (n.kv v) := by
  have hmem : p ∈ m.h (Hash.slot k) := List.mem_of_find?_eq_some hf
  refine ⟨hmem, ?_⟩
  have heq := hr.find_eq k
  rw [hf, Option.map_some, eq_comm, Option.map_eq_some_iff] at heq
  obtain ⟨e, he, hpe⟩ := heq
  obtain ⟨n, v, hn, hv, rfl⟩ := entry_eq_some.mp hpe.symm
  have hkey : n.k = k := by simpa using List.find?_some he
  refine ⟨n, v, hn, hv, hkey, ?_⟩
  rw [Hash.findNode, Buckets.find, he]
  rfl

/-! ### The changes -/

/-- A node keeps its entry while the node and the value at its address stay. -/
theorem entry_congr (hnode : m'.node p = m.node p)
    (hdata : ∀ n a, m.node p = some n → n.dataAddr = some a → m'.data a = m.data a) :
    m'.entry p = m.entry p := by
  rw [entry, entry, hnode]
  cases hn : m.node p with
  | none => rfl
  | some n =>
    rw [Option.bind_some, Option.bind_some]
    cases ha : n.dataAddr with
    | none => rfl
    | some a => rw [value, value, hdata n a hn ha]

/-- The chains when the entry of one node changes. -/
theorem chain_alter (hr : m.Represents h) (m' : Memory) (f : Kv → Kv) {n : Kv}
    (hp : p ∈ m.h (Hash.slot k)) (hpk : m.entry p = some (k, n)) (hh : m'.h = m.h)
    (hentry : m'.entry p = some (k, f n))
    (hother : ∀ i, ∀ q ∈ m.h i, q ≠ p → m'.entry q = m.entry q) (i : Fin totalSlotNum) :
    (m'.h i).map m'.entry = ((h.alter k f).h i).map some := by
  change _ = (Buckets.alter Hash.slot Prod.fst h.h k (fun e : Str × Kv => (e.1, f e.2)) i).map some
  rw [hh, Buckets.alter]
  rcases eq_or_ne i (Hash.slot k) with rfl | hi
  · rw [Function.update_self, List.map_map]
    have hmap := congrArg (List.map (Option.map fun e : Str × Kv =>
      if e.1 = k then (e.1, f e.2) else e)) (hr.chain (Hash.slot k))
    rw [List.map_map, List.map_map] at hmap
    refine Eq.trans (List.map_congr_left fun q hq => ?_) hmap
    rw [Function.comp_apply]
    rcases eq_or_ne q p with rfl | hne
    · rw [hentry, hpk, Option.map_some, if_pos rfl]
    · obtain ⟨⟨k', n'⟩, -, hqe⟩ := hr.exists_entry hq
      have hkey : k' ≠ k := by
        rintro rfl
        exact hne (hr.eq_of_key hq hp hqe hpk)
      rw [hother _ q hq hne, hqe, Option.map_some, if_neg hkey]
  · rw [Function.update_of_ne hi, ← hr.chain i]
    refine List.map_congr_left fun q hq => hother i q hq ?_
    rintro rfl
    have hslot := hr.eq_slot hq hpk
    exact hi hslot

/-- **A new node** under a key that has none. -/
theorem push (hr : m.Represents h) (hf : h.findNode k = none) {v : Value} (hv : v.isUnset = false)
    (authr authw : UInt8) : (m.push k v authr authw).Represents (h.set k v authr authw) := by
  have hbounds := Hash.apply_bounds (h := h) (k := k) (a := .set v authr authw) rfl
  have hlinked : ∀ q n, (m.push k v authr authw).node q = some n →
      q ∈ (m.push k v authr authw).h (Hash.slot n.k) := by
    intro q n hq
    change q ∈ Function.update m.h (Hash.slot k) (m.top :: m.h (Hash.slot k)) (Hash.slot n.k)
    rw [push_node] at hq
    split_ifs at hq with hnew
    · obtain rfl := Option.some.inj hq
      rw [Function.update_self, hnew]
      exact List.mem_cons_self
    · have hold := hr.linked q n hq
      by_cases hslot : Hash.slot n.k = Hash.slot k
      · rw [hslot, Function.update_self]
        exact List.mem_cons_of_mem _ (hslot ▸ hold)
      · rwa [Function.update_of_ne hslot]
  refine ⟨hr.wf.push k hv authr authw, fun i => ?_, hlinked, hr.startNum.trans hbounds.2.1.symm,
    hr.endNum.trans hbounds.2.2.symm⟩
  -- the entry at the new address, and those that were there before
  have hnew : (m.push k v authr authw).entry m.top
      = some (k, { v := v, authr := authr, authw := authw }) := by
    rw [entry, push_node, if_pos rfl, Option.bind_some, value, push_data, if_pos rfl]
    rfl
  have hold : (m.h i).map (m.push k v authr authw).entry = (m.h i).map m.entry := by
    refine List.map_congr_left fun q hq => ?_
    obtain ⟨e, -, hqe⟩ := hr.exists_entry hq
    obtain ⟨n, -, hn, -⟩ := entry_eq_some.mp hqe
    refine entry_congr ?_ fun n a hn ha => ?_
    · rw [push_node, if_neg (hr.wf.lt_top hn).ne]
    · rw [push_data, if_neg (hr.wf.addr_lt_top hn ha).ne]
  rw [Hash.set_of_none hf, Buckets.push]
  change (Function.update m.h (Hash.slot k) (m.top :: m.h (Hash.slot k)) i).map _ = _
  rcases eq_or_ne i (Hash.slot k) with rfl | hi
  · rw [Function.update_self, Function.update_self, List.map_cons, List.map_cons, hnew, hold,
      hr.chain]
  · rw [Function.update_of_ne hi, Function.update_of_ne hi, hold, hr.chain]

/-- **A new value** under a key that has a node. -/
theorem overwrite (hr : m.Represents h) (hf : m.findNode k = some p) {n : HashNode}
    (hn : m.node p = some n) {v : Value} (hv : v.isUnset = false) (authr authw : UInt8) :
    (m.overwrite p n v authr authw).Represents (h.set k v authr authw) := by
  obtain ⟨hp, n', v', hn', hv', rfl, hfind⟩ := hr.findNode_eq_some hf
  obtain rfl := Option.some.inj (hn'.symm.trans hn)
  rw [Hash.set_of_some hfind]
  have hlinked : ∀ q n, (m.overwrite p n' v authr authw).node q = some n → q ∈ m.h (Hash.slot n.k) := by
    intro q n hq
    rw [overwrite_node] at hq
    split_ifs at hq with hqp
    · obtain rfl := Option.some.inj hq
      exact hqp ▸ hp
    · exact hr.linked q n hq
  refine ⟨hr.wf.overwrite hn hv authr authw, fun i => ?_, hlinked, hr.startNum, hr.endNum⟩
  refine hr.chain_alter (m.overwrite p n' v authr authw) _ hp
    (entry_eq_some.mpr ⟨n', v', hn, hv', rfl⟩) rfl ?_ ?_ i
  · -- the node keeps its address and gets a new value at the top
    rw [entry, overwrite_node, if_pos rfl, Option.bind_some]
    change (((m.overwrite p n' v authr authw).data m.top).map _ : Option (Str × Kv)) = _
    rw [overwrite_data, if_pos rfl]
    rfl
  · intro i q _ hne
    refine entry_congr ?_ fun n a hn ha => ?_
    · rw [overwrite_node, if_neg hne]
    · rw [overwrite_data, if_neg (hr.wf.addr_lt_top hn ha).ne]

/-- **A change of the value** of a key. -/
theorem write (hr : m.Represents h) (hf : m.findNode k = some p) {n : HashNode}
    (hn : m.node p = some n) (ha : n.dataAddr = some a) {v v' : Value} (hd : m.data a = some v)
    (hv : v'.isUnset = false) : (m.write a v').Represents (h.alter k fun _ => (n.kv v).setV v') := by
  obtain ⟨hp, n', v₀, hn', -, rfl, -⟩ := hr.findNode_eq_some hf
  obtain rfl := Option.some.inj (hn'.symm.trans hn)
  refine ⟨hr.wf.write (hr.wf.addr_lt_top hn ha) hv, fun i => ?_, hr.linked, hr.startNum, hr.endNum⟩
  have hpk : m.entry p = some (n'.k, n'.kv v) :=
    entry_eq_some.mpr ⟨n', v, hn, by rw [ha, value, hd], rfl⟩
  refine hr.chain_alter (m.write a v') _ hp hpk rfl ?_ ?_ i
  · change (m.node p).bind _ = _
    rw [hn, Option.bind_some, ha, value, write_data, if_pos rfl]
    rfl
  · intro i q _ hne
    refine entry_congr rfl fun n₁ b hq hb => ?_
    -- no other node has the value that is changed
    have hba : b ≠ a := fun hba => hne (hr.wf.separate q p n₁ n' a hq hn (hba ▸ hb) ha)
    rw [write_data, if_neg hba]

/-- **A node is deleted**. -/
theorem free (hr : m.Represents h) (hf : m.findNode k = some p) {n : HashNode}
    (hn : m.node p = some n) (ha : n.dataAddr = some a) :
    ∃ h', h.del k = some h' ∧ (m.free k p a).Represents h' := by
  obtain ⟨hp, n', v, hn', hv, rfl, hfind⟩ := hr.findNode_eq_some hf
  obtain rfl := Option.some.inj (hn'.symm.trans hn)
  rw [ha] at hv
  obtain ⟨h', hdel⟩ := Hash.del_isSome hfind (hr.wf.isSet a v hv)
  obtain ⟨-, rfl⟩ := Hash.del_eq_some hdel
  have hlinked : ∀ q n, (m.free n'.k p a).node q = some n →
      q ∈ (m.free n'.k p a).h (Hash.slot n.k) := by
    intro q n hq
    change q ∈ Function.update m.h (Hash.slot n'.k) ((m.h (Hash.slot n'.k)).erase p) (Hash.slot n.k)
    rw [free_node] at hq
    split_ifs at hq with hqp
    have hold := hr.linked q n hq
    by_cases hslot : Hash.slot n.k = Hash.slot n'.k
    · rw [hslot, Function.update_self]
      exact (List.mem_erase_of_ne hqp).mpr (hslot ▸ hold)
    · rwa [Function.update_of_ne hslot]
  refine ⟨_, hdel, hr.wf.free hn ha n'.k, fun i => ?_, hlinked, hr.startNum, hr.endNum⟩
  have hpk : m.entry p = some (n'.k, n'.kv v) :=
    entry_eq_some.mpr ⟨n', v, hn, by rw [ha]; exact hv, rfl⟩
  -- the other nodes keep their entries
  have hkeep : ∀ q, q ≠ p → (m.free n'.k p a).entry q = m.entry q := by
    intro q hne
    refine entry_congr ?_ fun n₁ b hq hb => ?_
    · rw [free_node, if_neg hne]
    · have hba : b ≠ a := fun hba => hne (hr.wf.separate q p n₁ n' a hq hn (hba ▸ hb) ha)
      rw [free_data, if_neg hba]
  have hchain : (m.free n'.k p a).h i = (m.h i).filter fun q => q ≠ p := by
    change Function.update m.h (Hash.slot n'.k) ((m.h (Hash.slot n'.k)).erase p) i = _
    rcases eq_or_ne i (Hash.slot n'.k) with rfl | hi
    · rw [Function.update_self, (hr.nodup _).erase_eq_filter]
      refine List.filter_congr fun q _ => ?_
      rw [decide_not, bne, beq_eq_decide]
    · rw [Function.update_of_ne hi]
      refine (List.filter_eq_self.mpr fun q hq => ?_).symm
      rw [decide_eq_true_eq]
      rintro rfl
      have hslot := hr.eq_slot hq hpk
      exact hi hslot
  -- to leave out an address is to leave out the entry under its key
  have hmap : (m.free n'.k p a).h i = (m.h i).filter ((fun o => o.any fun e => e.1 ≠ n'.k) ∘ m.entry) := by
    rw [hchain]
    refine List.filter_congr fun q hq => ?_
    obtain ⟨⟨k', n₁⟩, -, hqe⟩ := hr.exists_entry hq
    rw [Function.comp_apply, hqe, Option.any_some]
    refine decide_eq_decide.mpr (not_congr ?_)
    constructor
    · rintro rfl
      exact (Prod.mk.inj (Option.some.inj (hqe.symm.trans hpk))).1
    · rintro rfl
      exact hr.eq_of_key hq hp hqe hpk
  have hfree : ((m.free n'.k p a).h i).map (m.free n'.k p a).entry
      = ((m.free n'.k p a).h i).map m.entry := by
    refine List.map_congr_left fun q hq => hkeep q ?_
    rw [hchain, List.mem_filter, decide_eq_true_eq] at hq
    exact hq.2
  rw [hfree, hmap, ← List.filter_map, hr.chain]
  change _ = (Buckets.erase Hash.slot Prod.fst h.h n'.k i).map some
  rw [h.wf.erase_eq_filter, Buckets.filter, List.filter_map]
  rfl

end Represents

end Memory

end MuseKv
