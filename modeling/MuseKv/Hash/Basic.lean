import MuseKv.Value.Basic
import MuseKv.Encrypt.Basic

/-!
# `hash::Hash`

The table of the store: 10007 chains of entries, head first.  An entry sits in the chain of the hash
of its key and no key occurs twice; the structure carries this, and `set` and `del` keep it.  The
linked nodes behind a chain are the subject of `MuseKv.Hash.Heap`.
-/

namespace MuseKv

open General Kvstore

/-- `TOTAL_SLOT_NUM`. -/
abbrev totalSlotNum : ℕ := 10007

namespace Hash

/-- The lines of `hash_func` under `//more calculations`. -/
def mix (x : BitVec 32) : BitVec 32 :=
  let x := x ^^^ (x <<< 3)
  let x := x + x.sshiftRight 5
  let x := x ^^^ (x <<< 4)
  let x := x + x.sshiftRight 17
  let x := x ^^^ (x <<< 25)
  x + x.sshiftRight 6

/-- `hash_func`. -/
def hashFunc (key : Str) : Int := tableIndex (mix (polyHash 64 key)) totalSlotNum

/-- The index `hash_func` returns, as a chain number. -/
def slot (key : Str) : Fin totalSlotNum := bucketOf (mix (polyHash 64 key)) totalSlotNum

theorem slot_val (key : Str) : ((slot key).val : Int) = hashFunc key := bucketOf_val _ _

/-- `hash_func` stays within the table. -/
theorem hashFunc_bounds (key : Str) : 0 ≤ hashFunc key ∧ hashFunc key < totalSlotNum :=
  tableIndex_bounds _ (by decide)

end Hash

/-- A `Hash`. -/
structure Hash where
  h : Fin totalSlotNum → List (Str × Kv)
  portNum : Int
  startNum : Int
  endNum : Int
  wf : Buckets.WF Hash.slot Prod.fst h

namespace Hash

/-- `Hash(port)`: the empty table that owns every slot. -/
def new (port : Int) : Hash where
  h _ := []
  portNum := port
  startNum := 0
  endNum := totalSlotNum - 1
  wf := ⟨by simp, by simp⟩

def setBoundary (h : Hash) (startN endN : Int) : Hash := { h with startNum := startN, endNum := endN }

/-- `find_node`: the first node with the key in the chain of its hash. -/
def findNode (h : Hash) (key : Str) : Option Kv :=
  (Buckets.find slot Prod.fst h.h key).map Prod.snd

/-- Mutations through the node pointer that `find_node` returned. -/
def alter (h : Hash) (key : Str) (f : Kv → Kv) : Hash :=
  { h with
    h := Buckets.alter slot Prod.fst h.h key fun n => (n.1, f n.2)
    wf := h.wf.alter key fun _ => rfl }

/-- `set`: a new node at the front of the chain, or new contents for the node found. -/
def set (h : Hash) (key : Str) (value : Value) (authr authw : UInt8) : Hash :=
  match hf : h.findNode key with
  | none =>
    { h with
      h := Buckets.push slot Prod.fst h.h (key, { v := value, authr := authr, authw := authw })
      wf := h.wf.push (Option.map_eq_none_iff.mp hf) }
  | some _ => h.alter key fun n => n.overwrite value authr authw

/-- `del`.  An absent key dereferences `NULL`, and freeing an unset value follows the address `-1`:
both are faults. -/
def del (h : Hash) (key : Str) : Option Hash :=
  match h.findNode key with
  | none => none
  | some n =>
    if n.v.isUnset then none
    else some { h with
      h := Buckets.erase slot Prod.fst h.h key
      wf := h.wf.erase key }

/-- The entries of the table, chain by chain. -/
def entries (h : Hash) : List (Str × Kv) := (List.finRange totalSlotNum).flatMap h.h

/-- `keys`. -/
def keys (h : Hash) : List Str := h.entries.map Prod.fst

/-! ### Lookups -/

@[simp]
theorem findNode_new (port : Int) (k : Str) : (new port).findNode k = none := rfl

theorem findNode_eq_some_iff {h : Hash} {k : Str} {n : Kv} :
    h.findNode k = some n ↔ (k, n) ∈ h.entries := by
  rw [findNode, Option.map_eq_some_iff, entries, List.mem_flatMap]
  constructor
  · rintro ⟨⟨k', n'⟩, hf, rfl⟩
    obtain ⟨rfl, i, hi⟩ := h.wf.find_eq_some_iff.mp hf
    exact ⟨i, List.mem_finRange i, hi⟩
  · rintro ⟨i, -, hi⟩
    exact ⟨(k, n), h.wf.find_eq_some_iff.mpr ⟨rfl, i, hi⟩, rfl⟩

/-- Every key is in the table once. -/
theorem keys_nodup (h : Hash) : h.keys.Nodup := by
  rw [keys, entries, List.map_flatMap]
  exact h.wf.nodup_flatMap (List.nodup_finRange totalSlotNum)

theorem findNode_alter (h : Hash) (k : Str) (f : Kv → Kv) (k' : Str) :
    (h.alter k f).findNode k' = if k' = k then (h.findNode k').map f else h.findNode k' := by
  have hfind := Buckets.find_alter slot Prod.fst h.h k
    (f := fun n : Str × Kv => (n.1, f n.2)) (fun _ => rfl) k'
  rw [findNode, alter, hfind, findNode]
  split_ifs
  · rw [Option.map_map, Option.map_map]
    rfl
  · rfl

/-- Writing an entry back as it was leaves the table alone. -/
theorem alter_of_findNode {h : Hash} {k : Str} {n : Kv} (hf : h.findNode k = some n) {f : Kv → Kv}
    (hfn : f n = n) : h.alter k f = h := by
  obtain ⟨⟨k', n'⟩, hfind, rfl⟩ := Option.map_eq_some_iff.mp hf
  have hchains : (h.alter k f).h = h.h :=
    h.wf.alter_of_find hfind (f := fun n : Str × Kv => (n.1, f n.2)) (Prod.ext rfl hfn)
  cases h
  simp only [alter, Hash.mk.injEq, and_true]
  exact hchains

/-- The entry that `set` leaves under its key. -/
def setEntry (value : Value) (authr authw : UInt8) : Option Kv → Kv
  | none => { v := value, authr := authr, authw := authw }
  | some n => n.overwrite value authr authw

/-- An ordered pair of levels is what `set` leaves. -/
theorem setEntry_levels (value : Value) {authr authw : UInt8} (h : authr ≤ authw)
    (node : Option Kv) : (setEntry value authr authw node).authr = authr ∧
      (setEntry value authr authw node).authw = authw := by
  cases node with
  | none => exact ⟨rfl, rfl⟩
  | some n => exact n.overwrite_levels value h

/-- An overwritten entry keeps its lifetime, and a new one has none. -/
theorem isExpired_setEntry (value : Value) (r w : UInt8) (node : Option Kv) (t : Int) :
    (setEntry value r w node).isExpired t = node.any fun n => n.isExpired t := by
  cases node with
  | none => rfl
  | some n => rfl

theorem set_of_none {h : Hash} {k : Str} (hf : h.findNode k = none) (value : Value)
    (authr authw : UInt8) : (h.set k value authr authw).h = Buckets.push slot Prod.fst h.h
      (k, { v := value, authr := authr, authw := authw }) := by
  rw [set]
  split
  next => rfl
  next n hn => exact absurd (hf.symm.trans hn) (by simp)

theorem set_of_some {h : Hash} {k : Str} {n : Kv} (hf : h.findNode k = some n) (value : Value)
    (authr authw : UInt8) :
    h.set k value authr authw = h.alter k fun n => n.overwrite value authr authw := by
  rw [set]
  split
  next hn => exact absurd (hf.symm.trans hn) (by simp)
  next => rfl

theorem findNode_set (h : Hash) (k : Str) (value : Value) (authr authw : UInt8) (k' : Str) :
    (h.set k value authr authw).findNode k'
      = if k' = k then some (setEntry value authr authw (h.findNode k)) else h.findNode k' := by
  cases hf : h.findNode k with
  | none =>
    rw [findNode, set_of_none hf, Buckets.find_push, findNode]
    by_cases hk : k' = k
    · rw [if_pos hk, if_pos hk.symm, Option.map_some, setEntry]
    · rw [if_neg hk, if_neg fun h => hk h.symm]
  | some n =>
    rw [set_of_some hf, findNode_alter]
    by_cases hk : k' = k
    · rw [if_pos hk, if_pos hk, hk, hf]
      rfl
    · rw [if_neg hk, if_neg hk]

theorem del_eq_some {h h' : Hash} {k : Str} (hdel : h.del k = some h') :
    (∃ n, h.findNode k = some n ∧ n.v.isUnset = false) ∧
      h' = { h with h := Buckets.erase slot Prod.fst h.h k, wf := h.wf.erase k } := by
  rw [del] at hdel
  cases hf : h.findNode k with
  | none => simp [hf] at hdel
  | some n =>
    simp only [hf] at hdel
    split_ifs at hdel with hv
    exact ⟨⟨n, rfl, by simpa using hv⟩, (Option.some.inj hdel).symm⟩

theorem findNode_del {h h' : Hash} {k : Str} (hdel : h.del k = some h') (k' : Str) :
    h'.findNode k' = if k' = k then none else h.findNode k' := by
  obtain ⟨-, rfl⟩ := del_eq_some hdel
  rw [findNode, h.wf.find_erase, findNode]
  split_ifs
  · rfl
  · rfl

theorem del_isSome {h : Hash} {k : Str} {n : Kv} (hf : h.findNode k = some n)
    (hv : n.v.isUnset = false) : ∃ h', h.del k = some h' := by
  rw [del]
  simp only [hf, hv, Bool.false_eq_true, ↓reduceIte]
  exact ⟨_, rfl⟩

/-- Deleting an unset value is a fault. -/
theorem del_eq_none_of_unset {h : Hash} {k : Str} {n : Kv} (hf : h.findNode k = some n)
    (hv : n.v.isUnset = true) : h.del k = none := by
  rw [del]
  simp only [hf, hv, ↓reduceIte]

end Hash

end MuseKv
