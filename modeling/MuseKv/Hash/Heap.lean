import MuseKv.Hash.Basic
import MuseKv.General.Chain

/-!
# `hash::Hash` in memory

The table with its nodes on a heap: the array `h` of chain heads, the nodes with `next_ptr` and
`prev_ptr`, and the `int` counters `size`.  Addresses are handed out in order, so `top`, the next
one, bounds the number of nodes and serves as the fuel of the loops.  A `none` result is a fault.
-/

namespace MuseKv

open General Hash

/-- A `Hash` and the heap its nodes are on. -/
structure HeapHash where
  mem : Heap ℕ (Str × Kv)
  top : ℕ
  h : Fin totalSlotNum → Option ℕ
  size : Fin totalSlotNum → Int

namespace HeapHash

/-- `Hash(port)`. -/
def new : HeapHash where
  mem _ := none
  top := 0
  h _ := none
  size _ := 0

/-- `find_node`: the address of the node, if there is one. -/
def findNode (t : HeapHash) (key : Str) : Option (Option ℕ) :=
  t.mem.search (fun e => e.1 = key) t.top (t.h (slot key))

/-- `set`. -/
def set (t : HeapHash) (key : Str) (value : Value) (authr authw : UInt8) : Option HeapHash :=
  (t.findNode key).bind fun
    | none =>
      (t.mem.pushFront (t.h (slot key)) t.top
        (key, { v := value, authr := authr, authw := authw })).map fun r =>
        { mem := r.1
          top := t.top + 1
          h := Function.update t.h (slot key) r.2
          size := Function.update t.size (slot key) (wrap32 (t.size (slot key) + 1)) }
    | some p =>
      (t.mem.setVal p fun e => (e.1, e.2.overwrite value authr authw)).map fun mem =>
        { t with mem := mem }

/-- `del`: dereferencing `NULL`, and freeing a value that was never set, are faults. -/
def del (t : HeapHash) (key : Str) : Option HeapHash :=
  (t.findNode key).bind fun
    | none => none
    | some p =>
      (t.mem p).bind fun c =>
        if c.val.2.v.isUnset then none
        else (t.mem.unlink (t.h (slot key)) p).map fun r =>
          { t with
            mem := r.1
            h := Function.update t.h (slot key) r.2
            size := Function.update t.size (slot key) (wrap32 (t.size (slot key) - 1)) }

/-- `get_size`: the sum of the counters, in an `int`. -/
def getSize (t : HeapHash) : Int :=
  (List.finRange totalSlotNum).foldl (fun sizeAll i => wrap32 (sizeAll + t.size i)) 0

/-- The nodes of chain `i`, from `h[i]` along `next_ptr`. -/
def walk (t : HeapHash) (i : Fin totalSlotNum) : Option (List (ℕ × Str × Kv)) :=
  t.mem.walk t.top (t.h i)

/-- The keys that the nested loop of `keys` meets. -/
def walkKeys (t : HeapHash) : List (Fin totalSlotNum) → Option (List Str)
  | [] => some []
  | i :: is => (t.walk i).bind fun l => (walkKeys t is).map fun ks => l.map (fun x => x.2.1) ++ ks

/-- `keys`: an array of `get_size()` cells, filled from the front.  A negative size throws, and
writing behind the last cell is a fault. -/
def keys (t : HeapHash) : Option (List Str) :=
  if t.getSize < 0 then none
  else (t.walkKeys (List.finRange totalSlotNum)).bind fun ks =>
    if ks.length ≤ t.getSize.toNat then
      some (ks ++ List.replicate (t.getSize.toNat - ks.length) [])
    else none

end HeapHash

end MuseKv
