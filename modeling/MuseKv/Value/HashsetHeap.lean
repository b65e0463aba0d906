import MuseKv.Value.Heap
import MuseKv.Value.Hashset

/-!
# `hashset::Hashset` in memory

The 97 lists of a set, with the nodes of all of them on one heap.  A `none` result is a fault of a
list.
-/

namespace MuseKv

open Kvstore

/-- A `Hashset` and the heap its nodes are on. -/
structure HeapHashset where
  heap : NodeHeap
  table : Fin 97 → HeapList

namespace HeapHashset

/-- `Hashset()`. -/
def new : HeapHashset := ⟨⟨fun _ => none, 0⟩, fun _ => HeapList.new⟩

/-- `push`. -/
def push (s : HeapHashset) (content : Str) : Option HeapHashset :=
  let index := Hashset.slot content
  (HeapList.find s.heap (s.table index) content).bind fun found =>
    if found < 0 then
      (HeapList.pushBack s.heap (s.table index) content).map fun r =>
        ⟨r.1, Function.update s.table index r.2⟩
    else some s

/-- `pop`: the loop stops at the first list with a positive counter. -/
def pop (s : HeapHashset) : Option (Str × HeapHashset) :=
  match (List.finRange 97).find? fun i => 0 < (s.table i).length with
  | none => some ([], s)
  | some i => (HeapList.popBack s.heap (s.table i)).map fun r =>
      (r.1, ⟨r.2.1, Function.update s.table i r.2.2⟩)

/-- The loop of `del` over the lists. -/
def delFrom (s : HeapHashset) (content : Str) : List (Fin 97) → Option (Bool × HeapHashset)
  | [] => some (false, s)
  | i :: is => (HeapList.find s.heap (s.table i) content).bind fun index =>
    if index ≥ 0 then
      (HeapList.del s.heap (s.table i) index).map fun r =>
        (true, ⟨r.2.1, Function.update s.table i r.2.2⟩)
    else delFrom s content is

/-- `del`. -/
def del (s : HeapHashset) (content : Str) : Option (Bool × HeapHashset) :=
  s.delFrom content (List.finRange 97)

/-- `get_length`. -/
def getLength (s : HeapHashset) : Int :=
  (List.finRange 97).foldl (fun res i => wrap32 (res + (s.table i).length)) 0

/-- The loop of `print` over the lists. -/
def printFrom (s : HeapHashset) : List (Fin 97) → Bool → Str → Option Str
  | [], _, str => some str
  | i :: is, start, str =>
    if (s.table i).isEmpty then printFrom s is start str
    else (HeapList.print s.heap (s.table i)).bind fun p =>
      if start then printFrom s is false (str ++ p)
      else printFrom s is false (str ++ byte ',' :: p)

/-- `print`. -/
def print (s : HeapHashset) : Option Str := s.printFrom (List.finRange 97) true []

end HeapHashset

/-! ### Sequences of operations -/

/-- The calls that change a set. -/
inductive SetOp
  | push (content : Str)
  | pop
  | del (content : Str)

/-- What a call on a set returns. -/
inductive SetResult
  | unit
  | text (s : Str)
  | bool (b : Bool)

/-- A call on a set in memory. -/
def HeapHashset.step (op : SetOp) (s : HeapHashset) : Option (SetResult × HeapHashset) :=
  match op with
  | .push content => (s.push content).map fun s => (.unit, s)
  | .pop => s.pop.map fun r => (.text r.1, r.2)
  | .del content => (s.del content).map fun r => (.bool r.1, r.2)

/-- A sequence of calls on a set in memory. -/
def HeapHashset.run : List SetOp → HeapHashset → Option HeapHashset
  | [], s => some s
  | op :: ops, s => (step op s).bind fun r => run ops r.2

/-- A call on a set. -/
def Hashset.step (op : SetOp) (s : Hashset) : SetResult × Hashset :=
  match op with
  | .push content => (.unit, s.push content)
  | .pop => (.text s.pop.1, s.pop.2)
  | .del content => (.bool (s.del content).1, (s.del content).2)

/-- A sequence of calls on a set. -/
def Hashset.run (ops : List SetOp) (s : Hashset) : Hashset :=
  ops.foldl (fun s op => (step op s).2) s

end MuseKv
