import MuseKv.General.Ring
import MuseKv.Value.Linkedlist

/-!
# `linkedlist::List` in memory

A list with its nodes on a heap: the pointer `head` and the `int` counter `length`.  The nodes form a
ring, `next_ptr` of the last node leading back to `head`.  Addresses are handed out in order, so `top`,
the next one, bounds the number of nodes and serves as the fuel of the loops that stop at `head`.  A
`none` result is a fault: following `NULL` or a dangling pointer, or a division by zero.
-/

namespace MuseKv

open General

/-- The heap of the nodes. -/
structure NodeHeap where
  mem : Heap ℕ Str
  top : ℕ

/-- A `linkedlist::List`. -/
structure HeapList where
  head : Option ℕ
  length : Int

namespace HeapList

/-- `List()`. -/
def new : HeapList := ⟨none, 0⟩

def isEmpty (t : HeapList) : Bool := t.head == none

/-- The first node of a list: it is linked to itself. -/
def newRing (m : NodeHeap) (content : Str) : NodeHeap where
  mem := Function.update m.mem m.top (some ⟨content, some m.top, some m.top⟩)
  top := m.top + 1

/-- `push_front`. -/
def pushFront (m : NodeHeap) (t : HeapList) (content : Str) : Option (NodeHeap × HeapList) :=
  match t.head with
  | none => some (newRing m content, ⟨some m.top, wrap32 (t.length + 1)⟩)
  | some h => (m.mem.insertBefore h m.top content).map fun mem =>
      (⟨mem, m.top + 1⟩, ⟨some m.top, wrap32 (t.length + 1)⟩)

/-- `push_back`: as `push_front`, but `head` stays. -/
def pushBack (m : NodeHeap) (t : HeapList) (content : Str) : Option (NodeHeap × HeapList) :=
  match t.head with
  | none => some (newRing m content, ⟨some m.top, wrap32 (t.length + 1)⟩)
  | some h => (m.mem.insertBefore h m.top content).map fun mem =>
      (⟨mem, m.top + 1⟩, ⟨some h, wrap32 (t.length + 1)⟩)

/-- `pop_front`: `delete head` follows `head = NULL`, so a single node is not freed. -/
def popFront (m : NodeHeap) (t : HeapList) : Option (Str × NodeHeap × HeapList) :=
  match t.head with
  | none => some ([], m, t)
  | some h => (m.mem h).bind fun c =>
    if c.next = some h then some (c.val, m, ⟨none, wrap32 (t.length - 1)⟩)
    else (m.mem.bypass h).bind fun mem => (mem h).map fun c' =>
      (c.val, ⟨mem.free h, m.top⟩, ⟨c'.next, wrap32 (t.length - 1)⟩)

/-- `pop_back`. -/
def popBack (m : NodeHeap) (t : HeapList) : Option (Str × NodeHeap × HeapList) :=
  match t.head with
  | none => some ([], m, t)
  | some h => (m.mem h).bind fun c =>
    if c.next = some h then some (c.val, m, ⟨none, wrap32 (t.length - 1)⟩)
    else c.prev.bind fun tail => (m.mem tail).bind fun c' => (m.mem.bypass tail).map fun mem =>
      (c'.val, ⟨mem.free tail, m.top⟩, ⟨some h, wrap32 (t.length - 1)⟩)

/-- The loop of `find`: at most `fuel` rounds from the node `res`, the `index`-th one. -/
def findFrom (m : NodeHeap) (head : ℕ) (content : Str) : ℕ → Option ℕ → Int → Option Int
  | 0, _, _ => none
  | fuel + 1, res, index => res.bind fun p => (m.mem p).bind fun c =>
    if c.val = content then some index
    else if c.next = some head then some (-1)
    else findFrom m head content fuel c.next (wrap32 (index + 1))

/-- `find`. -/
def find (m : NodeHeap) (t : HeapList) (content : Str) : Option Int :=
  match t.head with
  | none => some (-1)
  | some h => findFrom m h content m.top (some h) 0

/-- `at`. -/
def nodeAt (m : NodeHeap) (t : HeapList) (index : Int) : Option (Option ℕ) :=
  match t.head with
  | none => some none
  | some h =>
    if t.length = 0 then none
    else if 0 ≤ index then m.mem.follow Cell.next (index.tmod t.length).toNat (some h)
    else m.mem.follow Cell.prev ((wrap32 (-index)).tmod t.length).toNat (some h)

/-- `get`. -/
def get (m : NodeHeap) (t : HeapList) (index : Int) : Option Str :=
  (nodeAt m t index).bind fun p => p.bind fun p => (m.mem p).map Cell.val

/-- `set`. -/
def set (m : NodeHeap) (t : HeapList) (index : Int) (content : Str) : Option NodeHeap :=
  (nodeAt m t index).bind fun p => p.bind fun p =>
    (m.mem.setVal p fun _ => content).map fun mem => ⟨mem, m.top⟩

/-- `del`: `head` moves on before the links change. -/
def del (m : NodeHeap) (t : HeapList) (index : Int) : Option (Bool × NodeHeap × HeapList) :=
  (nodeAt m t index).bind fun
    | none => some (false, m, t)
    | some trg => (m.mem trg).bind fun c =>
      if c.next = some trg then
        some (true, ⟨m.mem.free trg, m.top⟩, ⟨none, wrap32 (t.length - 1)⟩)
      else (m.mem.bypass trg).map fun mem =>
        (true, ⟨mem.free trg, m.top⟩,
          ⟨if t.head = some trg then c.next else t.head, wrap32 (t.length - 1)⟩)

/-- The loop of `print`: at most `fuel` rounds from the node `it`. -/
def printFrom (m : NodeHeap) (head : ℕ) : ℕ → Option ℕ → Str → Option Str
  | 0, it, str => if it = some head then some str else none
  | fuel + 1, it, str =>
    if it = some head then some str
    else it.bind fun p => (m.mem p).bind fun c =>
      printFrom m head fuel c.next (str ++ byte ',' :: c.val)

/-- `print`. -/
def print (m : NodeHeap) (t : HeapList) : Option Str :=
  match t.head with
  | none => some []
  | some h => (m.mem h).bind fun c => printFrom m h m.top c.next c.val

end HeapList

/-! ### Sequences of operations -/

/-- The calls on a list. -/
inductive ListOp
  | pushFront (content : Str)
  | pushBack (content : Str)
  | popFront
  | popBack
  | find (content : Str)
  | nodeAt (index : Int)
  | get (index : Int)
  | set (index : Int) (content : Str)
  | del (index : Int)
  | print

/-- What a call returns. -/
inductive ListResult
  | unit
  | text (s : Str)
  | int (i : Int)
  | bool (b : Bool)
  | node (p : Option ℕ)

/-- A call on a list in memory. -/
def HeapList.step (op : ListOp) (s : NodeHeap × HeapList) : Option (ListResult × NodeHeap × HeapList) :=
  match op with
  | .pushFront content => (pushFront s.1 s.2 content).map fun s => (.unit, s)
  | .pushBack content => (pushBack s.1 s.2 content).map fun s => (.unit, s)
  | .popFront => (popFront s.1 s.2).map fun r => (.text r.1, r.2)
  | .popBack => (popBack s.1 s.2).map fun r => (.text r.1, r.2)
  | .find content => (find s.1 s.2 content).map fun i => (.int i, s)
  | .nodeAt index => (nodeAt s.1 s.2 index).map fun p => (.node p, s)
  | .get index => (get s.1 s.2 index).map fun content => (.text content, s)
  | .set index content => (set s.1 s.2 index content).map fun m => (.unit, m, s.2)
  | .del index => (del s.1 s.2 index).map fun r => (.bool r.1, r.2)
  | .print => (print s.1 s.2).map fun str => (.text str, s)

/-- A sequence of calls on a list in memory. -/
def HeapList.run : List ListOp → NodeHeap × HeapList → Option (NodeHeap × HeapList)
  | [], s => some s
  | op :: ops, s => (step op s).bind fun r => run ops r.2

end MuseKv
