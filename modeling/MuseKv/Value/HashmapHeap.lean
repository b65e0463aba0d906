import MuseKv.HashFunc
import MuseKv.Value.Hashmap
import MuseKv.General.Chain

/-!
# `hashmap::Hashmap` in memory

The array `h_map` of chain heads, the nodes with `next_ptr` and `prev_ptr` on a heap, and the `int`
counter `size`.  Addresses are handed out in order, so `top`, the next one, bounds the number of nodes and
serves as the fuel of the loops.  A `none` result is a fault.
-/

namespace MuseKv

open General Kvstore

/-- A `Hashmap` and the heap its nodes are on. -/
structure HeapHashmap where
  mem : Heap ℕ (Str × Str)
  top : ℕ
  hMap : Fin 97 → Option ℕ
  size : Int

namespace HeapHashmap

/-- `Hashmap()`. -/
def new : HeapHashmap where
  mem _ := none
  top := 0
  hMap _ := none
  size := 0

/-- `hash_func`, which no other function of the class calls. -/
def hashFunc (field : Str) : Int := tableIndex (polyHash 64 field) 97

/-- The loop of `find_hashmapNode` over the chains; `index` is written only when a node is found. -/
def findFrom (t : HeapHashmap) (field : Str) (index : Fin 97) :
    List (Fin 97) → Option (Option ℕ × Fin 97)
  | [] => some (none, index)
  | i :: is => (t.mem.search (fun n => n.1 = field) t.top (t.hMap i)).bind fun
    | some check => some (some check, i)
    | none => findFrom t field index is

/-- `find_hashmapNode(field, &index)`: the node, if there is one, and what `index` is afterwards. -/
def findHashmapNode (t : HeapHashmap) (field : Str) (index : Fin 97) : Option (Option ℕ × Fin 97) :=
  t.findFrom field index (List.finRange 97)

def isEmpty (t : HeapHashmap) : Bool := t.size == 0

/-! ### Listings -/

/-- `while(node != NULL)`: every further node is put behind a comma. -/
def listRest (t : HeapHashmap) (text : Str × Str → Str) : ℕ → Option ℕ → Str → Option Str
  | _, none, result => some result
  | 0, some _, _ => none
  | fuel + 1, some node, result => (t.mem node).bind fun c =>
      listRest t text fuel c.next (result ++ (byte ',' :: text c.val))

/-- The body of the loop over the chains: the first node is put down without a comma. -/
def listChain (t : HeapHashmap) (text : Str × Str → Str) (node : Option ℕ) (result : Str) :
    Option Str :=
  match node with
  | none => some result
  | some node => (t.mem node).bind fun c => t.listRest text t.top c.next (result ++ text c.val)

/-- The loop over the chains. -/
def listFrom (t : HeapHashmap) (text : Str × Str → Str) : List (Fin 97) → Str → Option Str
  | [], result => some result
  | i :: is, result => (t.listChain text (t.hMap i) result).bind (listFrom t text is)

def listing (t : HeapHashmap) (text : Str × Str → Str) : Option Str :=
  t.listFrom text (List.finRange 97) []

def fields (t : HeapHashmap) : Option Str := t.listing fun n => n.1

def values (t : HeapHashmap) : Option Str := t.listing fun n => n.2

def fvs (t : HeapHashmap) : Option Str := t.listing fun n => n.1 ++ (byte ',' :: n.2)

/-- `get_v`. -/
def getV (t : HeapHashmap) (field : Str) : Option Str :=
  (t.findHashmapNode field Hashmap.firstIndex).bind fun
    | (none, _) => some (lit "NULL")
    | (some mapNode, _) => (t.mem mapNode).map fun c => c.val.2

/-! ### Mutators -/

/-- `set_fv`. -/
def setFv (t : HeapHashmap) (field value : Str) : Option HeapHashmap :=
  (t.findHashmapNode field Hashmap.firstIndex).bind fun
    | (none, index) => (t.mem.pushFront (t.hMap index) t.top (field, value)).map fun r =>
        { mem := r.1
          top := t.top + 1
          hMap := Function.update t.hMap index r.2
          size := wrap32 (t.size + 1) }
    | (some node, _) => (t.mem.setVal node fun n => (n.1, value)).map fun mem =>
        { t with mem := mem }

/-- `del_fv`: following the node of an absent field is a fault. -/
def delFv (t : HeapHashmap) (field : Str) : Option HeapHashmap :=
  (t.findHashmapNode field Hashmap.firstIndex).bind fun
    | (none, _) => none
    | (some node, index) => (t.mem.unlink (t.hMap index) node).map fun r =>
        { t with
          mem := r.1
          hMap := Function.update t.hMap index r.2
          size := wrap32 (t.size - 1) }

end HeapHashmap

/-! ### Sequences of operations -/

/-- The calls that change a map. -/
inductive MapOp
  | setFv (field value : Str)
  | delFv (field : Str)

namespace MapOp

/-- What a call does to the finite map. -/
def apply (M : Str → Option Str) : MapOp → Str → Option Str
  | setFv field value => Function.update M field (some value)
  | delFv field => Function.update M field none

/-- The finite map that a sequence of calls denotes. -/
def denote (ops : List MapOp) (M : Str → Option Str) : Str → Option Str := ops.foldl apply M

/-- `del_fv` is called on a present field only, as `herase` checks. -/
def Admissible (M : Str → Option Str) : MapOp → Prop
  | setFv _ _ => True
  | delFv field => M field ≠ none

/-- A sequence of admissible calls. -/
def AllAdmissible : (Str → Option Str) → List MapOp → Prop
  | _, [] => True
  | M, op :: ops => op.Admissible M ∧ AllAdmissible (op.apply M) ops

/-- A call on a map in memory. -/
def exec (t : HeapHashmap) : MapOp → Option HeapHashmap
  | setFv field value => t.setFv field value
  | delFv field => t.delFv field

/-- A sequence of calls on a map in memory. -/
def run : List MapOp → HeapHashmap → Option HeapHashmap
  | [], t => some t
  | op :: ops, t => (op.exec t).bind (run ops)

end MapOp

end MuseKv
