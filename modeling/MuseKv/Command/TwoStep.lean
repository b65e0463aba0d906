import MuseKv.Command.Replay

/-!
# Commands on threads

The server runs every command on a thread of its own.  A command that writes looks its node up and
makes its tests without a lock, and then changes the table or the value under the mutex of the node.
`Threads.step` takes these two as atomic steps, of any threads in any order, on a memory with addresses:
between them a node can be freed, and a value replaced.  A `none` result is a fault.
-/

namespace MuseKv

open General Kvstore Command

/-! ### The memory -/

/-- A `hashNode` with its `kv`.  `dataAddr` is that of its value, unless it is the address `-1`. -/
structure HashNode where
  k : Str
  dataAddr : Option ℕ
  ttl : Int := -1
  timer : Int := 0
  finished : Bool := false
  authr : UInt8
  authw : UInt8

/-- The entry of a node, with the value at its address. -/
def HashNode.kv (n : HashNode) (v : Value) : Kv :=
  { v := v, ttl := n.ttl, timer := n.timer, finished := n.finished, authr := n.authr,
    authw := n.authw }

/-- `set_v`, `set_authr` and `set_authw` on a node. -/
def HashNode.overwrite (n : HashNode) (dataAddr : ℕ) (authr authw : UInt8) : HashNode :=
  let kv := (n.kv .unset).overwrite .unset authr authw
  { n with dataAddr := some dataAddr, authr := kv.authr, authw := kv.authw }

/-- A table in memory: its chains of nodes, head first, and what is at each address.  Addresses are
handed out in order. -/
structure Memory where
  h : Fin totalSlotNum → List ℕ
  node : ℕ → Option HashNode
  data : ℕ → Option Value
  top : ℕ
  startNum : Int
  endNum : Int

namespace Memory

/-- An empty table that owns every slot. -/
def new : Memory where
  h _ := []
  node _ := none
  data _ := none
  top := 0
  startNum := 0
  endNum := totalSlotNum - 1

/-- The value at an address. -/
def value (m : Memory) : Option ℕ → Option Value
  | none => some .unset
  | some a => m.data a

/-- The key and the entry of a node. -/
def entry (m : Memory) (p : ℕ) : Option (Str × Kv) :=
  (m.node p).bind fun n => (m.value n.dataAddr).map fun v => (n.k, n.kv v)

/-- `find_node`. -/
def findNode (m : Memory) (key : Str) : Option ℕ :=
  (m.h (Hash.slot key)).find? fun p => (m.node p).any fun n => n.k = key

def notHere (m : Memory) (k : Str) : Bool :=
  Hash.hashFunc k < m.startNum || Hash.hashFunc k > m.endNum

end Memory

/-! ### The changes under a mutex -/

/-- A change of a value. -/
inductive Edit
  | lpush (args : List Str)
  | rpush (args : List Str)
  | lpop
  | rpop
  | spush (args : List Str)
  | spop
  | hpush (field value : Str)

/-- The reply, and the value it leaves. -/
def Edit.run : Edit → Value → Option (Str × Value)
  | lpush args, .list l => some (confirmMsg, .list (args.foldl Linkedlist.pushFront l))
  | rpush args, .list l => some (confirmMsg, .list (args.foldl Linkedlist.pushBack l))
  | lpop, .list l => some ((Linkedlist.popFront l).1, .list (Linkedlist.popFront l).2)
  | rpop, .list l => some ((Linkedlist.popBack l).1, .list (Linkedlist.popBack l).2)
  | spush args, .set s => some (confirmMsg, .set (args.foldl Hashset.push s))
  | spop, .set s => some (s.pop.1, .set s.pop.2)
  | hpush field value, .hashmap m => some (confirmMsg, .hashmap (m.setFv field value))
  | _, _ => none

/-- Whether the command that makes a change makes it: a pop is not made on what is empty. -/
def Edit.applies : Edit → Value → Bool
  | lpop, .list l => l ≠ []
  | rpop, .list l => l ≠ []
  | spop, .set s => !s.isEmpty
  | _, _ => true

/-- The commands that change a value. -/
def edits : List (Str × (List Str → Edit)) :=
  [(lit "lpush", .lpush),
    (lit "rpush", .rpush),
    (lit "lpop", fun _ => .lpop),
    (lit "rpop", fun _ => .rpop),
    (lit "spush", .spush),
    (lit "spop", fun _ => .spop),
    (lit "hpush", fun args => .hpush (args.getD 0 []) (args.getD 1 []))]

/-- The change that a command makes to the value of its key. -/
def editOf : List Str → Option Edit
  | word :: _ :: args => (edits.lookup word).map fun edit => edit args
  | _ => none

/-- What a thread does under the mutex of its node: `set` with the node that it found, if it found one,
`del`, or a change of the value at the address that it took from the node. -/
inductive Mutation
  | set (p : Option ℕ) (k : Str) (value : Value) (authr authw : UInt8) (msg : Str)
  | del (p : ℕ) (k : Str) (msg : Str)
  | edit (p dataAddr : ℕ) (e : Edit)

namespace Memory

/-- A new node at the front of its chain. -/
def push (m : Memory) (k : Str) (value : Value) (authr authw : UInt8) : Memory where
  h := Function.update m.h (Hash.slot k) (m.top :: m.h (Hash.slot k))
  node := Function.update m.node m.top
    (some { k := k, dataAddr := some m.top, authr := authr, authw := authw })
  data := Function.update m.data m.top (some value)
  top := m.top + 1
  startNum := m.startNum
  endNum := m.endNum

/-- A new value for a node.  The old one stays where it is. -/
def overwrite (m : Memory) (p : ℕ) (n : HashNode) (value : Value) (authr authw : UInt8) : Memory :=
  { m with
    node := Function.update m.node p (some (n.overwrite m.top authr authw))
    data := Function.update m.data m.top (some value)
    top := m.top + 1 }

/-- A node is unlinked, and deleted with its value. -/
def free (m : Memory) (k : Str) (p dataAddr : ℕ) : Memory :=
  { m with
    h := Function.update m.h (Hash.slot k) ((m.h (Hash.slot k)).erase p)
    node := Function.update m.node p none
    data := Function.update m.data dataAddr none }

/-- The value at an address changes. -/
def write (m : Memory) (dataAddr : ℕ) (value : Value) : Memory :=
  { m with data := Function.update m.data dataAddr (some value) }

section

variable (m : Memory) (k : Str) (v : Value) (authr authw : UInt8) (p q a b : ℕ) (n : HashNode)

theorem push_node : (m.push k v authr authw).node q = if q = m.top then
    some { k := k, dataAddr := some m.top, authr := authr, authw := authw } else m.node q :=
  Function.update_apply _ _ _ _

theorem push_data : (m.push k v authr authw).data b = if b = m.top then some v else m.data b :=
  Function.update_apply _ _ _ _

theorem overwrite_node : (m.overwrite p n v authr authw).node q = if q = p then
    some (n.overwrite m.top authr authw) else m.node q :=
  Function.update_apply _ _ _ _

theorem overwrite_data : (m.overwrite p n v authr authw).data b = if b = m.top then some v
    else m.data b :=
  Function.update_apply _ _ _ _

theorem free_node : (m.free k p a).node q = if q = p then none else m.node q :=
  Function.update_apply _ _ _ _

theorem free_data : (m.free k p a).data b = if b = a then none else m.data b :=
  Function.update_apply _ _ _ _

theorem write_data : (m.write a v).data b = if b = a then some v else m.data b :=
  Function.update_apply _ _ _ _

end

/-- The second step: the reply, and the memory it leaves. -/
def mutate (m : Memory) : Mutation → Option (Str × Memory)
  | .set none k value authr authw msg => some (msg, m.push k value authr authw)
  | .set (some p) _ value authr authw msg =>
    (m.node p).map fun n => (msg, m.overwrite p n value authr authw)
  | .del p k msg =>
    (m.node p).bind fun n => n.dataAddr.bind fun a => (m.data a).map fun _ => (msg, m.free k p a)
  | .edit p a e =>
    (m.node p).bind fun _ => (m.data a).bind fun v => (e.run v).map fun r => (r.1, m.write a r.2)

end Memory

/-! ### The threads -/

/-- How far a thread is. -/
inductive Threads.Phase
  | ready
  | waiting (u : Mutation)
  | done (msg : Str)

/-- What is left of a handler's result for the second step.  What the handler would write through the
node pointer is done then, to the value that is there. -/
def secondStep (ws : List Str) (found : Option (ℕ × Option ℕ)) :
    Str × KeyAction → Option Threads.Phase
  | (msg, .keep) => some (.done msg)
  | (msg, .set v authr authw) =>
    some (.waiting (.set (found.map Prod.fst) (keyOf ws) v authr authw msg))
  | (msg, .del) => found.map fun r => .waiting (.del r.1 (keyOf ws) msg)
  | (_, .write _) => found.bind fun r => r.2.bind fun a => (editOf ws).map fun e =>
      .waiting (.edit r.1 a e)

/-- The first step: the key is looked up, and the tests of its command are made. -/
def Memory.look (m : Memory) (r : Request) : Option Threads.Phase :=
  let ws := words r.com
  if ws.tail.head?.any m.notHere then
    some (.done (lit "hashval " ++ toStr (Hash.hashFunc (keyOf ws))))
  else match m.findNode (keyOf ws) with
    | none => (keyResult ws r.auth r.currTime none).bind (secondStep ws none)
    | some p => (m.node p).bind fun n => (m.value n.dataAddr).bind fun v =>
      (keyResult ws r.auth r.currTime (some (n.kv v))).bind (secondStep ws (some (p, n.dataAddr)))

/-- What a second step needs of the memory that it finds.  A new node needs a key that has none.  The
other steps need the node that was found.  To replace or to delete an entry its write level must be
within the authority, unless it is deleted because it is expired.  A pop needs an element. -/
def Memory.Suits (m : Memory) (r : Request) : Mutation → Prop
  | .set none k _ _ _ _ => m.findNode k = none
  | .set (some p) _ _ _ _ _ => ∃ n, m.node p = some n ∧ n.authw ≤ r.auth
  | .del p _ _ => ∃ n, m.node p = some n ∧
      ((words r.com).head? = some (lit "del") → n.authw ≤ r.auth)
  | .edit p a e => (m.node p).isSome = true ∧ ∀ v, m.data a = some v → e.applies v = true

/-- The commands that are taken apart. -/
def twoStepWords : List Str :=
  [lit "make", lit "del", lit "lmake", lit "lpush", lit "rpush", lit "lpop", lit "rpop", lit "spush",
    lit "spop", lit "hpush"]

/-- A memory, and how far the threads of `n` commands are. -/
structure Threads (n : ℕ) where
  mem : Memory
  phase : Fin n → Threads.Phase

namespace Threads

variable {n : ℕ} (cs : Fin n → Request)

/-- The next step of a thread. -/
def step (s : Threads n) (i : Fin n) : Option (Threads n) :=
  match s.phase i with
  | .ready => (s.mem.look (cs i)).map fun phase =>
    { s with phase := Function.update s.phase i phase }
  | .waiting u => (s.mem.mutate u).map fun r =>
    { mem := r.2, phase := Function.update s.phase i (.done r.1) }
  | .done _ => none

/-- The runs whose steps all meet a condition, which may look at the state before the step. -/
inductive Run (ok : Threads n → Fin n → Prop) : Threads n → Threads n → Prop
  | refl (s : Threads n) : Run ok s s
  | tail {s s₁ s₂ : Threads n} {i : Fin n} (h : Run ok s s₁) (hok : ok s₁ i)
      (hstep : s₁.step cs i = some s₂) : Run ok s s₂

/-- No thread has started. -/
def start (n : ℕ) (m : Memory) : Threads n := ⟨m, fun _ => .ready⟩

/-- The second step of a thread finds what it needs. -/
def Undisturbed (s : Threads n) (i : Fin n) : Prop :=
  ∀ u, s.phase i = .waiting u → s.mem.Suits (cs i) u

/-- The replies of the threads that are done. -/
def replies (s : Threads n) (i : Fin n) : Option Str :=
  match s.phase i with
  | .done msg => some msg
  | _ => none

end Threads

end MuseKv
