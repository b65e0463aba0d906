import MuseKv.Cluster.Distribute
import Mathlib.Logic.Function.Basic

/-!
# A group of replicas

The nodes of one row of the configuration, with the threads and messages between them.  A write
starts a detached thread `auto_send`, which starts a thread `auto_send_each` for each of its sockets;
that one sends the command on its connection, where the other side receives it in order and starts a
thread that handles it.  All these threads may run in any order (`Group.step`), and the answers of the
replicas are not looked at.
-/

namespace MuseKv

open Distribute

/-- A thread, or a message on a connection. -/
inductive Task (n : ℕ)
  /-- A thread `auto_send` of a node, before the round `i` of its loop. -/
  | autoSend (p : Fin n) (com : Str) (i : ℕ)
  /-- A thread `auto_send_each`, before its `send` on a socket. -/
  | autoSendEach (p : Fin n) (sock : Option Peer) (com : Str)
  /-- A message on the connection from a node to another one. -/
  | onWire (p q : Fin n) (com : Str)
  /-- A thread `scan_and_send` for a message that the second node has received from the first. -/
  | inHand (p q : Fin n) (com : Str)

/-- Whether two tasks are messages on the same connection. -/
def Task.sameWire {n : ℕ} : Task n → Task n → Bool
  | onWire p q _, onWire p' q' _ => p = p' && q = q'
  | _, _ => false

/-- The nodes of a group, the session of each for the connection from each other one, and what is
under way.  The messages on a connection stand in the order in which they were sent. -/
structure Group (n : ℕ) where
  servers : Fin n → Server
  links : Fin n → Fin n → Session
  tasks : List (Task n)

namespace Group

/-- The address of a node. -/
def addr (row : List Replica) (q : Fin row.length) : Peer := row[q].peer

/-- The node at an address. -/
def find (row : List Replica) (a : Peer) : Option (Fin row.length) :=
  (List.finRange row.length).find? fun q => addr row q = a

/-- The steps: a node handles the command of a client, or a thread or a message moves on. -/
inductive Step (n : ℕ)
  | client (p : Fin n) (ss : Session) (com : Str) (t : Int) (connected : Bool)
  | task (index : ℕ) (t : Int) (connected : Bool)

/-- The thread that a write starts. -/
def started {n : ℕ} (p : Fin n) (x : Scan) : List (Task n) :=
  x.autoSend.toList.map fun com => .autoSend p com 0

variable {row : List Replica}

/-- One step.  A thread or message that moves on is taken from the list, and what comes of it is put
at the end. -/
def step (row : List Replica) (g : Group row.length) : Step row.length → Option (Group row.length)
  | .client p ss com t connected =>
    (scanAndSend (g.servers p) ss com t connected).map fun x =>
      { g with
        servers := Function.update g.servers p x.server
        tasks := g.tasks ++ started p x }
  | .task index t connected =>
    g.tasks[index]?.bind fun
      | .autoSend p com i =>
        if (i : Int) < (g.servers p).replicaNum - 1 then
          (g.servers p).replicaSock[i]?.map fun sock =>
            { g with
              tasks := g.tasks.eraseIdx index ++ [.autoSendEach p sock com, .autoSend p com (i + 1)] }
        else some { g with tasks := g.tasks.eraseIdx index }
      | .autoSendEach p sock com =>
        -- no message comes of a socket that is not connected; there `SIGPIPE` ends the process, but a
        -- group that is built has connected sockets only
        some { g with
          tasks := g.tasks.eraseIdx index ++
            ((sock.bind (find row)).toList.map fun q => .onWire p q com) }
      | .onWire p q com =>
        if (g.tasks.take index).any (Task.sameWire (.onWire p q com)) then none
        else some { g with tasks := g.tasks.eraseIdx index ++ [.inHand p q com] }
      | .inHand p q com =>
        (scanAndSend (g.servers q) (g.links p q) com t connected).map fun x =>
          { servers := Function.update g.servers q x.server
            links := Function.update g.links p (Function.update (g.links p) q x.session)
            tasks := g.tasks.eraseIdx index ++ started q x }

/-- The runs whose steps all meet a condition, which may look at the state before the step. -/
inductive Run (row : List Replica) (ok : Group row.length → Step row.length → Prop) :
    Group row.length → Group row.length → Prop
  | refl (g : Group row.length) : Run row ok g g
  | tail {g g₁ g₂ : Group row.length} {e : Step row.length} (h : Run row ok g g₁) (hok : ok g₁ e)
      (hstep : step row g₁ e = some g₂) : Run row ok g g₂

/-! ### What is on its way -/

/-- The commands that a task will have handled at a node. -/
def due (g : Group row.length) (q : Fin row.length) : Task row.length → List Str
  | .autoSend p com i =>
    ((g.servers p).replicaSock.drop i).filterMap fun sock =>
      if sock.bind (find row) = some q then some com else none
  | .autoSendEach _ sock com => if sock.bind (find row) = some q then [com] else []
  | .onWire _ q' com => if q' = q then [com] else []
  | .inHand _ q' com => if q' = q then [com] else []

/-- The replicated commands in flight to a node. -/
def inFlight (g : Group row.length) (q : Fin row.length) : List Str := g.tasks.flatMap (g.due q)

/-- A node before it is told of a group: an empty table that owns every slot. -/
def IsNew (s : Server) : Prop :=
  (∃ port, s.w.h = Hash.new port) ∧ s.clusterVec = [] ∧ s.clusterNum = 0

/-- A group that is built: each node took the messages of the row, and each node it greeted with
`replicaaccept` has handled that on the new connection. -/
structure Built (row : List Replica) (g : Group row.length) : Prop where
  servers : ∀ p : Fin row.length, ∃ (s : Server) (ss ss' : Session) (reqs : List (Str × Int))
    (greeted : List Peer), IsNew s ∧ reqs.map Prod.fst = replicaComs row p ∧
      s.takeAll ss reqs = some (g.servers p, ss', greeted) ∧
      ∀ q, addr row q ∈ greeted → ∃ (s' : Server) (t : Int) (connected : Bool) (x : Scan),
        scanAndSend s' {} (lit "replicaaccept") t connected = some x ∧ g.links p q = x.session
  tasks : g.tasks = []

end Group

end MuseKv
