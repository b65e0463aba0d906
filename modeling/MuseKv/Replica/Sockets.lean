import MuseKv.Server.Basic
import MuseKv.Cluster.FailOver

/-!
# The sockets of the replicas

`replica_add` once more, with the outcome of each of its calls, and runs of messages to one server.
A socket is the replica it is connected to, if a connection came about.
-/

namespace MuseKv

open Kvstore Command

/-- How far `replica_add` comes: `socket`, `connect` or `send` fails, or none of them does. -/
inductive AddOutcome
  | socketFails
  | connectFails
  | sendFails
  | added
  deriving DecidableEq, Repr

/-- Whether the connection comes about. -/
def AddOutcome.connects : AddOutcome → Bool
  | socketFails => false
  | connectFails => false
  | sendFails => true
  | added => true

/-- A message to a server, and what becomes of its `replica_add`, if it leads to one. -/
structure Arrival where
  ss : Session
  com : Str
  currTime : Int
  outcome : AddOutcome

/-- What a message does to the setup of the replicas. -/
inductive ReplicaEvent
  | number (num : Int)
  | add (outcome : AddOutcome)
  | other

namespace Server

/-- `replica_add`. -/
def replicaAddWith (s : Server) (com : Str) (outcome : AddOutcome) : Option Server :=
  if (s.repnum : Int) < s.replicaNum - 1 then
    let temp := words com
    temp[1]?.bind fun ip => temp[2]?.map fun port =>
      { s with
        replicaCom := s.replicaCom.set s.repnum (trim com)
        replicaIp := s.replicaIp.set s.repnum ip
        replicaPort := s.replicaPort.set s.repnum (atoi port)
        replicaSock :=
          s.replicaSock.set s.repnum (if outcome.connects then some (ip, atoi port) else none)
        repnum := if outcome = .added then s.repnum + 1 else s.repnum }
  else some s

/-- What a message with this reply of `execute` does to the setup of the replicas. -/
def replicaEvent (m : Arrival) (result : Str) : ReplicaEvent :=
  if result = magic (lit "replica") then .add m.outcome
  else if result = magic (lit "replicanumber") then
    .number (atoi ((words (commandPart m.com)).getD 1 []))
  else .other

/-- A server handles a message: `scan_and_send`, with `replica_add` by its calls. -/
def receive (s : Server) (m : Arrival) : Option (Server × ReplicaEvent) :=
  (execute (commandPart m.com) (toU8 (authority m.ss m.com)) m.currTime s.w).bind fun r =>
    (if r.1 = magic (lit "replica") then
      replicaAddWith { s with w := r.2 } (commandPart m.com) m.outcome
    else (route { s with w := r.2 } m.ss m.com true r.1).map Scan.server).map fun s =>
      (s, replicaEvent m r.1)

/-- A run of messages, and what each of them did to the setup. -/
def receiveAll : List Arrival → Server → Option (Server × List ReplicaEvent)
  | [], s => some (s, [])
  | m :: ms, s => (s.receive m).bind fun x => (receiveAll ms x.1).map fun y => (y.1, x.2 :: y.2)

/-- The replicas that a server can use: the loops of `auto_send` and `try_cluster` run over all sockets
below `replica_num - 1`, and `give_replica_info` sends any of the texts below. -/
structure Ready (s : Server) : Prop where
  replicaSock : ∀ i : ℕ, (i : Int) < s.replicaNum - 1 → ∃ p, s.replicaSock[i]? = some (some p)
  replicaCom : ∀ i : ℕ, (i : Int) < s.replicaNum - 1 → ∃ com, s.replicaCom[i]? = some com ∧ com ≠ []

end Server

/-! ### The setup since the last `replicanumber` -/

/-- The number of sockets that were asked for, and the outcomes of `replica_add` since. -/
structure ReplicaSetup where
  cells : Int := -1
  outcomes : List AddOutcome := []

namespace ReplicaSetup

/-- The setup after a message. -/
def next (u : ReplicaSetup) : ReplicaEvent → ReplicaSetup
  | .number num => { cells := num - 1 }
  | .add outcome => { u with outcomes := u.outcomes ++ [outcome] }
  | .other => u

/-- The setup after a run. -/
def after (events : List ReplicaEvent) : ReplicaSetup := events.foldl next {}

/-- The replicas that were added. -/
def added (u : ReplicaSetup) : ℕ := u.outcomes.count .added

/-- **Enough replicas**: as many as there are sockets were added, or all but one, and the last call
connected and failed to greet. -/
def Complete (u : ReplicaSetup) : Prop :=
  u.cells ≤ u.added ∨ (u.cells = u.added + 1 ∧ u.outcomes.getLast? = some .sendFails)

instance (u : ReplicaSetup) : Decidable u.Complete := inferInstanceAs (Decidable (_ ∨ _))

end ReplicaSetup

end MuseKv
