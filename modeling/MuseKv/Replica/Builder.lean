import MuseKv.Replica.Group

/-!
# `replica.cpp`

The lines that `main` reads and the messages it sends to the nodes, and the group that comes of them.
The first line gives the number of replicas, and each of the next ones is the address of one.  A `none`
result is a fault: an access outside an array, an exception, or a call of `exit`.
-/

namespace MuseKv

open Kvstore Distribute

namespace Replication

/-! ### Reading the configuration -/

/-- The loop over the lines of the replicas. -/
def readReplicas : ℕ → Str × List Str → Option (List Replica)
  | 0, _ => some []
  | n + 1, lr =>
    let trimmedLr := trim (getline lr).1
    (words trimmedLr)[0]?.bind fun word =>
      if word ≠ lit "replica" then none
      else (words trimmedLr)[1]?.bind fun ip => (words trimmedLr)[2]?.bind fun port =>
        (readReplicas n (getline lr)).map fun row => ⟨ip, atoi port, trimmedLr⟩ :: row

/-- The first line, `lr_s`, and the replicas: `new` throws on a negative number of cells. -/
def readConfig (lines : List Str) : Option (Str × List Replica) :=
  let trimmedLr := trim (getline ([], lines)).1
  (words trimmedLr)[0]?.bind fun word =>
    if word ≠ lit "replicanumber" then none
    else (words trimmedLr)[1]?.bind fun replicaNum =>
      if atoi replicaNum < 0 then none
      else (readReplicas (atoi replicaNum).toNat (getline ([], lines))).map fun row =>
        (trimmedLr, row)

/-! ### The messages -/

/-- The messages to the `i`-th replica. -/
def replicaComs (line : Str) (row : List Replica) (i : ℕ) : List Str :=
  (line :: (row.eraseIdx i).map Replica.com) ++ [lit "quit"]

/-- An address that a connection can be made to: `inet_addr` refuses a host with a backspace in it, and
nobody listens on port `0`. -/
structure Reachable (a : Peer) : Prop where
  ip : backspace ∉ a.1
  port : a.2 ≠ 0

/-- A node on its own: it owns every slot, and it is in no cluster. -/
structure Standalone (s : Server) : Prop where
  startNum : s.w.h.startNum = 0
  endNum : s.w.h.endNum = totalSlotNum - 1
  clusterVec : s.clusterVec = []
  clusterNum : s.clusterNum = 0

/-- The group when `main` returns: each node has taken its messages from a session that ends with `quit`,
and the greetings `replicaaccept` are on the new connections. -/
structure Joined (line : Str) (row : List Replica) (g : Group row.length) : Prop where
  servers : ∃ greeted : Fin row.length → List Peer,
    (∀ p : Fin row.length, ∃ (s : Server) (ss ss' : Session) (reqs : List (Str × Int)), Standalone s ∧
      reqs.map Prod.fst ++ [lit "quit"] = replicaComs line row p ∧
      s.takeAll ss reqs = some (g.servers p, ss', greeted p)) ∧
    g.tasks.Perm ((List.finRange row.length).flatMap fun p =>
      (greeted p).filterMap fun a => (Group.find row a).map fun q =>
        .onWire p q (lit "replicaaccept"))
  links : ∀ p q, g.links p q = {}

end Replication

end MuseKv
