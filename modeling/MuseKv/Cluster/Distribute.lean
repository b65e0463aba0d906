import MuseKv.Server.Basic

/-!
# `distribute.cpp`

The configuration that `main` reads, and the messages it sends to the nodes.  The configuration is a
table with a row of replicas for each cluster; the `i`-th connection of every row builds one cluster.
A `none` result is a fault: an access outside an array, a division by zero, or an exception.
-/

namespace MuseKv

open Kvstore

namespace Distribute

/-- `replica_ip[i][j]`, `replica_port[i][j]` and `replica_com[i][j]`. -/
structure Replica where
  ip : Str
  port : Int
  com : Str

/-- The address that others connect to. -/
def Replica.peer (r : Replica) : Peer := (r.ip, r.port)

/-- The rows of the arrays. -/
abbrev Config := List (List Replica)

/-! ### Reading the configuration -/

/-- `getline(in, lr)`, of the string and the texts between the line feeds that are left: behind the last
one, which is empty if the file ends in a line feed, the string stays as it is. -/
def getline : Str × List Str → Str × List Str
  | (lr, []) => (lr, [])
  | (_, line :: lines) => (line, lines)

/-- The loop over the replicas of a row. -/
def readReplicas : ℕ → Str × List Str → Option (List Replica × (Str × List Str))
  | 0, lr => some ([], lr)
  | m + 1, lr =>
    let lr := getline lr
    (words lr.1)[1]?.bind fun ip => (words lr.1)[2]?.bind fun port =>
      (readReplicas m lr).map fun r => (⟨ip, atoi port, lr.1⟩ :: r.1, r.2)

/-- The loop over the rows: `new` throws on a negative number of cells. -/
def readRows : ℕ → Str × List Str → Option Config
  | 0, _ => some []
  | n + 1, lr =>
    let lr := getline lr
    (words lr.1)[1]?.bind fun replicaNum =>
      if atoi replicaNum < 0 then none
      else (readReplicas (atoi replicaNum).toNat lr).bind fun r =>
        (readRows n r.2).map fun rows => r.1 :: rows

/-- The configuration of a text: `TOTAL_SLOT_NUM / cluster_num` follows its first line. -/
def readConfig (lines : List Str) : Option Config :=
  let lr := getline ([], lines)
  (words lr.1)[1]?.bind fun clusterNum =>
    if atoi clusterNum ≤ 0 then none
    else readRows (atoi clusterNum).toNat lr

/-! ### The messages -/

/-- The messages that build the replicas of a row, to the `j`-th of them. -/
def replicaComs (row : List Replica) (j : ℕ) : List Str :=
  (lit "replicanumber " ++ toStr row.length) :: (row.eraseIdx j).map Replica.com

/-- `each_slot`. -/
def eachSlot (cfg : Config) : ℕ := totalSlotNum / cfg.length

def slotStart (cfg : Config) (k : ℕ) : Int := eachSlot cfg * k

def slotEnd (cfg : Config) (k : ℕ) : Int :=
  if k + 1 ≠ cfg.length then eachSlot cfg * (k + 1) - 1 else totalSlotNum - 1

/-- The message about cluster `k` on the `i`-th connection to cluster `j`. -/
def clustCom (cfg : Config) (i j k : ℕ) : Option Str :=
  cfg[j]?.bind fun row =>
    if row.length = 0 then none
    else cfg[k]?.bind fun row' => row'[i % row.length]?.bind fun r =>
      (substr r.com 8).map fun retrieve =>
        (if k = j then lit "myinfo " else lit "clust ") ++ retrieve ++ lit " " ++
          toStr (slotStart cfg k) ++ lit " " ++ toStr (slotEnd cfg k)

/-- The node at the other end of the `i`-th connection to cluster `j`. -/
def target (cfg : Config) (i j : ℕ) : Option Replica := cfg[j]?.bind fun row => row[i]?

/-- The messages on the `i`-th connection to cluster `j`. -/
def clustComs (cfg : Config) (i j : ℕ) : Option (List Str) :=
  (target cfg i j).bind fun _ => (List.range cfg.length).mapM (clustCom cfg i j)

/-! ### `main` -/

/-- A connection: the indices it is made for, the node at its other end, and what is sent on it. -/
structure Connection where
  cluster : ℕ
  replica : ℕ
  node : Replica
  coms : List Str

/-- `max_rep`. -/
def maxRep (cfg : Config) : ℕ :=
  cfg.foldl (fun m row => if row.length > m then row.length else m) 1

/-- The loops that build the replicas: a connection to every node of every row. -/
def replicaBuilding (cfg : Config) : List Connection :=
  cfg.zipIdx.flatMap fun x => x.1.zipIdx.map fun r =>
    ⟨x.2, r.2, r.1, replicaComs x.1 r.2 ++ [lit "quit"]⟩

/-- The `i`-th connection to cluster `j`. -/
def clusterConnection (cfg : Config) (i j : ℕ) : Option Connection :=
  (target cfg i j).bind fun r =>
    (clustComs cfg i j).map fun coms => ⟨j, i, r, coms ++ [lit "quit"]⟩

/-- The loops that build the clusters: both counters run over the whole rectangle. -/
def clusterBuilding (cfg : Config) : Option (List Connection) :=
  ((List.range (maxRep cfg)).mapM fun i =>
    (List.range cfg.length).mapM fun j => clusterConnection cfg i j).map List.flatten

/-- The connections that are made for a text, all of them coming about. -/
def build (lines : List Str) : Option (List Connection) :=
  (readConfig lines).bind fun cfg =>
    (clusterBuilding cfg).map fun conns => replicaBuilding cfg ++ conns

/-- The messages that the node `i` of cluster `j` gets. -/
def sent (conns : List Connection) (i j : ℕ) : List Str :=
  conns.flatMap fun c => if c.replica = i ∧ c.cluster = j then c.coms else []

end Distribute

/-- A node takes the messages of a connection one after the other, at the given times, and connects
to the nodes it is told of.  The last component lists the nodes it greeted with `replicaaccept`. -/
def Server.takeAll (s : Server) (ss : Session) :
    List (Str × Int) → Option (Server × Session × List Peer)
  | [] => some (s, ss, [])
  | (com, t) :: rest =>
    (scanAndSend s ss com t true).bind fun x =>
      (takeAll x.server x.session rest).map fun r => (r.1, r.2.1, x.accept.toList ++ r.2.2)

end MuseKv
