import MuseKv.Cluster.FailOver
import MuseKv.Replica.Group

/-!
# The fail-over of a cluster that is built

The nodes are those of a whole configuration: node `i` of cluster `j` has a socket for node `i` of every
other cluster, and one for every other node of its own row.  A command is followed on its way from node
to node (`Travels`), as long as it arrives in one piece.  The fail-over is for sends that return `-1`
(`Reported`); a text that is lost with the first send to a closed connection is not sent again, and the
next send there ends the process.
-/

namespace MuseKv

open Kvstore Command

namespace Distribute

variable {cfg : Config} {i j : ℕ}

/-- The setup of a server: what the messages of the builder write. -/
structure SameSetup (s s' : Server) : Prop where
  clusterVec : s.clusterVec = s'.clusterVec
  slotStart : s.slotStart = s'.slotStart
  slotEnd : s.slotEnd = s'.slotEnd
  clusterNum : s.clusterNum = s'.clusterNum
  startNum : s.w.h.startNum = s'.w.h.startNum
  endNum : s.w.h.endNum = s'.w.h.endNum
  replicaNum : s.replicaNum = s'.replicaNum
  replicaSock : s.replicaSock = s'.replicaSock

/-- The node `i` of cluster `j` at some time after the builder: it was new, took the messages of its row
and then those of the `i`-th connection to its cluster, and its setup is still what they left. -/
def Placed (cfg : Config) (i j : ℕ) (s : Server) : Prop :=
  ∃ (row : List Replica) (s₀ s₁ s₂ : Server) (ss₁ ss₂ : Session) (reqs₁ reqs₂ : List (Str × Int))
    (msgs : List Str) (r₁ r₂ : Session × List Peer),
    cfg[j]? = some row ∧ i < row.length ∧
      (s₀.clusterVec = [] ∧ s₀.slotStart = [] ∧ s₀.slotEnd = [] ∧ s₀.clusterNum = 0) ∧
      reqs₁.map Prod.fst = replicaComs row i ∧ s₀.takeAll ss₁ reqs₁ = some (s₁, r₁) ∧
      clustComs cfg i j = some msgs ∧ reqs₂.map Prod.fst = msgs ∧
      s₁.takeAll ss₂ reqs₂ = some (s₂, r₂) ∧ SameSetup s s₂

/-- No two nodes have the same address. -/
def Distinct (cfg : Config) : Prop :=
  ∀ i j i' j' r r', target cfg i j = some r → target cfg i' j' = some r' → r.peer = r'.peer →
    i = i' ∧ j = j'

/-- Every send arrives or returns `-1`: the connections to the nodes that are down are known to be
broken, and whoever started the processes has them ignore `SIGPIPE`. -/
def Reported (sends : Option Peer → Sending) : Prop := ∀ a, sends a = .arrives ∨ sends a = .fails

/-- The nodes of a row that a send reaches, in their order. -/
def live (row : List Replica) (sends : Option Peer → Sending) : List (Fin row.length) :=
  (List.finRange row.length).filter fun l => sends (some (Group.addr row l)) = .arrives

/-- Whether a send reaches the node of cluster `c` that node `i` of another cluster asks. -/
def Asks (cfg : Config) (sends : Option Peer → Sending) (c i : ℕ) : Prop :=
  ∃ r, target cfg i c = some r ∧ sends (some r.peer) = .arrives

end Distribute

open Distribute

/-- The way of a command that a client sends to node `i₀` of cluster `j₀`: the number of times it was
sent on, the node where it stands, and the session and the text with which it stands there.  A node
that owns the key sends it no further.  `nodes n i j` is node `i` of cluster `j` at the time when the
command was sent on `n` times. -/
inductive Travels (cfg : Config) (nodes : ℕ → ℕ → ℕ → Server)
    (sends : Option Peer → Sending) (ss₀ : Session) (com : Str) (i₀ j₀ : ℕ) : ℕ → ℕ → ℕ → Session → Str → Prop
  | client : Travels cfg nodes sends ss₀ com i₀ j₀ 0 i₀ j₀ ss₀ com
  | sent {n i j i' j' : ℕ} {ss ss' : Session} {text text' : Str}
      (h : Travels cfg nodes sends ss₀ com i₀ j₀ n i j ss text) {t : Int} {connected : Bool} {y : Scan}
      {index : ℕ} {r : Replica} (hkey : refused (nodes n i j).w.h (words (commandPart text)) = true)
      (hscan : scanAndSend (nodes n i j) ss text t connected = some y)
      (hsend : y.send = .peer index text')
      (hpeer : y.server.receiver sends index = some (some r.peer)) (hnode : target cfg i' j' = some r)
      (hwhole : text'.length < 1024) (hlink : ss'.auth = 0) :
      Travels cfg nodes sends ss₀ com i₀ j₀ (n + 1) i' j' ss' text'

end MuseKv
