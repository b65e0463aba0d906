import MuseKv.Command.Shown

/-!
# `server_th`

The state of a server and `scan_and_send`, up to the message it sends: the reply to the client, or
the command forwarded to a peer, whose answer is then awaited.  Whether a connection that a message
asks for comes about is an argument (`connected`).  A `none` result is a fault: an access outside an
array or a vector, an exception, or a fault of `execute`.
-/

namespace MuseKv

open Kvstore Command

/-- An address that a server connects to: the text of the host, and the port. -/
abbrev Peer := Str × Int

/-- A `socket_st`: the authority that the session asked for, and whether its writes are sent on. -/
structure Session where
  auth : Int := 0
  autoSendYes : Bool := true

/-- The static members of `server_th`.  A socket is the peer it is connected to, if it is. -/
structure Server where
  w : World
  clientNum : Int := 0
  clusterVec : List (Option Peer) := []
  slotStart : List Int := []
  slotEnd : List Int := []
  clusterNum : ℕ := 0
  replicaNum : Int := 0
  repnum : ℕ := 0
  replicaCom : List Str := []
  replicaIp : List Str := []
  replicaPort : List Int := []
  replicaSock : List (Option Peer) := []

/-- What `scan_and_send` sends before it returns or waits: a reply to the client, or a command to
`cluster_vec[index]`. -/
inductive Send
  | client (msg : Str)
  | peer (index : ℕ) (com : Str)
  | nothing

/-- The outcome of `scan_and_send`: the state it leaves, what it sends, the texts it hands to the
threads `log_append` and `auto_send`, and the peer it sends `replicaaccept` to. -/
structure Scan where
  server : Server
  session : Session
  send : Send
  log : Option Str := none
  autoSend : Option Str := none
  accept : Option Peer := none

/-- `s.substr(pos)`: an exception behind the end. -/
def substr (s : Str) (pos : ℕ) : Option Str := if pos ≤ s.length then some (s.drop pos) else none

namespace Server

/-! ### The setup messages -/

/-- `cluster_connect`: the vector of sockets grows first, the bounds only after the connection. -/
def clusterConnect (s : Server) (com : Str) (connected : Bool) : Option Server :=
  let temp := words com
  temp[1]?.bind fun ip => temp[2]?.bind fun port =>
    if connected then
      temp[3]?.bind fun start => temp[4]?.map fun last =>
        { s with
          clusterVec := s.clusterVec ++ [some (ip, atoi port)]
          clusterNum := s.clusterNum + 1
          slotStart := s.slotStart ++ [atoi start]
          slotEnd := s.slotEnd ++ [atoi last]
          clientNum := s.clientNum - 1 }
    else
      some { s with
        clusterVec := s.clusterVec ++ [none]
        clusterNum := s.clusterNum + 1 }

/-- `hash_reset`. -/
def hashReset (s : Server) (com : Str) : Option Server :=
  let temp := words com
  temp[3]?.bind fun start => temp[4]?.map fun last =>
    { s with w := { s.w with h := s.w.h.setBoundary (atoi start) (atoi last) } }

/-- `set_replica_num`: `new` throws on a negative number of cells. -/
def setReplicaNum (s : Server) (com : Str) : Option Server :=
  (words com)[1]?.bind fun arg =>
    let n := atoi arg
    if n - 1 < 0 then none
    else some { s with
      replicaNum := n
      repnum := 0
      replicaCom := List.replicate (n - 1).toNat []
      replicaIp := List.replicate (n - 1).toNat []
      replicaPort := List.replicate (n - 1).toNat 0
      replicaSock := List.replicate (n - 1).toNat none }

/-- `replica_add`: the counter moves on only after the connection and the greeting, whose receiver is
the second component. -/
def replicaAdd (s : Server) (com : Str) (connected : Bool) : Option (Server × Option Peer) :=
  if (s.repnum : Int) < s.replicaNum - 1 then
    let temp := words com
    temp[1]?.bind fun ip => temp[2]?.map fun port =>
      ({ s with
          replicaCom := s.replicaCom.set s.repnum (trim com)
          replicaIp := s.replicaIp.set s.repnum ip
          replicaPort := s.replicaPort.set s.repnum (atoi port)
          replicaSock := s.replicaSock.set s.repnum (if connected then some (ip, atoi port) else none)
          repnum := if connected then s.repnum + 1 else s.repnum },
        if connected then some (ip, atoi port) else none)
  else some (s, none)

/-- `give_replica_info`: the text at the index that is asked for. -/
def giveReplicaInfo (s : Server) (com : Str) : Option Str :=
  (words com)[1]?.bind fun arg =>
    if 0 ≤ atoi arg then s.replicaCom[(atoi arg).toNat]? else none

/-! ### Routing -/

/-- The loop that searches the bounds for a hash, from an index on; `fuel` is what is left up to
`cluster_num`, the index it stops at when no bounds fit. -/
def searchFrom (s : Server) (keyVal : Int) : ℕ → ℕ → Option ℕ
  | 0, index => some index
  | fuel + 1, index =>
    s.slotStart[index]?.bind fun start => s.slotEnd[index]?.bind fun last =>
      if keyVal ≥ start && keyVal ≤ last then some index
      else searchFrom s keyVal fuel (index + 1)

/-- `for (index = 0; index < cluster_num; index++)`. -/
def search (s : Server) (keyVal : Int) : Option ℕ := s.searchFrom keyVal s.clusterNum 0

end Server

/-! ### `scan_and_send` -/

/-- The command in front of the suffix that a peer adds. -/
def commandPart (com : Str) : Str := com.takeWhile (· ≠ backspace)

/-- `com.substr(bsp + 1)`. -/
def suffixPart (com : Str) : Str := (com.dropWhile (· ≠ backspace)).tail

/-- The authority that a command runs with: that of its suffix, if it has one. -/
def authority (ss : Session) (com : Str) : Int :=
  if backspace ∈ com then atoi (suffixPart com) else ss.auth

/-- The command that is sent to a peer. -/
def forwarded (ss : Session) (com : Str) : Str :=
  com ++ lit " " ++ backspace :: lit " " ++ toStr ss.auth

/-- The branch that asks another node. -/
def ask (s : Server) (com result : Str) : Option Send :=
  (substr result 8).bind fun hash => (s.search (atoi hash)).bind fun index =>
    s.clusterVec[index]?.map fun _ => .peer index com

/-- `scan_and_send`, behind the call of `execute` that gave `result`. -/
def route (s : Server) (ss : Session) (com : Str) (connected : Bool) (result : Str) : Option Scan :=
  let cut := commandPart com
  let val := commandType com
  if result = magic (lit "client") then
    (substr cut 7).map fun a =>
      ⟨s, { ss with auth := atoi a }, .client (toStr s.replicaNum), none, none, none⟩
  else if result = magic (lit "give") then
    (s.giveReplicaInfo cut).map fun info => ⟨s, ss, .client info, none, none, none⟩
  else if result = magic (lit "clust") then
    (s.clusterConnect cut connected).map fun s => ⟨s, ss, .client result, none, none, none⟩
  else if result = magic (lit "myinfo") then
    (s.hashReset cut).map fun s => ⟨s, ss, .client result, none, none, none⟩
  else if result = magic (lit "replicanumber") then
    (s.setReplicaNum cut).map fun s => ⟨s, ss, .client result, none, none, none⟩
  else if result = magic (lit "replica") then
    (s.replicaAdd cut connected).map fun r => ⟨r.1, ss, .client result, none, none, r.2⟩
  else if result = magic (lit "replicaaccept") then
    some ⟨s, { ss with autoSendYes := false }, .nothing, none, none, none⟩
  else if contains result (lit "hashval") then
    (ask s (forwarded ss cut) result).map fun send => ⟨s, ss, send, none, none, none⟩
  else
    some
      { server := s
        session := ss
        send := .client result
        log := if val = .write then
            some (cut ++ backspace :: byte ' ' :: toStr (authority ss com)) else none
        autoSend := if ss.autoSendYes && val = .write && s.replicaNum ≠ 0 then some cut else none }

/-- `scan_and_send`. -/
def scanAndSend (s : Server) (ss : Session) (com : Str) (currTime : Int) (connected : Bool) :
    Option Scan :=
  (execute (commandPart com) (toU8 (authority ss com)) currTime s.w).bind fun r =>
    route { s with w := r.2 } ss com connected r.1

end MuseKv
