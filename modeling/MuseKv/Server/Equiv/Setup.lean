import MuseKv.Server.Equiv.Forwarded

/-!
# The setup messages

What `scan_and_send` makes of each message that the build programs send, one lemma for each.
-/

namespace MuseKv

open Kvstore Command

variable {s : Server} {ss : Session} {com : Str} {t : Int}

/-- A control word is handed to its branch. -/
theorem scanAndSend_control {word : Str} {args : List Str} {connected : Bool}
    (hws : words (commandPart com) = word :: args) (hword : word ∈ controlWords) :
    scanAndSend s ss com t connected = route s ss com connected (magic word) := by
  rw [scanAndSend, execute, hws, executeWords, if_pos hword]
  rfl

/-- `clust ip port start end`, with a connection that comes about. -/
theorem scanAndSend_clust {ip port start last : Str} (hcom : backspace ∉ com)
    (hws : words com = [lit "clust", ip, port, start, last]) :
    scanAndSend s ss com t true = some
      { server := { s with
          clusterVec := s.clusterVec ++ [some (ip, atoi port)]
          clusterNum := s.clusterNum + 1
          slotStart := s.slotStart ++ [atoi start]
          slotEnd := s.slotEnd ++ [atoi last]
          clientNum := s.clientNum - 1 }
        session := ss
        send := .client (magic (lit "clust")) } := by
  rw [← commandPart_of_not_mem hcom] at hws
  rw [scanAndSend_control hws (by decide), route_clust, Server.clusterConnect, hws]
  rfl

/-- `myinfo ip port start end`. -/
theorem scanAndSend_myinfo {ip port start last : Str} {connected : Bool} (hcom : backspace ∉ com)
    (hws : words com = [lit "myinfo", ip, port, start, last]) :
    scanAndSend s ss com t connected = some
      { server := { s with w := { s.w with h := s.w.h.setBoundary (atoi start) (atoi last) } }
        session := ss
        send := .client (magic (lit "myinfo")) } := by
  rw [← commandPart_of_not_mem hcom] at hws
  rw [scanAndSend_control hws (by decide), route_myinfo, Server.hashReset, hws]
  rfl

/-- `replicanumber n`. -/
theorem scanAndSend_replicanumber {arg : Str} {rest : List Str} {connected : Bool}
    (hws : words (commandPart com) = lit "replicanumber" :: arg :: rest) (hn : 1 ≤ atoi arg) :
    scanAndSend s ss com t connected = some
      { server := { s with
          replicaNum := atoi arg
          repnum := 0
          replicaCom := List.replicate (atoi arg - 1).toNat []
          replicaIp := List.replicate (atoi arg - 1).toNat []
          replicaPort := List.replicate (atoi arg - 1).toNat 0
          replicaSock := List.replicate (atoi arg - 1).toNat none }
        session := ss
        send := .client (magic (lit "replicanumber")) } := by
  rw [scanAndSend_control hws (by decide), route_replicanumber, Server.setReplicaNum, hws,
    List.getElem?_cons_succ, List.getElem?_cons_zero, Option.bind_some]
  dsimp only
  rw [if_neg (by omega)]
  rfl

/-- `replica ip port`, as long as there is room for it, with a connection that comes about. -/
theorem scanAndSend_replica {ip port : Str} {rest : List Str}
    (hws : words (commandPart com) = lit "replica" :: ip :: port :: rest)
    (hroom : (s.repnum : Int) < s.replicaNum - 1) :
    scanAndSend s ss com t true = some
      { server := { s with
          replicaCom := s.replicaCom.set s.repnum (trim (commandPart com))
          replicaIp := s.replicaIp.set s.repnum ip
          replicaPort := s.replicaPort.set s.repnum (atoi port)
          replicaSock := s.replicaSock.set s.repnum (some (ip, atoi port))
          repnum := s.repnum + 1 }
        session := ss
        send := .client (magic (lit "replica"))
        accept := some (ip, atoi port) } := by
  rw [scanAndSend_control hws (by decide), route_replica, Server.replicaAdd, if_pos hroom, hws]
  rfl

/-- `replicaaccept`: the session is marked, and nothing is sent back. -/
theorem scanAndSend_replicaaccept {connected : Bool} :
    scanAndSend s ss (lit "replicaaccept") t connected = some
      { server := s
        session := { ss with autoSendYes := false }
        send := .nothing } := by
  have hws : words (commandPart (lit "replicaaccept")) = [lit "replicaaccept"] := by decide
  rw [scanAndSend_control hws (by decide), route_replicaaccept]

end MuseKv
