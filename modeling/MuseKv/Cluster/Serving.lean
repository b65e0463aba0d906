import MuseKv.Cluster.Distribute
import MuseKv.Command.Locality
import MuseKv.Server.Sessions
import Mathlib.Data.List.FinRange
import Mathlib.Logic.Function.Basic

/-!
# The clients of a cluster

The nodes of a cluster with the connections between them, and the clients at each of them.  The thread
for a command answers it, or sends it to the owner of its key and waits for the reply on the same
connection; the owner starts a thread for each command it receives.  The steps of all threads of all
nodes may interleave in any way, but a node executes one command at a time: that is one step.  The threads
of one node that execute at once are those of `Threads`, with what they need to come to the same.

A message carries the client command it belongs to (`ι`).  As in `SharedLink` this is not part of what
is sent.
-/

namespace MuseKv

open Kvstore Command Distribute

/-- The connection from one node to another: the `socket_st` at its far end, the commands on their way,
those that threads of the far end have in hand, and the replies on their way back. -/
structure PeerLink (ι : Type) where
  session : Session := {}
  requests : List (ι × Str) := []
  inHand : List (ι × Str) := []
  replies : List (ι × Str) := []

/-- A command of a client: the node it is sent to, the session, the text, and the time that its handler
reads. -/
structure ClientCom (n : ℕ) where
  node : Fin n
  session : Session := {}
  com : Str
  currTime : Int

/-- Where a command of a client stands. -/
inductive Stand (n : ℕ)
  | unsent
  /-- Its thread waits for the reply of a node. -/
  | waiting (c : Fin n)
  | answered (msg : Str)

/-- A cluster with its clients. -/
structure Serving (ι : Type) (n : ℕ) where
  servers : Fin n → Server
  links : Fin n → Fin n → PeerLink ι
  stand : ι → Stand n

/-- The node of a row of connections at an address. -/
def Distribute.find (cfg : Config) (i : ℕ) (a : Peer) : Option (Fin cfg.length) :=
  (List.finRange cfg.length).find? fun c => (target cfg i c).map Replica.peer = some a

/-- What the next `recv` leaves of a message that is longer than its buffer. -/
def leftOver {ι : Type} (r : ι) (msg : Str) (rest : List (ι × Str)) : List (ι × Str) :=
  if msg.length ≤ 1024 then rest else (r, msg.drop 1024) :: rest

namespace Serving

/-- The steps of the threads.  `memory` is what stands behind the buffer of a `recv`. -/
inductive Step (ι : Type) (n : ℕ)
  /-- The thread for a command of a client gets to its answer, or to the `recv` from a peer. -/
  | take (r : ι)
  /-- `server_task` of a node receives a command of another one, and starts a thread for it. -/
  | accept (j c : Fin n) (memory : Str)
  /-- The thread for such a command replies. -/
  | reply (j c : Fin n) (r : ι)
  /-- The thread for a command of a client gets through its `recv`, and answers. -/
  | receive (r : ι) (memory : Str)

variable {ι : Type} [DecidableEq ι] {n : ℕ}

/-- A change of one connection. -/
def setLink (s : Serving ι n) (j c : Fin n) (l : PeerLink ι) : Serving ι n :=
  { s with links := Function.update s.links j (Function.update (s.links j) c l) }

/-- One step; there is none for what is not answered, or answered by asking another node again. -/
def step (cfg : Config) (i : ℕ) (client : ι → ClientCom cfg.length) (s : Serving ι cfg.length) :
    Step ι cfg.length → Option (Serving ι cfg.length)
  | .take r =>
    match s.stand r with
    | .unsent =>
      let j := (client r).node
      (scanAndSend (s.servers j) (client r).session (client r).com (client r).currTime true).bind
        fun x =>
          let s : Serving ι cfg.length := { s with servers := Function.update s.servers j x.server }
          match x.send with
          | .client msg => some { s with stand := Function.update s.stand r (.answered msg) }
          | .peer index com =>
            x.server.clusterVec[index]?.bind fun sock => (sock.bind (find cfg i)).map fun c =>
              { s.setLink j c { s.links j c with requests := (s.links j c).requests ++ [(r, com)] }
                with stand := Function.update s.stand r (.waiting c) }
          | .nothing => none
    | _ => none
  | .accept j c memory =>
    match (s.links j c).requests with
    | [] => none
    | (r, com) :: rest =>
      some (s.setLink j c { s.links j c with
        requests := leftOver r com rest
        inHand := (s.links j c).inHand ++ [(r, received memory (com.take 1024))] })
  | .reply j c r =>
    ((s.links j c).inHand.lookup r).bind fun com =>
      (scanAndSend (s.servers c) (s.links j c).session com (client r).currTime true).bind fun x =>
        match x.send with
        | .client msg =>
          let s : Serving ι cfg.length := { s with servers := Function.update s.servers c x.server }
          some (s.setLink j c { s.links j c with
            session := x.session
            inHand := (s.links j c).inHand.filter fun m => m.1 ≠ r
            -- an empty reply sends nothing
            replies := (s.links j c).replies ++ if msg = [] then [] else [(r, msg)] })
        | _ => none
  | .receive r memory =>
    match s.stand r with
    | .waiting c =>
      let j := (client r).node
      match (s.links j c).replies with
      | [] => none
      | (r', msg) :: rest =>
        some { s.setLink j c { s.links j c with replies := leftOver r' msg rest }
          with stand := Function.update s.stand r (.answered (received memory (msg.take 1024))) }
    | _ => none

/-- Nodes with clients that have not sent anything yet. -/
def start (servers : Fin n → Server) : Serving ι n where
  servers := servers
  links _ _ := {}
  stand _ := .unsent

/-- The reply to a command, from the moment it is made: the client has it, or it is on its way. -/
def reply (client : ι → ClientCom n) (s : Serving ι n) (r : ι) : Option Str :=
  match s.stand r with
  | .unsent => none
  | .waiting c => (s.links (client r).node c).replies.lookup r
  | .answered msg => some msg

/-! ### Orderly runs -/

/-- A reply that arrives in one piece, and is taken for nothing else. -/
structure Answerable (msg : Str) : Prop where
  sent : msg ≠ []
  whole : msg.length < 1024
  text : 0 ∉ msg
  unmarked : ¬ Marked msg

/-- What executes a command of a client at a node. -/
def exec (c : ClientCom n) (w : World) : Option (Str × World) :=
  execute c.com (toU8 c.session.auth) c.currTime w

/-- A node is asked for one thing at a time by each other one, and what a command shows lets its reply
through. -/
def Orderly {cfg : Config} (client : ι → ClientCom cfg.length) (s : Serving ι cfg.length) :
    Step ι cfg.length → Prop
  | .take r =>
    (refused (s.servers (client r).node).w.h (words (client r).com) = false →
      ∀ msg w', exec (client r) (s.servers (client r).node).w = some (msg, w') → Answerable msg) ∧
    ∀ r' c, s.stand r' = .waiting c → (client r').node = (client r).node →
      refused (s.servers c).w.h (words (client r).com) = true
  | .reply _ c r => ∀ msg w', exec (client r) (s.servers c).w = some (msg, w') → Answerable msg
  | _ => True

/-- An orderly step. -/
def Next {cfg : Config} (i : ℕ) (client : ι → ClientCom cfg.length)
    (s s' : Serving ι cfg.length) : Prop :=
  ∃ e, Orderly client s e ∧ step cfg i client s e = some s'

/-- A command as clients send them: one that names a key, or that no node understands, and fits the
buffers on its way. -/
structure Plain (c : ClientCom n) : Prop where
  auth : -2 ^ 31 ≤ c.session.auth ∧ c.session.auth < 2 ^ 31
  text : backspace ∉ c.com ∧ 0 ∉ c.com
  whole : (forwarded c.session c.com).length < 1024
  ordinary : Ordinary (words c.com)

/-- One store that holds what the nodes hold together: each entry is at the node that owns its key, and
nowhere else. -/
structure Merged (servers : Fin n → Server) (w : World) : Prop where
  here : ∀ k, notHere w.h k = false
  entries : ∀ c k, (servers c).w.h.findNode k =
    if notHere (servers c).w.h k then none else w.h.findNode k

end Serving

end MuseKv
