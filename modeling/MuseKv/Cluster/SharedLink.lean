import MuseKv.Server.Sessions
import Mathlib.Logic.Function.Basic

/-!
# A connection between two nodes that many threads share

Each client command that a node forwards runs in a thread of its own, which sends on
`cluster_vec[index]` and then receives from it.  The node at the other end starts a thread for each
command it receives, and replies on the same connection.  The steps of all threads may interleave in
any way; the connection keeps the order and the boundaries of the messages of either direction.  A `recv`
takes 1024 bytes at most, so a longer message takes several of them, and an empty one is not sent at all.

A message carries the thread it belongs to (`ι`), unless it is not the whole of what this thread sent.
This is not part of what is sent: it records which command a reply was made for.
-/

namespace MuseKv

/-- Where a forwarding thread stands. -/
inductive Phase
  | idle
  | waiting
  | done
  deriving DecidableEq

/-- What `recv` takes of a message, `rounds` times at most. -/
def takePieces : ℕ → Str → List Str
  | 0, _ => []
  | rounds + 1, msg => if msg = [] then [] else msg.take 1024 :: takePieces rounds (msg.drop 1024)

/-- A message as it is received, `recv` by `recv`. -/
def pieces (msg : Str) : List Str := takePieces msg.length msg

/-- A piece of a reply: the thread whose command the reply was made for, the reply, and the piece. -/
structure ReplyPiece (ι : Type) where
  origin : Option ι
  reply : Str
  text : Str

/-- The two nodes and their connection. -/
structure SharedLink (ι : Type) where
  requester : Server
  owner : Server
  /-- The `socket_st` of the connection on the side of the owner. -/
  session : Session
  phase : ι → Phase
  /-- What is on its way to the owner. -/
  requests : List (Option ι × Str)
  /-- The commands that the threads of the owner have in hand. -/
  inHand : List (Option ι × Str)
  /-- The replies on their way back. -/
  replies : List (ReplyPiece ι)
  /-- Everything that was put on the way back so far. -/
  sent : List (ReplyPiece ι)
  /-- The replies that were sent to clients: the thread, what it received, and how it read that. -/
  answers : List (ι × ReplyPiece ι × Str)

namespace SharedLink

/-- The steps of the threads.  `memory` is what stands behind the buffer of a `recv`. -/
inductive Step (ι : Type)
  /-- A thread of the requester gets to its `send`. -/
  | forward (i : ι) (t : Int) (connected : Bool)
  /-- `server_task` of the owner receives a command, and starts a thread for it. -/
  | accept (memory : Str)
  /-- A thread of the owner replies to the command that it has in hand. -/
  | reply (n : ℕ) (t : Int) (connected : Bool)
  /-- The owner handles a command of another connection. -/
  | other (ss : Session) (com : Str) (t : Int) (connected : Bool)
  /-- A thread of the requester gets through its `recv`, and answers its client. -/
  | receive (i : ι) (memory : Str)

variable {ι : Type} [DecidableEq ι]

/-- The pieces of a forwarded command: one that is not the whole belongs to nobody. -/
def commandPieces (i : ι) (com : Str) : List (Option ι × Str) :=
  (pieces com).map fun piece => (if piece = com then some i else none, piece)

/-- A piece as the owner reads it. -/
def readCommand (memory : Str) (r : Option ι × Str) : Option ι × Str :=
  (if received memory r.2 = r.2 then r.1 else none, received memory r.2)

def replyPieces (origin : Option ι) (msg : Str) : List (ReplyPiece ι) :=
  (pieces msg).map (ReplyPiece.mk origin msg)

/-- One step.  `client i` is the session and the command of the client that thread `i` serves. -/
def step (client : ι → Session × Str) (index : ℕ) (s : SharedLink ι) :
    Step ι → Option (SharedLink ι)
  | .forward i t connected =>
    if s.phase i = .idle then
      (scanAndSend s.requester (client i).1 (client i).2 t connected).bind fun x =>
        match x.send with
        | .peer n com =>
          if n = index then
            some { s with
              requester := x.server
              phase := Function.update s.phase i .waiting
              requests := s.requests ++ commandPieces i com }
          else none
        | _ => none
    else none
  | .accept memory =>
    match s.requests with
    | [] => none
    | r :: rs => some { s with requests := rs, inHand := s.inHand ++ [readCommand memory r] }
  | .reply n t connected =>
    s.inHand[n]?.bind fun r =>
      (scanAndSend s.owner s.session r.2 t connected).bind fun x =>
        match x.send with
        | .client msg =>
          some { s with
            owner := x.server
            session := x.session
            inHand := s.inHand.eraseIdx n
            replies := s.replies ++ replyPieces r.1 msg
            sent := s.sent ++ replyPieces r.1 msg }
        | _ => none
  | .other ss com t connected =>
    (scanAndSend s.owner ss com t connected).map fun x => { s with owner := x.server }
  | .receive i memory =>
    if s.phase i = .waiting then
      match s.replies with
      | [] => none
      | p :: ps =>
        some { s with
          phase := Function.update s.phase i .done
          replies := ps
          answers := s.answers ++ [(i, p, received memory p.text)] }
    else none

/-- A run: the steps of an interleaving. -/
def run (client : ι → Session × Str) (index : ℕ) :
    List (Step ι) → SharedLink ι → Option (SharedLink ι)
  | [], s => some s
  | e :: es, s => (step client index s e).bind (run client index es)

/-- Two nodes with nothing on the way between them. -/
def start (requester owner : Server) (session : Session) : SharedLink ι where
  requester := requester
  owner := owner
  session := session
  phase _ := .idle
  requests := []
  inHand := []
  replies := []
  sent := []
  answers := []

/-- The threads that receive in a run, in this order, with the memory behind their buffers. -/
def receivers (es : List (Step ι)) : List (ι × Str) :=
  es.filterMap fun
    | .receive i memory => some (i, memory)
    | _ => none

/-- The whole reply to the command of the thread that receives it. -/
def Suits (r : ι × Str) (p : ReplyPiece ι) : Prop :=
  p.origin = some r.1 ∧ received r.2 p.text = p.reply

/-- The threads receive in the order of what was sent, and each piece suits its receiver. -/
def InTurn (es : List (Step ι)) (sent : List (ReplyPiece ι)) : Prop :=
  List.Forall₂ Suits (receivers es) (sent.take (receivers es).length)

/-- Every client was sent the reply that was made for its own command. -/
def OwnReplies (s : SharedLink ι) : Prop :=
  ∀ i p text, (i, p, text) ∈ s.answers → p.origin = some i ∧ text = p.reply

end SharedLink

end MuseKv
